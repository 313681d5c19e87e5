/-
LuaLayout.Proofs.CommandLine.Runs — a run writes one file or none.

A run is decided before it touches the disk. Its verdict either stops with exit
status one, and then nothing is written, or it has the formatted text of the
input and a place for it, and then the exit status is zero. What can still go
wrong is that the place cannot be used; that is known before anything is written
too. So a run that does not end well leaves the disk as it was.

Where the text goes depends on the settings alone: to the input, to the path
named last, or to the directory for results. A path that was read leads to the
same location when it is written.
-/
import LuaLayout.CommandLine.Disk
import LuaLayout.Proofs.CommandLine.Settings

namespace LuaLayout.CommandLine

/-! ## 1. Steps of paths -/

namespace Path

theorem steps_of_not_mem {name : List Char} (h : '/' ∉ name) : steps name = [name] := by
  induction name with
  | nil => rfl
  | cons c rest ih =>
    obtain ⟨hc, hrest⟩ := not_or.1 fun hor => h (List.mem_cons.2 hor)
    rw [steps, if_neg (by simpa using Ne.symm hc), ih hrest]

theorem steps_append {directory rest : List Char} (h : '/' ∉ directory) :
    steps (directory ++ '/' :: rest) = directory :: steps rest := by
  induction directory with
  | nil => rfl
  | cons c directory ih =>
    obtain ⟨hc, hrest⟩ := not_or.1 fun hor => h (List.mem_cons.2 hor)
    rw [List.cons_append, steps, if_neg (by simpa using Ne.symm hc), ih hrest]

theorem not_mem_baseName (path : List Char) : '/' ∉ baseName path := by
  intro h
  have htaken := List.all_eq_true.1 List.all_takeWhile '/' (List.mem_reverse.1 h)
  simp at htaken

theorem withoutExtension_subset (name : List Char) : withoutExtension name ⊆ name := by
  unfold withoutExtension
  split
  · next before heq =>
    split
    · intro c hc
      have hdropped : c ∈ name.reverse.dropWhile (· != '.') := by
        rw [heq]
        exact List.mem_cons_of_mem _ (List.mem_reverse.1 hc)
      exact List.mem_reverse.1 ((List.dropWhile_suffix _).subset hdropped)
    · exact List.Subset.refl name
  · exact List.Subset.refl name

/-- The name of the result for an input. -/
def resultName (input : String) : List Char :=
  withoutExtension (baseName input.toList) ++ ".fmt.lua".toList

theorem not_mem_resultName (input : String) : '/' ∉ resultName input := by
  intro h
  rcases List.mem_append.1 h with h | h
  · exact not_mem_baseName input.toList (withoutExtension_subset _ h)
  · exact absurd h (by decide)

theorem toList_resultFor (input : String) :
    (resultFor input).toList = resultDirectory.toList ++ '/' :: resultName input := by
  simp only [resultFor, resultName, String.toList_append, String.toList_ofList, List.append_assoc]
  rfl

/-- The result for an input has a name of its own in the directory for results. -/
theorem steps_resultFor (input : String) :
    steps (resultFor input).toList = [resultDirectory.toList, resultName input] := by
  rw [toList_resultFor, steps_append (by decide), steps_of_not_mem (not_mem_resultName input)]

end Path

/-! ## 2. Files on a disk -/

namespace Disk

variable {d : Disk} {location other : Location} {content : ByteArray}

theorem lookup_write : (d.write location content).files.lookup location = some content := by
  simp [write]

theorem lookup_write_of_ne (h : other ≠ location) :
    (d.write location content).files.lookup other = d.files.lookup other := by
  have hfilter : ∀ files : List (Location × ByteArray),
      (files.filter (·.1 != location)).lookup other = files.lookup other := by
    intro files
    induction files with
    | nil => rfl
    | cons file rest ih =>
      by_cases hfile : file.1 = location
      · have hother : (other == file.1) = false := by simpa [hfile] using h
        rw [List.filter_cons_of_neg (by simp [hfile]), ih, List.lookup_cons, hother]
      · rw [List.filter_cons_of_pos (by simpa using hfile), List.lookup_cons, List.lookup_cons, ih]
  have hother : (other == location) = false := by simpa using h
  rw [write, List.lookup_cons, hother]
  exact hfilter d.files

/-- A path that can be read leads to the same file when it is written. -/
theorem target_of_read? {path : String} (h : d.read? path = some content) :
    ∃ location, d.target path = .ok location ∧ d.files.lookup location = some content := by
  unfold read? at h
  split at h
  · cases h
  · next place hplace =>
    split at h
    · cases h
    · next hname =>
      split at h
      · next found hentry =>
        cases h
        refine ⟨place.location, ?_, ?_⟩
        · rw [target, hplace]
          simp only [bind, Except.bind, if_neg hname, hentry]
          rfl
        · unfold entry at hentry
          split at hentry
          · next heq =>
            cases hentry
            exact heq
          · split at hentry <;> cases hentry
      · cases h

/-- A text with a NUL in it is no path, neither for reading nor for writing. -/
theorem resolve_of_nul {path : String} (h : '\x00' ∈ path.toList) :
    d.resolve path = .error .notFound := by
  rw [resolve, List.contains_iff_mem.2 h, Bool.or_true]
  rfl

theorem resolve_resultFor {input : String} (hdirectory : d.entry d.resultDirectory = .directory)
    (hpath : '\x00' ∉ (Path.resultFor input).toList) :
    d.resolve (Path.resultFor input) = .ok ⟨d.resultDirectory, Path.resultName input, false⟩ := by
  have hempty : (Path.resultFor input).isEmpty = false := by
    rw [Bool.eq_false_iff, ne_eq, String.isEmpty_iff, ← String.toList_eq_nil_iff,
      Path.toList_resultFor]
    simp
  have horigin : d.origin (Path.resultFor input).toList = d.working := by
    rw [origin, Path.toList_resultFor]
    rfl
  have hlength : 8 ≤ (Path.resultName input).length := by simp [Path.resultName]
  have hname : Path.resultName input ≠ [] ∧ Path.resultName input ≠ ['.'] ∧
      Path.resultName input ≠ ['.', '.'] := by
    refine ⟨?_, ?_, ?_⟩ <;> intro heq <;> rw [heq] at hlength <;> simp at hlength
  have hnamed : (([Path.resultDirectory.toList, Path.resultName input].reverse.dropWhile
      (·.isEmpty)).reverse) = [Path.resultDirectory.toList, Path.resultName input] := by
    simp [hname.1]
  have hwalk : d.walk d.working [Path.resultDirectory.toList] = .ok d.resultDirectory := by
    have hstep : stepTo d.working Path.resultDirectory.toList = d.resultDirectory := rfl
    simp only [walk, hstep, requireDirectory, hdirectory]
    rfl
  have hnul : (Path.resultFor input).toList.contains '\x00' = false :=
    Bool.eq_false_iff.2 fun h => hpath (List.contains_iff_mem.1 h)
  rw [resolve, hempty, hnul, Path.steps_resultFor, horigin]
  simp only [hnamed, List.dropLast_cons_cons, List.dropLast_singleton, hwalk]
  simp [bind, Except.bind, pure, Except.pure, hname]

/-- Where the result for an input goes if no other place is named. -/
theorem target_resultFor {input : String} (hdirectory : d.entry d.resultDirectory = .directory)
    (h : d.target (Path.resultFor input) = .ok location) :
    location = d.resultDirectory ++ [Path.resultName input] := by
  have hpath : '\x00' ∉ (Path.resultFor input).toList := fun hnul => by
    rw [target, resolve_of_nul hnul] at h
    cases h
  rw [target, resolve_resultFor hdirectory hpath] at h
  simp only [bind, Except.bind, Bool.false_eq_true, if_false] at h
  split at h
  · cases h
  · exact (Except.ok.inj h).symm

theorem targetOf_resultFor {input text : String}
    (h : d.targetOf ⟨Path.resultFor input, true, text⟩ = .ok location) :
    location = d.resultDirectory ++ [Path.resultName input] := by
  simp only [targetOf, if_true] at h
  split at h
  · cases h
  · next hdirectory => exact target_resultFor hdirectory h
  · rw [Path.steps_resultFor] at h
    rw [← Except.ok.inj h, resultDirectory, List.append_assoc]
    rfl

end Disk

/-! ## 3. Verdicts -/

namespace Invocation

variable {i : Invocation} {content : ByteArray} {transcript : Transcript} {writing : Writing}

/-- A program is formatted as it is formatted outside of a run. -/
theorem format_of_prepare {version : Version} {source : String} {prepared : Prepared}
    (h : prepare version [source] = .ok prepared) : format version source = prepared.format := by
  rw [format, formatChunks, h]
  rfl

theorem verdictOn_stopped {source : String} (h : i.verdictOn source = .stopped transcript) :
    transcript.code = 1 := by
  unfold verdictOn at h
  split at h
  · cases h
    rfl
  · split at h
    · cases h
      rfl
    · cases h

theorem verdictOn_writes {source : String} (h : i.verdictOn source = .writes writing transcript) :
    ∃ text, format i.version source = .ok text ∧ transcript.code = 0 ∧
      writing = ⟨i.destination.1, i.destination.2, text⟩ := by
  unfold verdictOn at h
  split at h
  · cases h
  · next prepared hprepare =>
    split at h
    · cases h
    · next text hformat =>
      cases h
      exact ⟨text, (format_of_prepare hprepare).trans hformat, rfl, rfl⟩

theorem verdict_stopped {content : Option ByteArray} (h : i.verdict content = .stopped transcript) :
    transcript.code = 1 := by
  unfold verdict at h
  split at h
  · cases h
    rfl
  · split at h
    · cases h
    · exact verdictOn_stopped h

/-- What is written is the formatted text of the input, which is text in UTF-8. -/
theorem verdict_writes {content : Option ByteArray}
    (h : i.verdict content = .writes writing transcript) :
    ∃ written text : String, content = some written.toUTF8 ∧
      format i.version (String.ofList (normaliseLineEnds written.toList)) = .ok text ∧
      transcript.code = 0 ∧ writing = ⟨i.destination.1, i.destination.2, text⟩ := by
  have hutf8 : ∀ (bytes : ByteArray) (written : String),
      String.fromUTF8? bytes = some written → bytes = written.toUTF8 := by
    intro bytes written hread
    unfold String.fromUTF8? at hread
    split at hread
    · cases hread
      rfl
    · cases hread
  unfold verdict at h
  split at h
  · cases h
  · next bytes =>
    split at h
    · cases h
    · next source hdecode =>
      obtain ⟨written, hread, rfl⟩ := Option.map_eq_some_iff.1 hdecode
      obtain ⟨text, hformat, hcode, hwriting⟩ := verdictOn_writes h
      exact ⟨written, text, congrArg some (hutf8 bytes written hread), hformat, hcode, hwriting⟩

end Invocation

/-! ## 4. Runs -/

theorem eq_ok_of_toOption {ε α : Type} {x : Except ε α} {a : α} (h : x.toOption = some a) :
    x = .ok a := by
  cases x with
  | error e => cases h
  | ok b => exact congrArg Except.ok (Option.some.inj h)

namespace Setting

/-- The version that settings ask for: the last numeral, or else the base version. -/
def Choose (settings : List Setting) (version : Version) : Prop :=
  match lastNumeral? settings with
  | some numeral => Text.Integer.read? numeral.toList = some version
  | none => version = Version.base

end Setting

namespace Disk

variable {d : Disk} {arguments : List String}

/-- The run ends with exit status zero. -/
def EndsWell (d : Disk) (arguments : List String) : Prop :=
  ∃ transcript : Transcript, (d.run arguments).1 = .ok transcript ∧ transcript.code = 0

/-- Where the result for an input goes: to the input if it is to be replaced,
else to the path named last, else under its own name to the directory for
results. -/
def GoesTo (d : Disk) (input : String) (settings : List Setting) (location : Location) : Prop :=
  if .inPlace ∈ settings then d.target input = .ok location
  else match Setting.lastPath? settings with
    | some path => d.target path = .ok location
    | none => location = d.working ++ ["formatted_scripts".toList,
        Path.withoutExtension (Path.baseName input.toList) ++ ".fmt.lua".toList]

/-- The place of the result is the one that the settings say. -/
theorem goesTo_of_targetOf {input text : String} {settings : List Setting} {i : Invocation}
    {location : Location} (hsets : Invocation.Sets (.ofInput input) settings i)
    (h : d.targetOf ⟨i.destination.1, i.destination.2, text⟩ = .ok location) :
    d.GoesTo input settings location := by
  have hinput : i.input = input := hsets.input
  have houtput : i.output = Setting.lastPath? settings := by
    rw [hsets.output]
    exact Option.or_none
  have hplace : i.inPlace = true ↔ .inPlace ∈ settings := by simp [hsets.inPlace, Invocation.ofInput]
  unfold GoesTo
  by_cases hin : .inPlace ∈ settings
  · rw [Invocation.destination, if_pos (hplace.2 hin), hinput] at h
    rw [if_pos hin]
    exact h
  · rw [Invocation.destination, if_neg fun heq => hin (hplace.1 heq), houtput, hinput] at h
    rw [if_neg hin]
    cases hlast : Setting.lastPath? settings with
    | some path =>
      rw [hlast] at h
      exact h
    | none =>
      rw [hlast] at h
      have hlocation := targetOf_resultFor h
      rw [resultDirectory, List.append_assoc] at hlocation
      exact hlocation

theorem choose_of_sets {input : String} {settings : List Setting} {i : Invocation}
    (h : Invocation.Sets (.ofInput input) settings i) : Setting.Choose settings i.version := by
  have hversion := h.version
  unfold Setting.Choose
  cases hlast : Setting.lastNumeral? settings with
  | some numeral => rwa [hlast] at hversion
  | none => rwa [hlast] at hversion

theorem verdict_stopped {transcript : Transcript} (h : d.verdict arguments = .stopped transcript) :
    transcript.code = 1 := by
  unfold verdict at h
  split at h
  · cases h
    rfl
  · exact Invocation.verdict_stopped h

/-- A writing comes from an input, which is read, and settings. -/
theorem verdict_writes {writing : Writing} {transcript : Transcript}
    (h : d.verdict arguments = .writes writing transcript) :
    ∃ (input : String) (settings : List Setting) (i : Invocation) (written text : String),
      arguments = input :: settings.flatMap Setting.words ∧ Invocation.isOption input = false ∧
      Invocation.Sets (.ofInput input) settings i ∧ d.read? input = some written.toUTF8 ∧
      format i.version (String.ofList (normaliseLineEnds written.toList)) = .ok text ∧
      transcript.code = 0 ∧ writing = ⟨i.destination.1, i.destination.2, text⟩ := by
  unfold verdict at h
  split at h
  · cases h
  · next i harguments =>
    obtain ⟨input, settings, hoption, rfl, hsets⟩ := Invocation.sets_of_ofArguments harguments
    obtain ⟨written, text, hread, hformat, hcode, hwriting⟩ := Invocation.verdict_writes h
    rw [hsets.input] at hread
    exact ⟨input, settings, i, written, text, rfl, hoption, hsets, hread, hformat, hcode, hwriting⟩

/-- A run leaves the disk and does not end well, or it carries out a writing. -/
theorem run_cases (d : Disk) (arguments : List String) :
    (¬ d.EndsWell arguments ∧ (d.run arguments).2 = d) ∨
      ∃ (writing : Writing) (transcript : Transcript) (location : Location),
        d.verdict arguments = .writes writing transcript ∧ d.targetOf writing = .ok location ∧
        (d.run arguments).1 = .ok transcript ∧
        (d.run arguments).2 = d.write location writing.text.toUTF8 := by
  cases hverdict : d.verdict arguments with
  | stopped transcript =>
    have hrun : d.run arguments = (.ok transcript, d) := by rw [run, hverdict, carryOut]
    refine .inl ⟨?_, by rw [hrun]⟩
    rintro ⟨shown, hshown, hcode⟩
    rw [hrun] at hshown
    cases hshown
    rw [verdict_stopped hverdict] at hcode
    cases hcode
  | undecodable =>
    have hrun : d.run arguments = (.error .undecodable, d) := by rw [run, hverdict, carryOut]
    refine .inl ⟨?_, by rw [hrun]⟩
    rintro ⟨shown, hshown, -⟩
    rw [hrun] at hshown
    cases hshown
  | writes writing transcript =>
    cases htarget : d.targetOf writing with
    | error e =>
      have hrun : d.run arguments = (.error e, d) := by
        rw [run, hverdict, carryOut]
        simp only [htarget]
      refine .inl ⟨?_, by rw [hrun]⟩
      rintro ⟨shown, hshown, -⟩
      rw [hrun] at hshown
      cases hshown
    | ok location =>
      have hrun : d.run arguments = (.ok transcript, d.write location writing.text.toUTF8) := by
        rw [run, hverdict, carryOut]
        simp only [htarget]
      exact .inr ⟨writing, transcript, location, rfl, htarget, by rw [hrun], by rw [hrun]⟩

/-- A run that does not end with exit status zero leaves the disk as it was. One
that does has read its arguments as an input and settings, and has put the
formatted text of the input where the settings say, at one location, and has
left every other location as it was. Both rest on the assumption that `carryOut`
makes: a standard output that refused the last line would end a run badly whose
text is in its file already. -/
theorem run_writes_one (d : Disk) (arguments : List String) :
    (¬ d.EndsWell arguments → (d.run arguments).2 = d) ∧
    (d.EndsWell arguments →
      ∃ (input : String) (settings : List Setting) (written : String) (version : Version)
        (text : String) (location : Location),
        Invocation.isOption input = false ∧
        (∀ options : List Setting, arguments = input :: options.flatMap Setting.words ↔
          options = settings) ∧
        d.read? input = some written.toUTF8 ∧
        Setting.Choose settings version ∧
        format version (String.ofList (normaliseLineEnds written.toList)) = .ok text ∧
        d.GoesTo input settings location ∧
        (.inPlace ∈ settings → d.files.lookup location = some written.toUTF8) ∧
        (d.run arguments).2.files.lookup location = some text.toUTF8 ∧
        ∀ other, other ≠ location →
          (d.run arguments).2.files.lookup other = d.files.lookup other) := by
  rcases run_cases d arguments with ⟨hfails, hsame⟩ |
    ⟨writing, transcript, location, hverdict, htarget, hshown, hafter⟩
  · exact ⟨fun _ => hsame, fun hends => absurd hends hfails⟩
  · obtain ⟨input, settings, i, written, text, harguments, hoption, hsets, hread, hformat, hcode,
      rfl⟩ := verdict_writes hverdict
    have hgoes := goesTo_of_targetOf hsets htarget
    refine ⟨fun hfails => absurd ⟨transcript, hshown, hcode⟩ hfails, fun _ =>
      ⟨input, settings, written, i.version, text, location, hoption, fun options => ⟨fun heq => ?_,
        fun heq => heq ▸ harguments⟩, hread, choose_of_sets hsets, hformat, hgoes, ?_, ?_, ?_⟩⟩
    · exact Setting.flatMap_words_injective (List.cons.inj (heq.symm.trans harguments)).2
    · intro hplace
      obtain ⟨place, hplaced, hholds⟩ := target_of_read? hread
      rw [GoesTo, if_pos hplace, hplaced] at hgoes
      cases hgoes
      exact hholds
    · rw [hafter]
      exact lookup_write
    · intro other hother
      rw [hafter]
      exact lookup_write_of_ne hother

/-- A value that looks like an option is none, and of the values the last counts. -/
theorem run_writes_one_values :
    (ofFiles [(["m.lua".toList], "x=7//2\r\n".toUTF8)]).EndsWell
      ["m.lua", "-o", "--in-place", "--lua-version", "1", "-o", "n.lua", "--lua-version", " 3"] ∧
    ((ofFiles [(["m.lua".toList], "x=7//2\r\n".toUTF8)]).run
      ["m.lua", "-o", "--in-place", "--lua-version", "1", "-o", "n.lua", "--lua-version",
        " 3"]).2.files.lookup (freshDirectory ++ ["n.lua".toList]) =
      some "x = 7 // 2\n".toUTF8 := by
  have hends : (ofFiles [(["m.lua".toList], "x=7//2\r\n".toUTF8)]).EndsWell
      ["m.lua", "-o", "--in-place", "--lua-version", "1", "-o", "n.lua", "--lua-version", " 3"] := by
    refine ⟨⟨0, "✓ Formatted → n.lua\n", ""⟩, eq_ok_of_toOption ?_, rfl⟩
    decide +kernel
  obtain ⟨input, settings, written, version, text, location, -, hsettings, hread, hversion, hformat,
    hgoes, -, hholds, -⟩ := (run_writes_one _ _).2 hends
  obtain rfl : "m.lua" = input := (List.cons.inj ((hsettings settings).2 rfl)).1
  obtain rfl := (hsettings [.output "--in-place", .version "1", .output "n.lua", .version " 3"]).1 rfl
  have hknown : (ofFiles [(["m.lua".toList], "x=7//2\r\n".toUTF8)]).read? "m.lua" =
      some "x=7//2\r\n".toUTF8 := by decide +kernel
  obtain rfl : "x=7//2\r\n" = written :=
    String.toByteArray_inj.1 (Option.some.inj (hknown.symm.trans hread))
  have hthree : Text.Integer.read? " 3".toList = some 3 := by decide
  obtain rfl : 3 = version := Option.some.inj (hthree.symm.trans hversion)
  have htext : format 3 (String.ofList (normaliseLineEnds "x=7//2\r\n".toList)) =
      .ok "x = 7 // 2\n" := eq_ok_of_toOption (by decide +kernel)
  obtain rfl : "x = 7 // 2\n" = text := Except.ok.inj (htext.symm.trans hformat)
  have htarget : (ofFiles [(["m.lua".toList], "x=7//2\r\n".toUTF8)]).target "n.lua" =
      .ok (freshDirectory ++ ["n.lua".toList]) := eq_ok_of_toOption (by decide +kernel)
  obtain rfl : freshDirectory ++ ["n.lua".toList] = location :=
    Except.ok.inj (htarget.symm.trans hgoes)
  exact ⟨hends, hholds⟩

end Disk

end LuaLayout.CommandLine
