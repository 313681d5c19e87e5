/-
LuaLayout.Proofs.CommandLine.Settings — arguments as settings.

What follows the input on a command line is settings one after the other, of one
word or of two. The second word of a setting is its value whatever it looks
like, so what counts as an option is known from the left only. Arguments that
are accepted are the words of one list of settings, and the invocation they
stand for is read off that list: a switch is on if it occurs, and of the values
for one thing the last one counts.
-/
import LuaLayout.CommandLine.Invocation

namespace LuaLayout.CommandLine

/-! ## 1. Settings -/

/-- What one option says. -/
inductive Setting
  | inPlace
  | verbose
  | output (path : String)
  | version (numeral : String)
  deriving DecidableEq, Repr

namespace Setting

/-- The words that a setting is given by. -/
def words : Setting → List String
  | inPlace => ["--in-place"]
  | verbose => ["--verbose"]
  | output path => ["-o", path]
  | version numeral => ["--lua-version", numeral]

/-- The path that a setting names. -/
def path? : Setting → Option String
  | output path => some path
  | _ => none

/-- The numeral that a setting gives for the version. -/
def numeral? : Setting → Option String
  | version numeral => some numeral
  | _ => none

/-- The path that the last setting with one names. -/
def lastPath? (settings : List Setting) : Option String := (settings.filterMap path?).getLast?

/-- The numeral of the last setting with one. -/
def lastNumeral? (settings : List Setting) : Option String :=
  (settings.filterMap numeral?).getLast?

variable {s : Setting} {settings : List Setting}

/-- Words are the words of one list of settings only. -/
theorem flatMap_words_injective {settings more : List Setting}
    (h : settings.flatMap words = more.flatMap words) : settings = more := by
  induction settings generalizing more with
  | nil =>
    cases more with
    | nil => rfl
    | cons u more => cases u <;> cases h
  | cons s rest ih =>
    cases more with
    | nil => cases s <;> cases h
    | cons u more =>
      cases s <;> cases u <;> simp [words] at h ⊢
      · exact ih h
      · exact ih h
      · exact ⟨h.1, ih h.2⟩
      · exact ⟨h.1, ih h.2⟩

theorem lastPath?_cons :
    lastPath? (s :: settings) = (lastPath? settings).or s.path? := by
  cases s <;> simp [lastPath?, path?, List.getLast?_cons]

theorem lastNumeral?_cons :
    lastNumeral? (s :: settings) = (lastNumeral? settings).or s.numeral? := by
  cases s <;> simp [lastNumeral?, numeral?, List.getLast?_cons]

end Setting

/-! ## 2. From the settings to the invocation -/

namespace Invocation

/-- The second invocation is the first one with the settings made. -/
structure Sets (i : Invocation) (settings : List Setting) (j : Invocation) : Prop where
  input : j.input = i.input
  inPlace : j.inPlace = true ↔ i.inPlace = true ∨ .inPlace ∈ settings
  output : j.output = (Setting.lastPath? settings).or i.output
  version : match Setting.lastNumeral? settings with
    | some numeral => Text.Integer.read? numeral.toList = some j.version
    | none => j.version = i.version

namespace Sets

variable {i j : Invocation} {settings : List Setting}

theorem nil : Sets i [] i := ⟨rfl, by simp, rfl, rfl⟩

theorem cons_inPlace (h : Sets { i with inPlace := true } settings j) :
    Sets i (.inPlace :: settings) j := by
  refine ⟨h.input, by simp [h.inPlace], ?_, ?_⟩
  · simpa [Setting.lastPath?_cons, Setting.path?] using h.output
  · simpa [Setting.lastNumeral?_cons, Setting.numeral?] using h.version

theorem cons_verbose (h : Sets { i with verbose := true } settings j) :
    Sets i (.verbose :: settings) j := by
  refine ⟨h.input, by simp [h.inPlace], ?_, ?_⟩
  · simpa [Setting.lastPath?_cons, Setting.path?] using h.output
  · simpa [Setting.lastNumeral?_cons, Setting.numeral?] using h.version

theorem cons_output {path : String} (h : Sets { i with output := some path } settings j) :
    Sets i (.output path :: settings) j := by
  refine ⟨h.input, by simp [h.inPlace], ?_, ?_⟩
  · rw [h.output, Setting.lastPath?_cons]
    cases Setting.lastPath? settings <;> rfl
  · simpa [Setting.lastNumeral?_cons, Setting.numeral?] using h.version

theorem cons_version {numeral : String} {version : Version}
    (hread : Text.Integer.read? numeral.toList = some version)
    (h : Sets { i with version := version } settings j) :
    Sets i (.version numeral :: settings) j := by
  refine ⟨h.input, by simp [h.inPlace], ?_, ?_⟩
  · simpa [Setting.lastPath?_cons, Setting.path?] using h.output
  · have hversion := h.version
    rw [Setting.lastNumeral?_cons]
    cases hlast : Setting.lastNumeral? settings with
    | none =>
      rw [hlast] at hversion
      exact hread.trans (congrArg some hversion.symm)
    | some last =>
      rw [hlast] at hversion
      exact hversion

end Sets

/-- Options that are accepted are the words of settings, which are then made. -/
theorem sets_of_withOptions {i j : Invocation} {options : List String}
    (h : i.withOptions options = .ok j) :
    ∃ settings : List Setting, options = settings.flatMap Setting.words ∧ Sets i settings j := by
  fun_induction withOptions i options with
  | case1 i =>
    cases h
    exact ⟨[], rfl, .nil⟩
  | case2 i rest ih =>
    obtain ⟨settings, rfl, hsets⟩ := ih h
    exact ⟨.inPlace :: settings, rfl, hsets.cons_inPlace⟩
  | case3 i rest ih =>
    obtain ⟨settings, rfl, hsets⟩ := ih h
    exact ⟨.verbose :: settings, rfl, hsets.cons_verbose⟩
  | case4 i => cases h
  | case5 i path rest ih =>
    obtain ⟨settings, rfl, hsets⟩ := ih h
    exact ⟨.output path :: settings, rfl, hsets.cons_output⟩
  | case6 i => cases h
  | case7 i numeral rest version hread ih =>
    obtain ⟨settings, rfl, hsets⟩ := ih h
    exact ⟨.version numeral :: settings, rfl, hsets.cons_version hread⟩
  | case8 i numeral rest hread => cases h
  | case9 i argument rest => cases h

/-- Arguments that are accepted name an input, which looks like no option, and
the settings for it. -/
theorem sets_of_ofArguments {arguments : List String} {j : Invocation}
    (h : ofArguments arguments = .ok j) :
    ∃ (input : String) (settings : List Setting), isOption input = false ∧
      arguments = input :: settings.flatMap Setting.words ∧ Sets (ofInput input) settings j := by
  cases arguments with
  | nil => cases h
  | cons input options =>
    rw [ofArguments] at h
    split at h
    · cases h
    · next hoption =>
      obtain ⟨settings, rfl, hsets⟩ := sets_of_withOptions h
      exact ⟨input, settings, by simpa using hoption, rfl, hsets⟩

end Invocation

end LuaLayout.CommandLine
