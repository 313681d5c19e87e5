import LuaLayout.CommandLine.Disk
import LuaLayout.Main
import LuaLayout.Proofs.Lexing.Chunks
import LuaLayout.Proofs.Parser.Layers
import LuaLayout.Proofs.Format.Stream
import LuaLayout.Proofs.Format.Indentation
import LuaLayout.Proofs.Format.Idempotent
import LuaLayout.Proofs.Format.Folding
import LuaLayout.Proofs.Parser.InStep
import LuaLayout.Proofs.Parser.Failures
import LuaLayout.Proofs.Format.Causes
import LuaLayout.Proofs.Format.SameTexts
import LuaLayout.Proofs.Grammar.Forms
import LuaLayout.Proofs.Grammar.Lua
import LuaLayout.Proofs.Grammar.Meanings
import LuaLayout.Proofs.Grammar.Derived
import LuaLayout.Proofs.Grammar.Written
import LuaLayout.Proofs.Grammar.Accepted
import LuaLayout.Proofs.Reduction.Places
import LuaLayout.Proofs.Reduction.Relexed
import LuaLayout.Proofs.CommandLine.Runs
import LuaLayout.Proofs.Format.Spacing
import LuaLayout.Proofs.Format.Versions
import LuaLayout.Proofs.Lexing.Segmentation
import LuaLayout.Proofs.Grouping.Folded
import LuaLayout.Proofs.Session.Lookahead
import LuaLayout.Proofs.Session.Progress
