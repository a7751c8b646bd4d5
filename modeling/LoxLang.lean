import LoxLang.Host.Samples
import LoxLang.Main
import LoxLang.Proofs.Assignments
import LoxLang.Proofs.Balance
import LoxLang.Proofs.Captures
import LoxLang.Proofs.Completeness
import LoxLang.Proofs.Joined
import LoxLang.Proofs.Recovery
import LoxLang.Proofs.Searched
import LoxLang.Proofs.Unambiguous
import LoxLang.Syntax.Foreign
import LoxLang.Value.Sequence
import LoxLang.Proofs.Hereditary
import LoxLang.Proofs.Indistinct
import LoxLang.Proofs.Changes
import LoxLang.Proofs.Events
import LoxLang.Proofs.Rejected
import LoxLang.Proofs.Interactive
import LoxLang.Proofs.Globals
import LoxLang.Proofs.Layout
import LoxLang.Proofs.Tiling
import LoxLang.Proofs.Spacing
import LoxLang.Proofs.ScopeRules
import LoxLang.Proofs.StackTraces
import LoxLang.Proofs.Isolation
import LoxLang.Proofs.Fuel
import LoxLang.Proofs.Appending
import LoxLang.Proofs.Placement
import LoxLang.Proofs.SourceLines
import LoxLang.Proofs.Excerpts
import LoxLang.Proofs.Concatenation
import LoxLang.Proofs.Progress
import LoxLang.Proofs.Regular
import LoxLang.Proofs.Retention
import LoxLang.Proofs.Receivers
import LoxLang.Proofs.Redefinitions
import LoxLang.Proofs.InOrder
import LoxLang.Proofs.Raises
import LoxLang.Proofs.MarkedLines
import LoxLang.Proofs.ForLoops
import LoxLang.Proofs.DeadRuns
import LoxLang.Proofs.TreeTexts
import LoxLang.Proofs.TreeData
import LoxLang.Proofs.ScopeChains
import LoxLang.Proofs.Conclusions
