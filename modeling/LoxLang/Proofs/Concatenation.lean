import LoxLang.Proofs.Isolation
import LoxLang.Proofs.Programs

/-!
# Programs concatenate

The declarations of a program end where the program ends, whatever stands behind it, unless it is an `else` that goes on
with an open `if` (`stepsOf_program_append`). So a program that can be read in full has the same steps in front of any
tokens, and these have the steps they have alone, also where they fail (`parse_accepted_append`).
-/

namespace LoxLang

open LoxLang.Parser

/-- In front of anything but an `else`, the steps of a program are its own, and then those of what is left. -/
theorem stepsOf_program_append {ts rest : List Token} {ns : List Node} (h : Grammar.Program ts ns)
    (hrest : Grammar.Ends .declaration rest) (endLine : Line) :
    stepsOf endLine (ts ++ rest) = ns ++ stepsOf endLine rest := by
  have hlength : (ts ++ rest).length = ts.length + rest.length := List.length_append
  have hcount := h.length_le
  have hrun := Grammar.program_append h hrest (show _ ≤ (ts ++ rest).length by omega)
    (show _ ≤ (ts ++ rest).length by omega) endLine []
  obtain ⟨after, hmore⟩ := manyUntil_stepsOf (show rest.length ≤ (ts ++ rest).length by omega)
    (show rest.length ≤ (ts ++ rest).length - ns.length by omega) endLine []
  rw [map_apply, hmore] at hrun
  rw [stepsOf, Parser.program, hrun]

/-- A program that can be read in full is read the same in front of anything but an `else`, and what stands behind it
is read as if it stood alone. -/
theorem parse_accepted_append {program : List Token} (hend : ∀ t ∈ program, t.kind ≠ .endOfInput)
    (h : Node.diagnosticsOf (parse program) = []) (behind : List Token)
    (helse : ∀ t, behind.head? = some t → t.kind ≠ .elseWord) :
    parse (program ++ behind) = parse program ++ parse behind := by
  by_cases hne : behind = []
  · subst hne
    rw [List.append_nil]
    exact (List.append_nil _).symm
  · have hprogram := Grammar.program_sound h
    rw [beforeEnd_eq_self hend] at hprogram
    have hrest : Grammar.Ends .declaration (Token.beforeEnd behind) := fun t ht => by
      rw [Token.beforeEnd, List.head?_takeWhile] at ht
      exact beq_eq_false_iff_ne.mpr (helse t (Option.filter_eq_some_iff.mp ht).1)
    rw [parse_eq_stepsOf (program ++ behind), parse_eq_stepsOf behind, beforeEnd_append hend, endLine_append hend hne]
    exact stepsOf_program_append hprogram hrest _

/-- The tokens of `if x { print x; }`, which an `else` would go on with. -/
def openConditional : List Token :=
  [⟨.ifWord, "if", 1, .nil⟩, ⟨.identifier, "x", 1, .nil⟩, ⟨.leftBrace, "\x7b", 1, .nil⟩, ⟨.printWord, "print", 1, .nil⟩,
    ⟨.identifier, "x", 1, .nil⟩, ⟨.semicolon, ";", 1, .nil⟩, ⟨.rightBrace, "\x7d", 1, .nil⟩]

/-- The tokens of `{ ) ; } }` and of `x`, with the end of input between them. -/
def failingBlock : List Token :=
  [⟨.leftBrace, "\x7b", 2, .nil⟩, ⟨.rightParen, ")", 2, .nil⟩, ⟨.semicolon, ";", 2, .nil⟩,
    ⟨.rightBrace, "\x7d", 2, .nil⟩, ⟨.rightBrace, "\x7d", 3, .nil⟩, ⟨.endOfInput, "", 4, .nil⟩,
    ⟨.identifier, "x", 5, .nil⟩]

theorem parse_openConditional_append :
    parse (openConditional ++ failingBlock) = parse openConditional ++ parse failingBlock ∧
    (parse openConditional).length = 1 ∧ (Node.diagnosticsOf (parse failingBlock)).length = 2 :=
  ⟨parse_accepted_append (by decide) rfl failingBlock (by decide), rfl, rfl⟩

/-- The tokens of `else { }`, which fail where they stand alone. -/
def openElse : List Token :=
  [⟨.elseWord, "else", 2, .nil⟩, ⟨.leftBrace, "\x7b", 2, .nil⟩, ⟨.rightBrace, "\x7d", 2, .nil⟩]

example : Node.diagnosticsOf (parse (openConditional ++ openElse)) = [] ∧ Node.diagnosticsOf (parse openElse) ≠ [] :=
  ⟨rfl, by decide⟩

end LoxLang
