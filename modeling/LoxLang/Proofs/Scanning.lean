import LoxLang.Proofs.Parsing
import LoxLang.Proofs.Shapes
import LoxLang.Token.Lexer

/-!
# Tokens of a scan

Every token that scanning gives is plain, so that the steps of a text without diagnostics have the shape of programs
(`isStep_of_parse`).
-/

namespace LoxLang

namespace Piece

/-- Every piece of a text is the first piece of what is left there. -/
theorem exists_first {p : Piece} : ∀ {text : List Char} {skip : Nat}, p ∈ cutFrom skip text → ∃ c rest, p = first c rest
  | c :: rest, 0, h => by
    obtain rfl | h := List.mem_cons.mp h
    · exact ⟨c, rest, rfl⟩
    · exact exists_first h
  | _ :: rest, skip + 1, h => exists_first (show p ∈ cutFrom skip rest from h)

theorem mem_of_mem_withLines {p : Piece} {line' : Line} : ∀ {ps : List Piece} {line : Line},
    (line', p) ∈ withLines line ps → p ∈ ps
  | q :: ps, line, h => by
    obtain h | h := List.mem_cons.mp h
    · cases h; exact List.mem_cons_self
    · exact List.mem_cons_of_mem q (mem_of_mem_withLines h)

theorem isName_of_wordKind {word : List Char} (h : wordKind word = .identifier) : IsName (String.ofList word) := by
  intro hthis
  rw [wordKind, hthis] at h
  revert h
  decide

/-- No identifier spells a keyword. -/
theorem isName_of_first {c : Char} {rest text : List Char} (h : first c rest = .lexeme .identifier text) :
    IsName (String.ofList text) := by
  unfold first at h
  split at h
  · next hs =>
    cases h
    unfold Letter.single? at hs
    split at hs <;> cases hs
  · next hs =>
    unfold Letter.withEqual? at hs
    split at h <;> cases h <;> split at hs <;> cases hs
  · split at h
    · split at h <;> cases h
    · split at h
      · cases h
      · split at h
        · unfold string at h
          split at h <;> cases h
        · split at h
          · cases h
          · split at h
            · simp only [Piece.lexeme.injEq] at h
              exact h.2 ▸ isName_of_wordKind h.1
            · cases h

end Piece

namespace Scan

theorem plain_of_mem {source : String} {t : Token} (h : t ∈ (Scan.of source).tokens) : t.Plain := by
  obtain h | h := List.mem_append.mp h
  · obtain ⟨⟨line, p⟩, hp, ht⟩ := List.mem_filterMap.mp h
    obtain ⟨c, rest, rfl⟩ := Piece.exists_first (Piece.mem_of_mem_withLines hp)
    dsimp only at ht
    cases hf : Piece.first c rest with
    | lexeme kind text =>
      rw [hf] at ht
      cases ht
      refine ⟨?_, fun hk => ?_⟩
      · cases kind <;> trivial
      · obtain rfl : kind = .identifier := hk
        exact Piece.isName_of_first hf
    | _ => rw [hf] at ht; cases ht
  · obtain rfl := List.mem_singleton.mp h
    exact ⟨trivial, fun hk => by cases hk⟩

end Scan

/-- What a text without diagnostics is read as, is made of steps. -/
theorem isStep_of_parse {source : String} (h : Node.diagnosticsOf (parse (Scan.of source).tokens) = []) :
    ∀ n ∈ parse (Scan.of source).tokens, IsStep n :=
  (Grammar.program_sound h).shape fun _ ht => Scan.plain_of_mem (List.takeWhile_subset _ ht)

end LoxLang
