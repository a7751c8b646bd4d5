import LoxLang.Proofs.LineBreaks
import LoxLang.Proofs.Programs
import LoxLang.Proofs.Renumbering

/-!
# Texts further down

A text behind a program and a line break is read as it is read alone, with its lines renumbered, unless it starts with
an `else` (`parse_newline`).
-/

namespace LoxLang

/-- The lines that a text takes up in front of another. -/
def linesOf (source : String) : Line := 1 + Piece.lineFeeds source.toList

theorem Scan.tokens_ne_nil (source : String) : (Scan.of source).tokens ≠ [] := by
  simp [Scan.of]

/-- Behind a text without diagnostics and a line break, the tokens of another text stand further down. -/
theorem beforeEnd_newline {a : String} (h : (Scan.of a).diagnostics = []) (b : String) :
    Token.beforeEnd (Scan.of (a ++ "\n" ++ b)).tokens =
      Token.beforeEnd (Scan.of a).tokens ++ (Token.beforeEnd (Scan.of b).tokens).map (Token.down (linesOf a)) := by
  have hne : (Scan.of b).tokens.map (Token.down (linesOf a)) ≠ [] := by
    simpa using Scan.tokens_ne_nil b
  rw [Scan.beforeEnd_tokens, Scan.beforeEnd_tokens, Scan.beforeEnd_tokens, Scan.tokens_newline (Scan.not_isOpen h),
    List.map_dropLast]
  exact List.dropLast_append_of_ne_nil hne

/-- The first token of the text is no `else`. -/
def StartsAlone (source : String) : Prop := ∀ t, (Scan.of source).tokens.head? = some t → t.kind ≠ .elseWord

theorem StartsAlone.ends {b : String} (h : StartsAlone b) (k : Line) :
    Grammar.Ends .declaration ((Token.beforeEnd (Scan.of b).tokens).map (Token.down k)) := fun t ht => by
  rw [List.head?_map, Option.map_eq_some_iff] at ht
  obtain ⟨u, hu, rfl⟩ := ht
  have hmem : (Scan.of b).tokens.head? = some u := by
    rw [Token.beforeEnd, List.head?_takeWhile] at hu
    exact Option.filter_eq_some_iff.mp hu |>.1
  exact beq_eq_false_iff_ne.mpr (h u hmem)

/-- Behind a program and a line break, a text is read as it is read alone, further down. -/
theorem parse_newline {a b : String} (hs : (Scan.of a).diagnostics = [])
    (ha : Node.diagnosticsOf (parse (Scan.of a).tokens) = []) (hb : StartsAlone b)
    (hd : Node.diagnosticsOf (parse (Scan.of (a ++ "\n" ++ b)).tokens) = []) :
    parse (Scan.of (a ++ "\n" ++ b)).tokens =
        parse (Scan.of a).tokens ++ Node.renumberAll (· + linesOf a) (parse (Scan.of b).tokens) ∧
      Node.diagnosticsOf (parse (Scan.of b).tokens) = [] := by
  obtain ⟨ns, hparse, hprogram⟩ :=
    Grammar.program_split (Grammar.program_sound ha) (hb.ends (linesOf a)) (beforeEnd_newline hs b) hd
  -- the second program is what the tokens of `b` are parsed to once they stand further down
  have hdown : parse ((Scan.of b).tokens.map (Token.renumber (· + linesOf a))) = ns := by
    refine Grammar.program_complete ?_
    rw [Token.beforeEnd_renumber]
    exact hprogram
  rw [parse_renumber _ (Scan.tokens_ne_nil b)] at hdown
  subst hdown
  refine ⟨hparse, ?_⟩
  rw [hparse, Parser.diagnosticsOf_append, List.append_eq_nil_iff, Node.diagnosticsOf_renumberAll,
    List.map_eq_nil_iff] at hd
  exact hd.2

end LoxLang
