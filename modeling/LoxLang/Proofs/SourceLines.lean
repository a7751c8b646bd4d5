import Mathlib
import LoxLang.Proofs.LiveOutput
import LoxLang.Proofs.Placement
import LoxLang.Proofs.Relocation

/-!
# Diagnostics point into the text

The scanner gives every token and every malformed piece a line of the text, and the other phases take their lines from
the tokens: the renumbering that leaves exactly the lines of the text in place (`away`) leaves the tree, the resolved
tree and their diagnostics as they are, and so the faults of the run. Every diagnostic of the first run of a session
without a host therefore stands on a line of the text, unless the output refuses a line of `println`
(`diagnostics_in_source`). That failure is reported on line 0 (`println_fails_on_line_zero`).
-/

namespace LoxLang

/-- The text has a line of this number, where lines are counted by line feeds. -/
def IsLineOf (source : String) (line : Line) : Prop := 1 ≤ line ∧ line ≤ linesOf source

instance (source : String) (line : Line) : Decidable (IsLineOf source line) :=
  inferInstanceAs (Decidable (1 ≤ line ∧ line ≤ linesOf source))

/-- The renumbering that moves all lines but those of a text. -/
def away (source : String) (line : Line) : Line := if IsLineOf source line then line else line + 1

theorem away_eq_iff {source : String} {line : Line} : away source line = line ↔ IsLineOf source line := by
  unfold away
  split
  · next h => simp [h]
  · next h => simp [h]

/-! ## Scanning -/

theorem Piece.line_of_mem_withLines {line' : Line} {p : Piece} : ∀ {ps : List Piece} {line : Line},
    (line', p) ∈ withLines line ps → line ≤ line' ∧ line' ≤ line + lineFeeds (ps.flatMap text)
  | q :: ps, line, h => by
    have hsum : line + lineFeeds ((q :: ps).flatMap text) = line + lineFeeds q.text + lineFeeds (ps.flatMap text) := by
      rw [List.flatMap_cons, lineFeeds, List.count_append, Int.natCast_add, ← Int.add_assoc]
      rfl
    have hq : line ≤ line + lineFeeds q.text := Int.le_add_of_nonneg_right (Int.natCast_nonneg _)
    rw [hsum]
    obtain h | h := List.mem_cons.mp h
    · obtain ⟨rfl, -⟩ := Prod.mk.inj h
      exact ⟨hq, Int.le_add_of_nonneg_right (Int.natCast_nonneg _)⟩
    · obtain ⟨hfrom, hto⟩ := line_of_mem_withLines h
      exact ⟨Int.le_trans hq hfrom, hto⟩

variable {source : String}

/-- What is read off the pieces of a text, on the lines on which they end. -/
theorem IsLineOf.of_piece {line : Line} {p : Piece} (h : (line, p) ∈ Piece.withLines 1 (Piece.cut source.toList)) :
    IsLineOf source line := by
  obtain ⟨hfrom, hto⟩ := Piece.line_of_mem_withLines h
  rw [Piece.flatMap_cut] at hto
  exact ⟨hfrom, hto⟩

namespace Scan

theorem line_of_diagnostic {d : Diagnostic} (h : d ∈ (Scan.of source).diagnostics) : IsLineOf source d.line := by
  obtain ⟨⟨line, p⟩, hp, hd⟩ := List.mem_filterMap.mp h
  have hline := IsLineOf.of_piece hp
  cases p with
  | stray | openString => cases hd; exact hline
  | _ => cases hd

theorem line_of_token {t : Token} (h : t ∈ (Scan.of source).tokens) : IsLineOf source t.line := by
  obtain h | h := List.mem_append.mp h
  · obtain ⟨⟨line, p⟩, hp, ht⟩ := List.mem_filterMap.mp h
    have hline := IsLineOf.of_piece hp
    cases p with
    | lexeme => cases ht; exact hline
    | _ => cases ht
  · rw [List.mem_singleton.mp h]
    exact ⟨Int.le_add_of_nonneg_right (Int.natCast_nonneg _), Int.le_refl _⟩

theorem tokens_away (source : String) :
    (Scan.of source).tokens.map (Token.renumber (away source)) = (Scan.of source).tokens := by
  have hfixed : ∀ t ∈ (Scan.of source).tokens, t.renumber (away source) = t := fun t ht => by
    rw [Token.renumber, away_eq_iff.mpr (line_of_token ht)]
  exact (List.map_congr_left hfixed).trans (List.map_id _)

end Scan

/-! ## Parsing and resolution -/

theorem parse_away (source : String) :
    Node.renumberAll (away source) (parse (Scan.of source).tokens) = parse (Scan.of source).tokens := by
  rw [← parse_renumber (away source) (Scan.tokens_ne_nil source), Scan.tokens_away]

theorem line_of_parse {d : Diagnostic} (h : d ∈ Node.diagnosticsOf (parse (Scan.of source).tokens)) :
    IsLineOf source d.line := by
  have hall := Node.diagnosticsOf_renumberAll (away source) (parse (Scan.of source).tokens)
  rw [parse_away, ← List.map_id (Node.diagnosticsOf _), List.map_map] at hall
  have hfixed := List.map_inj_left.mp hall d h
  exact away_eq_iff.mp (congrArg Diagnostic.line hfixed).symm

theorem resolve_away (source : String) :
    resolve (parse (Scan.of source).tokens) = Resolve.renumbered (away source) (Node.renumberAll (away source))
      (resolve (parse (Scan.of source).tokens)) := by
  rw [← resolve_renumber, parse_away]

theorem line_of_resolve {line : Line} {cause : ResolveCause}
    (h : resolve (parse (Scan.of source).tokens) = .error (.rejected line cause)) : IsLineOf source line := by
  have hfixed := resolve_away source
  rw [h, Resolve.renumbered, ResolveFault.renumber] at hfixed
  injection hfixed with hfault
  injection hfault with hline
  exact away_eq_iff.mp hline.symm

theorem checked_away {steps : List Node} (h : checked? source = some steps) :
    Node.renumberAll (away source) steps = steps := by
  obtain ⟨-, -, hr⟩ := checked?_eq_some.mp h
  have hfixed := resolve_away source
  rw [hr, Resolve.renumbered] at hfixed
  injection hfixed with hsteps
  exact hsteps.symm

/-! ## Runs -/

/-- Among these surroundings the output refuses some line. -/
def Surroundings.Refuse (e : Surroundings) : Prop := ∃ n, (Machine.inside e).refusesLine n = true

/-- Diagnostics that stand on lines of the text; or else there is one, of an output that refuses a line, that names
line 0. -/
def PointInto (source : String) (e : Surroundings) (ds : List Diagnostic) : Prop :=
  (∀ d ∈ ds, IsLineOf source d.line) ∨ e.Refuse ∧ ds = [⟨.runtime, 0, RuntimeCause.stdoutClosed.message⟩]

theorem PointInto.single {e : Surroundings} {d : Diagnostic} (h : IsLineOf source d.line) : PointInto source e [d] :=
  .inl fun other hd => by rwa [List.mem_singleton.mp hd]

namespace Session

/-- Nothing on the machine of a new session has a line. -/
theorem placed_start (e : Surroundings) (source : String) (f : Line → Line) :
    ((start e).parsed source).machine.Placed f where
  bodies _ := rfl
  calls a ha := by cases ha
  hosts := rfl

theorem innermostLine_of_placed {f : Line → Line} {m : Machine} (h : m.Placed f) (hne : 0 < m.activations.size) :
    f (innermostLine m) = innermostLine m := by
  have hsome : m.activations.back? = some m.activations[m.activations.size - 1] := by
    rw [Array.back?_eq_getElem?, Array.getElem?_eq_getElem]
  rw [innermostLine, hsome]
  exact h.calls _ (Array.getElem_mem_toList _)

theorem diagnostics_of_failInCalls {s : Session} {d : Diagnostic} {r : RunResult}
    (h : (s.failInCalls source d).1 = .ok r) : r.diagnostics = [d] := by
  rw [failInCalls_of_ok s h] at h
  cases h
  rfl

/-- The diagnostics of an execution in a new session. -/
theorem pointInto_of_execute {e : Surroundings} {fuel : Nat} {steps : List Node} (hc : checked? source = some steps)
    {r : RunResult} (h : (((start e).parsed source).execute fuel source steps).1 = .ok r) :
    PointInto source e r.diagnostics := by
  have hplaced := Exec.program_places (f := away source) fuel (checked_away hc) _ (placed_start e source _)
  have hrefuses := Exec.program_refusesLine fuel steps ((start e).parsed source).machine
  rw [execute] at h
  cases hx : Exec.program fuel steps ((start e).parsed source).machine with
  | ok signal m =>
    rw [hx] at h
    cases h
    exact .inl fun d hd => by cases hd
  | error fault m =>
    rw [hx] at h hplaced hrefuses
    obtain ⟨hm, hfault⟩ := hplaced
    cases fault with
    | runtime line cause =>
      rw [diagnostics_of_failInCalls h]
      rcases hfault with hline | ⟨rfl, rfl, n, hrefused⟩
      · exact .single (away_eq_iff.mp hline)
      -- a line that is refused now was refused at the start
      · exact .inr ⟨⟨n, (congrFun hrefuses n).symm.trans hrefused⟩, rfl⟩
    | overflow =>
      rw [diagnostics_of_failInCalls h]
      exact .single (away_eq_iff.mp (innermostLine_of_placed hm hfault))
    | _ => cases h

theorem pointInto_of_run {e : Surroundings} {fuel : Nat} {r : RunResult}
    (h : ((start e).runWith fuel source).1 = .ok r) : PointInto source e r.diagnostics := by
  cases verdict source with
  | scan hs =>
    rw [runWith_of_scan _ fuel hs] at h
    cases h
    exact .inl fun d hd => Scan.line_of_diagnostic (hs ▸ hd)
  | parse hs hp =>
    rw [runWith_of_parse _ fuel hs hp] at h
    cases h
    exact .inl fun d hd => line_of_parse (hp ▸ hd)
  | resolve hs hp hr =>
    rw [runWith_of_resolve _ fuel hs hp hr] at h
    cases h
    exact .single (line_of_resolve hr)
  | passed hc =>
    rw [runWith_of_checked _ fuel hc] at h
    exact pointInto_of_execute hc h

end Session

theorem RunResult.exists_of_line? {r : RunResult} {line : Line} (h : r.line? = some line) :
    ∃ d ∈ r.diagnostics, d.line = line := by
  obtain ⟨d, hd, hline⟩ := Option.map_eq_some_iff.mp h
  exact ⟨d, List.mem_of_mem_head? hd, hline⟩

/-- Every diagnostic of the first run of a session without a host stands on a line of its text, whatever its phase, and
so does the run's own line. The one exception is an output that refuses lines: that the run failed to print may be
reported on line 0, and is then all that is reported. -/
theorem diagnostics_in_source {e : Surroundings} {fuel : Nat} {source : String} {r : RunResult}
    (h : ((Session.start e).runWith fuel source).1 = .ok r) :
    (∀ d ∈ r.diagnostics, IsLineOf source d.line) ∧ (∀ line, r.line? = some line → IsLineOf source line) ∨
      e.Refuse ∧ r.diagnostics = [⟨.runtime, 0, RuntimeCause.stdoutClosed.message⟩] := by
  refine (Session.pointInto_of_run h).imp_left fun hall => ⟨hall, fun line hline => ?_⟩
  obtain ⟨d, hd, rfl⟩ := RunResult.exists_of_line? hline
  exact hall d hd

/-- A text that prints on its second line, with the native. -/
def printlnText : String := "// prints\nprintln(true);"

/-- Its print statement would fail on the second line; `println` fails on none. -/
theorem println_fails_on_line_zero :
    ∃ r, ((Session.start { output := .closed }).runWith 20 printlnText).1 = .ok r ∧
      r.diagnostics = [⟨.runtime, 0, RuntimeCause.stdoutClosed.message⟩] ∧ ¬ IsLineOf printlnText 0 :=
  exists_ok_of_any (by decide +kernel)

/-- A text whose second line fails. -/
def missingText : String := "// reads\nmissing;"

theorem missingText_in_source :
    ∃ r, ((Session.start {}).runWith 20 missingText).1 = .ok r ∧
      r.diagnostics.map (·.line) = [2] ∧ ∀ d ∈ r.diagnostics, IsLineOf missingText d.line := by
  have hrun : ∃ r, ((Session.start {}).runWith 20 missingText).1 = .ok r ∧
      r.diagnostics.map (·.line) = [2] := exists_ok_of_any (by decide +kernel)
  obtain ⟨r, hr, hlines⟩ := hrun
  refine ⟨r, hr, hlines, ?_⟩
  rcases diagnostics_in_source hr with ⟨hall, -⟩ | ⟨⟨_, hrefused⟩, -⟩
  · exact hall
  · cases hrefused

end LoxLang
