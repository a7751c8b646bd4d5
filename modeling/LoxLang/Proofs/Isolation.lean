import LoxLang.Proofs.Views

/-!
# Declarations are read one by one

The steps of a program are the step at its front and the steps of what that one leaves (`stepsOf_cons`), whatever the
bounds. Declarations without braces and `for` never look behind their last semicolon, and neither does recovery where
they fail. So what follows them is read as if it stood alone (`parse_append`).
-/

namespace LoxLang

open LoxLang.Parser

/-! ## Steps one by one -/

/-- The steps of the tokens in front of the end of input. -/
def stepsOf (endLine : Line) (ts : List Token) : List Node :=
  match Parser.program ts.length endLine ⟨ts, []⟩ with
  | .ok steps _ => steps
  | .fail _ _ => []

theorem parse_eq_stepsOf (tokens : List Token) :
    parse tokens = stepsOf (Token.endLine tokens) (Token.beforeEnd tokens) := by
  unfold parse parseWithLog stepsOf
  dsimp only
  generalize Parser.program _ _ _ = reply
  cases reply <;> rfl

@[simp] theorem stepsOf_nil (endLine : Line) : stepsOf endLine [] = [] := rfl

/-- With any bounds from the number of tokens on, and whatever was logged before, the same steps are read. -/
theorem manyUntil_stepsOf {ts : List Token} {size bound : Nat} (hs : ts.length ≤ size) (hb : ts.length ≤ bound)
    (endLine : Line) (caught : List Diagnostic) :
    ∃ after, manyUntil (fun _ => false) (step size) bound endLine ⟨ts, caught⟩ = .ok (stepsOf endLine ts) after := by
  have hv : View.Closed ⟨[], [], endLine, endLine⟩ := ⟨endLine, rfl⟩
  have hstep : ∀ ts' : List Token, ts' ≠ [] → ts'.length ≤ ts.length →
      Parallel ⟨[], [], endLine, endLine⟩ ts' (Shorter ts') (step ts.length) (step size) :=
    fun ts' hne hle => step_parallel (Nat.le_refl _) hs hne hle (.inl hv)
  have hmany := Parallel.manyUntil (fun _ => false) hv hstep (Nat.le_refl _) hb (Nat.le_refl _) [] caught
  obtain ⟨steps, after, hrun, -⟩ := manyUntil_ok (step_ok ts.length) (fun _ => false) endLine ts.length ⟨ts, []⟩
  have hsteps : stepsOf endLine ts = steps := by rw [stepsOf, Parser.program, hrun]
  simp only [List.append_nil] at hmany
  rw [hrun] at hmany
  generalize manyUntil (fun _ => false) (step size) bound endLine ⟨ts, caught⟩ = reply at hmany ⊢
  cases hmany with
  | ok left _ _ => exact ⟨_, by rw [hsteps]⟩

/-- The step at the front of the tokens, and the steps of what it leaves. -/
theorem stepsOf_cons {endLine : Line} {ts left : List Token} {bound : Nat} {n : Node} {caught log : List Diagnostic}
    (hne : ts ≠ []) (hb : ts.length ≤ bound) (hlt : left.length < ts.length)
    (h : step bound endLine ⟨ts, caught⟩ = .ok n ⟨left, log⟩) : stepsOf endLine ts = n :: stepsOf endLine left := by
  obtain ⟨t, rest, rfl⟩ := List.exists_cons_of_ne_nil hne
  obtain ⟨after, hrun⟩ := manyUntil_stepsOf hb (Nat.le_refl (rest.length + 1)) endLine caught
  obtain ⟨after', hleft⟩ := manyUntil_stepsOf (Nat.le_trans (Nat.le_of_lt hlt) hb) (Nat.le_of_lt_succ hlt) endLine log
  simp only [manyUntil, bind_apply, nextKind, List.head?_cons, Option.map_some, Bool.false_eq_true, if_false, h,
    hleft] at hrun
  injection hrun with hsteps
  exact hsteps.symm

/-! ## Declarations that stand alone -/

/-- No brace or `for` leads beyond a semicolon, and the last token is one. -/
structure Closes (ts : List Token) : Prop where
  plain : ∀ t ∈ ts, t.kind ≠ .leftBrace ∧ t.kind ≠ .forWord
  last : ∀ t, ts.getLast? = some t → t.kind = .semicolon

namespace Closes

variable {ts left : List Token}

theorem enough (h : Closes ts) (hne : ts ≠ []) (v : View) : v.Suffices ts := by
  have hlast := List.getLast?_eq_some_getLast hne
  exact .inr ⟨⟨ts.getLast hne, List.getLast_mem hne, h.last _ hlast⟩, h.plain⟩

theorem suffix (h : Closes ts) (hl : left <:+ ts) : Closes left := by
  obtain ⟨taken, rfl⟩ := hl
  refine ⟨fun t ht => h.plain t (List.mem_append_right taken ht), fun t ht => h.last t ?_⟩
  rw [List.getLast?_append, ht, Option.some_or]

end Closes

/-- Behind declarations that close, the same steps are read as without them. -/
theorem stepsOf_append (endLine endLine' : Line) (rest : List Token) (ts : List Token) (h : Closes ts) :
    stepsOf endLine (ts ++ rest) = stepsOf endLine' ts ++ stepsOf endLine rest := by
  by_cases hne : ts = []
  · rw [hne, List.nil_append, stepsOf_nil, List.nil_append]
  · have hlen : ts.length ≤ (ts ++ rest).length := by rw [List.length_append]; exact Nat.le_add_right _ _
    obtain ⟨n, ⟨_, log⟩, hrun⟩ := step_ok (ts ++ rest).length endLine ⟨ts ++ rest, []⟩
    obtain ⟨n', ⟨_, log'⟩, hrun'⟩ := step_ok (ts ++ rest).length endLine' ⟨ts ++ [], []⟩
    have hreplies := step_parallel hlen hlen hne (Nat.le_refl _) (h.enough hne ⟨rest, [], endLine, endLine'⟩) [] []
    rw [hrun, hrun'] at hreplies
    cases hreplies with
    | ok left hl hlt =>
      have hlt : left.length < ts.length := hlt
      have hlt' : (left ++ rest).length < (ts ++ rest).length := by simpa only [List.length_append] using by omega
      simp only [List.append_nil] at hrun'
      rw [stepsOf_cons hne hlen hlt hrun', stepsOf_cons (by simp [hne]) (Nat.le_refl _) hlt' hrun,
        stepsOf_append endLine endLine' rest left (h.suffix hl), List.cons_append]
termination_by ts.length

/-! ## Token lists -/

theorem beforeEnd_append {ts : List Token} (h : ∀ t ∈ ts, t.kind ≠ .endOfInput) (behind : List Token) :
    Token.beforeEnd (ts ++ behind) = ts ++ Token.beforeEnd behind :=
  List.takeWhile_append_of_pos fun t ht => bne_iff_ne.mpr (h t ht)

theorem beforeEnd_eq_self {ts : List Token} (h : ∀ t ∈ ts, t.kind ≠ .endOfInput) : Token.beforeEnd ts = ts := by
  rw [← List.append_nil ts, beforeEnd_append h]
  rfl

theorem endLine_append {ts behind : List Token} (h : ∀ t ∈ ts, t.kind ≠ .endOfInput) (hne : behind ≠ []) :
    Token.endLine (ts ++ behind) = Token.endLine behind := by
  have hfind : ts.find? (·.kind == .endOfInput) = none := List.find?_eq_none.mpr fun t ht => by simp [h t ht]
  rw [Token.endLine, Token.endLine, List.find?_append, hfind, Option.none_or, List.getLast?_append,
    List.getLast?_eq_some_getLast hne, Option.some_or]

/-- What stands behind declarations is read as if it stood alone, and they are read as if nothing stood behind them,
whatever goes wrong in them. -/
theorem parse_append {declarations : List Token} (h : Closes declarations)
    (hend : ∀ t ∈ declarations, t.kind ≠ .endOfInput) (behind : List Token) :
    parse (declarations ++ behind) = parse declarations ++ parse behind := by
  by_cases hne : behind = []
  · subst hne
    rw [List.append_nil]
    exact (List.append_nil _).symm
  · rw [parse_eq_stepsOf, parse_eq_stepsOf declarations, parse_eq_stepsOf behind, beforeEnd_append hend,
      endLine_append hend hne, beforeEnd_eq_self hend]
    exact stepsOf_append _ _ _ declarations h

/-- The tokens of `let ; } x ) ;`, two declarations that cannot be read. -/
def failingDeclarations : List Token :=
  [⟨.letWord, "let", 1, .nil⟩, ⟨.semicolon, ";", 1, .nil⟩, ⟨.rightBrace, "\x7d", 1, .nil⟩, ⟨.identifier, "x", 1, .nil⟩,
    ⟨.rightParen, ")", 1, .nil⟩, ⟨.semicolon, ";", 1, .nil⟩]

/-- The tokens of `print nil;` up to the end of input. -/
def printNil : List Token :=
  [⟨.printWord, "print", 2, .nil⟩, ⟨.nilWord, "nil", 2, .nil⟩, ⟨.semicolon, ";", 2, .nil⟩, ⟨.endOfInput, "", 3, .nil⟩]

/-- Recovery from the second fault stops in front of the statement. -/
theorem parse_append_failing :
    parse (failingDeclarations ++ printNil) = parse failingDeclarations ++ parse printNil ∧
    parse failingDeclarations =
      [.error ⟨.parse, 1, "Expected identifier following \"let\", found \";\""⟩,
        .error ⟨.parse, 1, "Unrecognized token: \"\x7d\""⟩] ∧
    parse printNil = [.print (.literal .nil 2) 2] := by
  have hclose : Closes failingDeclarations := ⟨by decide, by decide⟩
  exact ⟨parse_append hclose (by decide) printNil, rfl, rfl⟩

end LoxLang
