import LoxLang.Proofs.Parsing

/-!
# Trees with diagnostics

The grammar describes the steps of tokens in which nothing is wrong. Where something is, the parser still builds trees:
it puts a diagnostic in the place of a step that it could not read. A property that such trees pass on from their
parts, and that all expressions have (`Upholds`), holds of every step that is parsed, whatever is wrong with the tokens
(`parse_keeps`).
-/

namespace LoxLang.Parser

open Grammar

/-- What holds of every tree that the parser builds from good tokens: it holds of what derives from them and of
diagnostics, and of a step if it holds of the blocks, branches and methods in it. -/
structure Upholds (good : Token → Prop) (Q : Node → Prop) : Prop where
  derived {c ts n} : Derives c ts n → (∀ t ∈ ts, good t) → Q n
  fault (f : ParseFault) : Q (.error f.diagnostic)
  absent : Q .absent
  block {steps} (line : Line) : (∀ n ∈ steps, Q n) → Q (.block steps line)
  function {t : Token} {params : List Token} {body} : good t → t.kind = .identifier →
    (∀ p ∈ params, good p ∧ p.kind = .identifier) → Q body → Q (.function t.name (params.map (·.name)) body t.line)
  classDecl {t : Token} {methods} : good t → t.kind = .identifier → (∀ n ∈ methods, Q n) →
    Q (.classDecl t.name methods t.line)
  ifElse {ts c thenBranch elseBranch} (line : Line) : Derives .expression ts c → (∀ t ∈ ts, good t) → Q thenBranch →
    Q elseBranch → Q (.ifElse c thenBranch elseBranch line)
  whileLoop {ts c body} (line : Line) : Derives .expression ts c → (∀ t ∈ ts, good t) → Q body →
    Q (.whileLoop c body line)
  forLoop {ts₁ ts₂ ts₃ i c s body} (line : Line) : Derives .opening ts₁ i → (∀ t ∈ ts₁, good t) →
    Derives (.clause .semicolon) ts₂ c → (∀ t ∈ ts₂, good t) → Derives (.clause .rightParen) ts₃ s →
    (∀ t ∈ ts₃, good t) → Q body → Q (Node.forLoop (given? i) (given? c) (given? s) body line)

/-- If the tokens are good, then the property holds of the tree. -/
def Kept (good : Token → Prop) (Q : Node → Prop) (ts : List Token) (n : Node) : Prop := (∀ t ∈ ts, good t) → Q n

section

variable {good : Token → Prop} {Q : Node → Prop} (h : Upholds good Q)

theorem manyUntil_keeps {item : Parser Node} (stop : TokenKind → Bool) (hi : Reads item (Kept good Q)) (bound : Nat) :
    Reads (manyUntil stop item bound) fun ts ns => (∀ t ∈ ts, good t) → ∀ n ∈ ns, Q n :=
  (Reads.manyUntil stop hi bound).mono fun ts ns hns hgood n hn => by
    obtain ⟨items, hitems, rfl, rfl⟩ := hns
    obtain ⟨i, hi, rfl⟩ := List.mem_map.mp hn
    exact hitems i hi fun t ht => hgood t (List.mem_flatMap.mpr ⟨i, hi, ht⟩)

variable {expression block : Parser Node} (he : Reads expression (Derives .expression))
  (hb : Reads block (Kept good Q))

include h hb

theorem functionDeclaration_keeps (bound : Nat) : Reads (functionDeclaration block bound) (Kept good Q) := by
  refine .bind (.expect _) fun _ t ht => .bind (.expect _) fun _ _ _ =>
    .bind (parameters_reads bound) fun ts _ hparams => ?_
  obtain ⟨rfl, ht⟩ := ht
  obtain ⟨params, hp, hl, rfl⟩ := hparams
  refine .bind (.expect _) fun _ _ _ => .bind hb fun _ body hbody => .pure fun hgood => ?_
  refine h.function (hgood t (by simp)) ht (fun p hmem => ⟨hgood p ?_, hp p hmem⟩)
    (hbody fun t ht => hgood t (by simp [ht]))
  have hts : p ∈ ts := hl.mem (List.mem_map_of_mem hmem) List.mem_cons_self
  simp [hts]

theorem classDeclaration_keeps (bound : Nat) : Reads (classDeclaration block bound) (Kept good Q) := by
  refine .bind (.expect _) fun _ t ht => .bind (.expect _) fun _ _ _ => ?_
  obtain ⟨rfl, ht⟩ := ht
  refine .bind (manyUntil_keeps _ (functionDeclaration_keeps h hb bound) bound) fun _ methods hmethods => ?_
  exact .bind (.expect _) fun _ _ _ => .pure fun hgood =>
    h.classDecl (hgood t (by simp)) ht (hmethods fun t ht => hgood t (by simp [ht]))

include he

theorem ifStatement_keeps : ∀ (rounds : Nat) (line : Line),
    Reads (ifStatement expression block line rounds) (Kept good Q)
  | 0, _ => .failHere _
  | rounds + 1, line => by
    refine .bind he fun ts c hc => .bind hb fun ts₁ thenBranch hthen => .bind (.accept _) fun _ found _ => ?_
    have hend {elseBranch : Node} (hgood : ∀ t ∈ ts, good t) (hgood₁ : ∀ t ∈ ts₁, good t) (helse : Q elseBranch) :
        Q (.ifElse c thenBranch elseBranch line) := h.ifElse line hc hgood (hthen hgood₁) helse
    cases found with
    | none =>
      exact .pure fun hgood => hend (fun t ht => hgood t (by simp [ht])) (fun t ht => hgood t (by simp [ht])) h.absent
    | some t =>
      refine .bind (.accept _) fun _ found _ => ?_
      cases found with
      | some t =>
        refine .bind (ifStatement_keeps rounds t.line) fun ts₂ elseBranch helse => .pure fun hgood => ?_
        exact hend (fun t ht => hgood t (by simp [ht])) (fun t ht => hgood t (by simp [ht]))
          (helse fun t ht => hgood t (by simp [ht]))
      | none =>
        refine .bind hb fun ts₂ elseBranch helse => .pure fun hgood => ?_
        exact hend (fun t ht => hgood t (by simp [ht])) (fun t ht => hgood t (by simp [ht]))
          (helse fun t ht => hgood t (by simp [ht]))

theorem forStatement_keeps (line : Line) : Reads (forStatement expression block line) (Kept good Q) := by
  refine .bind (.expect _) fun _ _ _ => .bind (forInitializer_reads he) fun _ _ hi => ?_
  obtain ⟨i, hi, rfl⟩ := hi
  refine .bind (optionalBefore_reads he _) fun _ _ hc => .bind (optionalBefore_reads he _) fun _ _ hs => ?_
  obtain ⟨c, hc, rfl, -⟩ := hc
  obtain ⟨s, hs, rfl, -⟩ := hs
  exact .bind hb fun _ body hbody => .pure fun hgood =>
    h.forLoop line hi (fun t ht => hgood t (by simp [ht])) hc (fun t ht => hgood t (by simp [ht])) hs
      (fun t ht => hgood t (by simp [ht])) (hbody fun t ht => hgood t (by simp [ht]))

theorem afterKeyword_keeps (bound : Nat) {t : Token} {k : KeywordStep} (hk : keywordStep? t.kind = some k) :
    Reads (afterKeyword expression block bound t.line k) fun ts n => Kept good Q (t :: ts) n := by
  unfold keywordStep? at hk
  split at hk <;> cases hk
  next ht => exact (letDeclaration_reads he).mono fun ts n hn => h.derived (.letStep ht hn)
  next => exact (functionDeclaration_keeps h hb bound).mono fun ts n hn hgood => hn fun t ht => hgood t (by simp [ht])
  next => exact (classDeclaration_keeps h hb bound).mono fun ts n hn hgood => hn fun t ht => hgood t (by simp [ht])
  next ht =>
    refine .bind he fun ts n hn => .bind (.expect _) fun ts' s hs => .pure ?_
    obtain ⟨rfl, hs⟩ := hs
    rw [List.append_nil]
    exact h.derived (.printStep ht hn hs)
  next => exact (ifStatement_keeps h he hb bound _).mono fun ts n hn hgood => hn fun t ht => hgood t (by simp [ht])
  next =>
    refine .bind he fun ts c hc => .bind hb fun ts' body hbody => .pure fun hgood => ?_
    exact h.whileLoop _ hc (fun t ht => hgood t (by simp [ht])) (hbody fun t ht => hgood t (by simp [ht]))
  next => exact (forStatement_keeps h he hb _).mono fun ts n hn hgood => hn fun t ht => hgood t (by simp [ht])
  next ht =>
    refine .bind (optionalBefore_reads he .semicolon) fun ts _ hv => .pure ?_
    obtain ⟨n, hn, -, rfl⟩ := hv
    rw [List.append_nil]
    exact h.derived (.returnStep ht hn)

theorem declaration_keeps (bound : Nat) : Reads (declaration expression block bound) (Kept good Q) := by
  refine .bind (.acceptMap _) fun _ found hfound => ?_
  cases found with
  | some found =>
    obtain ⟨k, t⟩ := found
    obtain ⟨rfl, hk⟩ := hfound
    exact afterKeyword_keeps h he hb bound hk
  | none =>
    subst hfound
    refine .bind .nextKind fun _ found hfound => ?_
    subst hfound
    split
    · exact hb
    · refine .bind he fun ts n hn => .bind (.expect _) fun ts' s hs => .pure ?_
      obtain ⟨rfl, hs⟩ := hs
      rw [List.append_nil]
      exact h.derived (.expressionStep hn hs)

end

section

variable {good : Token → Prop} {Q : Node → Prop} (h : Upholds good Q)
include h

theorem blockOf_keeps {step : Parser Node} (hs : Reads step (Kept good Q)) (bound : Nat) :
    Reads (blockOf step bound) (Kept good Q) :=
  .bind (.expect _) fun _ l _ => .bind (manyUntil_keeps _ hs bound) fun _ steps hsteps =>
    .bind (.expect _) fun _ _ _ => .pure fun hgood => h.block l.line (hsteps fun t ht => hgood t (by simp [ht]))

theorem recovering_keeps {step : Parser Node} (hs : Reads step (Kept good Q)) :
    Reads (recovering step) (Kept good Q) :=
  hs.recovering.mono fun ts n hn hgood => by
    obtain hn | ⟨fault, rfl⟩ := hn
    · exact hn hgood
    · exact h.fault fault

theorem step_keeps : ∀ bound, Reads (step bound) (Kept good Q)
  | 0 => recovering_keeps h (.failHere _)
  | bound + 1 =>
    recovering_keeps h (declaration_keeps h (expression_reads _) (blockOf_keeps h (step_keeps bound) _) _)

/-- What the parser upholds is true of every step of good tokens. -/
theorem parse_keeps {tokens : List Token} (hgood : ∀ t ∈ Token.beforeEnd tokens, good t) :
    ∀ n ∈ parse tokens, Q n := by
  have hreads := manyUntil_keeps (fun _ => false) (step_keeps h (Token.beforeEnd tokens).length)
    (Token.beforeEnd tokens).length (Token.endLine tokens) ⟨Token.beforeEnd tokens, []⟩
  unfold parse parseWithLog program
  dsimp only
  split
  · next hr =>
    rw [hr] at hreads
    obtain ⟨taken, htaken, hsteps⟩ := hreads
    refine hsteps fun t ht => hgood t ?_
    rw [show Token.beforeEnd tokens = taken ++ _ from htaken]
    exact List.mem_append_left _ ht
  · exact fun n hn => by cases hn

end

end LoxLang.Parser
