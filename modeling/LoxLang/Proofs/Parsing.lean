import LoxLang.Proofs.Grammar
import LoxLang.Syntax.Errors

/-!
# What parsers read

`Reads p Q` says of a parser that it takes tokens `ts` from the front and answers `a` with `Q ts a`, or fails somewhere
behind its start. From it follows that a tree without diagnostics has a derivation from the tokens that were taken for
it (`program_sound`).
-/

namespace LoxLang.Parser

open Grammar

variable {α β : Type}

def Reads (p : Parser α) (Q : List Token → α → Prop) : Prop :=
  ∀ e s, match p e s with
    | .ok a s' => ∃ ts, s.rest = ts ++ s'.rest ∧ Q ts a
    | .fail _ s' => s'.rest <:+ s.rest

theorem bind_apply (p : Parser α) (f : α → Parser β) (e : Line) (s : ParseState) :
    (p >>= f) e s = match p e s with
      | .ok a after => f a e after
      | .fail fault after => .fail fault after := rfl

namespace Reads

variable {Q : List Token → α → Prop} {R : List Token → β → Prop} {p : Parser α}

theorem pure {a : α} (h : Q [] a) : Reads (Pure.pure a) Q := fun _ _ => ⟨[], rfl, h⟩

theorem bind {f : α → Parser β} (hp : Reads p Q) (hf : ∀ ts a, Q ts a → Reads (f a) fun ts' b => R (ts ++ ts') b) :
    Reads (p >>= f) R := by
  intro e s
  have hs := hp e s
  rw [bind_apply]
  cases hr : p e s with
  | fail fault after => rwa [hr] at hs
  | ok a after =>
    rw [hr] at hs
    obtain ⟨ts, hts, ha⟩ := hs
    have hrest := hf ts a ha e after
    dsimp only
    cases hr' : f a e after with
    | ok b last =>
      rw [hr'] at hrest
      obtain ⟨ts', hts', hb⟩ := hrest
      exact ⟨ts ++ ts', by rw [hts, hts', List.append_assoc], hb⟩
    | fail fault last =>
      rw [hr'] at hrest
      exact hrest.trans ⟨ts, hts.symm⟩

theorem mono {Q' : List Token → α → Prop} (hp : Reads p Q) (h : ∀ ts a, Q ts a → Q' ts a) : Reads p Q' := by
  intro e s
  have hs := hp e s
  cases hr : p e s with
  | ok a after =>
    rw [hr] at hs
    obtain ⟨ts, hts, ha⟩ := hs
    exact ⟨ts, hts, h ts a ha⟩
  | fail fault after => rwa [hr] at hs

/-! ## Single tokens -/

theorem nextKind : Reads nextKind fun ts _ => ts = [] := fun _ _ => ⟨[], rfl, rfl⟩

theorem failAt (line : Line) (cause : ParseCause) : Reads (failAt line cause) Q := fun _ _ => List.suffix_rfl

theorem failHere (cause : Option String → ParseCause) : Reads (failHere cause) Q := by
  rintro e ⟨_ | ⟨t, rest⟩, caught⟩
  · exact List.suffix_rfl
  · exact List.suffix_rfl

theorem acceptMap (f : TokenKind → Option β) :
    Reads (acceptMap f) fun ts found => match found with
      | none => ts = []
      | some (b, t) => ts = [t] ∧ f t.kind = some b := by
  rintro e ⟨_ | ⟨t, rest⟩, caught⟩
  · exact ⟨[], rfl, rfl⟩
  · unfold Parser.acceptMap
    cases hf : f t.kind with
    | none => simp only [hf]; exact ⟨[], rfl, rfl⟩
    | some b => simp only [hf]; exact ⟨[t], rfl, rfl, trivial⟩

theorem accept (k : TokenKind) :
    Reads (accept k) fun ts found => match found with
      | none => ts = []
      | some t => ts = [t] ∧ t.kind = k := by
  rintro e ⟨_ | ⟨t, rest⟩, caught⟩
  · exact ⟨[], rfl, rfl⟩
  · unfold Parser.accept
    by_cases hk : t.kind = k
    · simp only [if_pos hk]; exact ⟨[t], rfl, rfl, hk⟩
    · simp only [if_neg hk]; exact ⟨[], rfl, rfl⟩

theorem expect (wanted : Wanted) : Reads (expect wanted) fun ts t => ts = [t] ∧ t.kind = wanted.token := by
  refine .bind (.accept wanted.token) fun ts found h => ?_
  cases found with
  | none => exact .failHere _
  | some t =>
    obtain ⟨rfl, hk⟩ := h
    exact .pure ⟨rfl, hk⟩

/-! ## Repetition -/

theorem commaSeparated {item : Parser α} (hi : Reads item Q) : ∀ bound,
    Reads (commaSeparated item bound) fun ts as => ∃ items : List (List Token × α), (∀ i ∈ items, Q i.1 i.2) ∧
      items ≠ [] ∧ Listed (items.map (·.1)) ts ∧ as = items.map (·.2)
  | 0 => .bind hi fun ts a ha => .pure ⟨[(ts, a)], by simpa using ha, by simp, by simpa using .one, rfl⟩
  | bound + 1 => by
    refine .bind hi fun ts a ha => .bind (.accept .comma) fun ts' found h => ?_
    cases found with
    | none =>
      subst h
      exact .pure ⟨[(ts, a)], by simpa using ha, by simp, by simpa using .one, rfl⟩
    | some c =>
      obtain ⟨rfl, hc⟩ := h
      refine .bind (commaSeparated hi bound) fun rest as h => .pure ?_
      obtain ⟨items, hitems, hne, hlisted, rfl⟩ := h
      obtain ⟨i, items, rfl⟩ := List.exists_cons_of_ne_nil hne
      refine ⟨(ts, a) :: i :: items, fun j hj => ?_, by simp, ?_, rfl⟩
      · obtain rfl | hj := List.mem_cons.mp hj
        · exact ha
        · exact hitems j hj
      · simpa using Listed.more hc hlisted

theorem manyUntil {item : Parser α} (stop : TokenKind → Bool) (hi : Reads item Q) : ∀ bound,
    Reads (manyUntil stop item bound) fun ts as => ∃ items : List (List Token × α), (∀ i ∈ items, Q i.1 i.2) ∧
      ts = items.flatMap (·.1) ∧ as = items.map (·.2)
  | 0 => .pure ⟨[], by simp, rfl, rfl⟩
  | bound + 1 => by
    refine .bind .nextKind fun ts found h => ?_
    subst h
    cases found with
    | none => exact .pure ⟨[], by simp, rfl, rfl⟩
    | some k =>
      dsimp only
      split
      · exact .pure ⟨[], by simp, rfl, rfl⟩
      · refine .bind hi fun ts a ha => .bind (manyUntil stop hi bound) fun ts' as h => .pure ?_
        obtain ⟨items, hitems, rfl, rfl⟩ := h
        refine ⟨(ts, a) :: items, fun j hj => ?_, by simp, rfl⟩
        obtain rfl | hj := List.mem_cons.mp hj
        · exact ha
        · exact hitems j hj

/-! ## Recovery -/

theorem skipFrom_suffix (last : TokenKind) (ts : List Token) : skipFrom last ts <:+ ts := by
  induction ts generalizing last with
  | nil => exact List.suffix_rfl
  | cons t ts ih =>
    unfold skipFrom
    split
    · exact List.suffix_rfl
    · exact (ih t.kind).trans (List.suffix_cons t ts)

theorem resume_suffix {start rest : List Token} (h : rest <:+ start) : resume start rest <:+ start := by
  unfold resume
  have hr : (if rest.length < start.length then rest else rest.drop 1) <:+ start := by
    split
    · exact h
    · exact (List.drop_suffix 1 rest).trans h
  dsimp only
  split
  · exact hr
  · exact (skipFrom_suffix _ _).trans hr

/-- A step, or a diagnostic in its place. -/
theorem recovering {step : Parser Node} {Q : List Token → Node → Prop} (h : Reads step Q) :
    Reads (recovering step) fun ts n => Q ts n ∨ ∃ fault : ParseFault, n = .error fault.diagnostic := by
  intro e s
  have hs := h e s
  unfold Parser.recovering
  cases hr : step e s with
  | ok n after =>
    rw [hr] at hs
    obtain ⟨ts, hts, hn⟩ := hs
    exact ⟨ts, hts, .inl hn⟩
  | fail fault after =>
    rw [hr] at hs
    obtain ⟨ts, hts⟩ := resume_suffix hs
    exact ⟨ts, hts.symm, .inr ⟨fault, rfl⟩⟩

end Reads

/-! ## Expressions -/

section Expressions

variable {nested : Parser Node} (hn : Reads nested (Derives .expression))

theorem acceptAtom_reads : Reads acceptAtom fun ts found => match found with
    | none => ts = []
    | some n => Derives .primary ts n := by
  rintro e ⟨_ | ⟨t, rest⟩, caught⟩
  · exact ⟨[], rfl, rfl⟩
  · unfold acceptAtom
    cases hf : atom? t with
    | none => simp only [hf]; exact ⟨[], rfl, rfl⟩
    | some n => simp only [hf]; exact ⟨[t], rfl, .atom hf⟩

include hn

theorem primary_reads : Reads (primary nested) (Derives .primary) := by
  refine .bind acceptAtom_reads fun ts found h => ?_
  cases found with
  | some n => exact .pure (by simpa using h)
  | none =>
    subst h
    refine .bind (.accept .leftParen) fun ts found h => ?_
    cases found with
    | none => exact .failHere _
    | some l =>
      obtain ⟨rfl, hl⟩ := h
      refine .bind hn fun ts n hts => .bind (.expect _) fun ts' r h => .pure ?_
      obtain ⟨rfl, hr⟩ := h
      simpa using Derives.grouping hl hts hr

theorem arguments_reads (bound : Nat) : Reads (arguments nested bound) fun ts ns =>
    ∃ (items : List Item) (args : List Token) (r : Token), (∀ i ∈ items, Derives .expression i.1 i.2) ∧
      Listed (items.map (·.1)) args ∧ r.kind = .rightParen ∧ ts = args ++ [r] ∧ ns = items.map (·.2) := by
  have hend : ∀ (items : List Item) (args : List Token), (∀ i ∈ items, Derives .expression i.1 i.2) →
      Listed (items.map (·.1)) args → Reads (do let _ ← expect .argumentsEnd; pure (items.map (·.2))) fun ts ns =>
        ∃ (items : List Item) (args' : List Token) (r : Token), (∀ i ∈ items, Derives .expression i.1 i.2) ∧
          Listed (items.map (·.1)) args' ∧ r.kind = .rightParen ∧ args ++ ts = args' ++ [r] ∧ ns = items.map (·.2) := by
    intro items args hi hl
    refine .bind (.expect _) fun ts r h => .pure ?_
    obtain ⟨rfl, hr⟩ := h
    exact ⟨items, args, r, hi, hl, hr, by simp, rfl⟩
  refine .bind .nextKind fun ts found h => ?_
  subst h
  split
  · exact .bind (Q := fun ts ns => ts = [] ∧ ns = []) (.pure ⟨rfl, rfl⟩) fun ts ns h => by
      obtain ⟨rfl, rfl⟩ := h
      exact hend [] [] (by simp) .none
  · refine .bind (Reads.commaSeparated hn bound) fun ts ns h => ?_
    obtain ⟨items, hi, -, hl, rfl⟩ := h
    exact hend items ts hi hl

theorem suffixesFrom_reads : ∀ (bound : Nat) {callee : Node} {ts : List Token}, Derives .call ts callee →
    Reads (suffixesFrom nested bound callee) fun ts' n => Derives .call (ts ++ ts') n
  | 0, callee, ts, h => .pure (by simpa using h)
  | bound + 1, callee, ts, h => by
    refine .bind (.accept .leftParen) fun ts₁ found h₁ => ?_
    cases found with
    | some l =>
      obtain ⟨rfl, hl⟩ := h₁
      refine .bind (arguments_reads hn (bound + 1)) fun ts₂ ns h₂ => ?_
      obtain ⟨items, args, r, hi, hlisted, hr, rfl, rfl⟩ := h₂
      refine (suffixesFrom_reads bound (Derives.call h hl hi hlisted hr)).mono fun ts₃ n h₃ => ?_
      simpa using h₃
    | none =>
      subst h₁
      refine .bind (.accept .dot) fun ts₁ found h₁ => ?_
      cases found with
      | none =>
        subst h₁
        exact .pure (by simpa using h)
      | some d =>
        obtain ⟨rfl, hd⟩ := h₁
        refine .bind (Q := fun ts name => ∃ t, ts = [t] ∧ t.kind = .identifier ∧ name = t.name) ?_ fun ts₂ name h₂ => ?_
        · refine .bind (.accept .identifier) fun ts₂ found h₂ => ?_
          cases found with
          | none => exact .failAt _ _
          | some t =>
            obtain ⟨rfl, ht⟩ := h₂
            exact .pure ⟨t, rfl, ht, rfl⟩
        · obtain ⟨t, rfl, ht, rfl⟩ := h₂
          refine (suffixesFrom_reads bound (Derives.get h hd ht)).mono fun ts₃ n h₃ => ?_
          simpa using h₃

theorem call_reads (bound : Nat) : Reads (call nested bound) (Derives .call) :=
  .bind (primary_reads hn) fun _ _ h => suffixesFrom_reads hn bound (.primary h)

theorem unary_reads (bound : Nat) : ∀ rounds, Reads (unary nested bound rounds) (Derives .unary)
  | 0 => (call_reads hn bound).mono fun _ _ => .operand
  | rounds + 1 => by
    refine .bind (.acceptMap unaryOp) fun ts found h => ?_
    cases found with
    | none =>
      subst h
      exact (call_reads hn bound).mono fun _ _ => .operand
    | some found =>
      obtain ⟨o, t⟩ := found
      obtain ⟨rfl, ho⟩ := h
      exact .bind (unary_reads bound rounds) fun ts' n hts => .pure (by simpa using Derives.unary ho hts)

end Expressions

/-! ### Chains -/

section Chains

variable {op : Type} {operator : TokenKind → Option op} {build : op → Node → Node → Line → Node} {operand : Parser Node}
  {l : Level} (hb : ∀ k, l.build? k = (operator k).map build) (ho : Reads operand (Derives l.operand))
include hb ho

theorem leftChainFrom_reads (hl : l.isLeft = true) : ∀ (bound : Nat) {left : Node} {ts : List Token},
    Derives (.binary l) ts left →
    Reads (leftChainFrom operator build operand bound left) fun ts' n => Derives (.binary l) (ts ++ ts') n
  | 0, left, ts, h => .pure (by simpa using h)
  | bound + 1, left, ts, h => by
    refine .bind (.acceptMap operator) fun ts₁ found h₁ => ?_
    cases found with
    | none =>
      subst h₁
      exact .pure (by simpa using h)
    | some found =>
      obtain ⟨o, t⟩ := found
      obtain ⟨rfl, hop⟩ := h₁
      have hbuild : l.build? t.kind = some (build o) := by rw [hb, hop]; rfl
      refine .bind ho fun ts₂ right h₂ => ?_
      refine (leftChainFrom_reads hl bound (Derives.left hl h hbuild h₂)).mono fun ts₃ n h₃ => ?_
      simpa using h₃

theorem leftChain_reads (hl : l.isLeft = true) (bound : Nat) :
    Reads (leftChain operator build operand bound) (Derives (.binary l)) :=
  .bind ho fun _ _ h => leftChainFrom_reads hb ho hl bound (.single h)

theorem rightChain_reads (hl : l.isLeft = false) : ∀ bound,
    Reads (rightChain operator build operand bound) (Derives (.binary l))
  | 0 => ho.mono fun _ _ => .single
  | bound + 1 => by
    refine .bind ho fun ts left h => .bind (.acceptMap operator) fun ts₁ found h₁ => ?_
    cases found with
    | none =>
      subst h₁
      exact .pure (by simpa using Derives.single h)
    | some found =>
      obtain ⟨o, t⟩ := found
      obtain ⟨rfl, hop⟩ := h₁
      have hbuild : l.build? t.kind = some (build o) := by rw [hb, hop]; rfl
      refine .bind (rightChain_reads hl bound) fun ts₂ right h₂ => .pure ?_
      simpa using Derives.right hl h hbuild h₂

end Chains

/-! ### Operators -/

section Levels

variable {nested : Parser Node} (hn : Reads nested (Derives .expression)) (bound : Nat)
include hn

theorem disjunction_reads : Reads (disjunction nested bound) (Derives (.binary .disjunction)) :=
  have factor : Reads (factor nested bound) (Derives (.binary .factor)) :=
    leftChain_reads (fun _ => rfl) (unary_reads hn bound bound) rfl bound
  have term : Reads (term nested bound) (Derives (.binary .term)) := leftChain_reads (fun _ => rfl) factor rfl bound
  have comparison : Reads (comparison nested bound) (Derives (.binary .comparison)) :=
    rightChain_reads (fun _ => rfl) term rfl bound
  have equality : Reads (equality nested bound) (Derives (.binary .equality)) :=
    rightChain_reads (fun _ => rfl) comparison rfl bound
  have conjunction : Reads (conjunction nested bound) (Derives (.binary .conjunction)) :=
    leftChain_reads (fun _ => rfl) equality rfl bound
  leftChain_reads (fun _ => rfl) conjunction rfl bound

theorem assignment_reads : ∀ rounds, Reads (assignment nested bound rounds) (Derives .expression)
  | 0 => (disjunction_reads hn bound).mono fun _ _ => .plain
  | rounds + 1 => by
    refine .bind (disjunction_reads hn bound) fun ts target h => .bind (.accept .equal) fun ts₁ found h₁ => ?_
    cases found with
    | none =>
      subst h₁
      exact .pure (by simpa using Derives.plain h)
    | some e =>
      obtain ⟨rfl, he⟩ := h₁
      refine .bind (assignment_reads rounds) fun ts₂ value hv => ?_
      cases target with
      | var name line d =>
        obtain ⟨t, rfl, ht, rfl, rfl, rfl⟩ := h.var_inv
        exact .pure (by simpa using Derives.assign ht he hv)
      | get object name line =>
        obtain ⟨ts', d, t, rfl, ho, hd, ht, rfl, rfl⟩ := h.get_inv
        exact .pure (by simpa using Derives.set ho hd ht he hv)
      | _ => exact .failAt _ _

end Levels

theorem expression_reads : ∀ bound, Reads (expression bound) (Derives .expression)
  | 0 => .failHere _
  | bound + 1 => assignment_reads (expression_reads bound) (bound + 1) (bound + 1)

/-! ## Statements -/

/-- Without diagnostics, the tree derives from the tokens. -/
def Sound (c : Category) (ts : List Token) (n : Node) : Prop := n.diagnostics = [] → Derives c ts n

theorem diagnostics_of_mem {ns : List Node} (h : Node.diagnosticsOf ns = []) : ∀ n ∈ ns, n.diagnostics = [] := by
  induction ns with
  | nil => exact fun n hn => by cases hn
  | cons m ns ih =>
    rw [Node.diagnosticsOf, List.append_eq_nil_iff] at h
    intro n hn
    obtain rfl | hn := List.mem_cons.mp hn
    · exact h.1
    · exact ih h.2 n hn

theorem diagnosticsOf_append (ns ns' : List Node) :
    Node.diagnosticsOf (ns ++ ns') = Node.diagnosticsOf ns ++ Node.diagnosticsOf ns' := by
  induction ns with
  | nil => rfl
  | cons n ns ih => rw [List.cons_append, Node.diagnosticsOf, ih, Node.diagnosticsOf, List.append_assoc]

theorem diagnosticsOf_of_mem {ns : List Node} (h : ∀ n ∈ ns, n.diagnostics = []) : Node.diagnosticsOf ns = [] := by
  induction ns with
  | nil => rfl
  | cons n ns ih =>
    rw [Node.diagnosticsOf, h n List.mem_cons_self, ih fun m hm => h m (List.mem_cons_of_mem n hm), List.append_nil]

/-- The items of a tree without diagnostics derive from their tokens. -/
theorem derives_of_sound {c : Category} {items : List Item} (hi : ∀ i ∈ items, Sound c i.1 i.2)
    (hd : Node.diagnosticsOf (items.map (·.2)) = []) : ∀ i ∈ items, Derives c i.1 i.2 :=
  fun i hmem => hi i hmem (diagnostics_of_mem hd i.2 (List.mem_map_of_mem hmem))

/-- A loop tells what its body tells. -/
theorem forLoop_diagnostics {initializer increment : Option Node} (condition : Option Node) (body : Node) (line : Line)
    (hi : Node.diagnosticsOf initializer.toList = []) (hs : ∀ n, increment = some n → n.diagnostics = []) :
    (Node.forLoop initializer condition increment body line).diagnostics = body.diagnostics := by
  rw [Node.forLoop.eq_def, Node.diagnostics, diagnosticsOf_append, hi, List.nil_append]
  cases increment with
  | none => simp [Node.diagnosticsOf, Node.diagnostics]
  | some step => simp [Node.diagnosticsOf, Node.diagnostics, hs step rfl]

theorem forLoop_body {i c s : Option Node} {b : Node} {line : Line} (h : (Node.forLoop i c s b line).diagnostics = []) :
    b.diagnostics = [] := by
  have hloop := diagnostics_of_mem h _ (List.mem_append_right i.toList List.mem_cons_self)
  cases s with
  | none => exact hloop
  | some step => exact diagnostics_of_mem hloop b List.mem_cons_self

section Statements

variable {expression block : Parser Node} (he : Reads expression (Derives .expression))
  (hblock : Reads block (Sound .block))

theorem clause_of_expression {ts : List Token} {t : Token} {k : TokenKind} {n : Node} (h : Derives .expression ts n)
    (ht : t.kind = k) : Derives (.clause k) (ts ++ [t]) n ∧ given? n = some n :=
  ⟨.clause h ht, given?_of_present (h.present (fun _ hc => by cases hc) fun hc => by cases hc)⟩

include he

theorem letDeclaration_reads : Reads (letDeclaration expression) (Derives .letDecl) := by
  refine .bind (.expect .letName) fun ts t h => .bind (.accept .equal) fun ts₁ found h₁ => ?_
  obtain ⟨rfl, ht⟩ := h
  cases found with
  | none =>
    subst h₁
    refine .bind (.expect .letEnd) fun ts₂ s h₂ => .pure ?_
    obtain ⟨rfl, hs⟩ := h₂
    exact .letNil ht hs
  | some e =>
    obtain ⟨rfl, heq⟩ := h₁
    refine .bind he fun ts₂ n hn => .bind (.expect .letEnd) fun ts₃ s h₃ => .pure ?_
    obtain ⟨rfl, hs⟩ := h₃
    simpa using Derives.letValue ht heq hn hs

theorem optionalBefore_reads (k : TokenKind) : Reads (optionalBefore expression k)
    fun ts o => ∃ n, Derives (.clause k) ts n ∧ given? n = o ∧ o.getD .absent = n := by
  refine .bind .nextKind fun ts found h => ?_
  subst h
  split
  · refine .bind (.expect _) fun ts t h => .pure ?_
    obtain ⟨rfl, ht⟩ := h
    exact ⟨.absent, .noClause ht, rfl, rfl⟩
  · refine .bind he fun ts n hn => .bind (.expect _) fun ts' t h => .pure ?_
    obtain ⟨rfl, ht⟩ := h
    obtain ⟨hc, hg⟩ := clause_of_expression (k := k) hn ht
    exact ⟨n, by simpa using hc, hg, rfl⟩

theorem forInitializer_reads : Reads (forInitializer expression)
    fun ts o => ∃ n, Derives .opening ts n ∧ given? n = o := by
  refine .bind (.accept .semicolon) fun ts found h => ?_
  cases found with
  | some t =>
    obtain ⟨rfl, ht⟩ := h
    exact .pure ⟨.absent, .openingClause (.noClause ht), rfl⟩
  | none =>
    subst h
    refine .bind (.accept .letWord) fun ts found h => ?_
    cases found with
    | some t =>
      obtain ⟨rfl, ht⟩ := h
      refine .bind (letDeclaration_reads he) fun ts n hn => .pure ⟨n, .openingLet ht (by simpa using hn), ?_⟩
      exact given?_of_present (hn.present (fun _ hc => by cases hc) fun hc => by cases hc)
    | none =>
      subst h
      refine .bind he fun ts n hn => .bind (.expect _) fun ts' t h => .pure ?_
      obtain ⟨rfl, ht⟩ := h
      obtain ⟨hc, hg⟩ := clause_of_expression (k := .semicolon) hn ht
      exact ⟨n, .openingClause (by simpa using hc), hg⟩

omit he in
theorem parameters_reads (bound : Nat) : Reads (parameters bound) fun ts names => ∃ params : List Token,
    (∀ p ∈ params, p.kind = .identifier) ∧ Listed (params.map ([·])) ts ∧ names = params.map (·.name) := by
  refine .bind .nextKind fun ts found h => ?_
  subst h
  split
  · exact .pure ⟨[], by simp, .none, rfl⟩
  · refine .bind (Reads.commaSeparated (.expect .parameter) bound) fun ts names h => .pure ?_
    obtain ⟨items, hi, -, hl, rfl⟩ := h
    have hparts : items.map (·.1) = (items.map (·.2)).map ([·]) := by
      rw [List.map_map]
      exact List.map_congr_left fun i hmem => (hi i hmem).1
    refine ⟨items.map (·.2), fun p hp => ?_, ?_, rfl⟩
    · obtain ⟨i, hmem, rfl⟩ := List.mem_map.mp hp
      exact (hi i hmem).2
    · simpa [hparts] using hl

include hblock

omit he in
theorem functionDeclaration_reads (bound : Nat) : Reads (functionDeclaration block bound) (Sound .function) := by
  refine .bind (.expect .functionName) fun ts t h => .bind (.expect _) fun ts₁ l h₁ => ?_
  obtain ⟨rfl, ht⟩ := h
  obtain ⟨rfl, hl⟩ := h₁
  refine .bind (parameters_reads bound) fun ts₂ names h₂ => .bind (.expect .parametersEnd) fun ts₃ r h₃ => ?_
  obtain ⟨params, hp, hlisted, rfl⟩ := h₂
  obtain ⟨rfl, hr⟩ := h₃
  exact .bind hblock fun ts₄ body hb => .pure fun hd => by
    simpa using Derives.function ht hl hp hlisted hr (hb hd)

omit he in
theorem classDeclaration_reads (bound : Nat) {t : Token} (ht : t.kind = .classWord) :
    Reads (classDeclaration block bound) fun ts n => Sound .declaration (t :: ts) n := by
  refine .bind (.expect .className) fun ts name h => .bind (.expect _) fun ts₁ l h₁ => ?_
  obtain ⟨rfl, hname⟩ := h
  obtain ⟨rfl, hl⟩ := h₁
  refine .bind (.manyUntil _ (functionDeclaration_reads hblock bound) bound) fun ts₂ methods h₂ => ?_
  obtain ⟨items, hi, rfl, rfl⟩ := h₂
  refine .bind (.expect _) fun ts₃ r h₃ => .pure fun hd => ?_
  obtain ⟨rfl, hr⟩ := h₃
  simpa using Derives.classStep ht hname hl (derives_of_sound hi hd) hr

theorem ifStatement_reads : ∀ (rounds : Nat) {t : Token}, t.kind = .ifWord →
    Reads (ifStatement expression block t.line rounds) fun ts n => Sound .ifStep (t :: ts) n
  | 0, _, _ => .failHere _
  | rounds + 1, t, ht => by
    refine .bind he fun ts c hc => .bind hblock fun ts₁ b hb => .bind (.accept .elseWord) fun ts₂ found h₂ => ?_
    cases found with
    | none =>
      subst h₂
      refine .pure fun hd => ?_
      rw [Node.diagnostics, List.append_eq_nil_iff] at hd
      simpa using Derives.ifThen ht hc (hb hd.1)
    | some e =>
      obtain ⟨rfl, hword⟩ := h₂
      refine .bind (.accept .ifWord) fun ts₃ found h₃ => ?_
      cases found with
      | some t' =>
        obtain ⟨rfl, ht'⟩ := h₃
        refine .bind (ifStatement_reads rounds ht') fun ts₄ n hn => .pure fun hd => ?_
        rw [Node.diagnostics, List.append_eq_nil_iff] at hd
        simpa using Derives.ifElseIf ht hc (hb hd.1) hword (hn hd.2)
      | none =>
        subst h₃
        refine .bind hblock fun ts₄ b' hb' => .pure fun hd => ?_
        rw [Node.diagnostics, List.append_eq_nil_iff] at hd
        simpa using Derives.ifElse ht hc (hb hd.1) hword (hb' hd.2)

theorem forStatement_reads {t : Token} (ht : t.kind = .forWord) :
    Reads (forStatement expression block t.line) fun ts n => Sound .declaration (t :: ts) n := by
  refine .bind (.expect _) fun ts l h => .bind (forInitializer_reads he) fun ts₁ i h₁ => ?_
  obtain ⟨rfl, hl⟩ := h
  obtain ⟨i, hi, rfl⟩ := h₁
  refine .bind (optionalBefore_reads he .semicolon) fun ts₂ c h₂ => ?_
  obtain ⟨c, hc, rfl, -⟩ := h₂
  refine .bind (optionalBefore_reads he .rightParen) fun ts₃ s h₃ => .bind hblock fun ts₄ b hb => .pure fun hd => ?_
  obtain ⟨s, hs, rfl, -⟩ := h₃
  simpa using Derives.forStep ht hl hi hc hs (hb (forLoop_body hd))

theorem afterKeyword_reads (bound : Nat) {t : Token} {k : KeywordStep} (hk : keywordStep? t.kind = some k) :
    Reads (afterKeyword expression block bound t.line k) fun ts n => Sound .declaration (t :: ts) n := by
  unfold keywordStep? at hk
  split at hk <;> cases hk
  next ht => exact (letDeclaration_reads he).mono fun ts n hn _ => .letStep ht hn
  next ht => exact (functionDeclaration_reads hblock bound).mono fun ts n hn hd => .funStep ht (hn hd)
  next ht => exact classDeclaration_reads hblock bound ht
  next ht =>
    refine .bind he fun ts n hn => .bind (.expect _) fun ts' s h => .pure fun _ => ?_
    obtain ⟨rfl, hs⟩ := h
    simpa using Derives.printStep ht hn hs
  next ht => exact (ifStatement_reads he hblock bound ht).mono fun ts n hn hd => .ifStep (hn hd)
  next ht =>
    refine .bind he fun ts c hc => .bind hblock fun ts' b hb => .pure fun hd => ?_
    simpa using Derives.whileStep ht hc (hb hd)
  next ht => exact forStatement_reads he hblock ht
  next ht =>
    refine .bind (optionalBefore_reads he .semicolon) fun ts o h => .pure fun _ => ?_
    obtain ⟨n, hn, -, rfl⟩ := h
    simpa using Derives.returnStep ht hn

theorem declaration_reads (bound : Nat) : Reads (declaration expression block bound) (Sound .declaration) := by
  refine .bind (.acceptMap keywordStep?) fun ts found h => ?_
  cases found with
  | some found =>
    obtain ⟨k, t⟩ := found
    obtain ⟨rfl, hk⟩ := h
    exact afterKeyword_reads he hblock bound hk
  | none =>
    subst h
    refine .bind .nextKind fun ts found h => ?_
    subst h
    split
    · exact hblock.mono fun ts n hn hd => .blockStep (hn hd)
    · refine .bind he fun ts n hn => .bind (.expect _) fun ts' s h => .pure fun _ => ?_
      obtain ⟨rfl, hs⟩ := h
      simpa using Derives.expressionStep hn hs

end Statements

theorem blockOf_reads {step : Parser Node} (hs : Reads step (Sound .declaration)) (bound : Nat) :
    Reads (blockOf step bound) (Sound .block) := by
  refine .bind (.expect _) fun ts l h => .bind (.manyUntil _ hs bound) fun ts₁ steps h₁ => ?_
  obtain ⟨rfl, hl⟩ := h
  obtain ⟨items, hi, rfl, rfl⟩ := h₁
  refine .bind (.expect _) fun ts₂ r h₂ => .pure fun hd => ?_
  obtain ⟨rfl, hr⟩ := h₂
  simpa using Derives.block hl (derives_of_sound hi hd) hr

theorem recovering_reads {p : Parser Node} (h : Reads p (Sound .declaration)) :
    Reads (recovering p) (Sound .declaration) :=
  h.recovering.mono fun ts n hn hd => by
    obtain hn | ⟨fault, rfl⟩ := hn
    · exact hn hd
    · cases hd

theorem step_reads : ∀ bound, Reads (step bound) (Sound .declaration)
  | 0 => recovering_reads (.failHere _)
  | bound + 1 =>
    recovering_reads (declaration_reads (expression_reads (bound + 1)) (blockOf_reads (step_reads bound) (bound + 1))
      (bound + 1))

end LoxLang.Parser

namespace LoxLang.Parser

open Grammar

/-! ## Programs -/

/-- A repetition of something that never fails never fails, and ends at the end of input, at a stop, or at its bound. -/
theorem manyUntil_ok {α : Type} {item : Parser α} (hitem : ∀ e s, ∃ a s', item e s = .ok a s') (stop : TokenKind → Bool)
    (e : Line) : ∀ (bound : Nat) (s : ParseState), ∃ as s', manyUntil stop item bound e s = .ok as s' ∧
      (as.length = bound ∨ s'.rest = [] ∨ ∃ t rest, s'.rest = t :: rest ∧ stop t.kind = true)
  | 0, s => ⟨[], s, rfl, .inl rfl⟩
  | bound + 1, ⟨[], caught⟩ => ⟨[], _, rfl, .inr (.inl rfl)⟩
  | bound + 1, ⟨t :: rest, caught⟩ => by
    cases hk : stop t.kind with
    | true =>
      exact ⟨[], ⟨t :: rest, caught⟩, by simp [manyUntil, bind_apply, nextKind, hk]; rfl,
        .inr (.inr ⟨t, rest, rfl, hk⟩)⟩
    | false =>
      obtain ⟨a, s₁, ha⟩ := hitem e ⟨t :: rest, caught⟩
      obtain ⟨as, s₂, has, hend⟩ := manyUntil_ok hitem stop e bound s₁
      refine ⟨a :: as, s₂, ?_, hend.imp (congrArg (· + 1)) id⟩
      simp [manyUntil, bind_apply, nextKind, hk, ha, has]
      rfl

theorem recovering_ok (step : Parser Node) (e : Line) (s : ParseState) :
    ∃ n s', recovering step e s = .ok n s' := by
  unfold recovering
  cases step e s with
  | ok n after => exact ⟨n, after, rfl⟩
  | fail fault after => exact ⟨_, _, rfl⟩

theorem step_ok (bound : Nat) (e : Line) (s : ParseState) : ∃ n s', step bound e s = .ok n s' := by
  cases bound <;> exact recovering_ok _ e s

end LoxLang.Parser

namespace LoxLang.Grammar

/-- Nonempty items are at most as many as their tokens. -/
theorem length_le_flatMap {items : List (List Token × Node)} (h : ∀ i ∈ items, i.1 ≠ []) :
    items.length ≤ (items.flatMap (·.1)).length := by
  induction items with
  | nil => simp
  | cons i items ih =>
    have hi := List.length_pos_iff.mpr (h i List.mem_cons_self)
    have := ih fun j hj => h j (List.mem_cons_of_mem i hj)
    simp only [List.length_cons, List.flatMap_cons, List.length_append]
    omega

/-- Steps are read up to the end, and without diagnostics they are the declarations of the tokens. -/
theorem steps_sound (size : Nat) {bound : Nat} {ts : List Token} (hb : ts.length ≤ bound) (e : Line)
    (caught : List Diagnostic) : ∃ ns after, Parser.manyUntil (fun _ => false) (Parser.step size) bound e ⟨ts, caught⟩ =
      .ok ns after ∧ (Node.diagnosticsOf ns = [] → Program ts ns) := by
  obtain ⟨ns, after, hrun, hend⟩ := Parser.manyUntil_ok (Parser.step_ok size) (fun _ => false) e bound ⟨ts, caught⟩
  have hreads := Parser.Reads.manyUntil (fun _ => false) (Parser.step_reads size) bound e ⟨ts, caught⟩
  rw [hrun] at hreads
  obtain ⟨taken, htaken, items, hi, rfl, rfl⟩ := hreads
  refine ⟨_, after, hrun, fun hd => ?_⟩
  have hderives := Parser.derives_of_sound hi hd
  have hlength := length_le_flatMap fun i hmem => (hderives i hmem).nonempty
  have hrest : after.rest = [] := by
    obtain hbound | hnil | ⟨t, rest, -, hstop⟩ := hend
    · have := congrArg List.length htaken
      rw [List.length_append] at this
      rw [List.length_map] at hbound
      exact List.eq_nil_of_length_eq_zero (by simp only at this; omega)
    · exact hnil
    · cases hstop
  rw [hrest, List.append_nil] at htaken
  exact ⟨items, hderives, htaken, rfl⟩

/-- The steps of a token list without diagnostics are the declarations of its tokens. -/
theorem program_sound {tokens : List Token} (h : Node.diagnosticsOf (parse tokens) = []) :
    Program (Token.beforeEnd tokens) (parse tokens) := by
  obtain ⟨ns, after, hrun, hsound⟩ := steps_sound (Token.beforeEnd tokens).length
    (Nat.le_refl (Token.beforeEnd tokens).length) (Token.endLine tokens) []
  have hsteps : parse tokens = ns := by
    simp only [parse, parseWithLog, Parser.program, hrun]
  rw [hsteps] at h ⊢
  exact hsound h

end LoxLang.Grammar
