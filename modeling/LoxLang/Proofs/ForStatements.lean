import LoxLang.Proofs.Completeness
import LoxLang.Proofs.DirectLoops

/-!
# For statements

A `for` statement is read as the tree of the loop with its clauses (`derives_for_iff`). Resolution goes through that
tree as through the loop itself, of which the scope around a round makes no part: where it accepts the tree, it accepts
the loop, and the resolved parts are skewed (`ForLoop.Formed.resolve_desugared`).
-/

namespace LoxLang

open Grammar Resolve Scopes

/-! ## Statements -/

/-- The tokens behind the keyword are those of the loop's clauses and of its body. -/
inductive ForLoop.Derived : List Token → ForLoop → Prop
  | clauses {l ts₁ ts₂ ts₃ ts₄ i c s b} : l.kind = .leftParen → Derives .opening ts₁ i →
      Derives (.clause .semicolon) ts₂ c → Derives (.clause .rightParen) ts₃ s → Derives .block ts₄ b →
      Derived (l :: (ts₁ ++ (ts₂ ++ (ts₃ ++ ts₄)))) ⟨given? i, given? c, given? s, b⟩

/-- A declaration that starts with `for` is a loop with its clauses. -/
theorem Grammar.derives_for_iff {t : Token} (ht : t.kind = .forWord) {ts : List Token} {tree : Node} :
    Derives .declaration (t :: ts) tree ↔ ∃ loop, ForLoop.Derived ts loop ∧ tree = loop.desugared t.line := by
  constructor
  · intro h
    generalize htokens : t :: ts = tokens at h
    have hstart : ∀ {c : Category} {ts' : List Token} {n : Node}, Derives c ts' n → t :: ts = ts' →
        c.starts .forWord = true := fun h hts => by
      obtain ⟨u, rest, rfl, hu⟩ := h.first
      cases hts
      rwa [ht] at hu
    cases h with
    | forStep _ hl hi hc hs hb =>
      cases htokens
      exact ⟨_, .clauses hl hi hc hs hb, rfl⟩
    | letStep hk | funStep hk | classStep hk | printStep hk | whileStep hk | returnStep hk =>
      cases htokens
      cases ht.symm.trans hk
    | ifStep h | blockStep h => cases hstart h htokens
    | expressionStep h =>
      obtain ⟨u, rest, rfl, hu⟩ := h.first
      cases htokens
      rw [ht] at hu
      cases hu
  · rintro ⟨loop, ⟨hl, hi, hc, hs, hb⟩, rfl⟩
    exact .forStep ht hl hi hc hs hb

/-! ## The shape of a loop -/

/-- What a loop can start with. -/
inductive IsInitializer : Node → Prop
  | expression {n} : IsExpression n → IsInitializer n
  | letDecl {name n line} : IsName name → IsExpression n → IsInitializer (.letDecl name n line)

structure ForLoop.Formed (loop : ForLoop) : Prop where
  initializer : ∀ n ∈ loop.initializer, IsInitializer n
  condition : ∀ n ∈ loop.condition, IsExpression n
  increment : ∀ n ∈ loop.increment, IsExpression n
  body : ∃ ns line, loop.body = .block ns line ∧ ∀ n ∈ ns, IsStep n

namespace Grammar

theorem given?_mem {n inner : Node} (h : inner ∈ given? n) : inner = n := by
  cases n with
  | absent => cases h
  | _ => exact (Option.mem_some.mp h).symm

theorem Derives.clause_formed {k : TokenKind} {ts : List Token} {n inner : Node} (h : Derives (.clause k) ts n)
    (hp : ∀ t ∈ ts, t.Plain) (hi : inner ∈ given? n) : IsExpression inner := by
  cases given?_mem hi
  obtain rfl | hn := h.shape hp
  · cases hi
  · exact hn

theorem Derives.opening_formed {ts : List Token} {n inner : Node} (h : Derives .opening ts n) (hp : ∀ t ∈ ts, t.Plain)
    (hi : inner ∈ given? n) : IsInitializer inner := by
  cases h with
  | openingClause h => exact .expression (h.clause_formed hp hi)
  | openingLet _ h =>
    cases given?_mem hi
    have hstep : IsStep n := h.shape fun t ht => hp t (List.mem_cons_of_mem _ ht)
    cases h <;> cases hstep with
    | letDecl hname hn => exact .letDecl hname hn
    | expression h => cases h

theorem Derives.block_formed {ts : List Token} {n : Node} (h : Derives .block ts n) (hp : ∀ t ∈ ts, t.Plain) :
    ∃ ns line, n = .block ns line ∧ ∀ n ∈ ns, IsStep n := by
  have hstep : IsStep n := (h.shape hp).2
  cases h with
  | block =>
    refine ⟨_, _, rfl, ?_⟩
    cases hstep with
    | block h => exact h
    | expression h => cases h

end Grammar

theorem ForLoop.Derived.formed {ts : List Token} {loop : ForLoop} (h : loop.Derived ts) (hp : ∀ t ∈ ts, t.Plain) :
    loop.Formed := by
  cases h with
  | clauses _ hi hc hs hb =>
    exact ⟨fun n hn => hi.opening_formed (fun t ht => hp t (by simp [ht])) hn,
      fun n hn => hc.clause_formed (fun t ht => hp t (by simp [ht])) hn,
      fun n hn => hs.clause_formed (fun t ht => hp t (by simp [ht])) hn,
      hb.block_formed fun t ht => hp t (by simp [ht])⟩

/-! ## Resolution of a loop -/

def Node.resolveClause (inClass : Bool) : Option Node → Resolve (Option Node)
  | none => pure none
  | some n => do
    let n ← n.resolve inClass
    pure (some n)

namespace ForLoop

def resolveRound (inClass : Bool) (loop : ForLoop) : Resolve (Node × Option Node) := do
  let body ← loop.body.resolve inClass
  let increment ← Node.resolveClause inClass loop.increment
  pure (body, increment)

/-- The parts of a loop in one scope, in the order in which they are executed. -/
def resolve (inClass : Bool) (loop : ForLoop) : Resolve ForLoop :=
  Resolve.inScope (do
    let initializer ← Node.resolveClause inClass loop.initializer
    let condition ← Node.resolveClause inClass loop.condition
    let (body, increment) ← loop.resolveRound inClass
    pure ⟨initializer, condition, increment, body⟩)

end ForLoop

theorem Node.resolveAll_clause (inClass : Bool) (c : Option Node) (n : Node) :
    Node.resolveAll inClass (c.toList ++ [n]) = (do
      let c ← Node.resolveClause inClass c
      let n ← n.resolve inClass
      pure (c.toList ++ [n])) := by
  cases c <;> simp [Node.resolveAll, Node.resolveClause]

theorem Node.resolve_condition (inClass : Bool) (c : Option Node) (line : Line) :
    (c.getD (ForLoop.always line)).resolve inClass = (do
      let c ← Node.resolveClause inClass c
      pure (c.getD (ForLoop.always line))) := by
  cases c <;> simp [ForLoop.always, Node.resolve, Node.resolveClause]

/-- The tree of a loop is resolved part by part. -/
theorem ForLoop.resolve_tree (inClass : Bool) (loop : ForLoop) (line : Line) :
    (loop.desugared line).resolve inClass = (do
      let steps ← Resolve.inScope (do
        let initializer ← Node.resolveClause inClass loop.initializer
        let condition ← Node.resolveClause inClass loop.condition
        let round ← (loop.round line).resolve inClass
        pure (initializer.toList ++ [.whileLoop (condition.getD (always line)) round line]))
      pure (.block steps line)) := by
  simp [desugared_eq, Node.resolve, Node.resolveAll_clause, Node.resolve_condition]

/-! ## Resolved parts -/

theorem Node.IsEvaluated.goesOn {n : Node} (h : n.IsEvaluated) : n.GoesOn := by
  intro e f m signal m₁ hr
  rw [h, Exec.bind_apply] at hr
  split at hr
  · cases hr
    rfl
  · cases hr

theorem Node.letDecl_goesOn (name : String) (n : Node) (line : Line) : (Node.letDecl name n line).GoesOn := by
  intro e f m signal m₁ hr
  rw [Evaluator.executeNode, Exec.bind_apply] at hr
  split at hr
  · rw [Exec.bind_apply] at hr
    split at hr
    · cases hr
      rfl
    · cases hr
  · cases hr

/-- An expression is executed by evaluating it, and so it is once it is resolved. -/
theorem IsExpression.resolves_evaluated {n : Node} (h : IsExpression n) (inClass : Bool) (s : Scopes) :
    (n.resolve inClass).Yields s fun n' _ => n'.IsEvaluated := by
  cases h <;> rw [Node.resolve]
  all_goals
    repeat refine .bind_any fun _ _ => ?_
    exact .pure fun _ _ => rfl

theorem IsInitializer.resolves_goesOn {n : Node} (h : IsInitializer n) (inClass : Bool) (s : Scopes) :
    (n.resolve inClass).Yields s fun n' _ => n'.GoesOn := by
  cases h with
  | expression h => exact fun n' s' hr => (h.resolves_evaluated inClass s n' s' hr).goesOn
  | letDecl =>
    rw [Node.resolve]
    exact .bind_any fun _ _ => .bind_any fun _ _ => .bind_any fun _ _ => .pure (Node.letDecl_goesOn _ _ _)

namespace Resolve.Along

variable {α β : Type} {S : Scopes → Scopes → Prop} {R : α → β → Prop} {x : Resolve α} {y : Resolve β}

theorem and_left {P : α → Prop} (h : Along S R x y) (hx : ∀ s, x.Yields s fun a _ => P a) :
    Along S (fun a b => R a b ∧ P a) x y := by
  intro s s' hs a t hr
  obtain ⟨b, t', hb, hab, ht⟩ := h s s' hs a t hr
  exact ⟨b, t', hb, ⟨hab, hx s a t hr⟩, ht⟩

theorem mapLeft {γ : Type} {Q : γ → β → Prop} {f : α → γ} (h : Along S R x y) (hq : ∀ a b, R a b → Q (f a) b) :
    Along S Q (do let a ← x; Pure.pure (f a)) y := by
  have hall : Along S Q (do let a ← x; Pure.pure (f a)) (y >>= Pure.pure) := .bind h fun a b hab => .pure (hq a b hab)
  rwa [bind_pure] at hall

theorem mapRight {γ : Type} {Q : α → γ → Prop} {g : β → γ} (h : Along S R x y) (hq : ∀ a b, R a b → Q a (g b)) :
    Along S Q x (do let b ← y; Pure.pure (g b)) := by
  have hall : Along S Q (x >>= Pure.pure) (do let b ← y; Pure.pure (g b)) := .bind h fun a b hab => .pure (hq a b hab)
  rwa [bind_pure] at hall

theorem clause {R : Node → Node → Prop} {inClass : Bool} {c : Option Node}
    (h : ∀ n ∈ c, Along S R (n.resolve inClass) (n.resolve inClass)) :
    Along S (Option.Rel R) (Node.resolveClause inClass c) (Node.resolveClause inClass c) := by
  cases c with
  | none => exact .pure .none
  | some n => exact .bind (h n rfl) fun _ _ hn => .pure (.some hn)

end Resolve.Along

/-! ## Inside the scope of a loop -/

/-- One scope inside these, the same on both sides, in which all names are ready. -/
def Scopes.Ready (s s' t t' : Scopes) : Prop :=
  ∃ scope : Scope, (∀ name, scope.get? name ≠ some false) ∧ t = scope :: s ∧ t' = scope :: s'

theorem Scopes.Ready.not_pending {s s' t t' : Scopes} (h : Ready s s' t t') (name : String) :
    t'.isPending name = false := by
  obtain ⟨scope, hready, -, rfl⟩ := h
  exact beq_eq_false_iff_ne.mpr (hready name)

section Loop

variable {inClass : Bool} {p : Pattern} {s s' : Scopes} (hs : Opened p s s')
include hs

theorem Scopes.Ready.opened {t t' : Scopes} (h : Ready s s' t t') : Opened (true :: p) t t' := by
  obtain ⟨scope, -, rfl, rfl⟩ := h
  exact hs.shared scope

theorem IsExpression.along_ready {n : Node} (h : IsExpression n) :
    Along (Ready s s') (Skewed (true :: p)) (n.resolve inClass) (n.resolve inClass) :=
  .of_exactly fun _ _ ht =>
    h.resolve_along (ht.opened hs) (fun name hp => by rw [ht.not_pending] at hp; cases hp) inClass

/-- Behind a declaration its name is ready. -/
theorem IsInitializer.along_ready {n : Node} (h : IsInitializer n) :
    Along (Ready s s') (Skewed (true :: p)) (n.resolve inClass) (n.resolve inClass) := by
  cases h with
  | expression h => exact h.along_ready hs
  | @letDecl name n line hname hn =>
    rintro _ _ ⟨scope, hready, rfl, rfl⟩ a t hr
    obtain ⟨b, t', hb, hab, scope', rfl, rfl⟩ :=
      (IsStep.letDecl hname hn).resolve_along inClass p s s' hs _ _ ⟨scope, rfl, rfl⟩ a t hr
    have hscope : (Node.resolve inClass (.letDecl name n line)).Yields (scope :: s)
        fun _ t => t = (scope.set name false).set name true :: s := by
      rw [Node.resolve]
      refine .bind (Answers.declare name line).yields fun _ t₁ ht₁ => ?_
      refine .bind (Q := fun _ t₂ => t₂ = t₁) (fun n' t₂ hn' => ?_) fun _ t₂ ht₂ => ?_
      · obtain ⟨-, -, -, -, ht, -⟩ :=
          hn.resolve_along (.same (Nat.le_refl _)) (fun _ hp => hp) inClass t₁ t₁ ⟨rfl, rfl⟩ n'
          t₂ hn'
        exact ht
      · refine .bind (Answers.define name).yields fun _ t₃ ht₃ => .pure ?_
        rw [ht₃, ht₂, ht₁.2]
        rfl
    cases hscope a _ hr
    refine ⟨b, _, hb, hab, _, fun other => ?_, rfl, rfl⟩
    rw [Table.get?_set, Table.get?_set]
    split
    · exact nofun
    · exact hready other

end Loop

/-- A body is resolved to skewed blocks. -/
theorem resolveBody_blocks {inClass : Bool} {ns : List Node} (h : ∀ n ∈ ns, IsStep n) (line : Line) {q : Pattern}
    {t t' : Scopes} (ht : Opened q t t') :
    Along (Exactly t t') (fun a b => ∃ ns ns', a = .block ns line ∧ b = .block ns' line ∧ SkewedAll (true :: q) ns ns')
      (Node.resolve inClass (.block ns line)) (Node.resolve inClass (.block ns line)) := by
  rw [Node.resolve]
  exact .bind (resolveSteps_along (fun n hn => (h n hn).resolve_along inClass) ht) fun _ _ hns =>
    .pure ⟨_, _, rfl, rfl, hns⟩

/-! ## Rounds -/

/-- The tree of a round, and the body and the increment of the loop. -/
inductive RoundSkewed (p : Pattern) (line : Line) : Node → Node → Option Node → Prop
  | body {ns ns' l} : SkewedAll (true :: true :: p) ns ns' → RoundSkewed p line (.block ns l) (.block ns' l) none
  | increment {ns ns' l n n'} : SkewedAll (true :: false :: true :: p) ns ns' → Skewed (false :: true :: p) n n' →
      n.IsEvaluated → RoundSkewed p line (.block [.block ns l, n] line) (.block ns' l) (some n')

/-- Around a round with an increment the tree has a scope more, which holds nothing. -/
theorem ForLoop.Formed.resolveRound_along {loop : ForLoop} (h : loop.Formed) (inClass : Bool)
    (line : Line) {p : Pattern}
    {s s' : Scopes} (hs : Opened p s s') :
    Along (Ready s s') (fun n r => RoundSkewed p line n r.1 r.2) ((loop.round line).resolve inClass)
      (loop.resolveRound inClass) := by
  refine .of_exactly fun t t' ht => ?_
  have hopened : Opened (true :: p) t t' := ht.opened hs
  obtain ⟨ns, l, hbody, hns⟩ := h.body
  rw [ForLoop.resolveRound]
  cases hi : loop.increment with
  | none =>
    rw [ForLoop.round_of_none hi, hbody]
    refine .mapRight (resolveBody_blocks hns l hopened) fun a b hab => ?_
    obtain ⟨ns', ns'', rfl, rfl, hab⟩ := hab
    exact .body hab
  | some step =>
    have hstep := h.increment step hi
    have hready : ∀ name, t'.isPending name = true → t.enter.isPending name = true := fun name hp => by
      rw [ht.not_pending] at hp
      cases hp
    rw [ForLoop.round_of_some hi, hbody, Node.resolve]
    refine .mapLeft (R := fun steps r => RoundSkewed p line (.block steps line) r.1 r.2) (.spareScope ?_)
      fun _ _ hr => hr
    simp only [Node.resolveAll, Node.resolveClause, bind_assoc, pure_bind]
    refine .bind (resolveBody_blocks hns l hopened.spare) fun a b hab => ?_
    obtain ⟨ns', ns'', rfl, rfl, hab⟩ := hab
    exact .bind ((hstep.resolve_along hopened.spare hready inClass).and_left (hstep.resolves_evaluated inClass))
      fun _ _ hn => .pure (.increment hab hn.1 hn.2)

/-- Where the tree of a loop is resolved, the loop is resolved by itself, and their parts are skewed. -/
theorem ForLoop.Formed.resolve_along {loop : ForLoop} (h : loop.Formed) (inClass : Bool) (line : Line) {p : Pattern}
    {s s' : Scopes} (hs : Opened p s s') :
    Along (Exactly s s') (fun n direct => ∃ resolved : ForLoop, n = resolved.desugared line ∧ resolved.Proper ∧
      resolved.Skewed p direct) ((loop.desugared line).resolve inClass) (loop.resolve inClass) := by
  rw [ForLoop.resolve_tree, ForLoop.resolve]
  refine .mapLeft (R := fun steps direct => ∃ resolved : ForLoop, .block steps line = resolved.desugared line ∧
    resolved.Proper ∧ resolved.Skewed p direct) ?_ fun _ _ hr => hr
  refine .scope (T := Ready s s') ⟨[], fun _ => nofun, rfl, rfl⟩ ?_ ?_
  · rintro _ _ ⟨scope, -, rfl, rfl⟩
    exact ⟨rfl, rfl⟩
  · refine .bind (.clause fun n hn => ((h.initializer n hn).along_ready hs).and_left
      ((h.initializer n hn).resolves_goesOn inClass)) fun i i' hi => ?_
    refine .bind (.clause fun n hn => (h.condition n hn).along_ready hs) fun c c' hc => ?_
    refine .bind (h.resolveRound_along inClass line hs) fun round r hr => .pure ?_
    obtain ⟨body', s'⟩ := r
    have hfirst : (∀ n ∈ i, n.GoesOn) ∧ Option.Rel (LoxLang.Skewed (true :: p)) i i' := by
      cases hi with
      | none => exact ⟨nofun, .none⟩
      | some hn => exact ⟨fun n hmem => Option.mem_some.mp hmem ▸ hn.2, .some hn.1⟩
    cases hr with
    | @body ns ns' l hns =>
      refine ⟨⟨i, c, none, .block ns l⟩, rfl, ⟨hfirst.1, nofun⟩, hfirst.2, hc, .none, ns, ns', l, rfl, rfl, hns⟩
    | @increment ns ns' l n n' hns hn hevaluated =>
      refine ⟨⟨i, c, some n, .block ns l⟩, rfl, ⟨hfirst.1, fun k hk => ?_⟩, hfirst.2, hc, .some hn, ns,
        ns', l, rfl, rfl,
        hns⟩
      exact Option.mem_some.mp hk ▸ hevaluated

end LoxLang
