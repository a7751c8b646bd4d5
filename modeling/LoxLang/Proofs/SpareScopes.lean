import LoxLang.Proofs.Everywhere
import LoxLang.Proofs.References
import LoxLang.Proofs.Resolution

/-!
# Trees around spare scopes

Two trees may be the same apart from scopes that only the first one opens, and that hold nothing: `Skewed p n n'` says
of `n` and `n'` that their uses find their names in the same scopes, where the pattern `p` tells which of the scopes
around `n` are spare. A tree is resolved around spare scopes to one that is skewed from the tree that it is resolved to
without them (`IsStep.resolve_along`).
-/

namespace LoxLang

/-- The node is no literal that names a closure. -/
def Node.NamesNothing (n : Node) : Prop := ∀ v line, n = .literal v line → v.references = []

/-- No literal in the tree names a closure. -/
abbrev Node.Detached (n : Node) : Prop := n.Everywhere Node.NamesNothing

/-! ## Patterns -/

/-- The scopes around a place, the innermost first: whether they are shared by both sides, or spare. -/
abbrev Pattern := List Bool

namespace Pattern

/-- How many shared scopes are nearer than the one at a depth. -/
def rank (p : Pattern) (d : Nat) : Nat := (p.take d).count true

@[simp] theorem rank_zero (p : Pattern) : p.rank 0 = 0 := by rw [rank, List.take_zero, List.count_nil]

@[simp] theorem rank_shared (p : Pattern) (d : Nat) : rank (true :: p) (d + 1) = p.rank d + 1 := by
  rw [rank, List.take_succ_cons, List.count_cons_self, rank]

@[simp] theorem rank_spare (p : Pattern) (d : Nat) : rank (false :: p) (d + 1) = p.rank d := by
  rw [rank, List.take_succ_cons, List.count_cons_of_ne (by decide), rank]

/-- No scope is spare. -/
def Whole (p : Pattern) : Prop := ∀ b ∈ p, b = true

theorem Whole.shared {p : Pattern} (h : p.Whole) : Whole (true :: p) := List.forall_mem_cons.mpr ⟨rfl, h⟩

theorem whole_replicate (n : Nat) : Whole (List.replicate n true) := fun _ hb => List.eq_of_mem_replicate hb

end Pattern

/-- Depths that lead to the same scope, or none on both sides. -/
inductive DepthSkewed (p : Pattern) : Depth → Depth → Prop
  | searched : DepthSkewed p none none
  | same {d} : p.Whole → DepthSkewed p (some d) (some d)
  | counted {d} : p[d]? = some true → DepthSkewed p (some d) (some (p.rank d))

/-! ## Skewed trees -/

mutual

/-- The trees are the same, and their uses find their names in the same scopes, although the first one stands around
spare scopes. -/
inductive Skewed : Pattern → Node → Node → Prop
  | literal {p v line} : v.references = [] → Skewed p (.literal v line) (.literal v line)
  | grouping {p n n' line} : Skewed p n n' → Skewed p (.grouping n line) (.grouping n' line)
  | unary {p op n n' line} : Skewed p n n' → Skewed p (.unary op n line) (.unary op n' line)
  | binary {p op a a' b b' line} :
    Skewed p a a' → Skewed p b b' → Skewed p (.binary op a b line) (.binary op a' b' line)
  | logical {p op a a' b b' line} : Skewed p a a' → Skewed p b b' →
      Skewed p (.logical op a b line) (.logical op a' b' line)
  | var {p name line d d'} : DepthSkewed p d d' → Skewed p (.var name line d) (.var name line d')
  | assign {p name n n' line d d'} : Skewed p n n' → DepthSkewed p d d' →
      Skewed p (.assign name n line d) (.assign name n' line d')
  | this {p line d d'} : DepthSkewed p d d' → Skewed p (.this line d) (.this line d')
  | call {p n n' ns ns' line} : Skewed p n n' → SkewedAll p ns ns' → Skewed p (.call n ns line) (.call n' ns' line)
  | get {p n n' name line} : Skewed p n n' → Skewed p (.get n name line) (.get n' name line)
  | set {p n n' name v v' line} : Skewed p n n' → Skewed p v v' → Skewed p (.set n name v line) (.set n' name v' line)
  | block {p ns ns' line} : SkewedAll (true :: p) ns ns' → Skewed p (.block ns line) (.block ns' line)
  | letDecl {p name n n' line} : Skewed p n n' → Skewed p (.letDecl name n line) (.letDecl name n' line)
  | print {p n n' line} : Skewed p n n' → Skewed p (.print n line) (.print n' line)
  | ifElse {p c c' t t' e e' line} : Skewed p c c' → Skewed p t t' → Skewed p e e' →
      Skewed p (.ifElse c t e line) (.ifElse c' t' e' line)
  | whileLoop {p c c' n n' line} :
    Skewed p c c' → Skewed p n n' → Skewed p (.whileLoop c n line) (.whileLoop c' n' line)
  | function {p name params n n' line} : Skewed (true :: p) n n' →
      Skewed p (.function name params n line) (.function name params n' line)
  | returnStep {p n n' line} : Skewed p n n' → Skewed p (.returnStep n line) (.returnStep n' line)
  | classDecl {p name ns ns' line} : SkewedMethods (true :: p) ns ns' →
      Skewed p (.classDecl name ns line) (.classDecl name ns' line)
  | error {p d} : Skewed p (.error d) (.error d)
  | absent {p} : Skewed p .absent .absent
  | bare {p text} : Skewed p (.bare text) (.bare text)

inductive SkewedAll : Pattern → List Node → List Node → Prop
  | nil {p} : SkewedAll p [] []
  | cons {p n n' ns ns'} : Skewed p n n' → SkewedAll p ns ns' → SkewedAll p (n :: ns) (n' :: ns')

/-- The methods of a class inside the scope of the receiver. -/
inductive SkewedMethods : Pattern → List Node → List Node → Prop
  | nil {p} : SkewedMethods p [] []
  | method {p name params n n' line ns ns'} : Skewed (true :: p) n n' → SkewedMethods p ns ns' →
      SkewedMethods p (.function name params n line :: ns) (.function name params n' line :: ns')
  | other {p n ns ns'} : n.functionName? = none → SkewedMethods p ns ns' → SkewedMethods p (n :: ns) (n :: ns')

end

theorem SkewedAll.length_eq : ∀ {p ns ns'}, SkewedAll p ns ns' → ns'.length = ns.length
  | _, _, _, .nil => rfl
  | _, _, _, .cons _ h => congrArg (· + 1) h.length_eq

theorem Skewed.isAbsent_eq {p : Pattern} {n n' : Node} (h : Skewed p n n') : n'.isAbsent = n.isAbsent := by
  cases h <;> rfl

/-! ### Where no scope is spare -/

mutual

/-- A tree is skewed from itself where no scope is spare. -/
theorem Skewed.refl {p : Pattern} (hp : p.Whole) : ∀ n : Node, n.Detached → Skewed p n n
  | .literal v line, h => .literal (h.self v line rfl)
  | .grouping n _, h => .grouping (.refl hp n (h.child List.mem_cons_self))
  | .unary _ n _, h => .unary (.refl hp n (h.child List.mem_cons_self))
  | .binary _ a b _, h =>
    .binary (.refl hp a (h.child List.mem_cons_self)) (.refl hp b (h.child (List.mem_cons_of_mem _ List.mem_cons_self)))
  | .logical _ a b _, h =>
    .logical (.refl hp a (h.child List.mem_cons_self))
      (.refl hp b (h.child (List.mem_cons_of_mem _ List.mem_cons_self)))
  | .var _ _ none, _ => .var .searched
  | .var _ _ (some _), _ => .var (.same hp)
  | .assign _ n _ none, h => .assign (.refl hp n (h.child List.mem_cons_self)) .searched
  | .assign _ n _ (some _), h => .assign (.refl hp n (h.child List.mem_cons_self)) (.same hp)
  | .this _ none, _ => .this .searched
  | .this _ (some _), _ => .this (.same hp)
  | .call n ns _, h =>
    .call (.refl hp n (h.child List.mem_cons_self)) (.refl hp ns fun _ hm => h.child (List.mem_cons_of_mem _ hm))
  | .get n _ _, h => .get (.refl hp n (h.child List.mem_cons_self))
  | .set n _ v _, h =>
    .set (.refl hp n (h.child List.mem_cons_self)) (.refl hp v (h.child (List.mem_cons_of_mem _ List.mem_cons_self)))
  | .block ns _, h => .block (.refl hp.shared ns fun _ hm => h.child hm)
  | .letDecl _ n _, h => .letDecl (.refl hp n (h.child List.mem_cons_self))
  | .print n _, h => .print (.refl hp n (h.child List.mem_cons_self))
  | .ifElse c t e _, h =>
    .ifElse (.refl hp c (h.child List.mem_cons_self)) (.refl hp t (h.child (List.mem_cons_of_mem _ List.mem_cons_self)))
      (.refl hp e (h.child (List.mem_cons_of_mem _ (List.mem_cons_of_mem _ List.mem_cons_self))))
  | .whileLoop c n _, h =>
    .whileLoop (.refl hp c (h.child List.mem_cons_self))
      (.refl hp n (h.child (List.mem_cons_of_mem _ List.mem_cons_self)))
  | .function _ _ n _, h => .function (.refl hp.shared n (h.child List.mem_cons_self))
  | .returnStep n _, h => .returnStep (.refl hp n (h.child List.mem_cons_self))
  | .classDecl _ ns _, h => .classDecl (.refl hp.shared ns fun _ hm => h.child hm)
  | .error _, _ => .error
  | .absent, _ => .absent
  | .bare _, _ => .bare

theorem SkewedAll.refl {p : Pattern} (hp : p.Whole) : ∀ ns : List Node, (∀ n ∈ ns, n.Detached) → SkewedAll p ns ns
  | [], _ => .nil
  | n :: ns, h => .cons (.refl hp n (h n List.mem_cons_self)) (.refl hp ns fun m hm => h m (List.mem_cons_of_mem _ hm))

theorem SkewedMethods.refl {p : Pattern} (hp : p.Whole) :
    ∀ ns : List Node, (∀ n ∈ ns, n.Detached) → SkewedMethods p ns ns
  | [], _ => .nil
  | n :: ns, h => by
    have hrest := SkewedMethods.refl hp ns fun m hm => h m (List.mem_cons_of_mem _ hm)
    cases n with
    | function name params body line =>
      exact .method (.refl hp.shared body ((h _ List.mem_cons_self).child List.mem_cons_self)) hrest
    | _ => exact .other rfl hrest

end

/-! ## Scopes -/

namespace Scopes

/-- The scopes around a place on both sides. The first side has spare ones among them. -/
inductive Opened : Pattern → Scopes → Scopes → Prop
  | same {n s} : s.length ≤ n → Opened (List.replicate n true) s s
  | shared {p s s'} (scope : Scope) : Opened p s s' → Opened (true :: p) (scope :: s) (scope :: s')
  | spare {p s s'} : Opened p s s' → Opened (false :: p) ([] :: s) s'

/-- A name is declared in a scope that is shared, or in none on both sides. -/
theorem Opened.depthOf? {p : Pattern} {s s' : Scopes} (h : Opened p s s') (name : String) :
    s.depthOf? name = none ∧ s'.depthOf? name = none ∨
      ∃ d, s.depthOf? name = some d ∧ p[d]? = some true ∧ s'.depthOf? name = some (p.rank d) := by
  induction h with
  | @same n s hlen =>
    cases hd : s.depthOf? name with
    | none => exact .inl ⟨rfl, rfl⟩
    | some d =>
      obtain ⟨hlt, -⟩ := List.findIdx?_eq_some_iff_getElem.mp hd
      have hn : d < n := Nat.lt_of_lt_of_le hlt hlen
      have hrank : Pattern.rank (List.replicate n true) d = d := by
        rw [Pattern.rank, List.take_replicate, Nat.min_eq_left (Nat.le_of_lt hn), List.count_replicate_self]
      exact .inr ⟨d, rfl, by rw [List.getElem?_replicate, if_pos hn], by rw [hrank]⟩
  | @shared p s s' scope _ ih =>
    rw [Scopes.depthOf?, Scopes.depthOf?, List.findIdx?_cons, List.findIdx?_cons]
    by_cases hc : scope.contains name = true
    · rw [if_pos hc, if_pos hc]
      exact .inr ⟨0, rfl, rfl, by rw [Pattern.rank_zero]⟩
    · rw [if_neg hc, if_neg hc]
      obtain ⟨h, h'⟩ | ⟨d, h, hd, h'⟩ := ih
      · rw [Scopes.depthOf?] at h h'
        exact .inl ⟨by rw [h]; rfl, by rw [h']; rfl⟩
      · rw [Scopes.depthOf?] at h h'
        exact .inr ⟨d + 1, by rw [h]; rfl, hd, by rw [h', Pattern.rank_shared]; rfl⟩
  | @spare p s s' _ ih =>
    rw [Scopes.depthOf?, List.findIdx?_cons, if_neg (by rw [Table.contains_nil]; decide)]
    obtain ⟨h, h'⟩ | ⟨d, h, hd, h'⟩ := ih
    · rw [Scopes.depthOf?] at h
      exact .inl ⟨by rw [h]; rfl, h'⟩
    · rw [Scopes.depthOf?] at h
      exact .inr ⟨d + 1, by rw [h]; rfl, hd, by rw [h', Pattern.rank_spare]⟩

theorem Opened.depthSkewed {p : Pattern} {s s' : Scopes} (h : Opened p s s') (name : String) :
    DepthSkewed p (s.depthOf? name) (s'.depthOf? name) := by
  obtain ⟨h, h'⟩ | ⟨d, h, hd, h'⟩ := h.depthOf? name
  · rw [h, h']
    exact .searched
  · rw [h, h']
    exact .counted hd

/-- Nothing but these scopes. -/
def Exactly (s s' t t' : Scopes) : Prop := t = s ∧ t' = s'

/-- One scope inside these, the same on both sides. -/
def Inside (s s' t t' : Scopes) : Prop := ∃ scope, t = scope :: s ∧ t' = scope :: s'

end Scopes

/-! ## Resolution around spare scopes -/

/-- Where the first computation succeeds in related scopes, the second succeeds with a related result, and their scopes
are related again. -/
def Resolve.Along {α β : Type} (S : Scopes → Scopes → Prop) (R : α → β → Prop) (x : Resolve α) (y : Resolve β) : Prop :=
  ∀ s s', S s s' → ∀ a t, x.run s = .ok (a, t) → ∃ b t', y.run s' = .ok (b, t') ∧ R a b ∧ S t t'

namespace Resolve.Along

open Scopes

variable {α β γ δ : Type} {S : Scopes → Scopes → Prop} {R : α → β → Prop}

theorem pure {a : α} {b : β} (h : R a b) : Along S R (Pure.pure a) (Pure.pure b) := fun s s' hs a' t hr => by
  cases hr
  exact ⟨b, s', rfl, h, hs⟩

theorem bind {Q : γ → δ → Prop} {x : Resolve α} {y : Resolve β} {f : α → Resolve γ} {g : β → Resolve δ}
    (hx : Along S R x y) (hf : ∀ a b, R a b → Along S Q (f a) (g b)) : Along S Q (x >>= f) (y >>= g) := by
  intro s s' hs c t hr
  rw [Resolve.run_bind] at hr
  split at hr
  · next a s₁ ha =>
    obtain ⟨b, s₁', hb, hab, hs₁⟩ := hx s s' hs a s₁ ha
    obtain ⟨d, t', hd, hcd, ht⟩ := hf a b hab s₁ s₁' hs₁ c t hr
    exact ⟨d, t', by rw [Resolve.run_bind, hb]; exact hd, hcd, ht⟩
  · cases hr

/-- What leaves the scopes as they are can be done in all scopes where it is known. -/
theorem of_exactly {x : Resolve α} {y : Resolve β} (h : ∀ s s', S s s' → Along (Exactly s s') R x y) :
    Along S R x y := by
  intro s s' hs a t hr
  obtain ⟨b, t', hb, hab, rfl, rfl⟩ := h s s' hs s s' ⟨rfl, rfl⟩ a t hr
  exact ⟨b, t', hb, hab, hs⟩

/-- A new scope, in which the computations keep a relation of their own. -/
theorem scope {T : Scopes → Scopes → Prop} {x : Resolve α} {y : Resolve β} {s s' : Scopes} (henter : T s.enter s'.enter)
    (hleave : ∀ t t', T t t' → t.leave = s ∧ t'.leave = s') (h : Along T R x y) :
    Along (Exactly s s') R (inScope x) (inScope y) := by
  rintro _ _ ⟨rfl, rfl⟩ a t hr
  rw [Resolve.run_inScope] at hr
  split at hr
  · next t₀ ha =>
    cases hr
    obtain ⟨b, t', hb, hab, ht⟩ := h _ _ henter _ _ ha
    obtain ⟨hs, hs'⟩ := hleave _ _ ht
    exact ⟨b, _, by rw [Resolve.run_inScope, hb], hab, hs, hs'⟩
  · cases hr

theorem inScope {x : Resolve α} {y : Resolve β} (h : ∀ s s', S s s' → Along (Inside s s') R x y) :
    Along S R (inScope x) (inScope y) := by
  refine .of_exactly fun s s' hs => .scope ⟨[], rfl, rfl⟩ ?_ (h s s' hs)
  rintro _ _ ⟨scope, rfl, rfl⟩
  exact ⟨rfl, rfl⟩

/-- A scope on the first side only. -/
theorem spareScope {x : Resolve α} {y : Resolve β} {s s' : Scopes} (h : Along (Exactly s.enter s') R x y) :
    Along (Exactly s s') R (Resolve.inScope x) y := by
  rintro _ _ ⟨rfl, rfl⟩ a t hr
  rw [Resolve.run_inScope] at hr
  split at hr
  · next ha =>
    cases hr
    obtain ⟨b, t', hb, hab, rfl, rfl⟩ := h _ _ ⟨rfl, rfl⟩ _ _ ha
    exact ⟨b, _, hb, hab, rfl, rfl⟩
  · cases hr

theorem depthOf {p : Pattern} {s s' : Scopes} (h : Opened p s s') (name : String) :
    Along (Exactly s s') (DepthSkewed p) (depthOf name) (depthOf name) := by
  rintro _ _ ⟨rfl, rfl⟩ a t hr
  cases hr
  exact ⟨_, _, rfl, h.depthSkewed name, rfl, rfl⟩

theorem checkReady {s s' : Scopes} {name : String} (h : s'.isPending name = true → s.isPending name = true)
    (line : Line) : Along (Exactly s s') (fun _ _ => True) (checkReady name line) (checkReady name line) := by
  rintro _ _ ⟨rfl, rfl⟩ a t hr
  rw [Resolve.run_checkReady] at hr ⊢
  split at hr
  · cases hr
  · next hp =>
    cases hr
    exact ⟨(), _, if_neg fun hp' => hp (h hp'), trivial, rfl, rfl⟩

theorem checkInClass (inClass : Bool) (line : Line) :
    Along S (fun _ _ => True) (checkInClass inClass line) (checkInClass inClass line) := by
  cases inClass with
  | true => exact .pure trivial
  | false =>
    intro s s' hs a t hr
    cases hr

/-! ### In the innermost scope -/

section Inside

variable {s s' : Scopes}

theorem declare (name : String) (line : Line) :
    Along (Inside s s') (fun _ _ => True) (declare name line) (declare name line) := by
  rintro _ _ ⟨scope, rfl, rfl⟩ a t hr
  rw [Resolve.run_declare] at hr ⊢
  split at hr
  · cases hr
  · next hc =>
    cases hr
    exact ⟨(), _, if_neg hc, trivial, _, rfl, rfl⟩

theorem define (name : String) : Along (Inside s s') (fun _ _ => True) (define name) (define name) := by
  rintro _ _ ⟨scope, rfl, rfl⟩ a t hr
  cases hr
  exact ⟨(), _, rfl, trivial, _, rfl, rfl⟩

theorem declareParameters (line : Line) (params : List String) :
    Along (Inside s s') (fun _ _ => True) (params.forM (declareParameter line))
      (params.forM (declareParameter line)) := by
  induction params with
  | nil => exact .pure trivial
  | cons p params ih => exact .bind (.bind (.declare p line) fun _ _ _ => .define p) fun _ _ _ => ih

end Inside

end Resolve.Along

open Resolve Scopes

/-! ### Expressions -/

theorem resolveAll_along {S : Scopes → Scopes → Prop} {p : Pattern} {inClass : Bool} {ns : List Node}
    (h : ∀ n ∈ ns, Along S (Skewed p) (Node.resolve inClass n) (Node.resolve inClass n)) :
    Along S (SkewedAll p) (Node.resolveAll inClass ns) (Node.resolveAll inClass ns) := by
  induction ns with
  | nil => exact .pure .nil
  | cons n ns ih =>
    exact .bind (h n List.mem_cons_self) fun _ _ hn =>
      .bind (ih fun m hm => h m (List.mem_cons_of_mem n hm)) fun _ _ hns => .pure (.cons hn hns)

/-- An expression leaves the scopes as they are, and is resolved to skewed trees. A name that is not ready on the second
side must not be so on the first. -/
theorem IsExpression.resolve_along {n : Node} (h : IsExpression n) {p : Pattern} {s s' : Scopes} (hs : Opened p s s')
    (hready : ∀ name, s'.isPending name = true → s.isPending name = true) (inClass : Bool) :
    Along (Exactly s s') (Skewed p) (n.resolve inClass) (n.resolve inClass) := by
  induction h with
  | literal hv => exact .pure (.literal hv.references_eq)
  | grouping _ ih => exact .bind ih fun _ _ hn => .pure (.grouping hn)
  | unary _ ih => exact .bind ih fun _ _ hn => .pure (.unary hn)
  | binary _ _ iha ihb => exact .bind iha fun _ _ ha => .bind ihb fun _ _ hb => .pure (.binary ha hb)
  | logical _ _ iha ihb => exact .bind iha fun _ _ ha => .bind ihb fun _ _ hb => .pure (.logical ha hb)
  | @var name line _ =>
    exact .bind (.checkReady (hready name) line) fun _ _ _ => .bind (.depthOf hs name) fun _ _ hd => .pure (.var hd)
  | @this line =>
    exact .bind (.checkInClass inClass line) fun _ _ _ => .bind (.depthOf hs "this") fun _ _ hd => .pure (.this hd)
  | @assign name _ _ _ _ ih =>
    exact .bind ih fun _ _ hn => .bind (.depthOf hs name) fun _ _ hd => .pure (.assign hn hd)
  | @call _ args _ _ _ ih ihargs =>
    exact .bind ih fun _ _ hn => .bind (resolveAll_along ihargs) fun _ _ hns => .pure (.call hn hns)
  | get _ ih => exact .bind ih fun _ _ hn => .pure (.get hn)
  | set _ _ ihn ihv => exact .bind ihv fun _ _ hv => .bind ihn fun _ _ hn => .pure (.set hn hv)

/-! ### Steps -/

/-- Inside scopes of the pattern the node is resolved to skewed trees on both sides. -/
def ResolvesAlong (inClass : Bool) (n : Node) : Prop :=
  ∀ p s s', Opened p s s' → Along (Inside s s') (Skewed (true :: p)) (n.resolve inClass) (n.resolve inClass)

theorem IsExpression.resolvesAlong {n : Node} (h : IsExpression n) (inClass : Bool) : ResolvesAlong inClass n :=
  fun p s s' hs => .of_exactly fun t t' ⟨scope, ht, ht'⟩ => by
    subst ht ht'
    exact h.resolve_along (hs.shared scope) (fun _ hp => hp) inClass

/-- The steps of a block are resolved alike in all scopes of the pattern, as they have one of their own. -/
theorem resolveSteps_along {inClass : Bool} {ns : List Node} (h : ∀ n ∈ ns, ResolvesAlong inClass n) {p : Pattern}
    {s s' : Scopes} (hs : Opened p s s') :
    Along (Exactly s s') (SkewedAll (true :: p)) (Resolve.inScope (Node.resolveAll inClass ns))
      (Resolve.inScope (Node.resolveAll inClass ns)) := by
  refine .inScope fun t t' ⟨ht, ht'⟩ => ?_
  subst ht ht'
  exact resolveAll_along fun n hn => h n hn p _ _ hs

theorem resolveBody_along {inClass : Bool} {body : Node} (h : ResolvesAlong inClass body) {p : Pattern} {s s' : Scopes}
    (hs : Opened p s s') (line : Line) (params : List String) :
    Along (Inside s s') (Skewed (true :: true :: p))
      (Resolve.inScope (do
        params.forM (declareParameter line)
        Node.resolve inClass body))
      (Resolve.inScope (do
        params.forM (declareParameter line)
        Node.resolve inClass body)) :=
  .inScope fun t t' ⟨scope, ht, ht'⟩ => by
    subst ht ht'
    exact .bind (.declareParameters line params) fun _ _ _ => h _ _ _ (hs.shared scope)

theorem resolveMethods_along {methods : List Node} (hm : ∀ n ∈ methods, n.functionName?.isSome)
    (h : ∀ name params body line, .function name params body line ∈ methods → ResolvesAlong true body) {p : Pattern}
    {s s' : Scopes} (hs : Opened p s s') :
    Along (Inside s s') (SkewedMethods (true :: p)) (Node.resolveMethods methods) (Node.resolveMethods methods) := by
  induction methods with
  | nil => exact .pure .nil
  | cons n methods ih =>
    have hn := hm n List.mem_cons_self
    cases n with
    | function name params body line =>
      rw [Node.resolveMethods]
      refine .bind (resolveBody_along (h name params body line List.mem_cons_self) hs line params) fun _ _ hb => ?_
      exact .bind (ih (fun m hmem => hm m (List.mem_cons_of_mem _ hmem)) fun _ _ _ _ hmem =>
        h _ _ _ _ (List.mem_cons_of_mem _ hmem)) fun _ _ hrest => .pure (.method hb hrest)
    | _ => cases hn

theorem IsStep.resolve_along {n : Node} (h : IsStep n) (inClass : Bool) : ResolvesAlong inClass n := by
  induction h generalizing inClass with
  | expression h => exact h.resolvesAlong inClass
  | block _ ih =>
    exact fun p s s' hs => .of_exactly fun t t' ⟨scope, ht, ht'⟩ => by
      subst ht ht'
      exact .bind (resolveSteps_along (fun n hn => ih n hn inClass) (hs.shared scope)) fun _ _ hns => .pure (.block hns)
  | @letDecl name _ line _ hn =>
    exact fun p s s' hs => .bind (.declare name line) fun _ _ _ =>
      .bind (hn.resolvesAlong inClass p s s' hs) fun _ _ hn =>
      .bind (.define name) fun _ _ _ => .pure (.letDecl hn)
  | @function name params body line _ _ _ _ ih =>
    exact fun p s s' hs => .bind (.declare name line) fun _ _ _ => .bind (.define name) fun _ _ _ =>
      .bind (resolveBody_along (ih inClass) hs line params) fun _ _ hb => .pure (.function hb)
  | @classDecl name methods line _ hmethods _ _ ih =>
    refine fun p s s' hs => .bind (.declare name line) fun _ _ _ => .bind (.define name) fun _ _ _ => ?_
    refine .bind (R := SkewedMethods (true :: true :: p)) (.inScope fun t t' ⟨scope, ht, ht'⟩ => ?_) fun _ _ hm =>
      .pure (.classDecl hm)
    subst ht ht'
    exact .bind (.define "this") fun _ _ _ =>
      resolveMethods_along hmethods (fun m params body l hm => ih m params body l hm true) (hs.shared scope)
  | print h =>
    exact fun p s s' hs => .bind (h.resolvesAlong inClass p s s' hs) fun _ _ hn => .pure (.print hn)
  | ifThen h _ _ iht =>
    exact fun p s s' hs => .bind (h.resolvesAlong inClass p s s' hs) fun _ _ hc =>
      .bind (iht inClass p s s' hs) fun _ _ ht => .bind (.pure .absent) fun _ _ he => .pure (.ifElse hc ht he)
  | ifElse h _ _ _ _ iht ihe =>
    exact fun p s s' hs => .bind (h.resolvesAlong inClass p s s' hs) fun _ _ hc =>
      .bind (iht inClass p s s' hs) fun _ _ ht => .bind (ihe inClass p s s' hs) fun _ _ he => .pure (.ifElse hc ht he)
  | whileLoop h _ _ ih =>
    exact fun p s s' hs => .bind (h.resolvesAlong inClass p s s' hs) fun _ _ hc =>
      .bind (ih inClass p s s' hs) fun _ _ hb => .pure (.whileLoop hc hb)
  | returnNil => exact fun p s s' hs => .bind (.pure .absent) fun _ _ hn => .pure (.returnStep hn)
  | returnValue h =>
    exact fun p s s' hs => .bind (h.resolvesAlong inClass p s s' hs) fun _ _ hn => .pure (.returnStep hn)

end LoxLang
