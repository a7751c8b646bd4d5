import LoxLang.Proofs.Alike
import LoxLang.Proofs.Relocation
import LoxLang.Proofs.Resolution

/-!
# Resolution in a wider global scope

A tree that is resolved behind other declarations is resolved without them too, to a tree that is the same apart from
lines and depths (`resolve_follows`). So the resolved form of two programs one behind the other is that of the first,
followed by a tree like that of the second alone (`resolve_append`).
-/

namespace LoxLang

/-! ## Wider scopes -/

/-- The first scopes are the second ones, with more names in the global scope. -/
inductive ScopesAlike (more : Scope) : Scopes → Scopes → Prop
  | none : ScopesAlike more [] []
  | outermost {g g'} : (∀ name, g.get? name = (g'.get? name).or (more.get? name)) → ScopesAlike more [g] [g']
  | inner {scope s s'} : ScopesAlike more s s' → ScopesAlike more (scope :: s) (scope :: s')

/-- Marking a name changes both global scopes alike. -/
theorem Table.get?_set_or {more g g' : Scope} (h : ∀ name, g.get? name = (g'.get? name).or (more.get? name))
    (name : String) (ready : Bool) (other : String) :
    (g.set name ready).get? other = ((g'.set name ready).get? other).or (more.get? other) := by
  rw [Table.get?_set, Table.get?_set]
  split
  · rfl
  · exact h other

namespace ScopesAlike

variable {more : Scope} {s s' : Scopes}

theorem mark (h : ScopesAlike more s s') (name : String) (ready : Bool) :
    ScopesAlike more (s.mark name ready) (s'.mark name ready) := by
  cases h with
  | none => exact .none
  | outermost h => exact .outermost (Table.get?_set_or h name ready)
  | inner h => exact .inner h

theorem leave (h : ScopesAlike more s s') : ScopesAlike more s.leave s'.leave := by
  cases h with
  | none => exact .none
  | outermost => exact .none
  | inner h => exact h

theorem innermost (h : ScopesAlike more s s') {name : String} {b : Bool} (hb : s'.innermost.get? name = some b) :
    s.innermost.get? name = some b := by
  cases h with
  | none => exact hb
  | outermost h =>
    rw [Scopes.innermost, List.headD_cons] at hb ⊢
    rw [h, hb, Option.some_or]
  | inner => exact hb

theorem contains_innermost (h : ScopesAlike more s s') {name : String} (hn : s.innermost.contains name = false) :
    s'.innermost.contains name = false := by
  rw [Bool.eq_false_iff] at hn ⊢
  intro hc
  obtain ⟨b, hb⟩ := Table.contains_iff.mp hc
  exact hn (Table.contains_iff.mpr ⟨b, h.innermost hb⟩)

theorem isPending (h : ScopesAlike more s s') {name : String} (hn : s.isPending name = false) :
    s'.isPending name = false := by
  rw [Scopes.isPending, beq_eq_false_iff_ne] at hn ⊢
  exact fun hp => hn (h.innermost hp)

end ScopesAlike

/-! ## Resolution in wider scopes -/

/-- Where the first computation succeeds in wider scopes, the second succeeds with a related result. -/
def Resolve.Follows {α β : Type} (more : Scope) (R : α → β → Prop) (x : Resolve α) (y : Resolve β) : Prop :=
  ∀ s s', ScopesAlike more s s' → ∀ a t, x.run s = .ok (a, t) →
    ∃ b t', y.run s' = .ok (b, t') ∧ R a b ∧ ScopesAlike more t t'

namespace Resolve.Follows

variable {α β γ δ : Type} {more : Scope} {R : α → β → Prop}

theorem pure {a : α} {b : β} (h : R a b) : Follows more R (Pure.pure a) (Pure.pure b) := fun s s' hs a' t hr => by
  cases hr
  exact ⟨b, s', rfl, h, hs⟩

theorem throw (fault : ResolveFault) (y : Resolve β) : Follows more R (throw fault : Resolve α) y :=
  fun _ _ _ _ _ hr => by cases hr

theorem bind {Q : γ → δ → Prop} {x : Resolve α} {y : Resolve β} {f : α → Resolve γ} {g : β → Resolve δ}
    (hx : Follows more R x y) (hf : ∀ a b, R a b → Follows more Q (f a) (g b)) :
    Follows more Q (x >>= f) (y >>= g) := by
  intro s s' hs c t hr
  rw [Resolve.run_bind] at hr
  split at hr
  · next a s₁ ha =>
    obtain ⟨b, s₁', hb, hab, hs₁⟩ := hx s s' hs a s₁ ha
    obtain ⟨d, t', hd, hcd, ht⟩ := hf a b hab s₁ s₁' hs₁ c t hr
    exact ⟨d, t', by rw [Resolve.run_bind, hb]; exact hd, hcd, ht⟩
  · cases hr

theorem declare (name : String) (line line' : Line) :
    Follows more (fun _ _ => True) (declare name line) (declare name line') := by
  intro s s' hs a t hr
  rw [Resolve.run_declare] at hr ⊢
  split at hr
  · cases hr
  · next hc =>
    cases hr
    rw [if_neg (by rw [hs.contains_innermost (Bool.eq_false_iff.mpr hc)]; decide)]
    exact ⟨(), _, rfl, trivial, hs.mark name false⟩

theorem define (name : String) : Follows more (fun _ _ => True) (define name) (define name) := by
  intro s s' hs a t hr
  rw [Resolve.run_define] at hr
  cases hr
  exact ⟨(), _, Resolve.run_define s' name, trivial, hs.mark name true⟩

theorem checkReady (name : String) (line line' : Line) :
    Follows more (fun _ _ => True) (checkReady name line) (checkReady name line') := by
  intro s s' hs a t hr
  rw [Resolve.run_checkReady] at hr ⊢
  split at hr
  · cases hr
  · next hp =>
    cases hr
    rw [if_neg (by rw [hs.isPending (Bool.eq_false_iff.mpr hp)]; decide)]
    exact ⟨(), _, rfl, trivial, hs⟩

theorem checkInClass (inClass : Bool) (line line' : Line) :
    Follows more (fun _ _ => True) (checkInClass inClass line) (checkInClass inClass line') := by
  cases inClass with
  | true => exact .pure trivial
  | false => exact .throw _ _

theorem depthOf (name : String) : Follows more (fun _ _ => True) (depthOf name) (depthOf name) := by
  intro s s' hs a t hr
  rw [Resolve.run_depthOf] at hr
  cases hr
  exact ⟨_, _, Resolve.run_depthOf s' name, trivial, hs⟩

theorem inScope {x : Resolve α} {y : Resolve β} (h : Follows more R x y) : Follows more R (inScope x) (inScope y) := by
  intro s s' hs a t hr
  rw [Resolve.run_inScope] at hr
  split at hr
  · next ha =>
    cases hr
    obtain ⟨b, s₁', hb, hab, hs₁⟩ := h s.enter s'.enter (.inner hs) _ _ ha
    exact ⟨b, s₁'.leave, by rw [Resolve.run_inScope, hb], hab, hs₁.leave⟩
  · cases hr

theorem declareParameters (params : List String) (line line' : Line) : Follows more (fun _ _ => True)
    (params.forM (Resolve.declareParameter line)) (params.forM (Resolve.declareParameter line')) := by
  induction params with
  | nil => exact .pure trivial
  | cons p params ih =>
    have hp : Follows more (fun _ _ => True) (Resolve.declareParameter line p) (Resolve.declareParameter line' p) :=
      .bind (.declare p line line') fun _ _ _ => .define p
    exact .bind hp fun _ _ _ => ih

end Resolve.Follows

namespace Node

open Resolve

variable {more : Scope} {f : Line → Line}

mutual

/-- What is resolved in wider scopes is resolved in the narrower ones too, to a tree that is similar. -/
theorem resolve_follows (inClass : Bool) : ∀ n : Node,
    Follows more Similar (resolve inClass (n.renumber f)) (resolve inClass n)
  | error _ => .throw _ _
  | bare _ => .throw _ _
  | absent => .pure .absent
  | literal _ _ => .pure (.literal trivial)
  | block steps _ =>
    .bind (.inScope (resolveAll_follows inClass steps)) fun _ _ h => .pure (.block trivial h)
  | letDecl name initializer line =>
    .bind (.declare name _ line) fun _ _ _ => .bind (resolve_follows inClass initializer) fun _ _ h =>
      .bind (.define name) fun _ _ _ => .pure (.letDecl trivial h)
  | function name params body line =>
    .bind (.declare name _ line) fun _ _ _ => .bind (.define name) fun _ _ _ =>
      .bind (.inScope (.bind (.declareParameters params _ line) fun _ _ _ => resolve_follows inClass body))
        fun _ _ h => .pure (.function trivial h)
  | classDecl name methods line =>
    .bind (.declare name _ line) fun _ _ _ => .bind (.define name) fun _ _ _ =>
      .bind (.inScope (.bind (.define "this") fun _ _ _ => resolveMethods_follows methods)) fun _ _ h =>
        .pure (.classDecl trivial h)
  | print expression _ => .bind (resolve_follows inClass expression) fun _ _ h => .pure (.print trivial h)
  | ifElse condition thenBranch elseBranch _ =>
    .bind (resolve_follows inClass condition) fun _ _ hc => .bind (resolve_follows inClass thenBranch) fun _ _ ht =>
      .bind (resolve_follows inClass elseBranch) fun _ _ he => .pure (.ifElse trivial hc ht he)
  | whileLoop condition body _ =>
    .bind (resolve_follows inClass condition) fun _ _ hc => .bind (resolve_follows inClass body) fun _ _ hb =>
      .pure (.whileLoop trivial hc hb)
  | returnStep value _ => .bind (resolve_follows inClass value) fun _ _ h => .pure (.returnStep trivial h)
  | var name line _ =>
    .bind (.checkReady name _ line) fun _ _ _ => .bind (.depthOf name) fun _ _ _ => .pure (.var trivial trivial)
  | assign name value _ _ =>
    .bind (resolve_follows inClass value) fun _ _ h => .bind (.depthOf name) fun _ _ _ =>
      .pure (.assign trivial trivial h)
  | this line _ =>
    .bind (.checkInClass inClass _ line) fun _ _ _ => .bind (.depthOf "this") fun _ _ _ => .pure (.this trivial trivial)
  | grouping inner _ => .bind (resolve_follows inClass inner) fun _ _ h => .pure (.grouping trivial h)
  | unary _ operand _ => .bind (resolve_follows inClass operand) fun _ _ h => .pure (.unary trivial h)
  | binary _ left right _ =>
    .bind (resolve_follows inClass left) fun _ _ ha => .bind (resolve_follows inClass right) fun _ _ hb =>
      .pure (.binary trivial ha hb)
  | logical _ left right _ =>
    .bind (resolve_follows inClass left) fun _ _ ha => .bind (resolve_follows inClass right) fun _ _ hb =>
      .pure (.logical trivial ha hb)
  | call callee arguments _ =>
    .bind (resolve_follows inClass callee) fun _ _ hn => .bind (resolveAll_follows inClass arguments) fun _ _ hargs =>
      .pure (.call trivial hn hargs)
  | get object _ _ => .bind (resolve_follows inClass object) fun _ _ h => .pure (.get trivial h)
  | set object _ value _ =>
    .bind (resolve_follows inClass value) fun _ _ hv => .bind (resolve_follows inClass object) fun _ _ hn =>
      .pure (.set trivial hn hv)

theorem resolveAll_follows (inClass : Bool) : ∀ ns : List Node,
    Follows more AllSimilar (resolveAll inClass (renumberAll f ns)) (resolveAll inClass ns)
  | [] => .pure .nil
  | n :: ns =>
    .bind (resolve_follows inClass n) fun _ _ hn => .bind (resolveAll_follows inClass ns) fun _ _ hns =>
      .pure (.cons hn hns)

theorem resolveMethods_follows : ∀ ns : List Node,
    Follows more AllSimilar (resolveMethods (renumberAll f ns)) (resolveMethods ns)
  | [] => .pure .nil
  | function _ params body line :: ns =>
    .bind (.inScope (.bind (.declareParameters params _ line) fun _ _ _ => resolve_follows true body))
      fun _ _ hb => .bind (resolveMethods_follows ns) fun _ _ hns => .pure (.cons (.function trivial hb) hns)
  | error _ :: _ | bare _ :: _ | absent :: _ | literal .. :: _ | block .. :: _ | letDecl .. :: _ | classDecl .. :: _
  | print .. :: _ | ifElse .. :: _ | whileLoop .. :: _ | returnStep .. :: _ | var .. :: _ | assign .. :: _
  | this .. :: _
  | grouping .. :: _ | unary .. :: _ | binary .. :: _ | logical .. :: _ | call .. :: _ | get .. :: _ | set .. :: _ =>
    .throw _ _

end

end Node

/-! ## One program behind another -/

/-- Behind steps, the layer they stand in holds what it held before and what they declare, which is ready. -/
theorem behindAll_single (opening : Opening) (ns : List Node) : ∀ names : Scope, ∃ names' : Scope,
    behindAll [⟨opening, names⟩] ns = [⟨opening, names'⟩] ∧ ∀ name b, names'.get? name = some b →
      b = true ∧ (∃ n ∈ ns, n.declares? = some name) ∨ names.get? name = some b := by
  induction ns with
  | nil => exact fun names => ⟨names, rfl, fun _ _ => .inr⟩
  | cons n ns ih =>
    intro names
    have hstep : ∃ names₁ : Scope, behind [⟨opening, names⟩] n = [⟨opening, names₁⟩] ∧ ∀ name b,
        names₁.get? name = some b → b = true ∧ n.declares? = some name ∨ names.get? name = some b := by
      unfold behind
      cases hd : n.declares? with
      | none => exact ⟨names, rfl, fun _ _ => .inr⟩
      | some x =>
        refine ⟨names.set x true, rfl, fun name b hb => ?_⟩
        rw [Table.get?_set] at hb
        split at hb
        · next hx => cases hb; exact .inl ⟨rfl, congrArg some hx⟩
        · exact .inr hb
    obtain ⟨names₁, hnames₁, hfirst⟩ := hstep
    obtain ⟨names', hnames', hrest⟩ := ih names₁
    refine ⟨names', by rw [behindAll, List.foldl_cons, hnames₁]; exact hnames', fun name b hb => ?_⟩
    obtain ⟨htrue, m, hm, hdecl⟩ | hb := hrest name b hb
    · exact .inl ⟨htrue, m, List.mem_cons_of_mem n hm, hdecl⟩
    · obtain ⟨htrue, hdecl⟩ | hb := hfirst name b hb
      · exact .inl ⟨htrue, n, List.mem_cons_self, hdecl⟩
      · exact .inr hb

theorem Node.resolveAll_append (inClass : Bool) (ns ms : List Node) : resolveAll inClass (ns ++ ms) = (do
    let a ← resolveAll inClass ns
    let b ← resolveAll inClass ms
    pure (a ++ b)) := by
  induction ns with
  | nil => simp [resolveAll]
  | cons n ns ih => simp [resolveAll, ih]

/-- Behind a program, a second one is resolved as it is alone, apart from its depths. -/
theorem resolve_append {first second resolved joined : List Node} {f : Line → Line} (hsteps : ∀ n ∈ first, IsStep n)
    (hfirst : resolve first = .ok resolved) (hjoined : resolve (first ++ Node.renumberAll f second) = .ok joined) :
    ∃ rest alone, joined = resolved ++ rest ∧ resolve second = .ok alone ∧ Node.AllSimilar rest alone := by
  unfold resolve at hfirst hjoined ⊢
  rw [Node.resolveAll_append, Resolve.run_bind] at hjoined
  cases hrun : (Node.resolveAll false first).run Scopes.initial with
  | error fault => rw [hrun] at hfirst; cases hfirst
  | ok found =>
    obtain ⟨resolved, s⟩ := found
    rw [hrun] at hfirst hjoined
    cases hfirst
    dsimp only at hjoined
    rw [Resolve.run_bind] at hjoined
    cases hmore : (Node.resolveAll false (Node.renumberAll f second)).run s with
    | error fault => rw [hmore] at hjoined; cases hjoined
    | ok found =>
      obtain ⟨rest, t⟩ := found
      rw [hmore] at hjoined
      cases hjoined
      obtain ⟨rfl, -⟩ := (resolve_answers hsteps).yields _ _ hrun
      obtain ⟨names, hnames, -⟩ := behindAll_single .program resolved []
      have hscopes : ScopesAlike names (scopesOf (behindAll [⟨.program, []⟩] resolved)) Scopes.initial := by
        rw [hnames]
        exact .outermost fun name => rfl
      obtain ⟨alone, t', halone, halike, -⟩ := Node.resolveAll_follows false second _ _ hscopes rest t hmore
      exact ⟨rest, alone, rfl, by rw [halone]; rfl, halike⟩

end LoxLang
