import LoxLang.Proofs.Resolution

/-!
# Steps behind a return

No step that stands directly behind a `return` is executed. `Node.Trimmed n n'` says that `n'` is `n` without some of
them: in any number of the blocks, bodies and branches of `n`, all that follows a `return` is left out. What is resolved
with them is resolved without them too, and the nodes that are left keep their depths (`resolve_trimmed`): the steps
left out can only mark names in the innermost scope (`Node.resolve_inside`), which is over behind them.
-/

namespace LoxLang

namespace Node

mutual

/-- A node, and what is left of it without steps behind a `return`. -/
inductive Trimmed : Node → Node → Prop
  | same (n : Node) : Trimmed n n
  | block {steps steps' : List Node} {line : Line} :
      TrimmedSteps steps steps' → Trimmed (.block steps line) (.block steps' line)
  | ifElse {condition thenBranch thenBranch' elseBranch elseBranch' : Node} {line : Line} :
      Trimmed thenBranch thenBranch' → Trimmed elseBranch elseBranch' →
      Trimmed (.ifElse condition thenBranch elseBranch line) (.ifElse condition thenBranch' elseBranch' line)
  | whileLoop {condition body body' : Node} {line : Line} :
      Trimmed body body' → Trimmed (.whileLoop condition body line) (.whileLoop condition body' line)
  | function {name : String} {params : List String} {body body' : Node} {line : Line} :
      Trimmed body body' → Trimmed (.function name params body line) (.function name params body' line)
  | classDecl {name : String} {methods methods' : List Node} {line : Line} :
      TrimmedMethods methods methods' → Trimmed (.classDecl name methods line) (.classDecl name methods' line)

/-- Steps that stand side by side, and what is left of them. -/
inductive TrimmedSteps : List Node → List Node → Prop
  | nil : TrimmedSteps [] []
  | cons {n n' : Node} {ns ns' : List Node} :
      Trimmed n n' → TrimmedSteps ns ns' → TrimmedSteps (n :: ns) (n' :: ns')
  | cut (value : Node) (line : Line) (dead : List Node) :
      TrimmedSteps (.returnStep value line :: dead) [.returnStep value line]

/-- The methods of a class, and what is left of their bodies. -/
inductive TrimmedMethods : List Node → List Node → Prop
  | same (methods : List Node) : TrimmedMethods methods methods
  | cons {name : String} {params : List String} {body body' : Node} {line : Line} {methods methods' : List Node} :
      Trimmed body body' → TrimmedMethods methods methods' →
      TrimmedMethods (.function name params body line :: methods) (.function name params body' line :: methods')

end

/-- A branch that is left out is left out on both sides. -/
theorem Trimmed.isAbsent_eq {n n' : Node} (h : n.Trimmed n') : n'.isAbsent = n.isAbsent := by
  cases h <;> rfl

theorem TrimmedSteps.same (ns : List Node) : TrimmedSteps ns ns := by
  induction ns with
  | nil => exact .nil
  | cons n ns ih => exact .cons (.same n) ih

end Node

/-! ## The scopes outside -/

namespace Resolve

variable {α β : Type} {x : Resolve α}

/-- The computation changes no scope but the innermost. -/
def StaysInside (x : Resolve α) : Prop := ∀ s, x.Yields s fun _ s' => s'.leave = s.leave

namespace StaysInside

theorem of_unchanged (h : ∀ s, x.Yields s fun _ s' => s' = s) : StaysInside x :=
  fun s a s' hr => congrArg Scopes.leave (h s a s' hr)

theorem pure (a : α) : StaysInside (Pure.pure a : Resolve α) := of_unchanged fun _ => .pure rfl

theorem throw (fault : ResolveFault) : StaysInside (throw fault : Resolve α) := fun _ => .throw fault

theorem bind {f : α → Resolve β} (hx : StaysInside x) (hf : ∀ a, StaysInside (f a)) : StaysInside (x >>= f) :=
  fun s => .bind (hx s) fun a s₁ h b s₂ hr => (hf a s₁ b s₂ hr).trans h

theorem mark_leave (s : Scopes) (name : String) (ready : Bool) : (s.mark name ready).leave = s.leave := by
  cases s <;> rfl

theorem declare (name : String) (line : Line) : StaysInside (declare name line) :=
  fun s => ((Answers.declare name line).mono fun _ _ h => h.2 ▸ mark_leave s name false).yields

theorem define (name : String) : StaysInside (define name) :=
  fun s => ((Answers.define name).mono fun _ _ h => h ▸ mark_leave s name true).yields

theorem declareParameters (line : Line) (params : List String) :
    StaysInside (params.forM (declareParameter line)) := by
  induction params with
  | nil => exact .pure ()
  | cons p params ih => exact .bind (.bind (.declare p line) fun _ => .define p) fun _ => ih

theorem checkReady (name : String) (line : Line) : StaysInside (checkReady name line) :=
  of_unchanged fun _ => ((Answers.checkReady name line).mono fun _ _ h => h.1).yields

theorem checkInClass (inClass : Bool) (line : Line) : StaysInside (checkInClass inClass line) :=
  of_unchanged fun _ => (Answers.checkInClass inClass line).yields

theorem depthOf (name : String) : StaysInside (depthOf name) :=
  of_unchanged fun _ => ((Answers.depthOf name).mono fun _ _ h => h.1).yields

/-- A scope that is opened is closed again. -/
theorem inScope (hx : StaysInside x) : StaysInside (inScope x) := by
  refine of_unchanged fun s a s' hr => ?_
  rw [run_inScope] at hr
  split at hr
  · next b s₁ hb =>
    cases hr
    exact hx s.enter _ s₁ hb
  · cases hr

end StaysInside

end Resolve

namespace Node

open Resolve

mutual

/-- A node marks names in the innermost scope only. -/
theorem resolve_inside (inClass : Bool) : ∀ n : Node, StaysInside (n.resolve inClass)
  | .error _ | .bare _ => .throw _
  | .absent | .literal .. => .pure _
  | .block steps _ => .bind (.inScope (resolveAll_inside inClass steps)) fun _ => .pure _
  | .letDecl name initializer line =>
    .bind (.declare name line) fun _ => .bind (resolve_inside inClass initializer) fun _ =>
      .bind (.define name) fun _ => .pure _
  | .function name params body line =>
    .bind (.declare name line) fun _ => .bind (.define name) fun _ =>
      .bind (.inScope (.bind (.declareParameters line params) fun _ => resolve_inside inClass body)) fun _ => .pure _
  | .classDecl name methods line =>
    .bind (.declare name line) fun _ => .bind (.define name) fun _ =>
      .bind (.inScope (.bind (.define "this") fun _ => resolveMethods_inside methods)) fun _ => .pure _
  | .print inner _ | .returnStep inner _ | .grouping inner _ | .unary _ inner _ | .get inner _ _ =>
    .bind (resolve_inside inClass inner) fun _ => .pure _
  | .ifElse condition thenBranch elseBranch _ =>
    .bind (resolve_inside inClass condition) fun _ => .bind (resolve_inside inClass thenBranch) fun _ =>
      .bind (resolve_inside inClass elseBranch) fun _ => .pure _
  | .whileLoop left right _ | .binary _ left right _ | .logical _ left right _ | .set right _ left _ =>
    .bind (resolve_inside inClass left) fun _ => .bind (resolve_inside inClass right) fun _ => .pure _
  | .var name line _ => .bind (.checkReady name line) fun _ => .bind (.depthOf name) fun _ => .pure _
  | .assign name value _ _ => .bind (resolve_inside inClass value) fun _ => .bind (.depthOf name) fun _ => .pure _
  | .this line _ => .bind (.checkInClass inClass line) fun _ => .bind (.depthOf "this") fun _ => .pure _
  | .call callee arguments _ =>
    .bind (resolve_inside inClass callee) fun _ => .bind (resolveAll_inside inClass arguments) fun _ => .pure _

theorem resolveAll_inside (inClass : Bool) : ∀ ns : List Node, StaysInside (resolveAll inClass ns)
  | [] => .pure _
  | n :: ns => .bind (resolve_inside inClass n) fun _ => .bind (resolveAll_inside inClass ns) fun _ => .pure _

theorem resolveMethods_inside : ∀ ns : List Node, StaysInside (resolveMethods ns)
  | [] => .pure _
  | .function _ params body line :: methods =>
    .bind (.inScope (.bind (.declareParameters line params) fun _ => resolve_inside true body)) fun _ =>
      .bind (resolveMethods_inside methods) fun _ => .pure _
  | .literal .. :: _ | .grouping .. :: _ | .unary .. :: _ | .binary .. :: _ | .logical .. :: _ | .var .. :: _
  | .assign .. :: _ | .this .. :: _ | .call .. :: _ | .get .. :: _ | .set .. :: _ | .block .. :: _ | .letDecl .. :: _
  | .print .. :: _ | .ifElse .. :: _ | .whileLoop .. :: _ | .returnStep .. :: _ | .classDecl .. :: _ | .error _ :: _
  | .absent :: _ | .bare _ :: _ => .throw _

end

end Node

/-! ## Resolution without the steps -/

namespace Resolve

variable {α β γ δ : Type}

/-- Where the first computation succeeds the second one does, with related answers, and in scopes that agree. -/
def Trims (E : Scopes → Scopes → Prop) (R : α → β → Prop) (x : Resolve α) (y : Resolve β) : Prop :=
  ∀ s a s₁, x.run s = .ok (a, s₁) → ∃ b s₁', y.run s = .ok (b, s₁') ∧ E s₁ s₁' ∧ R a b

/-- The same scopes around the innermost. -/
abbrev SameOutside (s s' : Scopes) : Prop := s'.leave = s.leave

namespace Trims

variable {E : Scopes → Scopes → Prop} {R : α → β → Prop} {Q : γ → δ → Prop} {x : Resolve α} {y : Resolve β}

theorem refl (x : Resolve α) : Trims Eq Eq x x := fun _ a s₁ h => ⟨a, s₁, h, rfl, rfl⟩

theorem pure {a : α} {b : β} (h : R a b) : Trims Eq R (Pure.pure a) (Pure.pure b) := fun s _ _ hr => by
  cases hr
  exact ⟨b, s, rfl, rfl, h⟩

/-- What is left out changed no scope outside. -/
theorem discard (hx : StaysInside x) (b : β) : Trims SameOutside (fun _ b' => b' = b) x (Pure.pure b) :=
  fun s a s₁ hr => ⟨b, s, rfl, (hx s a s₁ hr).symm, rfl⟩

theorem weaken (h : Trims Eq R x y) : Trims SameOutside R x y := fun s a s₁ hr => by
  obtain ⟨b, s₁', hy, rfl, hab⟩ := h s a s₁ hr
  exact ⟨b, s₁, hy, rfl, hab⟩

theorem bind {f : α → Resolve γ} {g : β → Resolve δ} (hx : Trims Eq R x y)
    (hf : ∀ a b, R a b → Trims E Q (f a) (g b)) : Trims E Q (x >>= f) (y >>= g) := by
  intro s c s₂ hr
  rw [run_bind] at hr
  split at hr
  · next a s₁ ha =>
    obtain ⟨b, s₁', hb, rfl, hab⟩ := hx s a s₁ ha
    obtain ⟨d, s₂', hd, he, hcd⟩ := hf a b hab s₁ c s₂ hr
    exact ⟨d, s₂', by rw [run_bind, hb]; exact hd, he, hcd⟩
  · cases hr

/-- The answers are composed last, from computations that need not end in the same scopes. -/
theorem bind_pure {f : α → γ} {g : β → δ} (hx : Trims E R x y) (hf : ∀ a b, R a b → Q (f a) (g b)) :
    Trims E Q (x >>= fun a => Pure.pure (f a)) (y >>= fun b => Pure.pure (g b)) := by
  intro s c s₂ hr
  rw [run_bind] at hr
  split at hr
  · next a s₁ ha =>
    obtain ⟨b, s₁', hb, he, hab⟩ := hx s a s₁ ha
    cases hr
    exact ⟨g b, s₁', by rw [run_bind, hb]; rfl, he, hf a b hab⟩
  · cases hr

/-- Behind a scope that was opened, what differs inside is gone. -/
theorem inScope (hx : Trims SameOutside R x y) : Trims Eq R (inScope x) (inScope y) := by
  intro s a s₁ hr
  rw [run_inScope] at hr
  split at hr
  · next a' s₂ ha =>
    obtain ⟨b, s₂', hb, hs, hab⟩ := hx s.enter a' s₂ ha
    cases hr
    exact ⟨b, s₂.leave, by rw [run_inScope, hb]; exact congrArg (fun s => Except.ok (b, s)) hs, rfl, hab⟩
  · cases hr

end Trims

end Resolve

namespace Node

open Resolve

mutual

theorem Trimmed.resolve (inClass : Bool) : ∀ {n n' : Node}, n.Trimmed n' →
    Trims Eq Trimmed (n.resolve inClass) (n'.resolve inClass)
  | _, _, .same _ => fun _ a s₁ hr => ⟨a, s₁, hr, rfl, .same a⟩
  | _, _, .block h => .bind_pure (.inScope (h.resolveAll inClass)) fun _ _ h => .block h
  | _, _, .ifElse ht he =>
    .bind (.refl _) fun _ _ hc => .bind (ht.resolve inClass) fun _ _ ht =>
      .bind_pure (he.resolve inClass) fun _ _ he => hc ▸ .ifElse ht he
  | _, _, .whileLoop h =>
    .bind (.refl _) fun _ _ hc => .bind_pure (h.resolve inClass) fun _ _ h => hc ▸ .whileLoop h
  | _, _, .function h =>
    .bind (.refl _) fun _ _ _ => .bind (.refl _) fun _ _ _ =>
      .bind_pure (.inScope (.bind (.refl _) fun _ _ _ => (h.resolve inClass).weaken)) fun _ _ h => .function h
  | _, _, .classDecl h =>
    .bind (.refl _) fun _ _ _ => .bind (.refl _) fun _ _ _ =>
      .bind_pure (.inScope (.bind (.refl _) fun _ _ _ => h.resolveMethods.weaken)) fun _ _ h => .classDecl h

theorem TrimmedSteps.resolveAll (inClass : Bool) : ∀ {ns ns' : List Node}, TrimmedSteps ns ns' →
    Trims SameOutside TrimmedSteps (Node.resolveAll inClass ns) (Node.resolveAll inClass ns')
  | _, _, .nil => (Trims.pure .nil).weaken
  | _, _, .cons h hs =>
    .bind (h.resolve inClass) fun _ _ h => .bind_pure (hs.resolveAll inClass) fun _ _ hs => .cons h hs
  | _, _, .cut value line dead =>
    have hreturn : Trims Eq (fun a b => b = a ∧ ∃ v, a = .returnStep v line)
        (Node.resolve inClass (.returnStep value line)) (Node.resolve inClass (.returnStep value line)) :=
      .bind_pure (.refl _) fun v _ hv => ⟨congrArg (Node.returnStep · line) hv.symm, v, rfl⟩
    .bind hreturn fun _ _ ⟨hb, v, hv⟩ => .bind_pure (.discard (resolveAll_inside inClass dead) []) fun ns _ hns => by
      subst hb hv hns
      exact .cut v line ns

theorem TrimmedMethods.resolveMethods : ∀ {ns ns' : List Node}, TrimmedMethods ns ns' →
    Trims Eq TrimmedMethods (Node.resolveMethods ns) (Node.resolveMethods ns')
  | _, _, .same _ => fun _ methods s₁ hr => ⟨methods, s₁, hr, rfl, .same methods⟩
  | _, _, .cons h hs =>
    .bind (.inScope (.bind (.refl _) fun _ _ _ => (h.resolve true).weaken)) fun _ _ h =>
      .bind_pure hs.resolveMethods fun _ _ hs => .cons h hs

end

end Node

/-- What is resolved is resolved too without steps behind a `return`, and the nodes that are left get the same
depths. -/
theorem resolve_trimmed {steps steps' resolved : List Node} (h : Node.TrimmedSteps steps steps')
    (hr : resolve steps = .ok resolved) :
    ∃ resolved', resolve steps' = .ok resolved' ∧ Node.TrimmedSteps resolved resolved' := by
  unfold resolve at hr
  cases hrun : (Node.resolveAll false steps).run Scopes.initial with
  | error fault => rw [hrun] at hr; cases hr
  | ok result =>
    obtain ⟨resolved', s', hrun', -, htrimmed⟩ := h.resolveAll false _ _ _ hrun
    rw [hrun] at hr
    cases hr
    exact ⟨resolved', by rw [resolve, hrun']; rfl, htrimmed⟩

end LoxLang
