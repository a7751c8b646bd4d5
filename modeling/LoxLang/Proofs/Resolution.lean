import LoxLang.Proofs.Shapes

/-!
# Resolved trees

A tree that the parser builds and that resolution accepts is its own twin (`resolve_twins`): every depth counts the
layers between a use and the nearest layer that holds its name, and no name is read before its declaration is over.
-/

namespace LoxLang

namespace Resolve

variable {α β : Type} (s : Scopes)

/-! ## Single steps -/

theorem run_bind (x : Resolve α) (f : α → Resolve β) :
    (x >>= f).run s = match x.run s with
      | .ok (a, s') => (f a).run s'
      | .error fault => .error fault := by
  rw [StateT.run_bind]
  rcases x.run s with fault | ⟨a, s'⟩ <;> rfl

theorem run_declare (name : String) (line : Line) :
    (declare name line).run s =
      if s.innermost.contains name then .error (.rejected line (.alreadyDeclared name))
      else .ok ((), s.mark name false) := by
  rw [declare, run_bind, show (get : Resolve Scopes).run s = .ok (s, s) from rfl]
  unfold Scopes.declare
  dsimp only
  cases s.innermost.contains name <;> rfl

theorem run_define (name : String) : (define name).run s = .ok ((), s.mark name true) := rfl

theorem run_checkReady (name : String) (line : Line) :
    (checkReady name line).run s =
      if s.isPending name then .error (.rejected line (.readInInitializer name)) else .ok ((), s) := by
  show (if s.isPending name then reject line (.readInInitializer name) else pure () : Resolve Unit).run s = _
  split <;> rfl

theorem run_depthOf (name : String) : (depthOf name).run s = .ok (s.depthOf? name, s) := rfl

theorem run_inScope (body : Resolve α) :
    (inScope body).run s = match body.run s.enter with
      | .ok (a, s') => .ok (a, s'.leave)
      | .error fault => .error fault := by
  show (do let a ← body; modify Scopes.leave; pure a : Resolve α).run s.enter = _
  rw [run_bind]
  rcases body.run s.enter with fault | ⟨a, s'⟩ <;> rfl

/-! ## What computations answer -/

/-- If the computation succeeds, its result and the scopes after it are as described. -/
def Yields (x : Resolve α) (s : Scopes) (Q : α → Scopes → Prop) : Prop := ∀ a s', x.run s = .ok (a, s') → Q a s'

/-- The computation succeeds as described, or rejects the program. -/
def Answers (x : Resolve α) (s : Scopes) (Q : α → Scopes → Prop) : Prop :=
  match x.run s with
  | .ok (a, s') => Q a s'
  | .error fault => ∃ line cause, fault = .rejected line cause

variable {s}

namespace Yields

variable {Q : α → Scopes → Prop}

theorem pure {a : α} (h : Q a s) : Yields (Pure.pure a) s Q := fun _ _ hb => by
  cases hb
  exact h

theorem throw (fault : ResolveFault) : Yields (throw fault) s Q := fun _ _ h => by cases h

theorem bind {R : β → Scopes → Prop} {x : Resolve α} {f : α → Resolve β} (hx : Yields x s Q)
    (hf : ∀ a s', Q a s' → Yields (f a) s' R) : Yields (x >>= f) s R := by
  intro b s'' h
  rw [run_bind] at h
  split at h
  · next a s' ha => exact hf a s' (hx a s' ha) b s'' h
  · cases h

theorem bind_any {R : β → Scopes → Prop} {x : Resolve α} {f : α → Resolve β} (hf : ∀ a s', Yields (f a) s' R) :
    Yields (x >>= f) s R :=
  .bind (Q := fun _ _ => True) (fun _ _ _ => trivial) fun a s' _ => hf a s'

end Yields

namespace Answers

variable {Q : α → Scopes → Prop}

theorem yields {x : Resolve α} (h : Answers x s Q) : Yields x s Q := fun a s' hr => by
  unfold Answers at h
  rwa [hr] at h

theorem of_yields {R : α → Scopes → Prop} {x : Resolve α} (h : Answers x s R) (hy : Yields x s Q) : Answers x s Q := by
  unfold Answers at h ⊢
  split
  · next a s' hr => exact hy a s' hr
  · next fault hr => rwa [hr] at h

theorem and {R : α → Scopes → Prop} {x : Resolve α} (hr : Yields x s R) (hq : Answers x s Q) :
    Answers x s fun a s' => R a s' ∧ Q a s' :=
  hq.of_yields fun a s' h => ⟨hr a s' h, hq.yields a s' h⟩

theorem mono {R : α → Scopes → Prop} {x : Resolve α} (hx : Answers x s R) (h : ∀ a s', R a s' → Q a s') :
    Answers x s Q :=
  hx.of_yields fun a s' ha => h a s' (hx.yields a s' ha)

theorem pure {a : α} (h : Q a s) : Answers (Pure.pure a) s Q := h

theorem bind {R : β → Scopes → Prop} {x : Resolve α} {f : α → Resolve β} (hx : Answers x s Q)
    (hf : ∀ a s', Q a s' → Answers (f a) s' R) : Answers (x >>= f) s R := by
  unfold Answers
  rw [run_bind]
  cases hr : x.run s with
  | ok result => exact hf result.1 result.2 (hx.yields _ _ hr)
  | error fault =>
    unfold Answers at hx
    rwa [hr] at hx

theorem declare (name : String) (line : Line) :
    Answers (declare name line) s fun _ s' => s.innermost.contains name = false ∧ s' = s.mark name false := by
  unfold Answers
  rw [run_declare]
  cases hc : s.innermost.contains name with
  | true => exact ⟨line, _, rfl⟩
  | false => exact ⟨rfl, rfl⟩

theorem define (name : String) : Answers (define name) s fun _ s' => s' = s.mark name true := rfl

theorem checkReady (name : String) (line : Line) :
    Answers (checkReady name line) s fun _ s' => s' = s ∧ s.isPending name = false := by
  unfold Answers
  rw [run_checkReady]
  cases hp : s.isPending name with
  | true => exact ⟨line, _, rfl⟩
  | false => exact ⟨rfl, rfl⟩

theorem checkInClass (inClass : Bool) (line : Line) : Answers (checkInClass inClass line) s fun _ s' => s' = s := by
  cases inClass with
  | true => exact rfl
  | false => exact ⟨line, _, rfl⟩

theorem depthOf (name : String) : Answers (depthOf name) s fun d s' => s' = s ∧ d = s.depthOf? name := ⟨rfl, rfl⟩

theorem inScope {body : Resolve α} (h : Answers body s.enter fun a s' => Q a s'.leave) :
    Answers (inScope body) s Q := by
  unfold Answers at h ⊢
  rw [run_inScope]
  cases hr : body.run s.enter with
  | ok result => rwa [hr] at h
  | error fault => rwa [hr] at h

end Answers

end Resolve

/-! ## Layers while a tree is resolved -/

/-- All names in the layers are ready, and declared by the constructs that open them. -/
def Settled (layers : List Layer) : Prop :=
  ∀ layer ∈ layers, ∀ name b, layer.names.get? name = some b → b = true ∧ layer.opening.Declares name

/-- In the innermost layer, a name other than `this` may still be on the way. -/
structure Resolvable (layers : List Layer) : Prop where
  declared : ∀ layer ∈ layers, ∀ name b, layer.names.get? name = some b → layer.opening.Declares name
  outer : ∀ layer ∈ layers.tail, ∀ name b, layer.names.get? name = some b → b = true
  this : ∀ layer ∈ layers, ∀ b, layer.names.get? "this" = some b → b = true

theorem Settled.resolvable {layers : List Layer} (h : Settled layers) : Resolvable layers :=
  ⟨fun layer hl name b hb => (h layer hl name b hb).2,
    fun layer hl name b hb => (h layer (List.mem_of_mem_tail hl) name b hb).1,
    fun layer hl b hb => (h layer hl "this" b hb).1⟩

theorem scopesOf_mark (layers : List Layer) (name : String) (ready : Bool) :
    scopesOf (mark layers name ready) = (scopesOf layers).mark name ready := by
  cases layers <;> rfl

theorem mark_mark (layers : List Layer) (name : String) (a b : Bool) :
    mark (mark layers name a) name b = mark layers name b := by
  cases layers with
  | nil => rfl
  | cons layer outer => simp [mark]

theorem tail_mark (layers : List Layer) (name : String) (ready : Bool) :
    (mark layers name ready).tail = layers.tail := by
  cases layers <;> rfl

/-- What a layer holds after a name was marked in the innermost one. -/
theorem get?_of_mem_mark {layers : List Layer} {name other : String} {ready b : Bool} {layer : Layer}
    (hl : layer ∈ mark layers name ready) (hb : layer.names.get? other = some b) :
    (other = name ∧ b = ready ∧ ∃ old outer, layers = old :: outer ∧ layer.opening = old.opening) ∨
      ∃ old ∈ layers, layer.opening = old.opening ∧ old.names.get? other = some b := by
  cases layers with
  | nil => cases hl
  | cons old outer =>
    obtain rfl | hl := List.mem_cons.mp hl
    · rw [Table.get?_set] at hb
      split at hb
      · next h => cases hb; exact .inl ⟨h.symm, rfl, old, outer, rfl, rfl⟩
      · exact .inr ⟨old, List.mem_cons_self, rfl, hb⟩
    · exact .inr ⟨layer, List.mem_cons_of_mem _ hl, rfl, hb⟩

theorem Settled.mark_ready {layers : List Layer} {name : String} (h : Settled layers) (hd : Declarable layers name) :
    Settled (mark layers name true) := by
  intro layer hl other b hb
  obtain ⟨rfl, rfl, old, outer, rfl, ho⟩ | ⟨old, hmem, ho, hold⟩ := get?_of_mem_mark hl hb
  · obtain ⟨_, _, he, hn⟩ := hd
    cases he
    exact ⟨rfl, ho ▸ hn⟩
  · exact ho ▸ h old hmem other b hold

theorem Settled.mark_pending {layers : List Layer} {name : String} (h : Settled layers) (hn : IsName name)
    (hd : Declarable layers name) : Resolvable (mark layers name false) := by
  refine ⟨fun layer hl other b hb => ?_, fun layer hl other b hb => ?_, fun layer hl b hb => ?_⟩
  · obtain ⟨rfl, rfl, old, outer, rfl, ho⟩ | ⟨old, hmem, ho, hold⟩ := get?_of_mem_mark hl hb
    · obtain ⟨_, _, he, hn⟩ := hd
      cases he
      exact ho ▸ hn
    · exact ho ▸ (h old hmem other b hold).2
  · rw [tail_mark] at hl
    exact (h layer (List.mem_of_mem_tail hl) other b hb).1
  · obtain ⟨rfl, -⟩ | ⟨old, hmem, -, hold⟩ := get?_of_mem_mark hl hb
    · exact absurd rfl hn
    · exact (h old hmem "this" b hold).1

theorem Settled.behind {layers : List Layer} {n : Node} (h : Settled layers)
    (hd : ∀ name, n.declares? = some name → Declarable layers name) : Settled (behind layers n) := by
  unfold LoxLang.behind
  cases hn : n.declares? with
  | none => exact h
  | some name => exact h.mark_ready (hd name hn)

/-- A new layer whose names are all ready and declared. -/
theorem Settled.cons {layers : List Layer} {layer : Layer} (h : Settled layers)
    (hl : ∀ name b, layer.names.get? name = some b → b = true ∧ layer.opening.Declares name) :
    Settled (layer :: layers) := by
  intro other hmem
  obtain rfl | hmem := List.mem_cons.mp hmem
  · exact hl
  · exact h other hmem

/-! ## Uses -/

/-- The layer that a depth counts to holds the name. -/
theorem layer_of_depthOf? {layers : List Layer} {name : String} {i : Nat}
    (h : (scopesOf layers).depthOf? name = some i) :
    ∃ layer b, layers[i]? = some layer ∧ layer.names.get? name = some b := by
  obtain ⟨hi, hc, -⟩ := List.findIdx?_eq_some_iff_getElem.mp h
  rw [List.length_map] at hi
  rw [List.getElem_map] at hc
  obtain ⟨b, hb⟩ := Table.contains_iff.mp hc
  exact ⟨layers[i], b, List.getElem?_eq_getElem hi, hb⟩

theorem Resolvable.readsAlike {layers : List Layer} (h : Resolvable layers) {name : String}
    (hp : name = "this" ∨ (scopesOf layers).isPending name = false) :
    ReadsAlike False layers name ((scopesOf layers).depthOf? name) ((scopesOf layers).depthOf? name) := by
  refine ⟨rfl, fun i hi => ?_, .inl rfl⟩
  obtain ⟨layer, b, hl, hb⟩ := layer_of_depthOf? hi
  have hready : b = true := by
    obtain rfl | hp := hp
    · exact h.this layer (List.mem_of_getElem? hl) b hb
    · cases i with
      | zero =>
        obtain ⟨outer, rfl⟩ : ∃ outer, layers = layer :: outer := by
          cases layers with
          | nil => cases hl
          | cons => cases hl; exact ⟨_, rfl⟩
        cases b with
        | true => rfl
        | false =>
          have : ((layer.names.get? name == some false) = false) := hp
          rw [hb] at this
          cases this
      | succ i =>
        have htail : layer ∈ layers.tail := by
          rw [← List.drop_one]
          exact List.mem_of_getElem? ((List.getElem?_drop ..).trans (by rwa [Nat.add_comm]))
        exact h.outer layer htail name b hb
  exact ⟨layer, hl, hready ▸ hb⟩

theorem Resolvable.writesAlike {layers : List Layer} (h : Resolvable layers) (name : String) :
    WritesAlike False layers name ((scopesOf layers).depthOf? name) ((scopesOf layers).depthOf? name) := by
  refine ⟨rfl, fun i layer hi hl => ?_, .inl rfl⟩
  obtain ⟨layer', b, hl', hb⟩ := layer_of_depthOf? hi
  obtain rfl : layer' = layer := Option.some.inj (hl'.symm.trans hl)
  exact h.declared layer' (List.mem_of_getElem? hl) name b hb

/-! ## Expressions -/

theorem resolveAll_twins {layers : List Layer} {inClass : Bool} {ns : List Node}
    (h : ∀ n ∈ ns, (Node.resolve inClass n).Answers (scopesOf layers)
      fun n' s' => s' = scopesOf layers ∧ Twin .same layers n' n') :
    (Node.resolveAll inClass ns).Answers (scopesOf layers)
      fun ns' s' => s' = scopesOf layers ∧ TwinAll .same layers ns' ns' := by
  induction ns with
  | nil => exact .pure ⟨rfl, .nil⟩
  | cons n ns ih =>
    rw [Node.resolveAll]
    refine .bind (h n List.mem_cons_self) fun n' s' hn => ?_
    obtain ⟨rfl, hn⟩ := hn
    refine .bind (ih fun m hm => h m (List.mem_cons_of_mem n hm)) fun ns' s' hns => ?_
    obtain ⟨rfl, hns⟩ := hns
    exact .pure ⟨rfl, .cons hn hns⟩

/-- Resolved expressions are their own twins, and leave the scopes as they are. -/
theorem IsExpression.resolve {n : Node} (h : IsExpression n) {layers : List Layer} (hl : Resolvable layers)
    (inClass : Bool) :
    (Node.resolve inClass n).Answers (scopesOf layers) fun n' s' => s' = scopesOf layers ∧ Twin .same layers n' n' := by
  induction h with
  | literal hv => rw [Node.resolve]; exact .pure ⟨rfl, .literal rfl hv⟩
  | grouping _ ih =>
    rw [Node.resolve]
    refine .bind ih fun n' s' hn => ?_
    obtain ⟨rfl, hn⟩ := hn
    exact .pure ⟨rfl, .grouping rfl hn⟩
  | unary _ ih =>
    rw [Node.resolve]
    refine .bind ih fun n' s' hn => ?_
    obtain ⟨rfl, hn⟩ := hn
    exact .pure ⟨rfl, .unary rfl hn⟩
  | binary _ _ iha ihb =>
    rw [Node.resolve]
    refine .bind iha fun a s' ha => ?_
    obtain ⟨rfl, ha⟩ := ha
    refine .bind ihb fun b s' hb => ?_
    obtain ⟨rfl, hb⟩ := hb
    exact .pure ⟨rfl, .binary rfl ha hb⟩
  | logical _ _ iha ihb =>
    rw [Node.resolve]
    refine .bind iha fun a s' ha => ?_
    obtain ⟨rfl, ha⟩ := ha
    refine .bind ihb fun b s' hb => ?_
    obtain ⟨rfl, hb⟩ := hb
    exact .pure ⟨rfl, .logical rfl ha hb⟩
  | var hn =>
    rw [Node.resolve]
    refine .bind (.checkReady _ _) fun _ s' hready => ?_
    obtain ⟨rfl, hready⟩ := hready
    refine .bind (.depthOf _) fun d s' hd => ?_
    obtain ⟨rfl, rfl⟩ := hd
    exact .pure ⟨rfl, .var rfl (hl.readsAlike (.inr hready))⟩
  | this =>
    rw [Node.resolve]
    refine .bind (.checkInClass inClass _) fun _ s' hs => ?_
    subst hs
    refine .bind (.depthOf _) fun d s' hd => ?_
    obtain ⟨rfl, rfl⟩ := hd
    exact .pure ⟨rfl, .this rfl (hl.readsAlike (.inl rfl))⟩
  | assign hn _ ih =>
    rw [Node.resolve]
    refine .bind ih fun n' s' hn => ?_
    obtain ⟨rfl, hn⟩ := hn
    refine .bind (.depthOf _) fun d s' hd => ?_
    obtain ⟨rfl, rfl⟩ := hd
    exact .pure ⟨rfl, .assign rfl hn (hl.writesAlike _)⟩
  | call _ _ ih ihargs =>
    rw [Node.resolve]
    refine .bind ih fun n' s' hn => ?_
    obtain ⟨rfl, hn⟩ := hn
    refine .bind (resolveAll_twins ihargs) fun args s' hargs => ?_
    obtain ⟨rfl, hargs⟩ := hargs
    exact .pure ⟨rfl, .call rfl hn hargs⟩
  | get _ ih =>
    rw [Node.resolve]
    refine .bind ih fun n' s' hn => ?_
    obtain ⟨rfl, hn⟩ := hn
    exact .pure ⟨rfl, .get rfl hn⟩
  | set _ _ ihn ihv =>
    rw [Node.resolve]
    refine .bind ihv fun v s' hv => ?_
    obtain ⟨rfl, hv⟩ := hv
    refine .bind ihn fun n' s' hn => ?_
    obtain ⟨rfl, hn⟩ := hn
    exact .pure ⟨rfl, .set rfl hn hv⟩

/-! ## Steps -/

/-- A resolved node declares the name that the node declares. -/
theorem resolve_declares (n : Node) (inClass : Bool) (s : Scopes) :
    (Node.resolve inClass n).Yields s fun n' _ => n'.declares? = n.declares? := by
  cases n <;> rw [Node.resolve]
  case error => exact .throw _
  case bare => exact .throw _
  all_goals
    repeat refine .bind_any fun _ _ => ?_
    exact .pure rfl

theorem resolveAll_declares (inClass : Bool) : ∀ (ns : List Node) (s : Scopes),
    (Node.resolveAll inClass ns).Yields s fun ns' _ => ns'.map Node.declares? = ns.map Node.declares?
  | [], _ => .pure rfl
  | n :: ns, s => by
    rw [Node.resolveAll]
    refine .bind (resolve_declares n inClass s) fun n' s' hn => ?_
    exact .bind (resolveAll_declares inClass ns s') fun ns' _ hns => .pure (by simp [hn, hns])

theorem tail_behind (layers : List Layer) (n : Node) : (behind layers n).tail = layers.tail := by
  unfold behind
  cases n.declares? with
  | none => rfl
  | some name => exact tail_mark layers name true

theorem tail_behindAll (ns : List Node) : ∀ layers, (behindAll layers ns).tail = layers.tail := by
  induction ns with
  | nil => exact fun _ => rfl
  | cons n ns ih => exact fun layers => (ih _).trans (tail_behind layers n)

theorem Declarable.mark {layers : List Layer} {name : String} (h : Declarable layers name) (other : String)
    (ready : Bool) : Declarable (LoxLang.mark layers other ready) name := by
  obtain ⟨layer, outer, rfl, hd⟩ := h
  exact ⟨_, outer, rfl, hd⟩

theorem Declarable.behind {layers : List Layer} {name : String} (h : Declarable layers name) (n : Node) :
    Declarable (LoxLang.behind layers n) name := by
  unfold LoxLang.behind
  cases n.declares? with
  | none => exact h
  | some other => exact h.mark other true

/-- Wherever the node is allowed to stand, its resolved form is its own twin, and the scopes behind it are those behind
the resolved form. -/
def ResolvesToTwin (inClass : Bool) (n : Node) : Prop :=
  ∀ layers, Settled layers → (∀ name, n.declares? = some name → Declarable layers name) →
    (Node.resolve inClass n).Answers (scopesOf layers)
      fun n' s' => s' = scopesOf (behind layers n') ∧ TwinStep .same layers n' n'

/-- Resolved steps are their own twins, if each of them is wherever it is allowed to stand. -/
theorem resolveAll_twinSteps {inClass : Bool} {ns : List Node}
    (h : ∀ n ∈ ns, ResolvesToTwin inClass n)
    {layers : List Layer} (hl : Settled layers)
    (hd : ∀ n ∈ ns, ∀ name, n.declares? = some name → Declarable layers name) :
    (Node.resolveAll inClass ns).Answers (scopesOf layers)
      fun ns' s' => s' = scopesOf (behindAll layers ns') ∧ TwinSteps .same layers ns' ns' := by
  induction ns generalizing layers with
  | nil => exact .pure ⟨rfl, .nil⟩
  | cons n ns ih =>
    rw [Node.resolveAll]
    have hn := hd n List.mem_cons_self
    refine .bind (.and (resolve_declares n inClass _) (h n List.mem_cons_self layers hl hn)) fun n' s' hn' => ?_
    obtain ⟨hdecl, rfl, htwin⟩ := hn'
    have hl' : Settled (behind layers n') := hl.behind (hdecl ▸ hn)
    refine .bind (ih (fun m hm => h m (List.mem_cons_of_mem n hm)) hl' fun m hm name hname =>
      (hd m (List.mem_cons_of_mem n hm) name hname).behind n') fun ns' s' hns => ?_
    obtain ⟨rfl, htwins⟩ := hns
    exact .pure ⟨rfl, .cons htwin htwins⟩

/-- The steps of a block are resolved inside its layer. -/
theorem resolveBlock_twinSteps {inClass : Bool} {ns : List Node}
    (h : ∀ n ∈ ns, ResolvesToTwin inClass n)
    {layers : List Layer} (hl : Settled layers) (line : Line) :
    (Resolve.inScope (Node.resolveAll inClass ns)).Answers (scopesOf layers)
      fun ns' s' => s' = scopesOf layers ∧ TwinSteps .same (⟨.block ns' line, []⟩ :: layers) ns' ns' := by
  have hany : Settled (⟨.program, []⟩ :: layers) := hl.cons fun name b hb => by cases hb
  refine .inScope ((resolveAll_twinSteps h hany fun n _ name _ => ⟨_, _, rfl, trivial⟩).of_yields fun ns' s' hrun => ?_)
  have hdecl := resolveAll_declares inClass ns _ ns' s' hrun
  have hl' : Settled (⟨.block ns' line, []⟩ :: layers) := hl.cons fun name b hb => by cases hb
  obtain ⟨rfl, htwins⟩ := resolveAll_twinSteps h hl' (fun n hn name hname => by
    have hmem : some name ∈ ns'.map Node.declares? := hdecl ▸ List.mem_map.mpr ⟨n, hn, hname⟩
    exact ⟨_, _, rfl, List.mem_map.mp hmem⟩) |>.yields ns' s' hrun
  refine ⟨?_, htwins⟩
  rw [Scopes.leave, ← List.map_tail, tail_behindAll]
  rfl

/-- Parameters are declared one by one in a scope of their own. -/
theorem declareParameters_yields (line : Line) (params : List String) (names : Scope) (outer : Scopes) :
    (params.forM (Resolve.declareParameter line)).Answers (names :: outer) fun _ s' =>
      s' = params.foldl (fun names p => names.set p true) names :: outer ∧ params.Nodup ∧
        ∀ p ∈ params, names.contains p = false := by
  induction params generalizing names with
  | nil => exact .pure ⟨rfl, .nil, fun p hp => by cases hp⟩
  | cons p params ih =>
    show (do Resolve.declareParameter line p; params.forM (Resolve.declareParameter line) : Resolve Unit).Answers _ _
    have hp : (Resolve.declareParameter line p).Answers (names :: outer) fun _ s' =>
        names.contains p = false ∧ s' = names.set p true :: outer := by
      refine .bind (.declare p line) fun _ s' hs => ?_
      obtain ⟨hnew, rfl⟩ := hs
      refine (Resolve.Answers.define p).mono fun _ s' hs => ⟨hnew, ?_⟩
      rw [hs, Scopes.mark, Scopes.mark, Table.set_set]
    refine .bind hp fun _ s' hs => ?_
    obtain ⟨hnew, rfl⟩ := hs
    refine (ih (names.set p true)).mono fun _ s' hs => ?_
    obtain ⟨rfl, hnodup, hfresh⟩ := hs
    refine ⟨rfl, List.nodup_cons.mpr ⟨fun hmem => ?_, hnodup⟩, fun q hq => ?_⟩
    · have := hfresh p hmem
      simp at this
    · obtain rfl | hq := List.mem_cons.mp hq
      · exact hnew
      · have := hfresh q hq
        rw [Table.contains_set, Bool.or_eq_false_iff] at this
        exact this.2

/-- The body of a function is resolved inside the layer of its parameters. -/
theorem resolveBody_twinStep {inClass : Bool} {body : Node} (h : ResolvesToTwin inClass body) (hb : body.IsSilent)
    {layers : List Layer} (hl : Settled layers) (name : String) (params : List String) (line : Line) :
    (Resolve.inScope (do
        params.forM (Resolve.declareParameter line)
        Node.resolve inClass body)).Answers (scopesOf layers) fun body' s' =>
      s' = scopesOf layers ∧ params.Nodup ∧
        TwinStep .same (Layer.ofParameters name params body' :: layers) body' body' := by
  refine .inScope (.bind (declareParameters_yields line params [] (scopesOf layers)) fun _ s' hs => ?_)
  obtain ⟨rfl, hnodup, -⟩ := hs
  have hany : Settled (Layer.ofParameters name params body :: layers) :=
    hl.cons fun p b hp => Layer.get?_ofParameters name body hp
  refine (h _ hany fun other ho => by rw [hb] at ho; cases ho).of_yields fun body' s' hrun => ?_
  have hdecl : body'.declares? = none := (resolve_declares body inClass _ body' s' hrun).trans hb
  have hl' : Settled (Layer.ofParameters name params body' :: layers) :=
    hl.cons fun p b hp => Layer.get?_ofParameters name body' hp
  obtain ⟨rfl, htwin⟩ := (h _ hl' fun other ho => by rw [hb] at ho; cases ho).yields body' s' hrun
  refine ⟨?_, hnodup, htwin⟩
  rw [Scopes.leave, ← List.map_tail, tail_behind]
  rfl

/-- Methods are resolved inside the layer of the receiver. -/
theorem resolveMethods_twins {methods : List Node} (hm : ∀ n ∈ methods, n.functionName?.isSome)
    (h : ∀ name params body line, .function name params body line ∈ methods →
      body.IsSilent ∧ ResolvesToTwin true body)
    {layers : List Layer} (hl : Settled layers) :
    (Node.resolveMethods methods).Answers (scopesOf layers)
      fun methods' s' => s' = scopesOf layers ∧ TwinMethods .same layers methods' methods' := by
  induction methods with
  | nil => exact .pure ⟨rfl, .nil⟩
  | cons n methods ih =>
    have hn := hm n List.mem_cons_self
    cases n with
    | function name params body line =>
      rw [Node.resolveMethods]
      obtain ⟨hsilent, hbody⟩ := h name params body line List.mem_cons_self
      refine .bind (resolveBody_twinStep hbody hsilent hl name params line) fun body' s' hb => ?_
      obtain ⟨rfl, hnodup, htwin⟩ := hb
      refine .bind (ih (fun m hmem => hm m (List.mem_cons_of_mem _ hmem)) fun _ _ _ _ hmem =>
        h _ _ _ _ (List.mem_cons_of_mem _ hmem)) fun methods' s' hrest => ?_
      obtain ⟨rfl, hrest⟩ := hrest
      exact .pure ⟨rfl, .cons rfl hnodup htwin hrest⟩
    | _ => cases hn

/-- The class layer does not depend on the methods it is around. -/
theorem Settled.receiver {layers : List Layer} (hl : Settled layers) (methods : List Node) :
    Settled (Layer.ofReceiver methods :: layers) :=
  hl.cons fun name b hb => by
    rw [Layer.ofReceiver, Table.get?_cons] at hb
    split at hb
    · next hn => cases hb; exact ⟨rfl, hn.symm⟩
    · cases hb

/-- The methods of a class are resolved inside a scope of their own, which holds the receiver. -/
theorem resolveReceiver_twins {methods : List Node} (hm : ∀ n ∈ methods, n.functionName?.isSome)
    (h : ∀ name params body line, .function name params body line ∈ methods →
      body.IsSilent ∧ ResolvesToTwin true body)
    {layers : List Layer} (hl : Settled layers) :
    (Resolve.inScope (do Resolve.define "this"; Node.resolveMethods methods)).Answers (scopesOf layers)
      fun methods' s' => s' = scopesOf layers ∧
        TwinMethods .same (Layer.ofReceiver methods' :: layers) methods' methods' := by
  refine .inScope (.bind (.define "this") fun _ s' hs => ?_)
  subst hs
  -- The layer names the resolved methods, which are not there before the run: any methods do for the scopes.
  have hall := fun methods' => resolveMethods_twins hm h (hl.receiver methods')
  refine (hall methods).of_yields fun methods' s' hrun => ?_
  obtain ⟨rfl, htwins⟩ := (hall methods').yields methods' s' hrun
  exact ⟨rfl, htwins⟩

/-- What follows a name that is declared and at once defined starts where the name is ready. -/
theorem Resolve.Answers.declareReady {α : Type} {layers : List Layer} {x : Resolve α} {post : α → Scopes → Prop}
    {name : String} (hd : Declarable layers name) (line : Line)
    (hx : Vacant layers name → x.Answers (scopesOf (mark layers name true)) post) :
    (do Resolve.declare name line; Resolve.define name; x).Answers (scopesOf layers) post := by
  refine .bind (.declare name line) fun _ s' hs => ?_
  obtain ⟨hunheld, rfl⟩ := hs
  refine .bind (.define name) fun _ s' hs => ?_
  rw [← scopesOf_mark, ← scopesOf_mark, mark_mark] at hs
  subst hs
  exact hx ⟨hd, hunheld⟩

/-- A branch, or the body of a loop, declares nothing where it stands. -/
theorem resolveBranch_twinStep {inClass : Bool} {n : Node} (hn : n.IsSilent) (h : ResolvesToTwin inClass n)
    {layers : List Layer} (hl : Settled layers) :
    (Node.resolve inClass n).Answers (scopesOf layers) fun n' s' =>
      s' = scopesOf layers ∧ TwinStep .same layers n' n' := by
  have hx := h layers hl fun name hname => by rw [hn] at hname; cases hname
  refine (Resolve.Answers.and (resolve_declares n inClass _) hx).mono fun n' s' hn' => ?_
  obtain ⟨hdecl, rfl, htwin⟩ := hn'
  rw [hn] at hdecl
  exact ⟨by rw [behind, hdecl], htwin⟩

/-- Resolved steps are their own twins, and mark in the scopes what they declare. -/
theorem IsStep.resolve {n : Node} (h : IsStep n) (inClass : Bool) : ResolvesToTwin inClass n := by
  induction h generalizing inClass with
  | @expression n hn =>
    intro layers hl _
    refine (Resolve.Answers.and (resolve_declares n inClass _) (hn.resolve hl.resolvable inClass)).mono
      fun n' s' hn' => ?_
    obtain ⟨hdecl, rfl, htwin⟩ := hn'
    rw [hn.isSilent] at hdecl
    exact ⟨by rw [behind, hdecl], .expression htwin⟩
  | @block steps line _ ih =>
    intro layers hl _
    rw [Node.resolve]
    refine .bind (resolveBlock_twinSteps (fun n hn => ih n hn inClass) hl line) fun ns' s' hns => ?_
    obtain ⟨rfl, htwins⟩ := hns
    exact .pure ⟨rfl, .block rfl htwins⟩
  | @letDecl name _ line hname hn =>
    intro layers hl hd
    have hdecl := hd name rfl
    rw [Node.resolve]
    refine .bind (.declare name line) fun _ s' hs => ?_
    obtain ⟨hunheld, rfl⟩ := hs
    rw [← scopesOf_mark]
    refine .bind (hn.resolve (hl.mark_pending hname hdecl) inClass) fun n' s' hn' => ?_
    obtain ⟨rfl, htwin⟩ := hn'
    refine .bind (.define name) fun _ s' hs => .pure ⟨?_, .letDecl rfl ⟨hdecl, hunheld⟩ htwin⟩
    rw [hs, ← scopesOf_mark, mark_mark]
    rfl
  | @function name params body line hname _ hsilent _ ih =>
    intro layers hl hd
    have hdecl := hd name rfl
    rw [Node.resolve]
    refine .declareReady hdecl line fun hvacant => .bind
      (resolveBody_twinStep (ih inClass) hsilent (hl.mark_ready hdecl) name params line) fun body' s' hb => ?_
    obtain ⟨rfl, hnodup, htwin⟩ := hb
    exact .pure ⟨rfl, .function rfl hvacant hnodup htwin⟩
  | @classDecl name methods line hname hmethods hshapes _ ih =>
    intro layers hl hd
    have hdecl := hd name rfl
    rw [Node.resolve]
    refine .declareReady hdecl line fun hvacant => .bind (resolveReceiver_twins hmethods (fun m params body l hm =>
      ⟨(hshapes m params body l hm).2, ih m params body l hm true⟩) (hl.mark_ready hdecl)) fun methods' s' hm => ?_
    obtain ⟨rfl, htwins⟩ := hm
    exact .pure ⟨rfl, .classDecl rfl hvacant htwins⟩
  | print hn =>
    intro layers hl _
    rw [Node.resolve]
    refine .bind (hn.resolve hl.resolvable inClass) fun n' s' hn' => ?_
    obtain ⟨rfl, htwin⟩ := hn'
    exact .pure ⟨rfl, .print rfl htwin⟩
  | ifThen hc ht _ iht =>
    intro layers hl _
    rw [Node.resolve]
    refine .bind (hc.resolve hl.resolvable inClass) fun c' s' hc' => ?_
    obtain ⟨rfl, htwin⟩ := hc'
    refine .bind (resolveBranch_twinStep ht (iht inClass) hl) fun t' s' ht' => ?_
    obtain ⟨rfl, htrue⟩ := ht'
    rw [Node.resolve]
    exact .pure ⟨rfl, .ifThen rfl htwin htrue⟩
  | ifElse hc ht _ he _ iht ihe =>
    intro layers hl _
    rw [Node.resolve]
    refine .bind (hc.resolve hl.resolvable inClass) fun c' s' hc' => ?_
    obtain ⟨rfl, htwin⟩ := hc'
    refine .bind (resolveBranch_twinStep ht (iht inClass) hl) fun t' s' ht' => ?_
    obtain ⟨rfl, htrue⟩ := ht'
    refine .bind (resolveBranch_twinStep he (ihe inClass) hl) fun e' s' he' => ?_
    obtain ⟨rfl, hfalse⟩ := he'
    exact .pure ⟨rfl, .ifElse rfl htwin htrue hfalse⟩
  | whileLoop hc hb _ ihb =>
    intro layers hl _
    rw [Node.resolve]
    refine .bind (hc.resolve hl.resolvable inClass) fun c' s' hc' => ?_
    obtain ⟨rfl, htwin⟩ := hc'
    refine .bind (resolveBranch_twinStep hb (ihb inClass) hl) fun n' s' hn' => ?_
    obtain ⟨rfl, hbody⟩ := hn'
    exact .pure ⟨rfl, .whileLoop rfl htwin hbody⟩
  | returnNil =>
    intro layers hl _
    rw [Node.resolve, Node.resolve]
    exact .pure ⟨rfl, .returnNil rfl⟩
  | returnValue hn =>
    intro layers hl _
    rw [Node.resolve]
    refine .bind (hn.resolve hl.resolvable inClass) fun n' s' hn' => ?_
    obtain ⟨rfl, htwin⟩ := hn'
    exact .pure ⟨rfl, .returnValue rfl htwin⟩

/-! ## Programs -/

/-- A program is resolved to its own twin, and marks in the global scope what it declares, or is rejected. -/
theorem resolve_answers {steps : List Node} (h : ∀ n ∈ steps, IsStep n) :
    (Node.resolveAll false steps).Answers Scopes.initial fun steps' s' =>
      s' = scopesOf (behindAll [⟨.program, []⟩] steps') ∧ TwinSteps .same [⟨.program, []⟩] steps' steps' := by
  have hl : Settled [⟨.program, []⟩] := fun layer hmem name b hb => by
    obtain rfl := List.mem_singleton.mp hmem
    cases hb
  exact resolveAll_twinSteps (fun n hn => (h n hn).resolve false) hl fun n _ name _ => ⟨_, _, rfl, trivial⟩

theorem resolve_twins {steps resolved : List Node} (h : ∀ n ∈ steps, IsStep n) (hr : resolve steps = .ok resolved) :
    TwinSteps .same [⟨.program, []⟩] resolved resolved := by
  unfold resolve at hr
  cases hrun : (Node.resolveAll false steps).run Scopes.initial with
  | error fault => rw [hrun] at hr; cases hr
  | ok result =>
    rw [hrun] at hr
    cases hr
    exact ((resolve_answers h).yields _ _ hrun).2

/-- Nothing but a rule of the language keeps a program from being resolved. -/
theorem resolve_rejects {steps : List Node} (h : ∀ n ∈ steps, IsStep n) {fault : ResolveFault}
    (hr : resolve steps = .error fault) : ∃ line cause, fault = .rejected line cause := by
  have hanswer := resolve_answers h
  unfold Resolve.Answers at hanswer
  unfold resolve at hr
  cases hrun : (Node.resolveAll false steps).run Scopes.initial with
  | error fault' =>
    rw [hrun] at hr hanswer
    cases hr
    exact hanswer
  | ok result => rw [hrun] at hr; cases hr

end LoxLang
