import LoxLang.Proofs.Changes

/-!
# What happens to a machine, frame by frame

The finer form of `Accrues`: a relation between the machine before and the machine after that knows in which frame a
computation runs, which names it may declare there, and with which fault it ends (`AccruesIn`). Whatever is executed
comes from nodes in which a property `p` holds everywhere: those of the program, and those in the functions of closures,
of which this is an invariant (`Machine.From`). Between the two ends of every run of such a program the relation holds
(`AccruesIn.program`).
-/

namespace LoxLang

open Exec

/-! ## Methods of a class -/

/-- The store with the closures of methods that are declared in a frame. -/
def Store.withMethods (s : Store) (f : FrameId) : List Node → Store
  | [] => s
  | .function name params body _ :: methods =>
    (s.pushClosure ⟨name, params, body, f, name == "init"⟩).withMethods f methods
  | _ :: methods => s.withMethods f methods

theorem Exec.methodTable_apply (f : FrameId) (methods : List Node) (m : Machine) :
    ∃ table, methodTable f methods m = .ok table { m with store := m.store.withMethods f methods } := by
  induction methods generalizing m with
  | nil => exact ⟨[], rfl⟩
  | cons n methods ih =>
    cases n with
    | function name params body line =>
      obtain ⟨table, hrest⟩ := ih { m with store := m.store.pushClosure ⟨name, params, body, f, name == "init"⟩ }
      refine ⟨(name, m.store.nextClosure) :: table, ?_⟩
      rw [methodTable, bind_apply, newClosure_apply]
      dsimp only
      rw [bind_apply, hrest]
      rfl
    | _ => exact ih m

theorem Traced.lift_apply {α : Type} (x : Exec α) (m : Machine) : (liftM x : Traced α) m = ([], x m) := rfl

/-- The declaration of a class makes the closures of its methods, and then it defines the name. -/
theorem Traced.ofFuel_classDecl (fuel : Nat) (f : FrameId) (name : String) (methods : List Node) (line : Line) :
    (Traced.ofFuel (fuel + 1)).execute f (.classDecl name methods line) =
      (note (.execute f (.classDecl name methods line)) >>= fun _ => liftM (methodTable f methods)) >>= fun table =>
        liftM (define f name (.classRef ⟨name, table⟩) line) >>= fun _ => pure .proceed := by
  funext m
  obtain ⟨table, htable⟩ := methodTable_apply f methods m
  have hdeclare : declareClass f name methods line m =
      define f name (.classRef ⟨name, table⟩) line { m with store := m.store.withMethods f methods } := by
    rw [declareClass, Exec.bind_apply, htable]
  have hleft : (Traced.ofFuel (fuel + 1)).execute f (.classDecl name methods line) m =
      (note (.execute f (.classDecl name methods line)) >>= fun _ =>
        liftM (declareClass f name methods line) >>= fun _ =>
        pure .proceed) m := rfl
  rw [hleft]
  simp only [bind_apply, note, lift_apply, hdeclare, htable]
  cases define f name (.classRef ⟨name, table⟩) line { m with store := m.store.withMethods f methods } <;> rfl

/-! ## Where closures come from -/

/-- The property holds everywhere in the functions of the closures. -/
def Machine.From (p : Node → Prop) (m : Machine) : Prop := ∀ c, (m.store.closure c).From p

namespace Machine.From

variable {p : Node → Prop} {m : Machine}

theorem of_closures (h : m.From p) {m' : Machine} (hc : m'.store.closures = m.store.closures) : m'.From p := by
  intro c
  rw [Store.closure, hc]
  exact h c

theorem pushClosure (h : m.From p) {c : Closure} (hc : c.From p) :
    Machine.From p { m with store := m.store.pushClosure c } := by
  intro i
  show ((m.store.pushClosure c).closure i).From p
  rw [Store.closure_pushClosure]
  split
  · exact hc
  · exact h i

theorem withMethods (h : m.From p) (f : FrameId) {methods : List Node} (hm : ∀ n ∈ methods, n.Everywhere p) :
    Machine.From p { m with store := m.store.withMethods f methods } := by
  induction methods generalizing m with
  | nil => exact h
  | cons n methods ih =>
    have hrest : ∀ n ∈ methods, n.Everywhere p := fun k hk => hm k (List.mem_cons_of_mem n hk)
    cases n with
    | function name params body line =>
      exact ih (h.pushClosure ⟨line, hm _ List.mem_cons_self⟩) hrest
    | _ => exact ih h hrest

end Machine.From

/-! ## Faults -/

/-- The fault of a computation that fails. -/
def faultOf? {α : Type} : EStateM.Result Fault Machine α → Option Fault
  | .ok .. => none
  | .error fault _ => some fault

theorem eq_error_of_faultOf? {α : Type} {r : EStateM.Result Fault Machine α} {fault : Fault}
    (h : faultOf? r = some fault) : r = .error fault (machineLeft r) := by
  cases r with
  | ok a m => cases h
  | error fault m =>
    cases h
    rfl

/-- A read does not fail because a name is declared already. -/
theorem Exec.readName_fault {m : Machine} {f : FrameId} {name : String} {line : Line} {depth : Depth} {fault : Fault}
    (h : faultOf? (readName f name line depth m) = some fault) : ¬ fault.IsRedefinition := by
  cases depth with
  | none =>
    rw [readName, lookup_apply] at h
    cases hv : m.store.lookup? f name <;> rw [hv] at h <;> cases h
    exact not_false
  | some d =>
    rw [readName] at h
    cases ha : m.store.ancestor? f d with
    | none =>
      rw [lookupAt, ancestor, bind_apply, bind_apply, inspect_apply] at h
      simp only [ha] at h
      cases h
      exact not_false
    | some g =>
      rw [lookupAt_apply m ha] at h
      cases hv : m.store.own? g name <;> rw [hv] at h <;> cases h
      exact not_false

/-! ## Relations that composition passes on -/

/-- A relation between a machine before and a machine after, for a frame and the names that are declared in it, for the
visits on the way, and for the fault at the end if there is one. It composes, and every change of a machine satisfies
it. -/
structure AccruesIn (p : Node → Prop)
    (R : FrameId → List String → List Visit → Machine → Option Fault → Machine → Prop) : Prop where
  refl : ∀ f m, R f [] [] m none m
  fault : ∀ f m {fault : Fault}, ¬ fault.IsRedefinition → R f [] [] m (some fault) m
  trans : ∀ {f names names' visits visits' m m₁ m₂ fault}, R f names visits m none m₁ →
    R f names' visits' m₁ fault m₂ → R f (names ++ names') (visits ++ visits') m fault m₂
  weaken : ∀ {f names names' visits m fault m'}, names.Sublist names' → R f names visits m fault m' →
    R f names' visits m fault m'
  visit : ∀ {f} m {activity : Activity}, activity.In f → ¬ activity.Makes → R f [] [⟨activity, m⟩] m none m
  /-- What is on a machine apart from its store changes. -/
  surface : ∀ f {m m' : Machine}, m'.store = m.store → R f [] [] m none m'
  define : ∀ f (m : Machine) name v, m.store.binds name f = false →
    R f [name] [] m none { m with store := m.store.bind f name v }
  redefine : ∀ f (m : Machine) name line, m.store.binds name f = true →
    R f [name] [] m (some (.runtime line (.alreadyDefined name))) m
  closure : ∀ {f} (m : Machine) {c : Closure}, c.frame = f → c.From p →
    R f [] [] m none { m with store := m.store.pushClosure c }
  object : ∀ f (m : Machine) info, R f [] [] m none { m with store := m.store.pushObject ⟨info, []⟩ }
  field : ∀ f (m : Machine) o name v, R f [] [] m none { m with store := m.store.setField o name v }
  /-- The closures of a class are made when its declaration is visited. -/
  methods : ∀ f (m : Machine) {name methods line}, (Node.classDecl name methods line).Everywhere p →
    R f [] [⟨.execute f (.classDecl name methods line), m⟩] m none { m with store := m.store.withMethods f methods }
  bindMethod : ∀ f (m : Machine) c v, R f [] [⟨.bind c v, m⟩] m none { m with store := boundStore m.store c v }
  part : ∀ {f visits m fault m'} {n inner : Node}, n.Everywhere p → inner ∈ n.parts →
    R f inner.declares?.toList visits m fault m' → R f [] visits m fault m'
  /-- The steps of a block are executed in a new frame. -/
  block : ∀ f {visits} {m : Machine} {fault m' steps line}, (Node.block steps line).Everywhere p →
    R m.store.nextFrame (Node.stepNames steps) visits { m with store := m.store.pushFrame (m.store.chain f) [] } fault
      m' → R f [] visits m fault m'
  /-- A function has a new frame for its parameters, in which its body is executed. -/
  invoke : ∀ f {visits} {m : Machine} {fault m' c}, (m.store.closure c).From p →
    R m.store.nextFrame ((m.store.closure c).params ++ (m.store.closure c).body.declares?.toList) visits (m.called c)
      fault m' → R f [] visits m fault m'
  /-- An assignment has its value, and then writes it. -/
  assign : ∀ fuel f {name value line depth m visits v m₁ g}, (Node.assign name value line depth).Everywhere p →
    (Traced.ofFuel fuel).evaluate f value m = (visits, .ok v m₁) → R f [] visits m none m₁ →
      m₁.store.written? f name depth = some g →
        R f [] (⟨.evaluate f (.assign name value line depth), m⟩ :: visits) m none
          { m₁ with store := m₁.store.bind g name v }

/-- From machines whose closures are of the property, the computation leads to such machines, and the relation holds
between its two ends. -/
def LeadsIn (p : Node → Prop) (R : FrameId → List String → List Visit → Machine → Option Fault → Machine → Prop)
    (f : FrameId) (names : List String) {α : Type} (x : Traced α) : Prop :=
  ∀ m, m.From p → (machineLeft (x m).2).From p ∧ (∀ v ∈ (x m).1, v.machine.From p) ∧
    R f names (x m).1 m (faultOf? (x m).2) (machineLeft (x m).2)

namespace LeadsIn

variable {p : Node → Prop} {R : FrameId → List String → List Visit → Machine → Option Fault → Machine → Prop}
  (hR : AccruesIn p R) {f : FrameId} {names names' : List String} {α β : Type}

/-- A computation that changes a machine without a visit. -/
theorem change {x : Exec α} (hx : ∀ m, m.From p → (machineLeft (x m)).From p ∧
    R f names [] m (faultOf? (x m)) (machineLeft (x m))) : LeadsIn p R f names (liftM x : Traced α) :=
  fun m hm => ⟨(hx m hm).1, fun _ hv => (nomatch hv), (hx m hm).2⟩

include hR

theorem bind {x : Traced α} {k : α → Traced β} (hx : LeadsIn p R f names x) (hk : ∀ a, LeadsIn p R f names' (k a)) :
    LeadsIn p R f (names ++ names') (x >>= k) := by
  intro m hm
  have h := hx m hm
  rw [Traced.bind_apply]
  rcases hr : x m with ⟨visits, ⟨a, m₁⟩ | ⟨fault, m₁⟩⟩
  · rw [hr] at h
    obtain ⟨hm₁, hvisits, h⟩ := h
    obtain ⟨hm₂, hvisits', h'⟩ := hk a m₁ hm₁
    exact ⟨hm₂, List.forall_mem_append.mpr ⟨hvisits, hvisits'⟩, hR.trans h h'⟩
  · rw [hr] at h
    exact ⟨h.1, h.2.1, hR.weaken (List.sublist_append_left _ _) h.2.2⟩

/-- A computation that leaves the store alone. -/
theorem still {x : Exec α} (hx : ∀ m, (machineLeft (x m)).store = m.store ∧
    ∀ fault, faultOf? (x m) = some fault → ¬ fault.IsRedefinition) : LeadsIn p R f [] (liftM x : Traced α) := by
  refine change fun m hm => ⟨hm.of_closures (congrArg Store.closures (hx m).1), ?_⟩
  cases hfault : faultOf? (x m) with
  | none => exact hR.surface f (hx m).1
  | some fault => exact hR.trans (hR.surface f (hx m).1) (hR.fault f _ ((hx m).2 fault hfault))

theorem define (name : String) (v : Value) (line : Line) :
    LeadsIn p R f [name] (liftM (Exec.define f name v line)) := by
  refine change fun m hm => ?_
  rw [define_apply]
  by_cases hb : m.store.binds name f = true
  · rw [if_pos hb]
    exact ⟨hm, hR.redefine f m name line hb⟩
  · rw [if_neg hb]
    exact ⟨hm.of_closures rfl, hR.define f m name v (Bool.eq_false_iff.mpr hb)⟩

theorem emit (message : String) (line : Line) : LeadsIn p R f [] (liftM (Exec.emit message line)) := by
  refine still hR fun m => ?_
  rw [emit_apply]
  split
  · exact ⟨rfl, fun fault h => by cases h; exact not_false⟩
  · exact ⟨rfl, fun fault h => by cases h⟩

theorem askHost (index : Nat) (call : HostCall) : LeadsIn p R f [] (liftM (Exec.askHost index call)) := by
  refine still hR fun m => ?_
  unfold Exec.askHost
  cases m.hosts[index]? <;> exact ⟨rfl, fun fault h => by cases h⟩

theorem enterCall (a : Activation) : LeadsIn p R f [] (liftM (Exec.enterCall a)) := by
  refine still hR fun m => ?_
  rw [enterCall_apply]
  split
  · exact ⟨rfl, fun fault h => by cases h; exact not_false⟩
  · split
    · exact ⟨rfl, fun fault h => by cases h; exact not_false⟩
    · exact ⟨rfl, fun fault h => by cases h⟩

theorem assign (fuel : Nat) {name : String} {value : Node} {line : Line} {depth : Depth}
    (hn : (Node.assign name value line depth).Everywhere p)
    (hx : LeadsIn p R f [] ((Traced.ofFuel fuel).evaluate f value)) :
    LeadsIn p R f [] ((Traced.ofFuel (fuel + 1)).evaluate f (.assign name value line depth)) := by
  intro m hm
  have h := hx m hm
  have hvisit : R f [] [⟨.evaluate f (.assign name value line depth), m⟩] m none m := hR.visit m rfl not_false
  rw [Traced.ofFuel_assign, Traced.bind_apply]
  dsimp only [Traced.note]
  rw [Traced.bind_apply]
  rcases hv : (Traced.ofFuel fuel).evaluate f value m with ⟨visits, ⟨v, m₁⟩ | ⟨fault, m₁⟩⟩
  · rw [hv] at h
    obtain ⟨hm₁, hvisits, h⟩ := h
    show (machineLeft (writeName f name v line depth m₁)).From p ∧ (∀ v ∈ _ :: (visits ++ []), _) ∧
      R f [] (_ :: (visits ++ [])) m (faultOf? (writeName f name v line depth m₁))
        (machineLeft (writeName f name v line depth m₁))
    rw [List.append_nil]
    obtain ⟨g, hg, hw⟩ | ⟨fault, hfault, hw⟩ := writeName_cases m₁ f name v line depth
    · rw [hw]
      exact ⟨hm₁.of_closures rfl, List.forall_mem_cons.mpr ⟨hm, hvisits⟩, hR.assign fuel f hn hv h hg⟩
    · rw [hw]
      refine ⟨hm₁, List.forall_mem_cons.mpr ⟨hm, hvisits⟩, ?_⟩
      have hfails : R f [] (visits ++ []) m (some fault) m₁ := hR.trans h (hR.fault f m₁ hfault)
      rw [List.append_nil] at hfails
      exact hR.trans hvisit hfails
  · rw [hv] at h
    exact ⟨h.1, List.forall_mem_cons.mpr ⟨hm, h.2.1⟩, hR.trans hvisit h.2.2⟩

theorem classDecl (fuel : Nat) {name : String} {methods : List Node} {line : Line}
    (hn : (Node.classDecl name methods line).Everywhere p) :
    LeadsIn p R f [name] ((Traced.ofFuel (fuel + 1)).execute f (.classDecl name methods line)) := by
  have hmethods : LeadsIn p R f [] (Traced.note (.execute f (.classDecl name methods line)) >>= fun _ =>
      liftM (methodTable f methods)) := by
    intro m hm
    obtain ⟨table, htable⟩ := methodTable_apply f methods m
    rw [Traced.bind_apply]
    show (machineLeft (methodTable f methods m)).From p ∧ (∀ v : Visit, v ∈ [_] → v.machine.From p) ∧
      R f [] [_] m (faultOf? (methodTable f methods m)) (machineLeft (methodTable f methods m))
    rw [htable]
    exact ⟨hm.withMethods f fun n hn' => hn.child hn', List.forall_mem_singleton.mpr hm, hR.methods f m hn⟩
  rw [Traced.ofFuel_classDecl]
  exact .bind hR hmethods fun table => .bind hR (.define hR name _ line) fun _ =>
    .still hR fun _ => ⟨rfl, fun _ h => by cases h⟩

end LeadsIn

namespace AccruesIn

variable {p : Node → Prop} {R : FrameId → List String → List Visit → Machine → Option Fault → Machine → Prop}
  (hR : AccruesIn p R)
include hR

theorem elementaryIn : ElementaryIn p fun f names {α} x => LeadsIn p R f names (liftM x : Traced α) where
  pure _ _ _ := .still hR fun _ => ⟨rfl, fun _ h => by cases h⟩
  throw _ _ _ hfault _ := .still hR fun _ => ⟨rfl, fun _ h => by cases h; exact hfault⟩
  bind hx hk := by
    rw [Traced.lift_bind]
    exact .bind hR hx hk
  weaken hsub hx := fun m hm => ⟨(hx m hm).1, (hx m hm).2.1, hR.weaken hsub (hx m hm).2.2⟩
  closure _ _ := .still hR fun _ => ⟨rfl, fun _ h => by cases h⟩
  object _ _ := .still hR fun _ => ⟨rfl, fun _ h => by cases h⟩
  arity _ _ := .still hR fun _ => ⟨rfl, fun _ h => by cases h⟩
  define _ := .define hR
  readName _ g name line depth := .still hR fun m =>
    ⟨congrArg Machine.store (readName_leaves m g name line depth), fun _ => readName_fault⟩
  newClosure hf hc := .change fun m hm => ⟨hm.pushClosure hc, hR.closure m hf hc⟩
  newObject f info := .change fun m hm => ⟨hm.of_closures rfl, hR.object f m info⟩
  setField f o name v := .change fun m hm => ⟨hm.of_closures rfl, hR.field f m o name v⟩
  emit _ := .emit hR
  readClock _ := .still hR fun _ => ⟨rfl, fun _ h => by cases h⟩
  askHost _ := .askHost hR

theorem hereditaryIn : HereditaryIn p (LeadsIn p R) where
  elementary := hR.elementaryIn
  bind := .bind hR
  note hin ha m hm := ⟨hm, List.forall_mem_singleton.mpr hm, hR.visit m hin ha⟩
  part hn hi hx m hm := ⟨(hx m hm).1, (hx m hm).2.1, hR.part hn hi (hx m hm).2.2⟩
  block f _ _ _ _ hn hk m hm :=
    have h := hk m.store.nextFrame { m with store := m.store.pushFrame (m.store.chain f) [] } (hm.of_closures rfl)
    ⟨h.1, h.2.1, hR.block f hn h.2.2⟩
  invoke f _ c arguments line _ hk m hm :=
    have h :=
      LeadsIn.bind hR (hR.elementaryIn.bindParameters m.store.nextFrame line (m.store.closure c).params arguments)
      (fun _ => hk (m.store.closure c) m.store.nextFrame (hm c)) (m.called c) (hm.of_closures rfl)
    ⟨h.1, h.2.1, hR.invoke f (hm c) h.2.2⟩
  bindMethod f c v m hm := ⟨(hm.of_closures rfl : Machine.From p { m with store := _ }).pushClosure (hm c),
    List.forall_mem_singleton.mpr hm, hR.bindMethod f m c v⟩
  call _ a _ hx := .bind hR (.enterCall hR a) fun _ => .bind hR hx fun _ =>
    .bind hR (.still hR fun _ => ⟨rfl, fun _ h => by cases h⟩) fun _ => .still hR fun _ => ⟨rfl, fun _ h => by cases h⟩
  assign fuel _ _ _ _ _ := .assign hR fuel
  classDecl fuel _ _ _ _ := .classDecl hR fuel

theorem givenUp (f : FrameId) {α : Type} : LeadsIn p R f [] (liftM (throw .outOfFuel : Exec α)) :=
  .still hR fun _ => ⟨rfl, fun _ h => by cases h; exact not_false⟩

theorem ofFuel (fuel : Nat) :
    (∀ f {n : Node}, n.Everywhere p → LeadsIn p R f n.declares?.toList ((Traced.ofFuel fuel).execute f n)) ∧
      ∀ f {n : Node}, n.Everywhere p → LeadsIn p R f [] ((Traced.ofFuel fuel).evaluate f n) :=
  hR.hereditaryIn.ofFuel hR.givenUp fuel

/-- From the machine on which a program starts to the one that it leaves, however it ends. -/
theorem program (fuel : Nat) {steps : List Node} (hn : ∀ n ∈ steps, n.Everywhere p) :
    LeadsIn p R Store.root (Node.stepNames steps) (Traced.program fuel steps) :=
  hR.hereditaryIn.program hR.givenUp fuel hn

end AccruesIn

end LoxLang
