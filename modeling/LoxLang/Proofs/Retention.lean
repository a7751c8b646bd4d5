import LoxLang.Proofs.Regular

/-!
# What a store retains

No run takes a frame, a closure or an object from a store, and none changes a closure or the class of an object. A
binding is kept as long as nothing is assigned to its name, and to `this` nothing ever is; only in the global frame a
host may lend and take back any name (`Store.Persists`). The visits of a run lie in order between its two ends: what
one of them leaves behind (`Visit.after`) persists to all those behind it (`Retains`), and so it is with all the visits
of a session (`Session.visited_retains`).
-/

namespace LoxLang

open Exec

/-! ## Stores that persist -/

/-- The second store still has what the first one had, as for bindings those that are `kept`. -/
structure Store.Persists (kept : FrameId → String → Prop) (s s' : Store) : Prop where
  frames : s.nextFrame ≤ s'.nextFrame
  closures : s.nextClosure ≤ s'.nextClosure
  closure : ∀ c < s.nextClosure, s'.closure c = s.closure c
  objects : s.nextObject ≤ s'.nextObject
  info : ∀ o < s.nextObject, (s'.object o).info = (s.object o).info
  own? : ∀ f name v, kept f name → s.own? f name = some v → s'.own? f name = some v

namespace Store.Persists

variable {kept : FrameId → String → Prop} {s s' s'' : Store}

theorem refl (s : Store) : s.Persists kept s :=
  ⟨Nat.le_refl _, Nat.le_refl _, fun _ _ => rfl, Nat.le_refl _, fun _ _ => rfl, fun _ _ _ _ h => h⟩

theorem trans (h : s.Persists kept s') (h' : s'.Persists kept s'') : s.Persists kept s'' where
  frames := Nat.le_trans h.frames h'.frames
  closures := Nat.le_trans h.closures h'.closures
  closure c hc := (h'.closure c (Nat.lt_of_lt_of_le hc h.closures)).trans (h.closure c hc)
  objects := Nat.le_trans h.objects h'.objects
  info o ho := (h'.info o (Nat.lt_of_lt_of_le ho h.objects)).trans (h.info o ho)
  own? f name v hk hv := h'.own? f name v hk (h.own? f name v hk hv)

theorem pushFrame (s : Store) (parents : List FrameId) (bindings : Table Value) :
    s.Persists kept (s.pushFrame parents bindings) := by
  refine ⟨Nat.le_of_lt ?_, Nat.le_refl _, fun _ _ => rfl, Nat.le_refl _, fun _ _ => rfl, fun f name v _ hv => ?_⟩
  · rw [nextFrame_pushFrame]
    exact Nat.lt_succ_self _
  · have hf := s.lt_nextFrame_of_binds (Store.binds_iff.mpr ⟨v, hv⟩)
    rwa [own?_pushFrame, if_neg (Nat.ne_of_lt hf)]

/-- A name is bound that was not bound before, or that need not be kept. -/
theorem bind (s : Store) (f : FrameId) {name : String} (v : Value) (h : kept f name → s.binds name f = false) :
    s.Persists kept (s.bind f name v) := by
  refine ⟨Nat.le_of_eq (s.nextFrame_bind f name v).symm, Nat.le_refl _, fun _ _ => rfl, Nat.le_refl _, fun _ _ => rfl,
    fun g other u hk hu => ?_⟩
  rw [own?_bind_cases, if_neg, hu]
  rintro ⟨-, rfl, rfl⟩
  have hb := h hk
  rw [binds_eq_isSome, hu] at hb
  cases hb

theorem pushClosure (s : Store) (c : Closure) : s.Persists kept (s.pushClosure c) := by
  refine ⟨Nat.le_refl _, ?_, fun i hi => ?_, Nat.le_refl _, fun _ _ => rfl, fun _ _ _ _ h => h⟩
  · rw [nextClosure_pushClosure]
    exact Nat.le_succ _
  · rw [closure_pushClosure, if_neg (Nat.ne_of_lt hi)]

theorem pushObject (s : Store) (object : Object) : s.Persists kept (s.pushObject object) := by
  refine ⟨Nat.le_refl _, Nat.le_refl _, fun _ _ => rfl, ?_, fun o ho => ?_, fun _ _ _ _ h => h⟩
  · rw [nextObject_pushObject]
    exact Nat.le_succ _
  · rw [object_pushObject, if_neg (Nat.ne_of_lt ho)]

theorem setField (s : Store) (o : ObjectId) (name : String) (v : Value) :
    s.Persists kept (s.setField o name v) := by
  refine ⟨Nat.le_refl _, Nat.le_refl _, fun _ _ => rfl, Nat.le_of_eq (s.nextObject_setField o name v).symm,
    fun p _ => ?_, fun _ _ _ _ h => h⟩
  obtain h | ⟨-, h⟩ := s.object_setField o name v p <;> rw [h]

theorem bound (s : Store) (c : ClosureId) (receiver : Value) : s.Persists kept (boundStore s c receiver) :=
  (pushFrame s _ _).trans (pushClosure _ _)

theorem withMethods (s : Store) (f : FrameId) (methods : List Node) : s.Persists kept (s.withMethods f methods) := by
  induction methods generalizing s with
  | nil => exact refl s
  | cons n methods ih =>
    cases n with
    | function => exact (pushClosure s _).trans (ih _)
    | _ => exact ih s

end Store.Persists

/-! ## Visits in order -/

/-- The store once a visit has made what belongs to it: the frame and the closure of a bound method, and the closures of
the methods of a class. -/
def Visit.after (v : Visit) : Store :=
  match v.activity with
  | .bind c receiver => boundStore v.machine.store c receiver
  | .execute f (.classDecl _ methods _) => v.machine.store.withMethods f methods
  | _ => v.machine.store

/-- Between two stores the visits lie in order, each of them with what it makes. -/
structure Retains (kept : FrameId → String → Prop) (visits : List Visit) (s s' : Store) : Prop where
  ends : s.Persists kept s'
  fromStart : ∀ v ∈ visits, s.Persists kept v.machine.store
  toEnd : ∀ v ∈ visits, v.after.Persists kept s'
  order : visits.Pairwise fun u v => u.after.Persists kept v.machine.store

theorem Visit.persists (kept : FrameId → String → Prop) (v : Visit) : v.machine.store.Persists kept v.after := by
  unfold Visit.after
  split
  · exact .bound _ _ _
  · exact .withMethods _ _ _
  · exact .refl _

theorem Visit.after_of_not_makes {activity : Activity} {m : Machine} (h : ¬ activity.Makes) :
    (Visit.mk activity m).after = m.store := by
  cases activity with
  | bind => exact absurd trivial h
  | execute f n =>
    cases n with
    | classDecl => exact absurd trivial h
    | _ => rfl
  | _ => rfl

namespace Retains

variable {kept : FrameId → String → Prop} {visits visits' : List Visit} {s s' s'' : Store}

theorem of_persists (h : s.Persists kept s') : Retains kept [] s s' := ⟨h, nofun, nofun, .nil⟩

theorem trans (h : Retains kept visits s s') (h' : Retains kept visits' s' s'') :
    Retains kept (visits ++ visits') s s'' where
  ends := h.ends.trans h'.ends
  fromStart := List.forall_mem_append.mpr ⟨h.fromStart, fun v hv => h.ends.trans (h'.fromStart v hv)⟩
  toEnd := List.forall_mem_append.mpr ⟨fun v hv => (h.toEnd v hv).trans h'.ends, h'.toEnd⟩
  order := List.pairwise_append.mpr ⟨h.order, h'.order, fun u hu v hv => (h.toEnd u hu).trans (h'.fromStart v hv)⟩

theorem visit (v : Visit) : Retains kept [v] v.machine.store v.after :=
  ⟨v.persists kept, List.forall_mem_singleton.mpr (.refl _), List.forall_mem_singleton.mpr (.refl _),
    List.pairwise_singleton _ _⟩

/-- Of two visits one is in front of the other. -/
theorem compare (h : Retains kept visits s s') {u v : Visit} (hu : u ∈ visits) (hv : v ∈ visits) :
    u = v ∨ u.after.Persists kept v.machine.store ∨ v.after.Persists kept u.machine.store := by
  obtain ⟨i, hi, rfl⟩ := List.getElem_of_mem hu
  obtain ⟨j, hj, rfl⟩ := List.getElem_of_mem hv
  obtain hij | rfl | hij := Nat.lt_trichotomy i j
  · exact .inr (.inl (List.pairwise_iff_getElem.mp h.order i j hi hj hij))
  · exact .inl rfl
  · exact .inr (.inr (List.pairwise_iff_getElem.mp h.order j i hj hi hij))

end Retains

/-- Every computation retains what is there, and the bindings of a name as long as nothing is assigned to the name. -/
theorem retains_accruesIn {p : Node → Prop} {kept : FrameId → String → Prop}
    (hp : ∀ f name value line depth, p (.assign name value line depth) → ¬ kept f name) :
    AccruesIn p fun _ _ visits m _ m' => Retains kept visits m.store m'.store where
  refl _ m := .of_persists (.refl m.store)
  fault _ m _ _ := .of_persists (.refl m.store)
  trans := .trans
  weaken _ h := h
  visit m activity _ ha := by
    have hvisit : Retains kept [_] _ _ := .visit ⟨activity, m⟩
    rwa [Visit.after_of_not_makes ha] at hvisit
  surface _ _ _ h := h ▸ .of_persists (.refl _)
  define f m name v hb := .of_persists (.bind m.store f v fun _ => hb)
  redefine _ m _ _ _ := .of_persists (.refl m.store)
  closure m c _ _ := .of_persists (.pushClosure m.store c)
  object _ m info := .of_persists (.pushObject m.store ⟨info, []⟩)
  field _ m o name v := .of_persists (.setField m.store o name v)
  methods f m _ methods line _ := .visit ⟨.execute f (.classDecl _ methods line), m⟩
  bindMethod _ m c v := .visit ⟨.bind c v, m⟩
  part _ _ h := h
  block _ _ m _ _ _ _ _ h := (Retains.of_persists (.pushFrame m.store _ _)).trans h
  invoke _ _ m _ _ _ _ h := (Retains.of_persists (.pushFrame m.store _ _)).trans h
  assign _ f name value line depth m _ v m₁ g hn _ h _ :=
    have hwritten : m₁.store.Persists kept (m₁.store.bind g name v) :=
      .bind _ _ _ fun hk => absurd hk (hp g name value line depth hn.self)
    (Retains.visit ⟨.evaluate f (.assign name value line depth), m⟩).trans
      ⟨h.ends.trans hwritten, h.fromStart, fun u hu => (h.toEnd u hu).trans hwritten, h.order⟩

/-- The receivers of methods: what is bound to `this` in any frame but the global one. -/
def IsReceiver (f : FrameId) (name : String) : Prop := f ≠ Store.root ∧ name = "this"

/-- Nothing is assigned to `this` in a regular program. -/
theorem receiver_accruesIn :
    AccruesIn Node.IsRegular fun _ _ visits m _ m' => Retains IsReceiver visits m.store m'.store :=
  retains_accruesIn fun _ _ _ _ _ hn hthis => hn.assigned _ _ _ _ rfl hthis.2

namespace Session

variable {s : Session}

/-- Hosts lend and take back global names, and nothing else. -/
theorem begun_persists (s : Session) : s.machine.store.Persists IsReceiver s.begun.machine.store := by
  rw [begun_eq]
  refine ⟨?_, ?_, fun c _ => ?_, ?_, fun o _ => ?_, fun f name v hk hv => ?_⟩
  · simp
  · simp [Store.nextClosure]
  · simp [Store.closure]
  · simp [Store.nextObject]
  · simp [Store.object]
  · by_cases hroot : Store.root < s.machine.store.nextFrame
    · rw [Store.own?_lending (by simpa using hroot), if_neg hk.1, Store.own?_without, if_neg fun h => hk.1 h.1]
      exact hv
    · rw [Store.own?_of_le _ (Nat.le_of_not_lt fun hf => hroot (Nat.lt_of_le_of_lt (Nat.zero_le f) hf))] at hv
      cases hv

/-- What happens between runs changes no store. -/
theorem meet_store {event : Event} (he : event.run? = none) : (s.meet event).machine.store = s.machine.store := by
  cases event with
  | attach | detach => rfl
  | reattach index =>
    rw [meet_reattach]
    split
    · rfl
    · rfl
  | run r => cases he

/-- From the start of a session to its end the visits lie in order, each of them on a machine with regular closures. -/
theorem visited_retains (hm : s.machine.From Node.IsRegular) (events : List Event) :
    (s.meetAll events).machine.From Node.IsRegular ∧ (∀ v ∈ s.visited events, v.machine.From Node.IsRegular) ∧
      Retains IsReceiver (s.visited events) s.machine.store (s.meetAll events).machine.store := by
  induction events generalizing s with
  | nil => exact ⟨hm, nofun, .of_persists (.refl _)⟩
  | cons event events ih =>
    cases hrun : event.run? with
    | none =>
      have hstore := meet_store (s := s) hrun
      have hnext := ih (s := s.meet event) (hm.of_closures (congrArg Store.closures hstore))
      rw [hstore] at hnext
      rw [visited, starts_of_quiet s hrun]
      exact hnext
    | some r =>
      cases event with
      | run r =>
        obtain ⟨hfrom, hvisits, _, _, hretains⟩ := executed_leads receiver_accruesIn hm r
        rw [← s.after_store r] at hretains
        obtain ⟨hend, hvisits', hretains'⟩ := ih (hfrom.of_closures (congrArg Store.closures (s.after_store r)))
        exact ⟨hend, List.forall_mem_append.mpr ⟨hvisits, hvisits'⟩,
          (Retains.of_persists s.begun_persists).trans (hretains.trans hretains')⟩
      | _ => cases hrun

end Session

end LoxLang
