import LoxLang.Proofs.Alongside
import LoxLang.Proofs.Resolved
import LoxLang.Proofs.Retention

/-!
# Closed machines

A machine is closed if it has all that it names: the frames around its frames, the closures that its values name, and
the frames of these. Such a machine runs beside itself, under a pairing in which no frame is spare
(`Machine.Closed.beside`). Wherever a session without a host executes a step, its machine is closed, and around the
frame there are as many frames as there are scopes around the step (`Session.step_admitted`).
-/

namespace LoxLang

/-! ## Closed stores -/

structure Store.HasClosure (s : Store) (c : ClosureId) : Prop where
  lt : c < s.nextClosure
  frame : (s.closure c).frame < s.nextFrame
  body : (s.closure c).body.Detached

/-- The store has the closures that a value names. -/
def Store.Supports (s : Store) (v : Value) : Prop := ∀ r ∈ v.references, s.HasClosure r.2

structure Store.Closed (s : Store) : Prop where
  parents : ∀ f < s.nextFrame, ∀ g ∈ s.chain f, g < s.nextFrame
  bindings : ∀ f name v, s.own? f name = some v → s.Supports v
  methods : ∀ o, ∀ entry ∈ (s.object o).info.methods, s.HasClosure entry.2
  fields : ∀ o name v, (s.object o).fields.get? name = some v → s.Supports v

structure Machine.Closed (m : Machine) : Prop where
  store : m.store.Closed
  faithful : ∀ h ∈ m.hosts, h.Faithful
  kept : ∀ h ∈ m.hosts, ∀ v ∈ h.memory.kept, m.store.Supports v

/-- The machine is closed, and around the frame there is a frame for each of the scopes. -/
structure Machine.Admits (m : Machine) (f : FrameId) (scopes : Scopes) : Prop where
  closed : m.Closed
  frame : f < m.store.nextFrame
  depth : scopes.length ≤ (m.store.chain f).length

/-! ## A machine beside itself -/

namespace Store

/-- The frames around a frame, all of them shared. -/
def around (s : Store) (f : FrameId) : Pattern := List.replicate (s.chain f).length true

/-- The pairing of a store with itself. -/
def itself (s : Store) : Pairing where
  frames := (List.range s.nextFrame).map fun f => (f, s.around f)
  spares := []
  closures := s.closures.toList.map fun c => ⟨s.around c.frame, c, c⟩

variable {s : Store}

theorem paired_itself {f : FrameId} (hf : f < s.nextFrame) : s.itself.Paired (s.around f) f f := by
  rw [Pairing.Paired, itself, List.getElem?_map, List.getElem?_range hf]
  rfl

theorem eq_of_paired_itself {p : Pattern} {f g : FrameId} (h : s.itself.Paired p f g) :
    g < s.nextFrame ∧ f = g ∧ p = s.around g := by
  have hlt : g < s.nextFrame := by simpa [itself] using (List.getElem?_eq_some_iff.mp h).1
  rw [Pairing.Paired, (paired_itself hlt : s.itself.frames[g]? = _)] at h
  cases h
  exact ⟨hlt, rfl, rfl⟩

theorem chained_itself {fs : List FrameId} (h : ∀ f ∈ fs, f < s.nextFrame) :
    s.itself.Chained (List.replicate fs.length true) fs fs := by
  induction fs with
  | nil => exact .nil
  | cons f fs ih =>
    obtain ⟨hf, hfs⟩ := List.forall_mem_cons.mp h
    exact .shared (paired_itself hf) (ih hfs)

theorem closure_itself {c : ClosureId} (hc : c < s.nextClosure) :
    s.itself.closures[c]? = some ⟨s.around (s.closure c).frame, s.closure c, s.closure c⟩ := by
  have hs : s.closures[c]? = some (s.closure c) := by
    rw [Store.closure, Array.getD_eq_getD_getElem?, Array.getElem?_eq_getElem hc]
    rfl
  rw [itself, List.getElem?_map, Array.getElem?_toList, hs]
  rfl

theorem HasClosure.plays {c : ClosureId} (h : s.HasClosure c) (r : Role) : s.itself.Plays r c := by
  refine ⟨_, closure_itself h.lt, ⟨rfl, rfl, rfl, paired_itself h.frame⟩, .refl ?_ _ h.body⟩
  have hwhole : (s.around (s.closure c).frame).Whole := Pattern.whole_replicate _
  cases r with
  | function => exact hwhole.shared
  | method => exact hwhole.shared.shared

theorem Supports.knows {v : Value} (h : s.Supports v) : s.itself.Knows v := fun r hr => (h r hr).plays r.1

theorem Closed.paired (h : s.Closed) : StoresPaired s.itself s s := by
  refine ⟨?_, ?_, fun p f g hf => ?_, nofun, ?_, ?_, rfl, fun o => ⟨fun entry he => (h.methods o entry he).plays _,
    fun name v hv => (h.fields o name v hv).knows⟩⟩
  · simp [itself]
  · simp [Pairing.taken, itself, Function.comp_def]
  · obtain ⟨hlt, rfl, rfl⟩ := eq_of_paired_itself hf
    exact ⟨rfl, chained_itself (h.parents f hlt), fun name v hv => (h.bindings f name v hv).knows⟩
  · simp [itself, Function.comp_def]
  · simp [itself, Function.comp_def]

end Store

theorem Machine.Closed.beside {m : Machine} (h : m.Closed) : Beside m.store.itself m m.store :=
  ⟨h.store.paired, fun host hh => ⟨h.faithful host hh, fun v hv => (h.kept host hh v hv).knows⟩⟩

/-! ## Sound stores -/

section Sound

variable {w : World} {s : Store} (hs : StoreSound w s) (hd : ∀ c < s.nextClosure, (s.closure c).body.Detached)

theorem StoreSound.mem_chain_le (hs : StoreSound w s) (f : FrameId) {t : FrameType} (ht : w.frames[f]? = some t) :
    ∀ g ∈ s.chain f, g ≤ f := by
  induction f using Nat.strongRecOn generalizing t with
  | ind f ih =>
    obtain ⟨-, -, hc⟩ | ⟨g, hg, ⟨t', names, ht', -⟩, hc⟩ := hs.chain_cons ht
    · rw [hc]
      exact List.forall_mem_singleton.mpr (Nat.le_refl f)
    · rw [hc]
      exact List.forall_mem_cons.mpr ⟨Nat.le_refl f, fun k hk => Nat.le_trans (ih g hg ht' k hk) (Nat.le_of_lt hg)⟩

include hs hd

theorem StoreSound.hasClosure {c : ClosureId} {t : ClosureType} {layers : List Layer} (ht : w.closures[c]? = some t)
    (hf : Fits w t.frame layers) : s.HasClosure c := by
  have hlt : c < s.nextClosure := hs.closureCount ▸ (List.getElem?_eq_some_iff.mp ht).1
  obtain ⟨u, names, hu, -⟩ := hf
  refine ⟨hlt, ?_, hd c hlt⟩
  rw [(hs.closures c t ht).2]
  exact hs.frame_lt hu

theorem RoleSound.hasClosure {role : Role} {c : ClosureId} (h : RoleSound w role c) : s.HasClosure c := by
  cases role with
  | function =>
    obtain ⟨_, t, ht, -, hf⟩ := h
    exact hs.hasClosure hd ht hf
  | method =>
    obtain ⟨_, t, _, _, ht, -, -, hf, -⟩ := h
    exact hs.hasClosure hd ht hf

theorem ClassSound.hasClosure {info : ClassInfo} (h : ClassSound w info) :
    ∀ entry ∈ info.methods, s.HasClosure entry.2 :=
  fun entry he => RoleSound.hasClosure hs hd (show RoleSound w .method entry.2 from h entry.1 entry.2 he)

theorem ValueSound.supports {v : Value} (h : ValueSound w v) : s.Supports v := fun r hr =>
  (h.references r hr).hasClosure hs hd

/-- A sound store is closed if its closures name no others. -/
theorem StoreSound.closed : s.Closed := by
  refine ⟨fun f hf g hg => ?_, fun f name v hv => ?_, fun o => (hs.objects o).info.hasClosure hs hd,
    fun o name v hv => ((hs.objects o).fields name v hv).supports hs hd⟩
  · obtain ⟨t, ht⟩ : ∃ t, w.frames[f]? = some t := ⟨_, List.getElem?_eq_getElem (hs.frameCount ▸ hf)⟩
    exact Nat.lt_of_le_of_lt (hs.mem_chain_le f ht g hg) hf
  · have hf := s.lt_nextFrame_of_binds (Store.binds_iff.mpr ⟨v, hv⟩)
    obtain ⟨t, ht⟩ : ∃ t, w.frames[f]? = some t := ⟨_, List.getElem?_eq_getElem (hs.frameCount ▸ hf)⟩
    exact ((hs.frames f t ht).values name v hv).supports hs hd

end Sound

/-! ## Detached programs -/

theorem Node.IsPiece.namesNothing {n : Node} (h : n.IsPiece) : n.NamesNothing := by
  rintro v line rfl
  cases h with
  | step h =>
    cases h with
    | expression h =>
      cases h with
      | literal hv => exact hv.references_eq

theorem checked?_detached {source : String} {steps : List Node} (h : checked? source = some steps) :
    ∀ n ∈ steps, n.Detached := by
  obtain ⟨-, hparse, hresolve⟩ := checked?_eq_some.mp h
  obtain ⟨-, hresolved⟩ := resolve_decides (Grammar.program_sound hparse).law
  intro n hn
  obtain ⟨n', hn', ha⟩ := (hresolved steps hresolve).1.mem hn
  have hpieces : n'.Everywhere Node.IsPiece :=
    .of_inherited (.step (isStep_of_parse hparse n' hn')) fun m inner hm hi => hm.child hi
  refine .of_alike (q := Node.NamesNothing) (fun m m' ha hm => ?_) ha (hpieces.mono fun m hm => hm.namesNothing)
  rintro v line rfl
  cases ha
  exact hm v _ rfl

theorem Stands.detached {rs : List Run} {layers : List Layer} {n : Node} (h : Stands (programsOf rs) layers n) :
    n.Detached := by
  obtain ⟨program, hp, ns, hw⟩ := h
  obtain ⟨r, -, hr⟩ := List.mem_filterMap.mp hp
  exact hw.everywhere (checked?_detached hr) n List.mem_cons_self

/-! ## Sessions -/

/-- No computation meets a host. -/
theorem hostless_accrues :
    Accrues fun visits m m' => m.hosts = #[] → m'.hosts = #[] ∧ ∀ v ∈ visits, v.machine.hosts = #[]
    where
  refl _ h := ⟨h, nofun⟩
  trans h h' hm :=
    have hfirst := h hm
    have hsecond := h' hfirst.1
    ⟨hsecond.1, List.forall_mem_append.mpr ⟨hfirst.2, hsecond.2⟩⟩
  visit _ _ h := ⟨h, List.forall_mem_singleton.mpr h⟩
  frame _ _ _ h := ⟨h, nofun⟩
  define _ _ _ _ _ h := ⟨h, nofun⟩
  heap _ _ _ h := ⟨h, nofun⟩
  emit _ _ h := ⟨h, nofun⟩
  tick _ h := ⟨h, nofun⟩
  ask m _ _ _ hhost h := by
    rw [h] at hhost
    cases hhost
  log _ _ h := ⟨h, nofun⟩
  enter _ _ h := ⟨h, nofun⟩
  leave _ h := ⟨h, nofun⟩
  assign _ _ _ _ _ _ _ _ _ _ _ _ h _ hm := ⟨(h hm).1, List.forall_mem_cons.mpr ⟨hm, (h hm).2⟩⟩

namespace Session

theorem history_hostless {s : Session} (hs : s.machine.hosts = #[]) (rs : List Run) :
    ∀ v ∈ s.history rs, v.machine.hosts = #[] := by
  induction rs generalizing s with
  | nil => exact nofun
  | cons r rs ih =>
    obtain ⟨hend, hvisits⟩ := s.executed_accrues hostless_accrues (fun _ h => ⟨h, nofun⟩) r hs
    obtain ⟨_, _, -, hafter⟩ := s.after_eq r
    refine List.forall_mem_append.mpr ⟨hvisits, ih ?_⟩
    rw [hafter]
    exact hend

/-- The functions of a session's closures are detached wherever a run comes by: they are never changed, and in the end
they stand in the programs of the session. -/
theorem closures_detached (e : Surroundings) (rs : List Run) {v : Visit} (hv : v ∈ (start e).history rs) :
    ∀ c < v.machine.store.nextClosure, (v.machine.store.closure c).body.Detached := by
  intro c hc
  obtain ⟨w, -, -, hsound⟩ := runs_sound e rs
  obtain ⟨-, -, hretains⟩ := visited_retains (start_from e) (rs.map .run)
  rw [visited_runs, meetAll_runs] at hretains
  have hpersists := (v.persists _).trans (hretains.toEnd v hv)
  have hend : c < w.closures.length := by
    rw [hsound.lockstep.stores.sound.closureCount]
    exact Nat.lt_of_lt_of_le hc hpersists.closures
  rw [← hpersists.closure c hc]
  exact (hsound.lockstep.stores.closures c _ (List.getElem?_eq_getElem hend)).stands.detached

/-- A step is executed in a frame that admits what stands inside the scopes around it; and in these scopes resolution
finds the step as it is. -/
theorem step_admitted (e : Surroundings) (rs : List Run) {f : FrameId} {n : Node} {m : Machine}
    (hv : ⟨.execute f n, m⟩ ∈ (start e).history rs) :
    ∃ layers, Stands (programsOf rs) layers n ∧ m.Admits f (scopesOf layers) ∧
      (n.resolve true).Gives (scopesOf layers) n (scopesOf (behind layers n)) := by
  have hhosts : m.hosts = #[] := history_hostless rfl rs _ hv
  have hd := closures_detached e rs hv
  obtain ⟨w, hvisits, -, hsound⟩ := runs_sound e rs
  cases hsound.lockstep.chronicle.visits _ (hvisits ▸ hv) with
  | @execute _ _ _ layers _ _ w₀ _ hs hf hn ht =>
    refine ⟨layers, hn, ⟨⟨hs.closed hd, by simp [hhosts], by simp [hhosts]⟩, ?_, ?_⟩, ht.resolves_itself hn.isRegular⟩
    · obtain ⟨t, names, ht, -⟩ := hf
      exact hs.frame_lt ht
    · rw [hf.length_chain hs, scopesOf, List.length_map]

/-- In a new session the global frame admits the steps of a program. -/
theorem start_admits (e : Surroundings) : (start e).machine.Admits Store.root Scopes.initial := by
  have hsound : StoreSound World.initial (start e).machine.store := (start_sound e).lockstep.stores.sound
  have hhosts : (start e).machine.hosts = #[] := rfl
  exact ⟨⟨hsound.closed fun c hc => absurd hc (Nat.not_lt_zero c), by simp [hhosts], by simp [hhosts]⟩, Nat.zero_lt_one,
    Nat.le_refl _⟩

end Session

end LoxLang
