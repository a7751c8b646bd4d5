import LoxLang.Proofs.Events
import LoxLang.Proofs.Soundness

/-!
# Sound sessions

Whatever the runs of a session did, however they ended, and whatever honest hosts lent to them and took back, the store
stays sound, and the world of the session tells every visit of every run so far (`Session.events_sound`). A run ends
with a regular result, or it is given up; only a host, or a closed log of calls, can bring about another end
(`Session.Ends`).
-/

namespace LoxLang

/-! ## More programs -/

section MorePrograms

variable {programs programs' : List (List Node)} (hp : programs ⊆ programs')
include hp

theorem Stands.mono {layers : List Layer} {n : Node} (h : Stands programs layers n) : Stands programs' layers n :=
  let ⟨program, hm, hw⟩ := h
  ⟨program, hp hm, hw⟩

theorem StoresAlike.more {K : Kinship} {w : World} {s s' : Store} (h : StoresAlike programs K w s s') :
    StoresAlike programs' K w s s' :=
  { h with closures := fun c t ht => { h.closures c t ht with stands := (h.closures c t ht).stands.mono hp } }

theorem VisitSound.more {w : World} {v : Visit} (h : VisitSound programs w v) : VisitSound programs' w v := by
  cases h with
  | execute h₀ hs hf hn ht => exact .execute h₀ hs hf (hn.mono hp) ht
  | evaluate h₀ hs hf hn ht => exact .evaluate h₀ hs hf (hn.mono hp) ht
  | invoke h₀ hs hc hf => exact .invoke h₀ hs hc hf
  | bind => exact .bind

theorem Lockstep.more {sides : Sides} {w : World} {m m' : Machine} (h : Lockstep programs sides w m m') :
    Lockstep programs' sides w m m' :=
  { h with
    stores := h.stores.more hp
    chronicle := ⟨h.chronicle.instances, fun v hv => (h.chronicle.visits v hv).more hp⟩ }

end MorePrograms

/-! ## Sound sessions -/

/-- A machine looks like itself, once its active calls can be shown. -/
theorem SurfaceAlike.beside {sides : Sides} {m : Machine} (hb : sides.before = []) (hb' : sides.before' = [])
    (hshown : sides.lent = [] → ∀ a ∈ m.activations.toList, a.hasText = true)
    (hcloses : m.log.CanClose → sides.closes) :
    SurfaceAlike sides m m :=
  ⟨List.forall₂_same.mpr fun _ _ => ⟨rfl, rfl, sides.same _⟩, hshown,
    ⟨m.effects.toList, by rw [hb]; rfl, by rw [hb']; rfl⟩,
    rfl, rfl, rfl, rfl, rfl, rfl, rfl, ⟨rfl, rfl, rfl⟩, hcloses⟩

/-- The store of the session is as the world describes it, and so is what its hosts remember; what is on record was
lent. The log of calls may be closed only if `closes` says so. -/
structure Session.Sound (closes : Prop) (programs : List (List Node)) (w : World) (s : Session) : Prop where
  lockstep : Lockstep programs (.exact w.lent closes) w s.machine s.machine
  lent : s.lent ⊆ w.lent

/-- The world of a new session. -/
def World.initial : World := ⟨[⟨.program, [], []⟩], [], [], [], []⟩

/-- A host that comes to a session is honest. -/
def Session.Event.Honest : Event → Prop
  | attach h => h.Honest
  | _ => True

namespace Session

/-- How a run may end where hosts lent these names: with a regular result, or by being given up. A host's function may
raise what is no fault of the program, or hand over a number that no double is near; and a closed log of calls answers
so itself. -/
inductive Ends (closes : Prop) (lent : List String) : Except Escape RunResult → Prop
  | result {r} : r.Regular → Ends closes lent (.ok r)
  | outOfFuel : Ends closes lent (.error (.execution .outOfFuel))
  | raised {d} : (lent = [] → d = Exec.logRefusal ∧ closes) → Ends closes lent (.error (.execution (.raised d)))
  | outOfRange : lent ≠ [] → Ends closes lent (.error (.execution .outOfRange))

theorem start_store (e : Surroundings) : (start e).machine.store = ⟨#[⟨[], natives⟩], #[], #[]⟩ := rfl

theorem start_sound (e : Surroundings) : (start e).Sound e.log.CanClose [] World.initial := by
  refine ⟨⟨⟨?_, rfl, rfl, rfl, fun c t ht => by cases ht⟩, ⟨fun f t ht => ?_, fun v hv => by cases hv⟩,
    .beside rfl rfl (fun _ a ha => nomatch ha) id, fun h hh => absurd hh (Array.not_mem_empty h), rfl⟩,
      List.Subset.refl _⟩
  · rw [start_store]
    refine ⟨rfl, rfl, rfl, fun f name h => (by cases h), fun f t ht => ?_, fun c t ht => (by cases ht), fun o =>
      ⟨fun name c hc => (by cases hc), fun name v hv => (by cases hv)⟩⟩
    obtain ⟨rfl, rfl⟩ : f = 0 ∧ t = ⟨.program, [], []⟩ := by
      cases f with
      | zero => cases ht; exact ⟨rfl, rfl⟩
      | succ f => cases ht
    refine ⟨.inl ⟨rfl, rfl⟩, rfl, fun name _ => trivial, fun name v hv => ?_⟩
    have hmem : (name, v) ∈ natives := Table.mem_of_get? hv
    simp only [natives, List.mem_cons, Prod.mk.injEq, List.not_mem_nil, or_false] at hmem
    obtain ⟨-, rfl⟩ | ⟨-, rfl⟩ | ⟨-, rfl⟩ := hmem
    · exact ValueSound.native.mpr fun _ => .inl rfl
    · exact ValueSound.native.mpr fun _ => .inl rfl
    · exact ValueSound.native.mpr fun _ => .inr rfl
  · cases f with
    | zero => cases ht; exact .root
    | succ f => cases ht

/-- A host lends natives that ask it. -/
theorem native_of_mem_toLend {s : Session} {entry : String × Value} (h : entry ∈ s.toLend) :
    ∃ arity index, entry.2 = .native entry.1 arity (.host index) := by
  unfold toLend at h
  split at h
  · cases h
  · next index _ =>
    cases hhost : s.machine.hosts[index]? with
    | none => rw [hhost] at h; cases h
    | some host =>
      rw [hhost] at h
      obtain ⟨⟨name, arity⟩, -, rfl⟩ := List.mem_map.mp h
      exact ⟨arity, index, rfl⟩

/-- Without a host a run starts with the store that the run before left. -/
theorem parsed_store {s : Session} (hh : s.host = none) (hl : s.lent = []) (source : String) :
    (s.parsed source).machine.store = s.machine.store := by
  show s.begun.machine.store = _
  rw [begun_eq, s.toLend_of_none hh, hl]
  rfl

namespace Sound

variable {closes : Prop} {programs : List (List Node)} {w : World} {s : Session}

/-- Soundness is about the store and the hosts, and about the active calls, which can be shown. -/
theorem withMachine (h : s.Sound closes programs w) {m : Machine} (hs : m.store = s.machine.store)
    (hh : m.hosts = s.machine.hosts) (hlog : m.log = s.machine.log)
    (hc : w.lent = [] → ∀ a ∈ m.activations.toList, a.hasText = true) :
    Session.Sound closes programs w { s with machine := m } :=
  ⟨h.lockstep.withSurface hs hs hh
    (.beside rfl rfl hc fun hcloses => h.lockstep.surface.closes (hlog ▸ hcloses)), h.lent⟩

theorem record (h : s.Sound closes programs w) (topic : Topic) (message : String) :
    (s.record topic message).Sound closes programs w :=
  h.withMachine rfl rfl rfl h.lockstep.surface.shown

/-- When a run starts, names are taken out that were lent before, and others are lent. -/
theorem begun (h : s.Sound closes programs w) : s.begun.Sound closes programs (w.lend s.toLend.keys) := by
  have hle := w.le_lend s.toLend.keys
  have hvalues : ∀ entry ∈ s.toLend, ValueSound (w.lend s.toLend.keys) entry.2 := fun entry hmem => by
    obtain ⟨arity, index, hentry⟩ := native_of_mem_toLend hmem
    have hlent : entry.1 ∈ (w.lend s.toLend.keys).lent := List.mem_append_right _ (List.mem_map_of_mem hmem)
    exact hentry ▸ ValueSound.native.mpr fun hnone => absurd (hnone ▸ hlent) List.not_mem_nil
  have hback : s.lent ⊆ (w.lend s.toLend.keys).lent := fun name hn => hle.lent.subset (h.lent hn)
  have hstore := ((h.lockstep.stores.sound.lend s.toLend.keys).without hback).lending hvalues
  rw [begun_eq]
  exact ⟨⟨h.lockstep.stores.update hstore rfl rfl rfl (by simp) (by simp), h.lockstep.chronicle.grow hle rfl rfl,
    .beside rfl rfl (fun _ a ha => nomatch ha) h.lockstep.surface.closes,
    fun host hmem => (h.lockstep.hosts host hmem).mono hle, rfl⟩, List.subset_append_right _ _⟩

theorem parsed (h : s.Sound closes programs w) (source : String) :
    (s.parsed source).Sound closes programs (w.lend s.toLend.keys) :=
  (h.begun.record _ _).record _ _

theorem fail (h : s.Sound closes programs w) (source : String) (first : Diagnostic) (others : List Diagnostic)
    (calls : List Activation) : (s.fail source first others calls).2.Sound closes programs w :=
  h.record _ _

/-- Active calls that can be shown let a failure become a result. -/
theorem failInCalls (h : s.Sound closes programs w) (source : String) {d : Diagnostic} (hd : d.phase = .runtime) :
    (s.failInCalls source d).2.Sound closes programs w ∧ Ends closes w.lent (s.failInCalls source d).1 := by
  unfold Session.failInCalls
  dsimp only
  split
  · exact ⟨h.fail _ _ _ _, .result (.inr ⟨rfl, .runtime hd⟩)⟩
  · next hshown => exact ⟨h, .outOfRange fun hl => hshown (List.all_eq_true.mpr (h.lockstep.surface.shown hl))⟩

/-! ### One run after another -/

/-- The steps of a program leave a sound session. -/
theorem execute (h : s.Sound closes programs w) (fuel : Nat) (source : String) {steps : List Node}
    (hs : steps ∈ programs) (ht : TwinSteps .same [⟨.program, []⟩] steps steps) :
    ∃ w₁, w ≤ w₁ ∧ w₁.visits = w.visits ++ (Traced.program fuel steps s.machine).1 ∧ w₁.lent = w.lent ∧
      (s.execute fuel source steps).2.Sound closes programs w₁ ∧
      Ends closes w.lent (s.execute fuel source steps).1 := by
  have hroot := h.lockstep.stores.sound.fits_root
  have hrun := (ofFuel_sound programs (.exact w.lent closes) fuel).executeAll h.lockstep hroot ⟨steps, hs, .program⟩ ht
  -- the run without its visits is the run, so that both sides are the same machine
  have herases := Traced.program_erases fuel steps s.machine
  rw [Session.execute]
  cases hrun with
  | @ok visits signal m m' w₁ hx hy hw hv hl _ =>
    rw [Traced.program, hx, Exec.program, hy] at herases
    cases herases
    have hlent : w₁.lent = w.lent := hl.lent
    have hsound : Session.Sound closes programs w₁ { s with machine := m } := ⟨hlent ▸ hl, hlent ▸ h.lent⟩
    rw [Exec.program, hy]
    exact ⟨w₁, hw, by rw [Traced.program, hx, hv], hlent, hsound.record _ _, .result (.inl ⟨rfl, rfl⟩)⟩
  | @error visits fault fault' m m' w₁ hx hy ha hw hv hl =>
    rw [Traced.program, hx, Exec.program, hy] at herases
    cases herases
    have hlent : w₁.lent = w.lent := hl.lent
    have hsound : Session.Sound closes programs w₁ { s with machine := m } := ⟨hlent ▸ hl, hlent ▸ h.lent⟩
    rw [Exec.program, hy]
    refine ⟨w₁, hw, by rw [Traced.program, hx, hv], hlent, ?_⟩
    cases ha with
    | runtime => exact hlent ▸ hsound.failInCalls source rfl
    | overflow =>
      have hkept : Session.Sound closes programs w₁
          { s with machine := { m with activations := m.activations.take keptCalls } } := by
        refine hsound.withMachine rfl rfl rfl fun hnone a ha => hsound.lockstep.surface.shown hnone a ?_
        exact List.mem_of_mem_take (by simpa using ha)
      exact hlent ▸ hkept.failInCalls source rfl
    | outOfFuel => exact ⟨hsound, .outOfFuel⟩
    | raised hd => exact ⟨hsound, .raised hd⟩
    | outOfRange hne => exact ⟨hsound, .outOfRange hne⟩

theorem more (h : s.Sound closes programs w) {programs' : List (List Node)} (hp : programs ⊆ programs') :
    s.Sound closes programs' w :=
  ⟨h.lockstep.more hp, h.lent⟩

/-- A run leaves a sound session, whose world tells its visits and what was lent to it. -/
theorem run (h : s.Sound closes programs w) (r : Run) :
    ∃ w₁, w ≤ w₁ ∧ w₁.visits = w.visits ++ s.visits r ∧ w₁.lent = w.lent ++ s.toLend.keys ∧
      (s.after r).Sound closes (programs ++ (checked? r.source).toList) w₁ ∧
      Ends closes w₁.lent (s.runWith r.fuel r.source).1 := by
  obtain ⟨fuel, source⟩ := r
  have hle := w.le_lend s.toLend.keys
  cases hc : checked? source with
  | some steps =>
    have hsteps : steps ∈ programs ++ [steps] := List.mem_append_right _ List.mem_cons_self
    obtain ⟨w₁, hw, hv, hl, hs, hr⟩ := ((h.more (List.subset_append_left programs [steps])).parsed source).execute fuel
      source hsteps (twins_of_checked hc)
    refine ⟨w₁, World.le_trans hle hw, ?_, hl, ?_, ?_⟩
    · simp only [visits, hc, hv, World.lend]
    · rw [after, s.runWith_of_checked fuel hc]
      exact hs
    · rw [s.runWith_of_checked fuel hc, hl]
      exact hr
  | none =>
    -- a text that is rejected runs no steps, and nothing but what is lent is added to the world
    refine ⟨w.lend s.toLend.keys, hle, by simp only [visits, hc, List.append_nil, World.lend], rfl, ?_⟩
    rw [after, Option.toList_none, List.append_nil]
    dsimp only
    cases verdict source with
    | scan hs =>
      rw [s.runWith_of_scan fuel hs]
      refine ⟨h.begun.fail _ _ _ _, .result (.inr ⟨rfl, .scan fun d hd => ?_⟩)⟩
      rw [← hs] at hd
      exact Scan.phase_of_mem hd
    | parse hs hp =>
      rw [s.runWith_of_parse fuel hs hp]
      refine ⟨(h.begun.record _ _).fail _ _ _ _, .result (.inr ⟨rfl, .parse fun d hd => ?_⟩)⟩
      rw [← hp] at hd
      exact Node.phase_of_mem_diagnosticsOf hd
    | resolve hs hp hr =>
      rw [s.runWith_of_resolve fuel hs hp hr]
      exact ⟨(h.parsed source).fail _ _ _ _, .result (.inr ⟨rfl, .resolve rfl⟩)⟩
    | passed hpassed => cases hc.symm.trans hpassed

/-- A new host is as sound as it is honest. -/
theorem attach (h : s.Sound closes programs w) {host : Host} (hh : host.Honest) :
    (s.setHost (some host)).Sound closes programs w := by
  refine ⟨⟨h.lockstep.stores, h.lockstep.chronicle, .beside rfl rfl h.lockstep.surface.shown h.lockstep.surface.closes,
    fun other hmem => ?_, h.lockstep.lent⟩, h.lent⟩
  obtain hmem | rfl := Array.mem_push.mp hmem
  · exact h.lockstep.hosts other hmem
  · exact ⟨hh.faithful, hh.fresh ▸ nofun⟩

/-- An event leaves a sound session. -/
theorem meet (h : s.Sound closes programs w) {event : Event} (he : event.Honest) :
    ∃ w₁, w ≤ w₁ ∧ w₁.visits = w.visits ++ s.visited [event] ∧ w₁.lent = w.lent ++ s.namesLent [event] ∧
      (s.meet event).Sound closes (programs ++ programsOf (runsIn [event])) w₁ := by
  have hquiet {s₁ : Session} (hs : s₁.Sound closes programs w) :
      ∃ w₁, w ≤ w₁ ∧ w₁.visits = w.visits ++ [] ∧ w₁.lent = w.lent ++ [] ∧ s₁.Sound closes (programs ++ []) w₁ :=
    ⟨w, w.le_refl, (List.append_nil _).symm, (List.append_nil _).symm, (List.append_nil programs).symm ▸ hs⟩
  cases event with
  | attach host => exact hquiet (h.attach he)
  | detach => exact hquiet ⟨h.lockstep, h.lent⟩
  | reattach index =>
    refine hquiet ?_
    rw [meet_reattach]
    split
    · exact ⟨h.lockstep, h.lent⟩
    · exact h
  | run r =>
    obtain ⟨w₁, hw, hv, hl, hs, -⟩ := h.run r
    refine ⟨w₁, hw, by simpa [visited, starts] using hv, by simpa [namesLent, starts] using hl, ?_⟩
    have hprograms : programsOf (runsIn [.run r]) = (checked? r.source).toList := by
      cases hc : checked? r.source <;> simp [runsIn, Event.run?, programsOf, hc]
    rw [hprograms]
    exact hs

/-- Events leave a sound session, whose world tells every visit and every name that was lent. -/
theorem meetAll (h : s.Sound closes programs w) {events : List Event} (he : ∀ event ∈ events, event.Honest) :
    ∃ w₁, w ≤ w₁ ∧ w₁.visits = w.visits ++ s.visited events ∧ w₁.lent = w.lent ++ s.namesLent events ∧
      (s.meetAll events).Sound closes (programs ++ programsOf (runsIn events)) w₁ := by
  induction events generalizing s programs w with
  | nil =>
    exact ⟨w, w.le_refl, (List.append_nil _).symm, (List.append_nil _).symm, (List.append_nil programs).symm ▸ h⟩
  | cons event events ih =>
    obtain ⟨w₁, hw, hv, hl, hs⟩ := h.meet (he event List.mem_cons_self)
    obtain ⟨w₂, hw₂, hv₂, hl₂, hs₂⟩ := ih hs fun other hmem => he other (List.mem_cons_of_mem _ hmem)
    refine ⟨w₂, World.le_trans hw hw₂, ?_, ?_, ?_⟩
    · rw [hv₂, hv, List.append_assoc]
      exact congrArg (w.visits ++ ·) (s.visited_append [event] events).symm
    · rw [hl₂, hl, List.append_assoc]
      exact congrArg (w.lent ++ ·) (s.namesLent_append [event] events).symm
    · have hprograms : programsOf (runsIn (event :: events)) =
          programsOf (runsIn [event]) ++ programsOf (runsIn events) := by
        rw [show event :: events = [event] ++ events from rfl, runsIn_append]
        exact List.filterMap_append
      rw [hprograms, ← List.append_assoc]
      exact hs₂

end Sound

/-- The world of a session tells the visits of all its runs, and every name that a host lent to one of them. -/
theorem events_sound (e : Surroundings) {events : List Event} (he : ∀ event ∈ events, event.Honest) :
    ∃ w, w.visits = (start e).visited events ∧ w.lent = (start e).namesLent events ∧
      ((start e).meetAll events).Sound e.log.CanClose (programsOf (runsIn events)) w := by
  obtain ⟨w, -, hv, hl, hs⟩ := (start_sound e).meetAll he
  exact ⟨w, hv, hl, hs⟩

/-- Without a host no name is ever lent. -/
theorem runs_sound (e : Surroundings) (rs : List Run) :
    ∃ w, w.visits = (start e).history rs ∧ w.lent = [] ∧
      ((start e).afterAll rs).Sound e.log.CanClose (programsOf rs) w := by
  have hruns : ∀ event ∈ rs.map Event.run, event.Honest := fun event hmem => by
    obtain ⟨r, -, rfl⟩ := List.mem_map.mp hmem
    exact trivial
  obtain ⟨w, hv, hl, hs⟩ := events_sound e hruns
  rw [visited_runs] at hv
  rw [namesLent_runs (start e) rfl] at hl
  rw [meetAll_runs, runsIn_runs] at hs
  exact ⟨w, hv, hl, hs⟩

/-- Without a host a run ends with a regular result, or it is given up, or a closed log ends it. -/
theorem runs_end (e : Surroundings) (rs : List Run) (fuel : Nat) (source : String) :
    Ends e.log.CanClose [] (((start e).afterAll rs).runWith fuel source).1 := by
  obtain ⟨w, -, hl, hs⟩ := runs_sound e rs
  obtain ⟨w₁, -, -, hl₁, -, hends⟩ := hs.run ⟨fuel, source⟩
  have hhost : ((start e).afterAll rs).host = none := afterAll_host (start e) rs
  rw [hl₁, hl, ((start e).afterAll rs).toLend_of_none hhost] at hends
  exact hends

end Session

end LoxLang
