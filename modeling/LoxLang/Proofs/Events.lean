import LoxLang.Proofs.Changes
import LoxLang.Proofs.Runs
import Mathlib.Data.List.Induction

/-!
# Sessions with hosts

Between the runs of a session its host may be exchanged, taken away and brought back (`Session.Event`). When a run
starts, the names that were lent to the run before are taken out of the global frame, and the functions that the present
host lends at this moment are put in, over what the frame had under their names (`Session.begun_eq`). What a host lends
may depend on what it remembers; a steady host lends the same to every run (`Session.lent_of_last`).
-/

namespace LoxLang

/-! ## Events -/

/-- What happens to a session. -/
inductive Session.Event
  /-- The functions of a new host are lent from the next run on. -/
  | attach (h : Host)
  /-- Those of a host that was met before are lent again. -/
  | reattach (index : Nat)
  | detach
  | run (r : Run)

/-- The run that an event is, if it is one. -/
def Session.Event.run? : Event → Option Run
  | run r => some r
  | _ => none

namespace Session

/-- The session after an event. -/
def meet (s : Session) : Event → Session
  | .attach h => s.setHost (some h)
  | .reattach index => if index < s.machine.hosts.size then { s with host := some index } else s
  | .detach => s.setHost none
  | .run r => s.after r

def meetAll (s : Session) (events : List Event) : Session := events.foldl meet s

/-- The runs among events, each with the session that it finds. -/
def starts (s : Session) : List Event → List (Session × Run)
  | [] => []
  | .run r :: events => (s, r) :: (s.after r).starts events
  | event :: events => (s.meet event).starts events

/-- What the runs among events answer. -/
def answers (s : Session) (events : List Event) : List (Except Escape RunResult) :=
  (s.starts events).map fun (s, r) => (s.runWith r.fuel r.source).1

/-- The runs among events. -/
def runsIn (events : List Event) : List Run := events.filterMap Event.run?

/-- The visits of the runs among events, one run after the other. -/
def visited (s : Session) (events : List Event) : List Visit := (s.starts events).flatMap fun (s, r) => s.visits r

/-- The names that hosts lend to the runs among events. -/
def namesLent (s : Session) (events : List Event) : List String := (s.starts events).flatMap fun (s, _) => s.toLend.keys

/-- The hosts that the runs among events find. -/
def hostsFound (s : Session) (events : List Event) : List (Option Nat) := (s.starts events).map (·.1.host)

theorem meet_reattach (s : Session) (index : Nat) :
    s.meet (.reattach index) = if index < s.machine.hosts.size then { s with host := some index } else s := rfl

theorem starts_of_quiet (s : Session) {event : Event} (h : event.run? = none) (events : List Event) :
    s.starts (event :: events) = (s.meet event).starts events := by
  cases event with
  | run r => cases h
  | _ => rfl

theorem meetAll_append (s : Session) (events events' : List Event) :
    s.meetAll (events ++ events') = (s.meetAll events).meetAll events' := List.foldl_append

theorem starts_append (s : Session) (events events' : List Event) :
    s.starts (events ++ events') = s.starts events ++ (s.meetAll events).starts events' := by
  induction events generalizing s with
  | nil => rfl
  | cons event events ih =>
    rw [List.cons_append]
    cases hrun : event.run? with
    | none =>
      rw [starts_of_quiet s hrun, starts_of_quiet s hrun]
      exact ih (s.meet event)
    | some r =>
      cases event with
      | run r => exact congrArg ((s, r) :: ·) (ih (s.after r))
      | _ => cases hrun

theorem visited_append (s : Session) (events events' : List Event) :
    s.visited (events ++ events') = s.visited events ++ (s.meetAll events).visited events' := by
  rw [visited, starts_append, List.flatMap_append]
  rfl

theorem namesLent_append (s : Session) (events events' : List Event) :
    s.namesLent (events ++ events') = s.namesLent events ++ (s.meetAll events).namesLent events' := by
  rw [namesLent, starts_append, List.flatMap_append]
  rfl

theorem runsIn_append (events events' : List Event) : runsIn (events ++ events') = runsIn events ++ runsIn events' :=
  List.filterMap_append

theorem answers_run (s : Session) (r : Run) (events : List Event) :
    s.answers (.run r :: events) = (s.runWith r.fuel r.source).1 :: (s.after r).answers events := rfl

end Session

/-- What the host lends does not depend on what it remembers. -/
def Host.Steady (h : Host) : Prop := ∀ memory, Host.lends { h with memory } = h.lends

namespace Session

/-! ## The start of a run -/

/-- The functions that the host of an index lends, if there is one. -/
def lendable (hosts : Array Host) (host : Option Nat) : Table Value :=
  match host with
  | none => []
  | some index => ((hosts[index]?).map (lentTable index)).getD []

variable (s : Session)

theorem begun_eq : s.begun =
    { s with
      lent := s.toLend.keys
      machine := { s.machine with
        store := (s.machine.store.without s.lent).lending s.toLend
        effects := #[]
        activations := #[] } } := rfl

theorem toLend_eq : s.toLend = lendable s.machine.hosts s.host := rfl

/-! ## The end of a run -/

/-- The machine when a run is over, apart from what is reported then. -/
def executed (r : Run) : Machine :=
  match checked? r.source with
  | some steps => machineLeft (Exec.program r.fuel steps (s.parsed r.source).machine)
  | none => s.begun.machine

theorem failInCalls_eq (source : String) (d : Diagnostic) :
    ∃ effects, printedIn effects.toList = s.machine.printed ∧
      (s.failInCalls source d).2 = { s with machine := { s.machine with effects } } := by
  unfold failInCalls
  dsimp only
  split
  · exact ⟨_, printed_record s (by decide) _, rfl⟩
  · exact ⟨_, rfl, rfl⟩

/-- A failure that becomes a result shows all active calls. -/
theorem failInCalls_of_ok {source : String} {d : Diagnostic} {result : RunResult}
    (h : (s.failInCalls source d).1 = .ok result) :
    s.failInCalls source d = (s.fail source d [] s.machine.activations.toList).map .ok id := by
  unfold failInCalls at h ⊢
  dsimp only at h ⊢
  split at h
  · next hshown =>
    rw [if_pos hshown]
    rfl
  · cases h

/-- The end of a run changes nothing but effects and active calls, and nothing of what was printed. -/
theorem execute_eq (fuel : Nat) (source : String) (steps : List Node) :
    ∃ effects activations, printedIn effects.toList = (machineLeft (Exec.program fuel steps s.machine)).printed ∧
      (s.execute fuel source steps).2 =
        { s with machine := { machineLeft (Exec.program fuel steps s.machine) with effects, activations } } := by
  unfold execute
  cases Exec.program fuel steps s.machine with
  | ok signal m => exact ⟨_, _, printed_record { s with machine := m } (by decide) _, rfl⟩
  | error fault m =>
    cases fault with
    | runtime line cause =>
      obtain ⟨effects, hprinted, h⟩ :=
        failInCalls_eq { s with machine := m } source ⟨.runtime, line, cause.message⟩
      exact ⟨effects, m.activations, hprinted, h⟩
    | overflow =>
      obtain ⟨effects, hprinted, h⟩ := failInCalls_eq
        { s with machine := { m with activations := m.activations.take keptCalls } } source
        ⟨.runtime, innermostLine m, RuntimeCause.stackOverflow.message⟩
      exact ⟨effects, _, hprinted, h⟩
    | _ => exact ⟨m.effects, m.activations, rfl, rfl⟩

/-- A text that does not pass every check is reported, while no call is active. -/
theorem runWith_fails (fuel : Nat) {source : String} (h : checked? source = none) :
    ∃ effects first others, printedIn effects.toList = [] ∧ s.runWith fuel source =
      ({ s.begun with machine := { s.begun.machine with effects } }.fail source first others []).map .ok id := by
  cases verdict source with
  | scan hs =>
    rw [s.runWith_of_scan fuel hs]
    exact ⟨_, _, _, rfl, rfl⟩
  | parse hs hp =>
    rw [s.runWith_of_parse fuel hs hp]
    exact ⟨_, _, _, rfl, rfl⟩
  | resolve hs hp hr =>
    rw [s.runWith_of_resolve fuel hs hp hr]
    exact ⟨_, _, _, s.parsed_printed source, rfl⟩
  | passed hc => cases h.symm.trans hc

/-- A text that does not pass every check is reported, and nothing of it is executed. -/
theorem runWith_of_rejected (fuel : Nat) {source : String} (h : checked? source = none) :
    ∃ result effects, s.runWith fuel source =
      (.ok result, { s.begun with machine := { s.begun.machine with effects } }) ∧
        result.effects = effects.toList ∧ printedIn effects.toList = [] := by
  obtain ⟨effects, first, others, hprinted, hrun⟩ := s.runWith_fails fuel h
  rw [hrun]
  refine ⟨_, _, rfl, rfl, ?_⟩
  exact (printed_record { s.begun with machine := { s.begun.machine with effects } } (by decide) _).trans hprinted

/-- A result tells all effects of its run. -/
theorem result_effects {fuel : Nat} {source : String} {result : RunResult}
    (h : (s.runWith fuel source).1 = .ok result) :
    result.effects = (s.runWith fuel source).2.machine.effects.toList := by
  revert h
  cases hc : checked? source with
  | none =>
    obtain ⟨rejected, effects, hrun, heffects, -⟩ := s.runWith_of_rejected fuel hc
    rw [hrun]
    intro h
    cases h
    exact heffects
  | some steps =>
    rw [s.runWith_of_checked fuel hc]
    -- both kinds of failure end by way of the active calls
    have hcalls (s : Session) (d : Diagnostic) (h : (s.failInCalls source d).1 = .ok result) :
        result.effects = (s.failInCalls source d).2.machine.effects.toList := by
      have hshown := s.failInCalls_of_ok h
      rw [hshown] at h ⊢
      cases h
      rfl
    intro h
    unfold execute at h ⊢
    cases hx : Exec.program fuel steps (s.parsed source).machine with
    | ok signal m =>
      rw [hx] at h
      cases h
      rfl
    | error fault m =>
      rw [hx] at h
      cases fault with
      | runtime | overflow => exact hcalls _ _ h
      | _ => cases h

theorem after_eq (r : Run) :
    ∃ effects activations, printedIn effects.toList = (s.executed r).printed ∧
      s.after r = { s.begun with machine := { s.executed r with effects, activations } } := by
  obtain ⟨fuel, source⟩ := r
  unfold after executed
  cases hc : checked? source with
  | some steps =>
    obtain ⟨effects, activations, hprinted, h⟩ := (s.parsed source).execute_eq fuel source steps
    rw [s.runWith_of_checked fuel hc]
    exact ⟨effects, activations, hprinted, h⟩
  | none =>
    obtain ⟨result, effects, h, -, hprinted⟩ := s.runWith_of_rejected fuel hc
    rw [h]
    exact ⟨effects, s.begun.machine.activations, hprinted, rfl⟩

theorem after_store (r : Run) : (s.after r).machine.store = (s.executed r).store := by
  obtain ⟨effects, activations, -, h⟩ := s.after_eq r
  rw [h]

/-- What a result says was printed is what was printed while its text was executed. -/
theorem result_printed {r : Run} {result : RunResult} (h : (s.runWith r.fuel r.source).1 = .ok result) :
    result.printed = (s.executed r).printed := by
  obtain ⟨effects, activations, hprinted, hafter⟩ := s.after_eq r
  rw [RunResult.printed, s.result_effects h, ← hprinted]
  show printedIn (s.after r).machine.effects.toList = _
  rw [hafter]

theorem after_host (r : Run) : (s.after r).host = s.host := by
  obtain ⟨effects, activations, -, h⟩ := s.after_eq r
  rw [h]
  rfl

theorem after_lent (r : Run) : (s.after r).lent = s.toLend.keys := by
  obtain ⟨effects, activations, -, h⟩ := s.after_eq r
  rw [h]
  rfl

/-- What a program's changes bring about, a run brings about. -/
theorem executed_accrues {P : List Visit → Machine → Machine → Prop} (hP : Accrues P)
    (hparsed : ∀ source, P [] s.begun.machine (s.parsed source).machine) (r : Run) :
    P (s.visits r) s.begun.machine (s.executed r) := by
  unfold visits executed
  cases hc : checked? r.source with
  | some steps => exact hP.trans (hparsed r.source) (hP.program r.fuel steps _)
  | none => exact hP.refl _

/-- Where there is no host, nothing is lent. -/
theorem toLend_of_none (h : s.host = none) : s.toLend = [] := by rw [toLend, h]

theorem meetAll_runs (rs : List Run) : s.meetAll (rs.map .run) = s.afterAll rs := by
  rw [meetAll, List.foldl_map]
  rfl

theorem runsIn_runs (rs : List Run) : runsIn (rs.map .run) = rs := by
  rw [runsIn, List.filterMap_map]
  exact List.filterMap_some

theorem visited_runs (rs : List Run) : s.visited (rs.map .run) = s.history rs := by
  induction rs generalizing s with
  | nil => rfl
  | cons r rs ih => exact congrArg (s.visits r ++ ·) (ih (s.after r))

theorem namesLent_runs (h : s.host = none) (rs : List Run) : s.namesLent (rs.map .run) = [] := by
  induction rs generalizing s with
  | nil => rfl
  | cons r rs ih =>
    show s.toLend.keys ++ (s.after r).namesLent (rs.map .run) = []
    rw [s.toLend_of_none h, ih (s.after r) ((s.after_host r).trans h)]
    rfl

theorem afterAll_host (rs : List Run) : (s.afterAll rs).host = s.host := by
  induction rs generalizing s with
  | nil => rfl
  | cons r rs ih => exact (ih (s.after r)).trans (s.after_host r)

theorem afterAll_lent (h : s.host = none) (hl : s.lent = []) (rs : List Run) : (s.afterAll rs).lent = [] := by
  induction rs generalizing s with
  | nil => exact hl
  | cons r rs ih =>
    refine ih (s.after r) ((s.after_host r).trans h) ?_
    rw [s.after_lent r, s.toLend_of_none h]
    rfl

/-! ## Hosts that stay -/

/-- The host is one of these, or there is none. -/
def Met (hosts : Array Host) (host : Option Nat) : Prop := ∀ index, host = some index → index < hosts.size

theorem Met.push {hosts : Array Host} {host : Option Nat} (h : Met hosts host) (new : Host) :
    Met (hosts.push new) host := by
  intro index hi
  rw [Array.size_push]
  exact Nat.lt_succ_of_lt (h index hi)

theorem Met.lendable_push {hosts : Array Host} {host : Option Nat} (h : Met hosts host) (new : Host) :
    lendable (hosts.push new) host = lendable hosts host := by
  cases host with
  | none => rfl
  | some index =>
    have hlt : index < hosts.size := h index rfl
    simp only [lendable, Array.getElem?_push, Nat.ne_of_lt hlt, if_false]

variable {s}

/-- What is no run leaves every host with what it lends. -/
theorem Met.meet {host : Option Nat} (h : Met s.machine.hosts host) {event : Event} (he : event.run? = none) :
    Met (s.meet event).machine.hosts host ∧
      lendable (s.meet event).machine.hosts host = lendable s.machine.hosts host := by
  cases event with
  | attach new => exact ⟨h.push new, h.lendable_push new⟩
  | detach => exact ⟨h, rfl⟩
  | reattach index =>
    rw [meet_reattach]
    split
    · exact ⟨h, rfl⟩
    · exact ⟨h, rfl⟩
  | run r => cases he

/-- What is no run leaves the names on record alone. -/
theorem lent_meet {event : Event} (he : event.run? = none) : (s.meet event).lent = s.lent := by
  cases event with
  | attach | detach => rfl
  | reattach index =>
    rw [meet_reattach]
    split
    · rfl
    · rfl
  | run r => cases he

/-! ## Steady hosts -/

/-- The host, if there is one, is steady. -/
def SteadyAt (hosts : Array Host) (host : Option Nat) : Prop :=
  ∀ index h, host = some index → hosts[index]? = some h → h.Steady

/-- The names on record are those that a host lends, if it is steady. -/
structure LentBy (s : Session) (host : Option Nat) : Prop where
  met : Met s.machine.hosts host
  names : SteadyAt s.machine.hosts host → s.lent = (lendable s.machine.hosts host).keys

/-- A host that was met stays what it is when others come. -/
theorem Met.steady_meet {host : Option Nat} (h : Met s.machine.hosts host) {event : Event} (he : event.run? = none)
    (hs : SteadyAt (s.meet event).machine.hosts host) : SteadyAt s.machine.hosts host := by
  cases event with
  | attach new =>
    intro index old hi hold
    have hne : index ≠ s.machine.hosts.size := Nat.ne_of_lt (h index hi)
    refine hs index old hi ?_
    show (s.machine.hosts.push new)[index]? = some old
    rw [Array.getElem?_push, if_neg hne, hold]
  | detach => exact hs
  | reattach index =>
    rw [meet_reattach] at hs
    split at hs
    · exact hs
    · exact hs
  | run r => cases he

theorem LentBy.meet {host : Option Nat} (h : s.LentBy host) {event : Event} (he : event.run? = none) :
    (s.meet event).LentBy host := by
  obtain ⟨hmet, hlendable⟩ := h.met.meet he
  refine ⟨hmet, fun hs => ?_⟩
  rw [lent_meet he, hlendable, h.names (h.met.steady_meet he hs)]

/-- Right behind a run a session has the host that the run found. -/
theorem getLast?_hostsFound (s : Session) (events : List Event) (r : Run) :
    (s.hostsFound (events ++ [.run r])).getLast? = some (s.meetAll (events ++ [.run r])).host := by
  rw [hostsFound, starts_append, List.map_append, List.getLast?_append, meetAll_append]
  exact congrArg some ((s.meetAll events).after_host r).symm

end Session

end LoxLang
