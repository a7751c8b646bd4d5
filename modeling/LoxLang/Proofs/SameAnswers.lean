import LoxLang.Proofs.Events
import LoxLang.Proofs.Indistinct

/-!
# Sessions that no run can tell apart

Two sessions with the same host, the same names on record and machines that no program can tell apart answer every run
alike, and every later one (`Session.Indistinct.runWith`, `Session.Indistinct.answers`).
-/

namespace LoxLang

namespace Store.Indistinct

variable {s s' : Store}

theorem without (h : s.Indistinct s') (names : List String) :
    (s.without names).Indistinct (s'.without names) := by
  induction names generalizing s s' with
  | nil => exact h
  | cons name names ih => exact ih (h.unbind root name)

theorem lending (h : s.Indistinct s') (table : Table Value) :
    (s.lending table).Indistinct (s'.lending table) := by
  induction table generalizing s s' with
  | nil => exact h
  | cons entry table ih => exact ih (h.bind root entry.1 entry.2)

end Store.Indistinct

/-- Two sessions with machines that no program can tell apart, with the same host and the same names on record. -/
structure Session.Indistinct (s s' : Session) : Prop where
  machine : s.machine.Indistinct s'.machine
  host : s'.host = s.host
  lent : s'.lent = s.lent

/-- The same answer, and sessions that no run can tell apart. -/
structure Session.AnswersSame (reply reply' : Except Escape RunResult × Session) : Prop where
  answer : reply'.1 = reply.1
  next : reply.2.Indistinct reply'.2

namespace Session.Indistinct

variable {s s' : Session}

theorem withMachines (h : s.Indistinct s') {m m' : Machine} (hm : m.Indistinct m') :
    Session.Indistinct { s with machine := m } { s' with machine := m' } := ⟨hm, h.host, h.lent⟩

section

variable (h : s.Indistinct s')
include h

theorem toLend : s'.toLend = s.toLend := by rw [toLend_eq, toLend_eq, h.machine.hosts, h.host]

theorem record (topic : Topic) (message : String) : (s.record topic message).Indistinct (s'.record topic message) := by
  have heffects := h.machine.effects
  unfold Session.record
  rw [heffects]
  exact h.withMachines (h.machine.withEffects _)

theorem begun : s.begun.Indistinct s'.begun := by
  have hstore := (h.machine.store.without s.lent).lending s.toLend
  rw [begun_eq, begun_eq, h.lent, h.toLend]
  exact ⟨((h.machine.withEffects #[]).withActivations #[]).withStores hstore, h.host, rfl⟩

/-! ## The end of a run -/

theorem fail (source : String) (first : Diagnostic) (others : List Diagnostic) (calls : List Activation) :
    (s'.fail source first others calls).1 = (s.fail source first others calls).1 ∧
      (s.fail source first others calls).2.Indistinct (s'.fail source first others calls).2 := by
  have hnext := h.record .stderr (Report.message source (first :: others) calls)
  refine ⟨?_, hnext⟩
  have heffects := hnext.machine.effects
  unfold Session.fail
  dsimp only
  rw [heffects]

theorem succeed (v : Value) :
    (s'.succeed v).1 = (s.succeed v).1 ∧ (s.succeed v).2.Indistinct (s'.succeed v).2 := by
  have hnext := h.record .progress "Executed in Nμs"
  refine ⟨?_, hnext⟩
  have heffects := hnext.machine.effects
  unfold Session.succeed
  dsimp only
  rw [heffects]

theorem failInCalls (source : String) (d : Diagnostic) :
    AnswersSame (s.failInCalls source d) (s'.failInCalls source d) := by
  unfold Session.failInCalls
  rw [h.machine.activations]
  dsimp only
  split
  · obtain ⟨hanswer, hnext⟩ := h.fail source d [] s.machine.activations.toList
    exact ⟨congrArg Except.ok hanswer, hnext⟩
  · exact ⟨rfl, h⟩

theorem execute (fuel : Nat) (source : String) (steps : List Node) :
    AnswersSame (s.execute fuel source steps) (s'.execute fuel source steps) := by
  have hrun := Exec.program_uniform fuel steps _ _ h.machine
  unfold Session.execute
  revert hrun
  generalize Exec.program fuel steps s.machine = reply
  generalize Exec.program fuel steps s'.machine = reply'
  intro hrun
  cases hrun with
  | ok hm =>
    obtain ⟨hanswer, hnext⟩ := (h.withMachines hm).succeed _
    exact ⟨congrArg Except.ok hanswer, hnext⟩
  | @error fault m m' hm =>
    cases fault with
    | runtime line cause => exact (h.withMachines hm).failInCalls source _
    | overflow =>
      dsimp only
      rw [hm.activations, show innermostLine m' = innermostLine m by rw [innermostLine, hm.activations, innermostLine]]
      exact (h.withMachines (hm.withActivations _)).failInCalls source _
    | _ => exact ⟨rfl, h.withMachines hm⟩

end

/-! ## Runs -/

/-- A run sees of a session what the session is as the run starts. -/
theorem runWith_of_begun (h : s.begun.Indistinct s'.begun) (fuel : Nat) (source : String) :
    AnswersSame (s.runWith fuel source) (s'.runWith fuel source) := by
  have hscanned : (s.scanned source).Indistinct (s'.scanned source) := h.record _ _
  have hparsed : (s.parsed source).Indistinct (s'.parsed source) := hscanned.record _ _
  cases verdict source with
  | @scan first others hs =>
    rw [s.runWith_of_scan fuel hs, s'.runWith_of_scan fuel hs]
    obtain ⟨hanswer, hnext⟩ := h.fail source first others []
    exact ⟨congrArg Except.ok hanswer, hnext⟩
  | @parse first others hs hp =>
    rw [s.runWith_of_parse fuel hs hp, s'.runWith_of_parse fuel hs hp]
    obtain ⟨hanswer, hnext⟩ := hscanned.fail source first others []
    exact ⟨congrArg Except.ok hanswer, hnext⟩
  | @resolve line cause hs hp hr =>
    rw [s.runWith_of_resolve fuel hs hp hr, s'.runWith_of_resolve fuel hs hp hr]
    obtain ⟨hanswer, hnext⟩ := hparsed.fail source (cause.diagnostic line) [] []
    exact ⟨congrArg Except.ok hanswer, hnext⟩
  | @passed steps hc =>
    rw [s.runWith_of_checked fuel hc, s'.runWith_of_checked fuel hc]
    exact hparsed.execute fuel source steps

theorem runWith (h : s.Indistinct s') (fuel : Nat) (source : String) :
    AnswersSame (s.runWith fuel source) (s'.runWith fuel source) := runWith_of_begun h.begun fuel source

theorem setHost (h : s.Indistinct s') (host : Option Host) : (s.setHost host).Indistinct (s'.setHost host) := by
  cases host with
  | none => exact ⟨h.machine, rfl, h.lent⟩
  | some new =>
    have hhosts := h.machine.hosts
    refine ⟨?_, ?_, h.lent⟩
    · unfold Session.setHost
      rw [hhosts]
      exact h.machine.withHosts _
    · unfold Session.setHost
      rw [hhosts]

theorem meet (h : s.Indistinct s') (event : Event) : (s.meet event).Indistinct (s'.meet event) := by
  cases event with
  | attach new => exact h.setHost (some new)
  | detach => exact h.setHost none
  | run r => exact (h.runWith r.fuel r.source).next
  | reattach index =>
    rw [meet_reattach, meet_reattach, h.machine.hosts]
    split
    · exact ⟨h.machine, rfl, h.lent⟩
    · exact h

/-- All runs to come answer alike. -/
theorem answers (h : s.Indistinct s') (events : List Event) : s'.answers events = s.answers events := by
  induction events generalizing s s' with
  | nil => rfl
  | cons event events ih =>
    have hnext := ih (h.meet event)
    cases event with
    | run r =>
      rw [answers_run, answers_run, (h.runWith r.fuel r.source).answer]
      exact congrArg _ hnext
    | attach new => exact hnext
    | detach => exact hnext
    | reattach index => exact hnext

end Session.Indistinct

end LoxLang
