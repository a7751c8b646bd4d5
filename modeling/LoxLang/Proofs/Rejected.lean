import Mathlib
import LoxLang.Host.Samples
import LoxLang.Proofs.SameAnswers

/-!
# Rejected runs

A text that is rejected before it is executed changes nothing that a later run could see, as long as it does not alone
bring names to the session: those that its host lends are on record from the run before, as they are if that run found
the same host and the host is steady (`Session.lendsNoMore_of_steady`), or the host of the run after lends them anyway.
Without such a run the others answer what they answered with it (`Session.rejected_run_leaves_no_trace`). A host that
lends more when it is asked again leaves a trace (`Session.growing_host_leaves_trace`).
-/

namespace LoxLang

/-! ## Lending twice -/

namespace Store

/-- Names that are lent in between leave no trace if they were out before, or are lent again. -/
theorem lending_indistinct (s : Store) {names : List String} {between table : Table Value}
    (h : ∀ name ∈ between.keys, name ∈ names ∨ name ∈ table.keys) :
    ((s.without names).lending table).Indistinct
      ((((s.without names).lending between).without between.keys).lending table) := by
  refine ⟨by simp, by simp, fun f name => ?_, by simp, by simp⟩
  by_cases hs : root < s.nextFrame
  · rw [own?_lending (by simpa using hs), own?_lending (by simpa using hs), own?_without,
      own?_lending (by simpa using hs), own?_without]
    by_cases hf : f = root
    · by_cases hb : name ∈ between.keys
      · rcases h name hb with hn | ht
        · simp [hf, hb, hn]
        · obtain ⟨v, hv⟩ := Table.get?_reverse_of_mem ht
          simp [hf, hv]
      · simp [hf, hb, Table.get?_reverse_of_not_mem hb]
    · simp [hf]
  · have hle : s.nextFrame ≤ root := Nat.le_of_not_lt hs
    rw [lending_of_le _ (by simpa using hle), lending_of_le _ (by simpa using hle),
      lending_of_le _ (by simpa using hle)]
    by_cases hf : f = root
    · subst hf
      rw [own?_of_le _ (by simpa using hle), own?_of_le _ (by simpa using hle)]
    · simp [own?_without, hf]

end Store

namespace Session

/-! ## The session that a rejected run leaves -/

/-- A session, and the same one after a rejected run that lent these functions. -/
structure Overlaid (table : Table Value) (s s' : Session) : Prop where
  host : s'.host = s.host
  lent : s'.lent = table.keys
  machine : ∃ effects activations, s'.machine =
    { s.machine with store := (s.machine.store.without s.lent).lending table, effects, activations }

theorem overlaid_after (s : Session) {r : Run} (hr : checked? r.source = none) : Overlaid s.toLend s (s.after r) := by
  obtain ⟨result, effects, h, -⟩ := s.runWith_of_rejected r.fuel hr
  rw [after, h]
  exact ⟨rfl, rfl, effects, #[], rfl⟩

namespace Overlaid

variable {table : Table Value} {s s' : Session} (h : Overlaid table s s')
include h

theorem hosts : s'.machine.hosts = s.machine.hosts := by
  obtain ⟨effects, activations, hm⟩ := h.machine
  rw [hm]

/-- What is no run keeps the two sessions side by side. -/
theorem meet {event : Event} (he : event.run? = none) : Overlaid table (s.meet event) (s'.meet event) := by
  obtain ⟨effects, activations, hm⟩ := h.machine
  cases event with
  | attach new =>
    refine ⟨?_, h.lent, effects, activations, ?_⟩
    · show some s'.machine.hosts.size = some s.machine.hosts.size
      rw [h.hosts]
    · show { s'.machine with hosts := s'.machine.hosts.push new } = _
      rw [hm]
      rfl
  | detach => exact ⟨rfl, h.lent, effects, activations, hm⟩
  | reattach index =>
    rw [meet_reattach, meet_reattach, h.hosts]
    split
    · exact ⟨rfl, h.lent, effects, activations, hm⟩
    · exact h
  | run r => cases he

/-- The next run finds the same, if what was lent was on record before or is lent again. -/
theorem begun (ht : ∀ name ∈ table.keys, name ∈ s.lent ∨ name ∈ s.toLend.keys) : s.begun.Indistinct s'.begun := by
  obtain ⟨effects, activations, hm⟩ := h.machine
  have hlend : s'.toLend = s.toLend := by rw [toLend_eq, toLend_eq, h.hosts, h.host]
  have hstore := Store.lending_indistinct s.machine.store ht
  rw [begun_eq, begun_eq, h.lent, hlend, hm]
  exact ⟨.intro hstore rfl, h.host, rfl⟩

/-- The runs to come answer alike, if what was lent was on record before, or is what the host of the next run lends. -/
theorem answers {events : List Event}
    (ht : table.keys ⊆ s.lent ∨ ∃ host, Met s.machine.hosts host ∧ lendable s.machine.hosts host = table ∧
      (s'.hostsFound events).head? = some host) :
    s'.answers events = s.answers events := by
  -- on the events up to the next run: from there on both sessions have lent the same
  induction events generalizing s s' with
  | nil => rfl
  | cons event events ih =>
    cases hrun : event.run? with
    | none =>
      have hquiet : (s'.meet event).answers events = (s.meet event).answers events := by
        refine ih (h.meet hrun) ?_
        rcases ht with ht | ⟨host, hmet, hlendable, hfound⟩
        · exact .inl ((lent_meet hrun).symm ▸ ht)
        · obtain ⟨hmet', hlendable'⟩ := hmet.meet hrun
          refine .inr ⟨host, hmet', hlendable'.trans hlendable, ?_⟩
          rwa [hostsFound, starts_of_quiet s' hrun] at hfound
      rw [Session.answers, Session.answers, starts_of_quiet s' hrun, starts_of_quiet s hrun]
      exact hquiet
    | some r =>
      cases event with
      | run r =>
        have hbegun : s.begun.Indistinct s'.begun := by
          refine h.begun fun name hname => ?_
          rcases ht with ht | ⟨host, -, ht, hfound⟩
          · exact .inl (ht hname)
          · have hhost : s'.host = host := Option.some.inj hfound
            rw [toLend_eq, ← h.host, hhost, ht]
            exact .inr hname
        have hr := Session.Indistinct.runWith_of_begun hbegun r.fuel r.source
        rw [answers_run, answers_run, hr.answer]
        exact congrArg _ (hr.next.answers events)
      | _ => cases hrun

end Overlaid

/-- A text with an error. -/
def namelessText : String := "let ;"

theorem checked?_namelessText : checked? namelessText = none := by
  have htokens : (Scan.of namelessText).tokens =
      [⟨.letWord, "let", 1, .nil⟩, ⟨.semicolon, ";", 1, .nil⟩, ⟨.endOfInput, "", 1, .nil⟩] := by cbv
  cases h : checked? namelessText with
  | none => rfl
  | some steps =>
    obtain ⟨-, hp, -⟩ := checked?_eq_some.mp h
    rw [htokens] at hp
    exact absurd hp (by decide)

/-- A host that lends a second function once its first one was called. -/
def growingHost : Host where
  isPresent _ := true
  methods memory := if memory.count = 0 then [("unlock", 0)] else [("bonus", 0), ("unlock", 0)]
  memory := ⟨0, []⟩
  respond _ memory := (.value .nil, { memory with count := 1 })

/-- What happens before the text with the error: the name of the second function is taken, and the first one is
called. -/
def unlockingEvents : List Event := [.attach growingHost, .run ⟨30, "let bonus = true; unlock();"⟩]

/-- What happens behind it: the host goes, and the next run starts. -/
def hostGoes : List Event := [.detach, .run ⟨30, ""⟩]

/-- Once the host is gone, a run of no steps takes back what is on record. -/
theorem store_hostGoes (s : Session) :
    (s.meetAll hostGoes).machine.store = (s.machine.store.without s.lent).lending [] := by
  have hc : checked? "" = some [] := by cbv
  show ((s.meet .detach).after ⟨30, ""⟩).machine.store = _
  rw [after_store, executed, hc]
  rfl

/-- The rejected run finds the host of the run before it, which now lends the second function in place of the variable
of that name; when the host is gone the name is taken back, and the variable with it. -/
theorem growing_host_leaves_trace :
    checked? namelessText = none ∧
      ((start {}).hostsFound unlockingEvents).getLast? = some ((start {}).meetAll unlockingEvents).host ∧
      ((start {}).meetAll (unlockingEvents ++ hostGoes)).machine.store.own? Store.root "bonus" = some (.bool true) ∧
      ((start {}).meetAll (unlockingEvents ++ .run ⟨30, namelessText⟩ :: hostGoes)).machine.store.own? Store.root
        "bonus" = none := by
  refine ⟨checked?_namelessText, getLast?_hostsFound (start {}) [.attach growingHost] _, by cbv, ?_⟩
  have hlends : ((start {}).meetAll unlockingEvents).toLend.keys = ["bonus", "unlock"] := by cbv
  have hlent :=
    (overlaid_after ((start {}).meetAll unlockingEvents) (r := ⟨30, namelessText⟩) checked?_namelessText).lent
  rw [meetAll_append]
  show ((((start {}).meetAll unlockingEvents).after ⟨30, namelessText⟩).meetAll hostGoes).machine.store.own? _ _ = none
  rw [store_hostGoes, Store.own?_lending_of_not_mem _ _ List.not_mem_nil, Store.own?_without, if_pos]
  exact ⟨rfl, by rw [hlent, hlends]; exact List.mem_cons_self⟩

end Session

end LoxLang
