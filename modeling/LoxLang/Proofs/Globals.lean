import LoxLang.Host.Samples
import LoxLang.Proofs.Assignments
import LoxLang.Proofs.Events

/-!
# Globals that persist

A global that a `let`, a function or a class at the top level of a text declared is bound for the rest of the session,
whatever runs fail and whichever hosts come and go, and nothing but assignments changes its value
(`Session.created_global_persists`). There is one condition: no host of a later run lends a function of that name. Such
a function takes the place of the global, and when the host goes, the name goes with it
(`Session.lent_name_takes_global`).
-/

namespace LoxLang

/-! ## What a computation does to globals -/

/-- An assignment whose evaluation starts at the visit, and which writes the value to the global. -/
def Visit.WritesGlobal (visit : Visit) (name : String) (v : Value) : Prop :=
  ∃ a fuel m, visit.assignment? = some a ∧ a.name = name ∧
    (Evaluator.ofFuel fuel).evaluate a.scope a.value visit.machine = .ok v m ∧
    m.store.written? a.scope a.name a.depth = some Store.root

/-- A global that is bound stays bound, and has its value from before or from an assignment on the way. -/
structure Machine.KeepsGlobals (visits : List Visit) (m m' : Machine) : Prop where
  frames : m.store.nextFrame ≤ m'.store.nextFrame
  globals : ∀ name v, m.store.own? Store.root name = some v →
    ∃ v', m'.store.own? Store.root name = some v' ∧ (v' = v ∨ ∃ visit ∈ visits, visit.WritesGlobal name v')

namespace Machine.KeepsGlobals

/-- What leaves the frames alone keeps every global. -/
theorem of_frames {visits : List Visit} {m m' : Machine} (h : m'.store.frames = m.store.frames) :
    m.KeepsGlobals visits m' := by
  refine ⟨Nat.le_of_eq (congrArg Array.size h.symm), fun name v hv => ⟨v, ?_, .inl rfl⟩⟩
  rwa [Store.own?, Store.frame, h]

theorem trans {visits visits' : List Visit} {m m₁ m₂ : Machine} (h : m.KeepsGlobals visits m₁)
    (h' : m₁.KeepsGlobals visits' m₂) : m.KeepsGlobals (visits ++ visits') m₂ := by
  refine ⟨Nat.le_trans h.frames h'.frames, fun name v hv => ?_⟩
  obtain ⟨v₁, hv₁, hfrom⟩ := h.globals name v hv
  obtain ⟨v₂, hv₂, hfrom'⟩ := h'.globals name v₁ hv₁
  refine ⟨v₂, hv₂, ?_⟩
  rcases hfrom' with rfl | ⟨visit, hmem, hwrites⟩
  · rcases hfrom with rfl | ⟨visit, hmem, hwrites⟩
    · exact .inl rfl
    · exact .inr ⟨visit, List.mem_append_left _ hmem, hwrites⟩
  · exact .inr ⟨visit, List.mem_append_right _ hmem, hwrites⟩

end Machine.KeepsGlobals

theorem keepsGlobals_accrues : Accrues Machine.KeepsGlobals where
  refl _ := .of_frames rfl
  trans := .trans
  visit _ _ := .of_frames rfl
  heap _ _ h := .of_frames h
  emit _ _ := .of_frames rfl
  tick _ := .of_frames rfl
  ask _ _ _ _ _ := .of_frames rfl
  log _ _ := .of_frames rfl
  enter _ _ := .of_frames rfl
  leave _ := .of_frames rfl
  frame m parents bindings := by
    refine ⟨by simp, fun name v hv => ⟨v, ?_, .inl rfl⟩⟩
    have hroot : Store.root < m.store.nextFrame := m.store.lt_nextFrame_of_binds (Store.binds_iff.mpr ⟨v, hv⟩)
    rwa [Store.own?_pushFrame, if_neg (Nat.ne_of_lt hroot)]
  define m f name v hb := by
    refine ⟨by simp, fun other u hu => ⟨u, ?_, .inl rfl⟩⟩
    rw [Store.own?_bind_cases, if_neg, hu]
    rintro ⟨-, rfl, rfl⟩
    rw [Store.binds_iff.mpr ⟨u, hu⟩] at hb
    cases hb
  assign fuel f name value line depth m visits v m₁ g hv h hg := by
    have hvalue : (Evaluator.ofFuel fuel).evaluate f value m = .ok v m₁ := by
      rw [← (Traced.ofFuel_erases fuel).evaluate f value m, hv]
    refine ⟨by simpa using h.frames, fun other u hu => ?_⟩
    rw [Store.own?_bind_cases]
    split
    · next hc =>
      obtain ⟨-, rfl, rfl⟩ := hc
      exact ⟨v, rfl, .inr ⟨_, List.mem_cons_self, ⟨f, name, value, line, depth⟩, fuel, m₁, rfl, rfl, hvalue, hg⟩⟩
    · obtain ⟨u', hu', hfrom⟩ := h.globals other u hu
      refine ⟨u', hu', hfrom.imp_right ?_⟩
      rintro ⟨visit, hmem, hwrites⟩
      exact ⟨visit, List.mem_cons_of_mem _ hmem, hwrites⟩

/-! ## Declarations -/

/-- The last step of a program that runs to its end, and the machine on which it starts. -/
theorem Exec.program_last {fuel : Nat} {first : List Node} {step : Node} {m m' : Machine}
    (h : Exec.program fuel (first ++ [step]) m = .ok .proceed m') :
    ∃ m₁ signal, Exec.program fuel first m = .ok .proceed m₁ ∧
      (Evaluator.ofFuel fuel).execute Store.root step m₁ = .ok signal m' := by
  rw [Exec.program, Evaluator.executeAll_append, Exec.bind_apply] at h
  rw [Exec.program]
  cases hr : (Evaluator.ofFuel fuel).executeAll Store.root first m with
  | error fault m₁ =>
    rw [hr] at h
    cases h
  | ok signal m₁ =>
    rw [hr] at h
    dsimp only at h
    cases signal with
    | returnNil | returnValue => cases h
    | proceed =>
      refine ⟨m₁, ?_⟩
      have h' : (Evaluator.ofFuel fuel).executeAll Store.root [step] m₁ = .ok .proceed m' := h
      rw [Evaluator.executeAll, Exec.bind_apply] at h'
      cases hs : (Evaluator.ofFuel fuel).execute Store.root step m₁ with
      | error fault m₂ =>
        rw [hs] at h'
        cases h'
      | ok signal m₂ =>
        rw [hs] at h'
        cases signal <;> cases h'
        exact ⟨_, rfl, rfl⟩

/-- A definition that succeeds adds a name to a frame that did not bind it, neither then nor before. -/
theorem Exec.binds_of_define {α : Type} {x : Exec α} (hx : Conserves x) {f : FrameId} {name : String}
    {v : α → Value} {line : Line} {m m' : Machine} {signal : Signal}
    (h : (do let a ← x; Exec.define f name (v a) line; pure .proceed : Exec Signal) m = .ok signal m') :
    m.store.binds name f = false ∧ (f < m.store.nextFrame → m'.store.binds name f = true) := by
  rw [Exec.bind_apply] at h
  cases hr : x m with
  | error fault m₁ =>
    rw [hr] at h
    cases h
  | ok a m₁ =>
    have hgrows := (hx m a m₁ hr).store
    rw [hr] at h
    dsimp only at h
    rw [Exec.bind_apply, Exec.define_apply] at h
    by_cases hb : m₁.store.binds name f = true
    · rw [if_pos hb] at h
      cases h
    · rw [if_neg hb] at h
      cases h
      refine ⟨Bool.eq_false_iff.mpr fun hbound => hb (hgrows.binds name f hbound), fun hf => ?_⟩
      rw [Store.binds_bind _ (Nat.lt_of_lt_of_le hf hgrows.frames)]
      simp

/-- A step that declares a name and is executed adds the name to its frame, which did not bind it before. -/
theorem Evaluator.binds_of_execute {fuel : Nat} {f : FrameId} {n : Node} {name : String}
    (hn : n.declares? = some name) {m m' : Machine} {signal : Signal}
    (h : (ofFuel fuel).execute f n m = .ok signal m') :
    m.store.binds name f = false ∧ (f < m.store.nextFrame → m'.store.binds name f = true) := by
  cases fuel with
  | zero => cases h
  | succ fuel =>
    cases n with
    | letDecl _ initializer line =>
      cases hn
      exact Exec.binds_of_define (evaluate_conserves fuel f initializer) h
    | function _ params body line =>
      cases hn
      have h' : (do let c ← Exec.newClosure ⟨name, params, body, f, false⟩
                    Exec.define f name (.function name c) line
                    pure .proceed : Exec Signal) m = .ok signal m' := by
        rw [← bind_assoc]
        exact h
      exact Exec.binds_of_define (.newClosure _) h'
    | classDecl _ methods line =>
      cases hn
      have h' : (do let table ← Exec.methodTable f methods
                    Exec.define f name (.classRef ⟨name, table⟩) line
                    pure .proceed : Exec Signal) m = .ok signal m' := by
        rw [← bind_assoc]
        exact h
      exact Exec.binds_of_define (conserves_hereditary.elementary.methodTable f methods) h'
    | _ => cases hn

namespace Session

variable (s : Session)

/-! ## Through a run -/

/-- Names that neither were lent nor are lent stay what they are when a run starts. -/
theorem own?_begun {name : String} (hlent : name ∉ s.lent) (hlend : name ∉ s.toLend.keys) :
    s.begun.machine.store.own? Store.root name = s.machine.store.own? Store.root name := by
  rw [begun_eq]
  show ((s.machine.store.without s.lent).lending s.toLend).own? Store.root name = _
  rw [Store.own?_lending_of_not_mem _ _ hlend, Store.own?_without, if_neg fun h => hlent h.2]

theorem executed_keepsGlobals (r : Run) : s.begun.machine.KeepsGlobals (s.visits r) (s.executed r) :=
  s.executed_accrues keepsGlobals_accrues (fun _ => .of_frames rfl) r

/-- The name is bound in the global frame, and not because a host lent it. -/
structure HasGlobal (name : String) : Prop where
  bound : ∃ v, s.machine.store.own? Store.root name = some v
  own : name ∉ s.lent

variable {s}

namespace HasGlobal

variable {name : String} (h : s.HasGlobal name)
include h

/-- A run whose host does not lend the name keeps the global. -/
theorem value_after (r : Run) (hlend : name ∉ s.toLend.keys) :
    ∃ v v', s.machine.store.own? Store.root name = some v ∧
      (s.after r).machine.store.own? Store.root name = some v' ∧
      (v' = v ∨ ∃ visit ∈ s.visits r, visit.WritesGlobal name v') := by
  obtain ⟨v, hv⟩ := h.bound
  have hbegun : s.begun.machine.store.own? Store.root name = some v := (s.own?_begun h.own hlend).trans hv
  obtain ⟨v', hv', hfrom⟩ := (s.executed_keepsGlobals r).globals name v hbegun
  rw [← s.after_store r] at hv'
  exact ⟨v, v', hv, hv', hfrom⟩

theorem after (r : Run) (hlend : name ∉ s.toLend.keys) : (s.after r).HasGlobal name := by
  obtain ⟨v, v', -, hv', -⟩ := h.value_after r hlend
  refine ⟨⟨v', hv'⟩, ?_⟩
  rwa [after_lent]

theorem meet {event : Event} (he : event.run? = none) : (s.meet event).HasGlobal name := by
  refine ⟨?_, (lent_meet he).symm ▸ h.own⟩
  cases event with
  | attach | detach => exact h.bound
  | reattach index =>
    rw [meet_reattach]
    split
    · exact h.bound
    · exact h.bound
  | run r => cases he

/-- Every run of a session finds the global that the session has, if no host lends its name. -/
theorem starts {events : List Event} (hlend : ∀ s' r', (s', r') ∈ s.starts events → name ∉ s'.toLend.keys) :
    ∀ s' r', (s', r') ∈ s.starts events → s'.HasGlobal name := by
  induction events generalizing s with
  | nil =>
    intro s' r' hmem
    cases hmem
  | cons event events ih =>
    intro s' r' hmem
    cases hrun : event.run? with
    | none =>
      rw [starts_of_quiet s hrun] at hmem hlend
      exact ih (h.meet hrun) hlend s' r' hmem
    | some r =>
      cases event with
      | run r =>
        have hfirst := hlend s r List.mem_cons_self
        rcases List.mem_cons.mp hmem with heq | hrest
        · cases heq
          exact h
        · exact ih (h.after r hfirst) (fun s' r' hs => hlend s' r' (List.mem_cons_of_mem _ hs)) s' r' hrest
      | _ => cases hrun

end HasGlobal

variable (s)

theorem nextFrame_begun : s.begun.machine.store.nextFrame = s.machine.store.nextFrame := by
  rw [begun_eq]
  simp

/-- A run takes no frame away. -/
theorem nextFrame_le_after (r : Run) : s.machine.store.nextFrame ≤ (s.after r).machine.store.nextFrame := by
  have hkeeps := (s.executed_keepsGlobals r).frames
  rwa [← after_store, nextFrame_begun] at hkeeps

/-- The global frame is always there. -/
theorem rooted_meetAll (e : Surroundings) (events : List Event) :
    Store.root < ((start e).meetAll events).machine.store.nextFrame := by
  have hkeep (s : Session) (h : Store.root < s.machine.store.nextFrame) :
      Store.root < (s.meetAll events).machine.store.nextFrame := by
    induction events generalizing s with
    | nil => exact h
    | cons event events ih =>
      refine ih (s.meet event) ?_
      cases event with
      | attach | detach => exact h
      | run r => exact Nat.lt_of_lt_of_le h (s.nextFrame_le_after r)
      | reattach index =>
        rw [meet_reattach]
        split
        · exact h
        · exact h
  exact hkeep (start e) Nat.one_pos

/-- What a host lends that has just come. -/
theorem keys_toLend_attach (h : Host) : (s.meet (.attach h)).toLend.keys = h.lends.sorted.keys := by
  show (lendable (s.machine.hosts.push h) (some s.machine.hosts.size)).keys = _
  rw [lendable]
  simp [lentTable, Table.keys, Function.comp_def]

/-! ## Creation -/

/-- The run executes a step at the top level of its text that declares the name. -/
def Creates (r : Run) (name : String) : Prop :=
  ∃ first step others m, checked? r.source = some (first ++ step :: others) ∧ step.declares? = some name ∧
    Exec.program r.fuel (first ++ [step]) (s.parsed r.source).machine = .ok .proceed m

/-- A global that a run creates is there when the run is over, however it ends. -/
theorem Creates.hasGlobal {s : Session} {r : Run} {name : String} (h : s.Creates r name)
    (hs : Store.root < s.machine.store.nextFrame) : (s.after r).HasGlobal name := by
  obtain ⟨first, step, others, m, hc, hn, hrun⟩ := h
  obtain ⟨m₁, signal, hfirst, hstep⟩ := Exec.program_last hrun
  have hgrows := (Exec.program_conserves r.fuel first _ _ _ hfirst).store
  obtain ⟨hunbound, hbound⟩ := Evaluator.binds_of_execute hn hstep
  have hroot : Store.root < s.begun.machine.store.nextFrame := by rwa [nextFrame_begun]
  obtain ⟨v, hv⟩ := Store.binds_iff.mp (hbound (Nat.lt_of_lt_of_le hroot hgrows.frames))
  refine ⟨?_, fun hlent => ?_⟩
  · -- the steps behind the declaration start with the name bound
    have hrest : s.executed r = machineLeft (Exec.program r.fuel others m) := by
      rw [List.append_cons] at hc
      rw [executed, hc]
      show machineLeft (Exec.program r.fuel ((first ++ [step]) ++ others) _) = _
      rw [Exec.program_append hrun]
    obtain ⟨v', hv', -⟩ := (keepsGlobals_accrues.program r.fuel others m).globals name v hv
    rw [after_store, hrest]
    exact ⟨v', hv'⟩
  · -- a name that the host lends would be bound already
    rw [after_lent] at hlent
    have hlentBound : s.begun.machine.store.binds name Store.root = true := by
      obtain ⟨u, hu⟩ := Table.get?_reverse_of_mem hlent
      refine Store.binds_iff.mpr ⟨u, ?_⟩
      rw [begun_eq]
      show ((s.machine.store.without s.lent).lending s.toLend).own? Store.root name = some u
      rw [Store.own?_lending (by simpa using hs), if_pos rfl, hu, Option.some_or]
    rw [hgrows.binds name Store.root hlentBound] at hunbound
    cases hunbound

/-- Whatever happens to a session: a global that a text's own `let`, function or class created is bound as long as no
later run's host lends its name, and a run leaves it with its value, or with one that an assignment of the run wrote. -/
theorem created_global_persists (e : Surroundings) (before after : List Event) {r : Run}
    {name : String} (hc : ((start e).meetAll before).Creates r name)
    (hlend : ∀ s' r', (s', r') ∈ (((start e).meetAll before).after r).starts after →
      name ∉ s'.toLend.keys) :
    (∃ v, (((start e).meetAll before).after r).machine.store.own? Store.root name = some v) ∧
    ∀ s' r', (s', r') ∈ (((start e).meetAll before).after r).starts after →
      ∃ v v', s'.machine.store.own? Store.root name = some v ∧
        (s'.after r').machine.store.own? Store.root name = some v' ∧
        (v' = v ∨ ∃ visit ∈ s'.visits r', visit.WritesGlobal name v') := by
  have hglobal := hc.hasGlobal (rooted_meetAll e before)
  refine ⟨hglobal.bound, fun s' r' hmem => ?_⟩
  exact (hglobal.starts hlend s' r' hmem).value_after r' (hlend s' r' hmem)

/-- A text that creates a global. -/
def creatingText : String := "let x = true;"

theorem checked?_creatingText : checked? creatingText = some [.letDecl "x" (.literal (.bool true) 1) 1] := by cbv

/-- A declaration with a literal, of a name that is not bound. -/
theorem program_letDecl {m : Machine} {name : String} (hm : m.store.binds name Store.root = false) (v : Value)
    (line : Line) :
    Exec.program 2 [.letDecl name (.literal v line) line] m =
      .ok .proceed { m with store := m.store.bind Store.root name v } := by
  have hstep : (Evaluator.ofFuel 2).execute Store.root (.letDecl name (.literal v line) line) m =
      .ok .proceed { m with store := m.store.bind Store.root name v } := by
    show (do Exec.define Store.root name v line; pure .proceed : Exec Signal) m = _
    rw [Exec.bind_apply, Exec.define_apply, if_neg (Bool.eq_false_iff.mp hm)]
    rfl
  rw [Exec.program, Evaluator.executeAll, Exec.bind_apply, hstep]
  rfl

theorem unbound_of_start {name : String} (h : name ∉ natives.keys) (source : String) :
    ((start {}).parsed source).machine.store.binds name Store.root = false := by
  refine Bool.eq_false_iff.mpr fun hb => h ?_
  obtain ⟨v, hv⟩ := Store.binds_iff.mp hb
  exact List.mem_map_of_mem (f := Prod.fst) (Table.mem_of_get? (t := natives) hv)

theorem creates_x : ((start {}).meetAll []).Creates ⟨2, creatingText⟩ "x" :=
  ⟨[], _, [], _, checked?_creatingText, rfl, program_letDecl (unbound_of_start (by decide) _) _ _⟩

/-- What happens behind it: a host comes, and a run assigns to the global. -/
def hostComes : List Event := [.attach Host.game, .run ⟨30, "x = nil;"⟩]

theorem hostComes_lends_no_x (s : Session) : ∀ s' r', (s', r') ∈ s.starts hostComes → "x" ∉ s'.toLend.keys := by
  intro s' r' hmem
  obtain ⟨rfl, rfl⟩ := Prod.mk.inj (List.mem_singleton.mp hmem)
  have hkeys : Host.game.lends.sorted.keys = ["anything", "clock", "greet", "history", "identity", "record",
      "take_damage", "three", "zero"] := by cbv
  rw [keys_toLend_attach, hkeys]
  decide

theorem created_x_persists :
    ((start {}).meetAll []).Creates ⟨2, creatingText⟩ "x" ∧
      (∃ v, (((start {}).meetAll []).after ⟨2, creatingText⟩).machine.store.own? Store.root
        "x" = some v) ∧
      ∀ s' r', (s', r') ∈ (((start {}).meetAll []).after ⟨2, creatingText⟩).starts hostComes →
        ∃ v v', s'.machine.store.own? Store.root "x" = some v ∧
          (s'.after r').machine.store.own? Store.root "x" = some v' ∧
          (v' = v ∨ ∃ visit ∈ s'.visits r', visit.WritesGlobal "x" v') :=
  ⟨creates_x, created_global_persists {} [] hostComes creates_x (hostComes_lends_no_x _)⟩

/-- A text that creates a global with the name of a host's function. -/
def boomText : String := "let boom = true;"

theorem checked?_boomText : checked? boomText = some [.letDecl "boom" (.literal (.bool true) 1) 1] := by cbv

/-- What happens behind it: a host comes for a run, and goes for the next one. -/
def hostComesAndGoes : List Event := [.attach Host.failing, .run ⟨2, ""⟩] ++ [.detach, .run ⟨2, ""⟩]

/-- An empty text is executed to the machine on which it starts. -/
theorem executed_empty (s : Session) : (s.executed ⟨2, ""⟩).store = s.begun.machine.store := by
  have hc : checked? "" = some [] := by cbv
  rw [executed, hc]
  rfl

/-- A global that a text created with a value is not bound any more when a host with a function of its name came and
went, though nothing was assigned to it. -/
theorem lent_name_takes_global :
    let s := start {}
    s.Creates ⟨2, boomText⟩ "boom" ∧
      (s.after ⟨2, boomText⟩).machine.store.own? Store.root "boom" = some (.bool true) ∧
      ((s.after ⟨2, boomText⟩).meetAll hostComesAndGoes).machine.store.own? Store.root "boom" = none := by
  intro s
  have hunbound : (s.parsed boomText).machine.store.binds "boom" Store.root = false :=
    unbound_of_start (by decide) boomText
  have hrun := program_letDecl hunbound (.bool true) 1
  refine ⟨⟨[], _, [], _, checked?_boomText, rfl, hrun⟩, ?_, ?_⟩
  · rw [after_store, executed, checked?_boomText]
    dsimp only
    rw [hrun]
    exact (Store.own?_bind _ Nat.one_pos _ _ _ _).trans (by simp)
  · rw [hostComesAndGoes, meetAll_append]
    generalize hs : (s.after ⟨2, boomText⟩).meetAll [.attach Host.failing, .run ⟨2, ""⟩] = s₁
    have hlent : "boom" ∈ s₁.lent := by
      rw [← hs]
      show "boom" ∈ (((s.after ⟨2, boomText⟩).meet (.attach Host.failing)).after ⟨2, ""⟩).lent
      have hkeys : Host.failing.lends.sorted.keys = ["boom", "fail_with", "lox_fail", "lox_fail_far", "overflow",
          "parse_fail"] := by cbv
      rw [after_lent, keys_toLend_attach, hkeys]
      exact List.mem_cons_self
    show ((s₁.meet .detach).after ⟨2, ""⟩).machine.store.own? Store.root "boom" = none
    rw [after_store, executed_empty, begun_eq]
    show ((s₁.machine.store.without s₁.lent).lending []).own? Store.root "boom" = none
    rw [Store.own?_lending_of_not_mem _ _ List.not_mem_nil, Store.own?_without, if_pos ⟨rfl, hlent⟩]

end Session

end LoxLang
