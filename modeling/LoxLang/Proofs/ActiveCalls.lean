import LoxLang.Proofs.CallLogs
import LoxLang.Proofs.Changes

/-!
# The stack of active calls

The machine's stack of active calls always is what the calls on record ask for (`Accounts`): a computation that has a
result leaves the stack as it found it, and all calls that it entered returned; one that fails leaves behind, on top of
what it found, the calls that it entered and that did not return, the outermost first. This holds of the evaluation and
the execution of every node (`CallLogs.ofFuel_accounts`).
-/

namespace LoxLang

open Exec CallLog

variable {α β : Type}

/-! ## Computations that enter no call -/

/-- A computation that leaves the stack alone, whether it has a result or not. -/
def Quiet (x : Exec α) : Prop := ∀ m, (machineLeft (x m)).activations = m.activations

namespace Quiet

theorem pure (a : α) : Quiet (Pure.pure a) := fun _ => rfl

theorem throw (fault : Fault) : Quiet (throw fault : Exec α) := fun _ => rfl

theorem bind {x : Exec α} {f : α → Exec β} (hx : Quiet x) (hf : ∀ a, Quiet (f a)) : Quiet (x >>= f) := by
  intro m
  have h := hx m
  rw [bind_apply]
  cases hr : x m with
  | error fault m₁ =>
    rw [hr] at h
    exact h
  | ok a m₁ =>
    rw [hr] at h
    exact (hf a m₁).trans h

theorem define (f : FrameId) (name : String) (v : Value) (line : Line) : Quiet (define f name v line) := by
  intro m
  rw [define_apply]
  split <;> rfl

theorem readName (f : FrameId) (name : String) (line : Line) (depth : Depth) : Quiet (readName f name line depth) :=
  fun m => congrArg Machine.activations (readName_leaves m f name line depth)

theorem writeName (f : FrameId) (name : String) (v : Value) (line : Line) (depth : Depth) :
    Quiet (writeName f name v line depth) := by
  intro m
  obtain ⟨g, -, h⟩ | ⟨fault, -, h⟩ := writeName_cases m f name v line depth <;> rw [h] <;> rfl

theorem emit (message : String) (line : Line) : Quiet (emit message line) := by
  intro m
  rw [emit_apply]
  split <;> rfl

theorem askHost (index : Nat) (call : HostCall) : Quiet (askHost index call) := by
  intro m
  unfold Exec.askHost
  cases m.hosts[index]? <;> rfl

theorem elementary : Elementary Quiet where
  pure := .pure
  throw _ := .throw _
  bind := .bind
  closure _ _ := rfl
  object _ _ := rfl
  arity _ _ := rfl
  newFrame _ _ _ := rfl
  define := .define
  readName := .readName
  newClosure _ _ := rfl
  newObject _ _ := rfl
  setField _ _ _ _ := rfl
  emit := .emit
  readClock _ := rfl
  askHost := .askHost

end Quiet

/-! ## Computations that account for their calls -/

/-- A result leaves the stack as it was, and no call unreturned; a fault leaves the unreturned calls on top of it. -/
structure Accounts (x : Exec α) (log : CallLog) : Prop where
  ok : ∀ {m a m₁}, x m = .ok a m₁ → m₁.activations = m.activations ∧ ∀ r ∈ log m, r.returned
  error : ∀ {m fault m₁}, x m = .error fault m₁ →
    m₁.activations.toList = m.activations.toList ++ unreturned (log m)

theorem unreturned_eq_nil {records : List CallRecord} (h : ∀ r ∈ records, r.returned) :
    unreturned records = [] := by
  simpa [unreturned] using h

namespace Accounts

theorem quiet {x : Exec α} (hx : Quiet x) : Accounts x none where
  ok {m a m₁} h := by
    have hm := hx m
    rw [h] at hm
    exact ⟨hm, fun r hr => by cases hr⟩
  error {m fault m₁} h := by
    have hm := hx m
    rw [h] at hm
    rw [show m₁.activations = m.activations from hm]
    exact (List.append_nil _).symm

theorem bind {x : Exec α} {f : α → Exec β} {log : CallLog} {next : α → CallLog} (hx : Accounts x log)
    (hf : ∀ a, Accounts (f a) (next a)) : Accounts (x >>= f) (log ++ after x next) where
  ok {m b m₂} h := by
    rw [bind_apply] at h
    rw [append_apply, CallLog.after]
    cases hr : x m with
    | error fault m₁ => rw [hr] at h; cases h
    | ok a m₁ =>
      rw [hr] at h
      obtain ⟨hstack, hlog⟩ := hx.ok hr
      obtain ⟨hstack', hlog'⟩ := (hf a).ok h
      exact ⟨hstack'.trans hstack, fun r hmem => (List.mem_append.mp hmem).elim (hlog r) (hlog' r)⟩
  error {m fault m₂} h := by
    rw [bind_apply] at h
    rw [append_apply, CallLog.after]
    cases hr : x m with
    | error fault' m₁ =>
      rw [hr] at h
      cases h
      rw [hx.error hr, List.append_nil]
    | ok a m₁ =>
      rw [hr] at h
      obtain ⟨hstack, hlog⟩ := hx.ok hr
      rw [(hf a).error h, hstack, unreturned_append, unreturned_eq_nil hlog, List.nil_append]

/-- What enters no call may come first. -/
theorem behind {x : Exec α} {f : α → Exec β} {next : α → CallLog} (hx : Quiet x)
    (hf : ∀ a, Accounts (f a) (next a)) : Accounts (x >>= f) (after x next) :=
  .bind (.quiet hx) hf

/-- What enters no call may come last. -/
theorem andQuiet {x : Exec α} {f : α → Exec β} {log : CallLog} (hx : Accounts x log) (hf : ∀ a, Quiet (f a)) :
    Accounts (x >>= f) log where
  ok {m b m₂} h := by
    obtain ⟨hstack, hlog⟩ := (hx.bind fun a => .quiet (hf a)).ok h
    exact ⟨hstack, fun r hr => hlog r (List.mem_append_left _ hr)⟩
  error {m fault m₂} h := by
    have hnone : after x (fun _ => none) m = [] := by
      unfold CallLog.after
      cases x m <;> rfl
    have herror := (hx.bind fun a => .quiet (hf a)).error h
    rwa [append_apply, hnone, List.append_nil] at herror

end Accounts

/-! ## Calls -/

/-- A callee that is accepted is called by its name. -/
theorem Exec.checkCallable_bind (v : Value) (received : Nat) (line : Line) (k : String → Exec α) :
    (checkCallable v received line >>= k) = checkCallable v received line >>= fun _ => k (calledName v) := by
  funext m
  rw [bind_apply, bind_apply]
  cases h : checkCallable v received line m with
  | error fault m₁ => rfl
  | ok name m₁ =>
    suffices hname : name = calledName v by rw [hname]
    by_cases hv : ∃ c o, v = .object c o
    · obtain ⟨c, o, rfl⟩ := hv
      cases h
    · rw [checkCallable_eq (fun c o he => hv ⟨c, o, he⟩)] at h
      cases hn : callableName? v with
      | none => rw [hn] at h; cases h
      | some shown =>
        rw [hn] at h
        dsimp only at h
        rw [bind_apply, inspect_apply] at h
        dsimp only at h
        split at h
        · cases h
          rw [calledName, hn, Option.getD_some]
        · cases h

/-- A call is answered by a closed log, or it overflows the stack, or its callee fails, or it returns and is taken from
the stack again. Where the call was entered, its record says which, and stands in front of the calls within it. -/
theorem Evaluator.call_cases (e : Evaluator) (logs : CallLogs) (callee : Value) (arguments : List Value) (line : Line)
    (m : Machine) :
    (e.call (calledName callee) callee arguments line m =
          .error (.raised logRefusal) (logged m ⟨calledName callee, arguments, line⟩) ∧
        CallLogs.call e logs callee arguments line m = []) ∨
    (e.call (calledName callee) callee arguments line m =
          .error .overflow (entered m ⟨calledName callee, arguments, line⟩) ∧
        CallLogs.call e logs callee arguments line m = [⟨callee, arguments, line, false⟩]) ∨
    (∃ fault m₁, e.apply callee arguments line (entered m ⟨calledName callee, arguments, line⟩) = .error fault m₁ ∧
        e.call (calledName callee) callee arguments line m = .error fault m₁ ∧
        CallLogs.call e logs callee arguments line m = ⟨callee, arguments, line, false⟩ ::
          CallLogs.apply logs callee arguments line (entered m ⟨calledName callee, arguments, line⟩)) ∨
    ∃ v m₁, e.apply callee arguments line (entered m ⟨calledName callee, arguments, line⟩) = .ok v m₁ ∧
        e.call (calledName callee) callee arguments line m = .ok v { m₁ with activations := m₁.activations.pop } ∧
        CallLogs.call e logs callee arguments line m = ⟨callee, arguments, line, true⟩ ::
          CallLogs.apply logs callee arguments line (entered m ⟨calledName callee, arguments, line⟩) := by
  have henter := enterCall_apply m ⟨calledName callee, arguments, line⟩
  unfold CallLogs.call returns CallLog.after
  rw [Evaluator.call, bind_apply, henter]
  by_cases hrefused : m.log.refusesNext = true
  · rw [if_pos hrefused, if_pos hrefused]
    exact .inl ⟨rfl, rfl⟩
  · rw [if_neg hrefused, if_neg hrefused]
    by_cases hdeep : m.callLimit < m.activations.size + 1
    · rw [if_pos hdeep]
      exact .inr (.inl ⟨rfl, rfl⟩)
    · rw [if_neg hdeep]
      dsimp only
      rw [bind_apply]
      cases e.apply callee arguments line (entered m ⟨calledName callee, arguments, line⟩) with
      | error fault m₁ => exact .inr (.inr (.inl ⟨fault, m₁, rfl, rfl, rfl⟩))
      | ok v m₁ => exact .inr (.inr (.inr ⟨v, m₁, rfl, rfl, rfl⟩))

section Rules

variable {e : Evaluator} {logs : CallLogs}

/-- A call that returns is taken from the stack again; one that does not, stays there below what it entered. -/
theorem Accounts.call {callee : Value} {arguments : List Value} {line : Line}
    (h : Accounts (e.apply callee arguments line) (CallLogs.apply logs callee arguments line)) :
    Accounts (e.call (calledName callee) callee arguments line) (CallLogs.call e logs callee arguments line) where
  ok {m v m₂} hcall := by
    obtain ⟨hc, -⟩ | ⟨hc, -⟩ | ⟨fault, m₁, -, hc, -⟩ | ⟨v', m₁, hr, hc, hlog⟩ :=
      e.call_cases logs callee arguments line m <;>
      rw [hc] at hcall <;> cases hcall
    obtain ⟨hstack, hreturned⟩ := h.ok hr
    rw [hlog]
    refine ⟨?_, List.forall_mem_cons.mpr ⟨rfl, hreturned⟩⟩
    show m₁.activations.pop = m.activations
    rw [hstack, entered, Array.pop_push]
  error {m fault m₂} hcall := by
    obtain ⟨hc, hlog⟩ | ⟨hc, hlog⟩ | ⟨fault', m₁, hr, hc, hlog⟩ | ⟨v, m₁, -, hc, -⟩ :=
      e.call_cases logs callee arguments line m <;>
      rw [hc] at hcall <;> cases hcall
    · rw [hlog]
      simp [logged, unreturned]
    · rw [hlog]
      simp [entered, unreturned, CallRecord.activation]
    · rw [hlog, h.error hr]
      simp [entered, unreturned, CallRecord.activation]

/-! ## The rules of evaluation -/

/-- An evaluator that accounts for its calls. -/
structure Evaluator.Accounts (e : Evaluator) (logs : CallLogs) : Prop where
  execute : ∀ scope n, LoxLang.Accounts (e.execute scope n) (logs.execute scope n)
  evaluate : ∀ scope n, LoxLang.Accounts (e.evaluate scope n) (logs.evaluate scope n)

namespace Evaluator.Accounts

variable (h : e.Accounts logs)
include h

theorem executeAll (scope : FrameId) (ns : List Node) :
    LoxLang.Accounts (e.executeAll scope ns) (CallLogs.executeAll e logs scope ns) := by
  induction ns with
  | nil => exact .quiet (.pure _)
  | cons n ns ih =>
    refine .bind (h.execute scope n) fun signal => ?_
    split
    · exact .quiet (.pure signal)
    · exact ih

theorem evaluateAll (scope : FrameId) (ns : List Node) :
    LoxLang.Accounts (e.evaluateAll scope ns) (CallLogs.evaluateAll e logs scope ns) := by
  induction ns with
  | nil => exact .quiet (.pure _)
  | cons n ns ih =>
    exact .bind (h.evaluate scope n) fun v => ih.andQuiet fun vs => .pure _

theorem applyClosure (c : ClosureId) (arguments : List Value) (line : Line) :
    LoxLang.Accounts (e.applyClosure c arguments line) (CallLogs.applyClosure logs c arguments line) := by
  refine .behind (Quiet.elementary.closure c) fun closure => .behind (Quiet.elementary.newFrame _ _) fun f =>
    .behind (Quiet.elementary.bindParameters f line _ _) fun _ => (h.execute f closure.body).andQuiet fun signal => ?_
  split
  · exact Quiet.elementary.readName closure.frame "this" line (some 0)
  · exact .pure _

theorem apply (callee : Value) (arguments : List Value) (line : Line) :
    LoxLang.Accounts (e.apply callee arguments line) (CallLogs.apply logs callee arguments line) := by
  cases callee with
  | function name c => exact h.applyClosure c arguments line
  | native name arity service => exact .quiet (Quiet.elementary.callService name arguments line service)
  | classRef info =>
    rw [Evaluator.apply, construct, CallLogs.apply]
    refine .behind (Quiet.elementary.newObject info) fun o => ?_
    dsimp only
    cases Store.initializer? info with
    | none => exact .quiet (.pure _)
    | some c =>
      exact .behind (Quiet.elementary.bindMethod c _) fun bound =>
        (h.applyClosure bound arguments line).andQuiet fun _ => .pure _
  | _ => exact .quiet (Quiet.elementary.failAt line _)

theorem evaluateNode (scope : FrameId) (n : Node) :
    LoxLang.Accounts (e.evaluateNode scope n) (CallLogs.evaluateNode e logs scope n) := by
  cases n with
  | literal => exact .quiet (.pure _)
  | grouping inner => exact h.evaluate scope inner
  | var name line depth => exact .quiet (.readName scope name line depth)
  | this line depth => exact .quiet (.readName scope "this" line depth)
  | assign name value line depth =>
    exact (h.evaluate scope value).andQuiet fun v => .writeName scope name v line depth
  | unary op operand line => exact (h.evaluate scope operand).andQuiet fun v => Quiet.elementary.orFail line _
  | binary op left right line =>
    exact .bind (h.evaluate scope left) fun a => (h.evaluate scope right).andQuiet fun b =>
      Quiet.elementary.orFail line _
  | logical op left right =>
    refine .bind (h.evaluate scope left) fun v => ?_
    split
    · exact .quiet (.pure v)
    · exact h.evaluate scope right
  | call callee arguments line =>
    refine .bind (h.evaluate scope callee) fun f => ?_
    rw [checkCallable_bind]
    exact .behind (Quiet.elementary.checkCallable f _ line) fun _ =>
      .bind (h.evaluateAll scope arguments) fun values => .call (h.apply f values line)
  | get object name line =>
    exact (h.evaluate scope object).andQuiet fun v => .bind (Quiet.elementary.receiver v line) fun o =>
      Quiet.elementary.property v o name line
  | set object name value line =>
    exact .bind (h.evaluate scope object) fun target => .behind (Quiet.elementary.receiver target line) fun o =>
      (h.evaluate scope value).andQuiet fun v => .bind (Quiet.elementary.setField o name v) fun _ =>
        .pure v
  | _ => exact .quiet (.throw _)

theorem executeNode (scope : FrameId) (n : Node) :
    LoxLang.Accounts (e.executeNode scope n) (CallLogs.executeNode e logs scope n) := by
  cases n with
  | block steps =>
    exact .behind (Quiet.elementary.newFrame scope []) fun inner => h.executeAll inner steps
  | letDecl name initializer line =>
    exact (h.evaluate scope initializer).andQuiet fun v => .bind (.define scope name v line) fun _ =>
      .pure _
  | function name params body line =>
    exact .quiet (.bind (Quiet.elementary.declareFunction scope name params body line) fun _ =>
      .pure _)
  | classDecl name methods line =>
    exact .quiet (.bind (Quiet.elementary.declareClass scope name methods line) fun _ => .pure _)
  | print expression line =>
    exact (h.evaluate scope expression).andQuiet fun v => .bind (Quiet.elementary.textOf v) fun text =>
      .bind (.emit text line) fun _ => .pure _
  | ifElse condition thenBranch elseBranch =>
    refine .bind (h.evaluate scope condition) fun v => ?_
    split
    · exact h.execute scope thenBranch
    · split
      · exact .quiet (.pure _)
      · exact h.execute scope elseBranch
  | whileLoop condition body line =>
    refine .bind (h.evaluate scope condition) fun v => ?_
    split
    · refine .bind (h.execute scope body) fun signal => ?_
      split
      · exact .quiet (.pure signal)
      · exact h.execute scope (.whileLoop condition body line)
    · exact .quiet (.pure _)
  | returnStep value =>
    show LoxLang.Accounts (if value.isAbsent then _ else _) (if value.isAbsent then _ else _)
    split
    · exact .quiet (.pure _)
    · exact (h.evaluate scope value).andQuiet fun v => .pure _
  | error | absent | bare => exact .quiet (.throw _)
  | _ => exact (h.evaluate scope _).andQuiet fun _ => .pure _

end Evaluator.Accounts

end Rules

/-- Whatever is evaluated or executed, the stack and the calls on record agree. -/
theorem CallLogs.ofFuel_accounts : ∀ fuel, (Evaluator.ofFuel fuel).Accounts (CallLogs.ofFuel fuel)
  | 0 => ⟨fun _ _ => .quiet (.throw _), fun _ _ => .quiet (.throw _)⟩
  | fuel + 1 => ⟨(ofFuel_accounts fuel).executeNode, (ofFuel_accounts fuel).evaluateNode⟩

end LoxLang
