import Mathlib
import LoxLang.Host.Samples
import LoxLang.Proofs.Events

/-!
# Live output

What a program prints is recorded and then handed to the output, line by line. As long as the output takes every line,
it has what is recorded (`Machine.Takes`). The first line that it refuses ends the program there and then: whatever
surrounds the `print`, or the call of `println`, passes the fault on (`Machine.Flows`, `Exec.program_flows`). So the
live text of a run is the text of its recorded messages, without the last one if that was refused
(`Session.live_output_agrees`).
-/

namespace LoxLang

/-! ## Lines of text -/

/-- Messages as lines of text. -/
def linesText (messages : List String) : String := String.join (messages.map (· ++ "\n"))

@[simp] theorem linesText_nil : linesText [] = "" := rfl

theorem linesText_append (messages more : List String) :
    linesText (messages ++ more) = linesText messages ++ linesText more := by
  simp [linesText, String.join_append]

/-- The output when more messages are printed. -/
def Output.after (messages : List String) : Output → Output
  | live written => live (written ++ linesText messages)
  | other => other

theorem Output.after_nil (output : Output) : output.after [] = output := by
  cases output with
  | live written => exact congrArg live (String.append_empty)
  | _ => rfl

theorem Output.after_append (output : Output) (messages more : List String) :
    (output.after messages).after more = output.after (messages ++ more) := by
  cases output with
  | live written =>
    show live (written ++ linesText messages ++ linesText more) = live (written ++ linesText (messages ++ more))
    rw [linesText_append, String.append_assoc]
  | _ => rfl

theorem Output.write_eq_after (output : Output) (message : String) : output.write message = output.after [message] := by
  cases output <;> simp [write, after, linesText, String.join, String.append_assoc]

theorem Exec.emitted_printed (m : Machine) (message : String) :
    (emitted m message).printed = m.printed ++ [message] := by
  simp [Machine.printed, emitted]

/-- A line that is refused is not written. -/
theorem Exec.emitted_written {m : Machine} (h : m.refusesLine m.writes = true) (message : String) :
    (emitted m message).written = m.written := by
  unfold Machine.written
  rw [emitted, if_pos h]

/-! ## Lines that are taken -/

/-- Messages are printed, and the output takes all of them. -/
structure Machine.Takes (messages : List String) (m m' : Machine) : Prop where
  printed : m'.printed = m.printed ++ messages
  writes : m'.writes = m.writes + messages.length
  refuses : m'.refuses = m.refuses
  output : m'.output = m.output.after messages
  taken : ∀ i < messages.length, m.refusesLine (m.writes + i) = false

namespace Machine.Takes

variable {m m₁ m' : Machine} {messages more : List String}

/-- What changes neither effects nor output prints nothing. -/
theorem of_same (he : m'.effects = m.effects) (ho : m'.output = m.output) (hr : m'.refuses = m.refuses)
    (hw : m'.writes = m.writes) : m.Takes [] m' :=
  ⟨by rw [printed_eq, printed_eq, he, List.append_nil], hw, hr, by rw [ho, Output.after_nil], nofun⟩

theorem refl (m : Machine) : m.Takes [] m := of_same rfl rfl rfl rfl

theorem refusesLine (h : m.Takes messages m') : m'.refusesLine = m.refusesLine := by
  unfold Machine.refusesLine
  rw [h.output, h.refuses]
  cases m.output <;> rfl

theorem trans (h : m.Takes messages m₁) (h' : m₁.Takes more m') : m.Takes (messages ++ more) m' where
  printed := by rw [h'.printed, h.printed, List.append_assoc]
  writes := by rw [h'.writes, h.writes, List.length_append, Nat.add_assoc]
  refuses := h'.refuses.trans h.refuses
  output := by rw [h'.output, h.output, Output.after_append]
  taken i hi := by
    by_cases hfirst : i < messages.length
    · exact h.taken i hfirst
    · have hrest : i - messages.length < more.length := by
        rw [List.length_append] at hi
        omega
      have hline : m.writes + i = m₁.writes + (i - messages.length) := by
        rw [h.writes]
        omega
      rw [hline, ← h.refusesLine]
      exact h'.taken _ hrest

/-- A line that is not refused is written. -/
theorem emitted (h : m.refusesLine m.writes = false) (message : String) :
    m.Takes [message] (Exec.emitted m message) where
  printed := Exec.emitted_printed m message
  writes := rfl
  refuses := rfl
  output := by
    rw [Exec.emitted, if_neg (by simp [h]), Output.write_eq_after]
  taken i hi := by
    obtain rfl : i = 0 := Nat.lt_one_iff.mp hi
    exact h

/-- A line that is refused stands behind those that are taken. -/
theorem length_le (h : m.Takes messages m') {i : Nat} (hi : m.refusesLine (m.writes + i) = true) :
    messages.length ≤ i := by
  by_contra hlonger
  cases (h.taken i (Nat.lt_of_not_le hlonger)).symm.trans hi

/-- The live text grows by the lines that are taken. -/
theorem written (h : m.Takes messages m') (hm : m.output ≠ .none) : m'.written = m.written ++ linesText messages := by
  unfold Machine.written
  rw [h.output]
  cases ho : m.output with
  | none => exact absurd ho hm
  | live text => rfl
  | closed =>
    -- a closed output takes no line
    have hnone : messages.length ≤ 0 := h.length_le (by rw [Machine.refusesLine, ho])
    rw [List.eq_nil_of_length_eq_zero (Nat.le_zero.mp hnone)]
    rfl

end Machine.Takes

/-! ## Runs that a refused line ends -/

open Exec Traced

/-- The computation prints, and the output takes every line; or it ends where the output refuses one, with the fault of
that line. All that it does is begun while every line was taken. -/
structure Machine.Flows {α : Type} (m : Machine) (run : List Visit × EStateM.Result Fault Machine α) : Prop where
  visits : ∀ v ∈ run.1, ∃ messages, m.Takes messages v.machine
  ends : (∃ messages, m.Takes messages (machineLeft run.2)) ∨
    ∃ messages m₁ message line, m.Takes messages m₁ ∧ m₁.refusesLine m₁.writes = true ∧
      run.2 = .error (.runtime line .stdoutClosed) (emitted m₁ message)

/-- From every machine the computation flows. -/
def Flows {α : Type} (x : Traced α) : Prop := ∀ m : Machine, m.Flows (x m)

namespace Flows

variable {α β : Type}

theorem bind {x : Traced α} {f : α → Traced β} (hx : Flows x) (hf : ∀ a, Flows (f a)) : Flows (x >>= f) := by
  intro m
  have h := hx m
  rw [Traced.bind_apply]
  rcases hr : x m with ⟨visits, ⟨a, m₁⟩ | ⟨fault, m₁⟩⟩
  · rw [hr] at h
    obtain ⟨messages, htakes⟩ : ∃ messages, m.Takes messages m₁ :=
      h.ends.resolve_right fun ⟨_, _, _, _, _, _, heq⟩ => by cases heq
    have hrest := hf a m₁
    refine ⟨fun v hv => ?_, ?_⟩
    · rcases List.mem_append.mp hv with hv | hv
      · exact h.visits v hv
      · obtain ⟨more, hmore⟩ := hrest.visits v hv
        exact ⟨_, htakes.trans hmore⟩
    · obtain ⟨more, hmore⟩ | ⟨more, m₂, message, line, hmore, hrefused, heq⟩ := hrest.ends
      · exact .inl ⟨_, htakes.trans hmore⟩
      · exact .inr ⟨_, m₂, message, line, htakes.trans hmore, hrefused, heq⟩
  · rw [hr] at h
    refine ⟨h.visits, ?_⟩
    obtain ⟨messages, htakes⟩ | ⟨messages, m₂, message, line, htakes, hrefused, heq⟩ := h.ends
    · exact .inl ⟨messages, htakes⟩
    · refine .inr ⟨messages, m₂, message, line, htakes, hrefused, ?_⟩
      cases heq
      rfl

/-- A computation that changes neither effects nor output. -/
theorem quiet {x : Exec α} (h : ∀ m, (machineLeft (x m)).effects = m.effects ∧ (machineLeft (x m)).output = m.output ∧
    (machineLeft (x m)).refuses = m.refuses ∧ (machineLeft (x m)).writes = m.writes) : Flows (liftM x : Traced α) :=
  fun m => ⟨nofun, .inl ⟨[], .of_same (h m).1 (h m).2.1 (h m).2.2.1 (h m).2.2.2⟩⟩

theorem still {x : Exec α} (h : ∀ m, machineLeft (x m) = m) : Flows (liftM x : Traced α) :=
  quiet fun m => by rw [h]; exact ⟨rfl, rfl, rfl, rfl⟩

theorem define (f : FrameId) (name : String) (v : Value) (line : Line) : Flows (liftM (Exec.define f name v line)) := by
  refine quiet fun m => ?_
  rw [define_apply]
  split <;> exact ⟨rfl, rfl, rfl, rfl⟩

theorem writeName (f : FrameId) (name : String) (v : Value) (line : Line) (depth : Depth) :
    Flows (liftM (Exec.writeName f name v line depth)) := by
  refine quiet fun m => ?_
  obtain ⟨g, -, h⟩ | ⟨fault, -, h⟩ := writeName_cases m f name v line depth
  · rw [h]
    exact ⟨rfl, rfl, rfl, rfl⟩
  · rw [h]
    exact ⟨rfl, rfl, rfl, rfl⟩

theorem askHost (index : Nat) (call : HostCall) : Flows (liftM (Exec.askHost index call)) := by
  refine quiet fun m => ?_
  unfold Exec.askHost
  cases m.hosts[index]? <;> exact ⟨rfl, rfl, rfl, rfl⟩

theorem enterCall (a : Activation) : Flows (liftM (Exec.enterCall a)) := by
  refine quiet fun m => ?_
  rw [enterCall_apply]
  split
  · exact ⟨rfl, rfl, rfl, rfl⟩
  · split <;> exact ⟨rfl, rfl, rfl, rfl⟩

/-- Printing is what the output may refuse. -/
theorem emit (message : String) (line : Line) : Flows (liftM (Exec.emit message line)) := by
  intro m
  refine ⟨nofun, ?_⟩
  show (∃ messages, m.Takes messages (machineLeft (Exec.emit message line m))) ∨
    ∃ messages m₁ message' line', m.Takes messages m₁ ∧ m₁.refusesLine m₁.writes = true ∧
      Exec.emit message line m = .error (.runtime line' .stdoutClosed) (emitted m₁ message')
  rw [emit_apply]
  cases hrefused : m.refusesLine m.writes with
  | true => exact .inr ⟨[], m, message, line, .refl m, hrefused, rfl⟩
  | false => exact .inl ⟨[message], .emitted hrefused message⟩

theorem hereditary : Hereditary @Flows where
  pure _ := still fun _ => rfl
  throw _ := still fun _ => rfl
  bind := bind
  note _ m := ⟨fun v hv => ⟨[], by rw [List.mem_singleton.mp hv]; exact .refl m⟩, .inl ⟨[], .refl m⟩⟩
  closure _ := still fun _ => rfl
  object _ := still fun _ => rfl
  arity _ := still fun _ => rfl
  newFrame _ _ := quiet fun _ => ⟨rfl, rfl, rfl, rfl⟩
  define := define
  readName f name line depth := still fun m => readName_leaves m f name line depth
  newClosure _ := quiet fun _ => ⟨rfl, rfl, rfl, rfl⟩
  newObject _ := quiet fun _ => ⟨rfl, rfl, rfl, rfl⟩
  setField _ _ _ := quiet fun _ => ⟨rfl, rfl, rfl, rfl⟩
  emit := emit
  readClock := quiet fun _ => ⟨rfl, rfl, rfl, rfl⟩
  askHost := askHost
  call a _ hx := bind (enterCall a) fun _ => bind hx fun _ =>
    bind (quiet fun _ => ⟨rfl, rfl, rfl, rfl⟩) fun _ => still fun _ => rfl
  assign fuel f name value line depth he := by
    rw [ofFuel_assign]
    refine bind (fun m => ⟨fun v hv => ⟨[], ?_⟩, .inl ⟨[], .refl m⟩⟩) fun _ => bind he fun v =>
      writeName f name v line depth
    rw [List.mem_singleton.mp hv]
    exact .refl m

end Flows

/-- Every program flows. -/
theorem Exec.program_flows (fuel : Nat) (steps : List Node) : Flows (Traced.program fuel steps) :=
  Flows.hereditary.program (.still fun _ => rfl) fuel steps

/-- Which lines are refused does not change while a program runs. -/
theorem Exec.program_refusesLine (fuel : Nat) (steps : List Node) (m : Machine) :
    (machineLeft (program fuel steps m)).refusesLine = m.refusesLine := by
  rw [← Traced.program_erases]
  obtain ⟨messages, h⟩ | ⟨messages, m₁, message, line, h, -, heq⟩ := (program_flows fuel steps m).ends
  · exact h.refusesLine
  · rw [heq]
    exact (refusesLine_emitted m₁ message).trans h.refusesLine

/-! ## Runs -/

/-- What a run answers that a refused line has ended: the failure of that line, under no other name, with the calls that
were active; or nothing, if one of them cannot be shown. -/
inductive RefusalAnswer (source : String) (line : Line) (calls : List Activation) : Except Escape RunResult → Prop
  | shown {effects : List Effect} : (∀ a ∈ calls, a.hasText = true) →
      RefusalAnswer source line calls (.ok ⟨.failure ⟨.runtime, line, "Failed to access stdout"⟩ []
        (Report.message source [⟨.runtime, line, "Failed to access stdout"⟩] calls), effects⟩)
  | unshown {a : Activation} : a ∈ calls → a.hasText = false →
      RefusalAnswer source line calls (.error (.execution .outOfRange))

namespace Session

variable (s : Session)

/-- The run ends where the output refuses the line behind the first `i`: these were written, that one is the last to be
recorded, and nothing is begun behind it. -/
structure EndsAt (r : Run) (i : Nat) : Prop where
  last : (s.executed r).printed.length = i + 1
  written : (s.after r).machine.written = s.machine.written ++ linesText ((s.executed r).printed.take i)
  begun : ∀ v ∈ s.visits r, v.machine.printed.length ≤ i
  fault : ∃ steps m message line, checked? r.source = some steps ∧ m.printed = (s.executed r).printed.take i ∧
    Exec.program r.fuel steps (s.parsed r.source).machine = .error (.runtime line .stdoutClosed) (emitted m message) ∧
    RefusalAnswer r.source line (emitted m message).activations.toList (s.runWith r.fuel r.source).1

variable {s}

theorem takes_of_parsed {source : String} {messages : List String} {m : Machine}
    (h : (s.parsed source).machine.Takes messages m) : s.begun.machine.Takes messages m :=
  ⟨by rw [h.printed, parsed_printed]; rfl, h.writes, h.refuses, h.output, h.taken⟩

theorem printed_of_takes {messages : List String} {m : Machine} (h : s.begun.machine.Takes messages m) :
    m.printed = messages := h.printed

/-- All lines of a run are taken, or one is refused, and that is the last. -/
theorem executed_ends (s : Session) (r : Run) : (∃ messages, s.begun.machine.Takes messages (s.executed r)) ∨
    ∃ steps messages m message line, checked? r.source = some steps ∧ s.begun.machine.Takes messages m ∧
      m.refusesLine m.writes = true ∧ s.executed r = emitted m message ∧
      Exec.program r.fuel steps (s.parsed r.source).machine =
        .error (.runtime line .stdoutClosed) (emitted m message) := by
  unfold executed
  cases hc : checked? r.source with
  | none => exact .inl ⟨[], .refl _⟩
  | some steps =>
    have hends := (Exec.program_flows r.fuel steps (s.parsed r.source).machine).ends
    rw [Traced.program_erases] at hends
    obtain ⟨messages, htakes⟩ | ⟨messages, m, message, line, htakes, hrefused, heq⟩ := hends
    · exact .inl ⟨messages, takes_of_parsed htakes⟩
    · exact .inr
        ⟨steps, messages, m, message, line, rfl, takes_of_parsed htakes, hrefused, congrArg machineLeft heq, heq⟩

/-- A run whose lines are all taken. -/
theorem executed_takes (s : Session) (r : Run)
    (h : ∀ i < (s.executed r).printed.length, s.machine.refusesLine (s.machine.writes + i) = false) :
    s.begun.machine.Takes (s.executed r).printed (s.executed r) := by
  obtain ⟨messages, htakes⟩ | ⟨steps, messages, m, message, line, -, htakes, hrefused, heq, -⟩ := s.executed_ends r
  · rwa [printed_of_takes htakes]
  · -- the refused line would be among those that are taken
    have hlength : (s.executed r).printed.length = messages.length + 1 := by
      rw [heq, emitted_printed, printed_of_takes htakes, List.length_append]
      rfl
    have hline := h messages.length (hlength ▸ Nat.lt_succ_self _)
    rw [htakes.refusesLine, htakes.writes] at hrefused
    cases hline.symm.trans hrefused

/-- No run changes what an open output refuses. -/
theorem after_refuses (s : Session) (r : Run) : (s.after r).machine.refuses = s.machine.refuses := by
  obtain ⟨effects, activations, -, h⟩ := s.after_eq r
  rw [h]
  obtain ⟨messages, htakes⟩ | ⟨steps, messages, m, message, line, -, htakes, -, heq, -⟩ := s.executed_ends r
  · exact htakes.refuses
  · show (s.executed r).refuses = _
    rw [heq]
    exact htakes.refuses

/-- The failure of a refused line becomes the answer. -/
theorem runWith_of_refusal {fuel : Nat} {source : String} {steps : List Node} {line : Line} {m : Machine}
    (hc : checked? source = some steps)
    (h : Exec.program fuel steps (s.parsed source).machine = .error (.runtime line .stdoutClosed) m) :
    RefusalAnswer source line m.activations.toList (s.runWith fuel source).1 := by
  rw [s.runWith_of_checked fuel hc, execute, h]
  dsimp only
  unfold failInCalls
  dsimp only
  split
  · next hshown => exact .shown (List.all_eq_true.mp hshown)
  · next hshown =>
    rw [List.all_eq_true] at hshown
    push Not at hshown
    obtain ⟨a, ha, hhidden⟩ := hshown
    exact .unshown ha (Bool.eq_false_iff.mpr hhidden)

theorem after_written (s : Session) (r : Run) : (s.after r).machine.written = (s.executed r).written := by
  obtain ⟨effects, activations, -, h⟩ := s.after_eq r
  rw [h]
  rfl

theorem begun_of_takes {r : Run} {i : Nat} (hi : s.machine.refusesLine (s.machine.writes + i) = true) {v : Visit}
    (hv : v ∈ s.visits r) : v.machine.printed.length ≤ i := by
  unfold visits at hv
  cases hc : checked? r.source with
  | none => rw [hc] at hv; cases hv
  | some steps =>
    rw [hc] at hv
    obtain ⟨messages, htakes⟩ := (Exec.program_flows r.fuel steps _).visits v hv
    have hbegun := takes_of_parsed htakes
    rw [printed_of_takes hbegun]
    exact hbegun.length_le hi

/-- A run of a session with an output. If the output takes every line, it gets what the result says was printed, line by
line; the first line that it refuses ends the run. -/
theorem live_output_agrees (s : Session) (r : Run) (hs : s.machine.output ≠ .none) :
    (∀ result, (s.runWith r.fuel r.source).1 = .ok result → result.printed = (s.executed r).printed) ∧
    ((∀ i < (s.executed r).printed.length, s.machine.refusesLine (s.machine.writes + i) = false) →
      (s.after r).machine.written = s.machine.written ++ linesText (s.executed r).printed) ∧
    ∀ i < (s.executed r).printed.length, s.machine.refusesLine (s.machine.writes + i) = true → s.EndsAt r i := by
  refine ⟨fun result hr => s.result_printed hr, fun htaken => ?_, fun i hi hrefused => ?_⟩
  · rw [after_written, (s.executed_takes r htaken).written hs]
    rfl
  · obtain ⟨messages, htakes⟩ | ⟨steps, messages, m, message, line, hc, htakes, hend, heq, hfault⟩ := s.executed_ends r
    · rw [printed_of_takes htakes] at hi
      exact absurd (htakes.length_le hrefused) (Nat.not_le_of_lt hi)
    · have hprinted : (s.executed r).printed = messages ++ [message] := by
        rw [heq, emitted_printed, printed_of_takes htakes]
      obtain rfl : i = messages.length := by
        rw [hprinted, List.length_append, List.length_singleton] at hi
        exact Nat.le_antisymm (Nat.le_of_lt_succ hi) (htakes.length_le hrefused)
      have hfirst : (s.executed r).printed.take messages.length = messages := by rw [hprinted, List.take_left]
      refine ⟨by rw [hprinted, List.length_append]; rfl, ?_, fun v hv => begun_of_takes hrefused hv,
        steps, m, message, line, hc, ?_, hfault, runWith_of_refusal hc hfault⟩
      · rw [after_written, heq, emitted_written hend, htakes.written hs, ← heq, hfirst]
        rfl
      · rw [hfirst, printed_of_takes htakes]

end Session

/-! ### A stream that refuses a line -/

/-- A session whose output takes every line but the second. -/
def refusingSession : Session :=
  let s := Session.start { output := .live "" }
  { s with machine := { s.machine with refuses := fun n => n == 1 } }

/-- A text that would print three lines, the second and the third of them in a call. -/
def threeLinesText : String := "fun f(x) \x7b println(x); print x; \x7d print true; f(false);"

theorem refusingSession_printed : (refusingSession.executed ⟨30, threeLinesText⟩).printed = ["true", "false"] := by
  decide +kernel

/-- The second line is refused in the call: it is recorded and not written, and the third one is not even recorded. -/
theorem refused_line_ends_call : refusingSession.machine.output ≠ .none ∧
    (refusingSession.after ⟨30, threeLinesText⟩).machine.written = "true\n" ∧
    refusingSession.EndsAt ⟨30, threeLinesText⟩ 1 := by
  have houtput : refusingSession.machine.output ≠ .none := Output.noConfusion
  obtain ⟨-, -, hends⟩ := Session.live_output_agrees refusingSession ⟨30, threeLinesText⟩ houtput
  have hat := hends 1 (by rw [refusingSession_printed]; decide) rfl
  refine ⟨houtput, ?_, hat⟩
  rw [hat.written, refusingSession_printed]
  rfl

/-! ### A failure that cannot be shown -/

/-- A session with a host, and an output that refuses everything. -/
def hostedSession : Session := (Session.start { output := .closed }).setHost (some .game)

/-- A text that prints in a call with an integer beyond all doubles, which starts from the host's `clock`. -/
def vastText : String :=
  "fun p(n) \x7b return n * n * n * n * n; \x7d fun f(x) \x7b print true; \x7d f(p(p(p(clock()))));"

/-- Its resolved steps. -/
def vastSteps : List Node :=
  let n : Node := .var "n" 1 (some 1)
  let product (left right : Node) : Node := .binary .multiply left right 1
  let power (n : Node) : Node := .call (.var "p" 1 (some 0)) [n] 1
  [.function "p" ["n"] (.block [.returnStep (product (product (product (product n n) n) n) n) 1] 1) 1,
    .function "f" ["x"] (.block [.print (.literal (.bool true) 1) 1] 1) 1,
    .call (.var "f" 1 (some 0)) [power (power (power (.call (.var "clock" 1 none) [] 1)))] 1]

theorem checked?_vastText : checked? vastText = some vastSteps := by cbv

/-- The integer has no nearest double. -/
theorem vast_hidden : Value.haveText [.integer (1234 ^ 125)] = false := by decide +kernel

/-- Its execution prints a line while a call with the integer is active. -/
theorem executed_vastText : (hostedSession.executed ⟨40, vastText⟩).printed = ["true"] ∧
    (hostedSession.executed ⟨40, vastText⟩).activations.toList.map (·.arguments) = [[.integer (1234 ^ 125)]] := by
  unfold Session.executed
  rw [checked?_vastText]
  constructor
  · cbv
  · cbv

/-- The line is recorded and refused, and the run has no result at all, since the trace of its calls cannot be
written. -/
theorem refused_line_without_result : hostedSession.machine.output ≠ .none ∧
    (hostedSession.executed ⟨40, vastText⟩).printed = ["true"] ∧
    hostedSession.machine.refusesLine (hostedSession.machine.writes + 0) = true ∧
    ∀ result, (hostedSession.runWith 40 vastText).1 ≠ .ok result := by
  obtain ⟨hprinted, harguments⟩ := executed_vastText
  refine ⟨Output.noConfusion, hprinted, rfl, fun result h => ?_⟩
  obtain ⟨messages, htakes⟩ | ⟨steps, messages, m, message, line, hc, -, -, heq, hfault⟩ :=
    hostedSession.executed_ends ⟨40, vastText⟩
  · rw [Session.printed_of_takes htakes] at hprinted
    have hnone : messages.length ≤ 0 := htakes.length_le rfl
    rw [hprinted] at hnone
    cases hnone
  · obtain ⟨a, ha, hvast⟩ := List.mem_map.mp (harguments ▸ List.mem_cons_self)
    rw [heq] at ha
    have hanswer := Session.runWith_of_refusal hc hfault
    rw [h] at hanswer
    cases hanswer with
    | shown hshown =>
      have hhidden := hshown a ha
      rw [Activation.hasText, hvast, vast_hidden] at hhidden
      cases hhidden

end LoxLang
