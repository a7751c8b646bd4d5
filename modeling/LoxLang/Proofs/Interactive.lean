import Mathlib
import LoxLang.CommandLine
import LoxLang.Proofs.LiveOutput
import LoxLang.Proofs.SameAnswers
import LoxLang.Proofs.Sessions

/-!
# Interactive input

A script writes what it prints while it runs, to an output that refuses nothing (`Session.live_output`). The
interactive command has no output: it shows what a line of input recorded when the line is over, and only if the line
succeeded (`CommandLine.turns_show`). What a line printed before it failed is not shown
(`CommandLine.failing_line_shows_nothing`).
-/

namespace LoxLang

/-! ## Live output -/

namespace Session

variable (s : Session)

/-- A run writes to its output what it prints, if nothing is refused. -/
theorem after_output (h : ∀ n, s.machine.refusesLine n = false) (r : Run) :
    (s.after r).machine.output = s.machine.output.after (s.executed r).printed := by
  obtain ⟨effects, activations, -, hafter⟩ := s.after_eq r
  rw [hafter]
  have htakes := s.executed_takes r fun i _ => h _
  exact htakes.output

/-- The lines that a run writes to a live output are those that its result says were printed. -/
theorem live_output (h : ∀ n, s.machine.refusesLine n = false) {fuel : Nat} {source : String} {result : RunResult}
    (hr : (s.runWith fuel source).1 = .ok result) :
    (s.runWith fuel source).2.machine.output = s.machine.output.after result.printed := by
  have hprinted : result.printed = (s.executed ⟨fuel, source⟩).printed := s.result_printed hr
  rw [hprinted]
  exact s.after_output h ⟨fuel, source⟩

/-- The session with a live output to which nothing was written yet. -/
def onLive : Session := { s with machine := { s.machine with output := .live "" } }

/-- What a script would write that runs a text in the state of the session. -/
def liveText (source : String) : String := (s.onLive.run source).2.machine.written

variable {s}

/-- With a live output or without, the same is printed. -/
theorem liveText_eq (hs : s.machine.output = .none) (hn : ∀ n, s.machine.refuses n = false) {source : String}
    {result : RunResult} (hr : (s.run source).1 = .ok result) : s.liveText source = linesText result.printed := by
  have hlive : ∀ n, s.onLive.machine.refusesLine n = false := hn
  have hsame : s.Indistinct s.onLive := by
    refine ⟨.intro (.refl _) (funext fun n => (hlive n).trans ?_), rfl, rfl⟩
    rw [Machine.refusesLine, hs]
  unfold liveText run at *
  generalize Exec.budget = fuel at *
  have hr' : (s.onLive.runWith fuel source).1 = .ok result := (hsame.runWith fuel source).answer.trans hr
  rw [Machine.written, s.onLive.live_output hlive hr']
  exact String.empty_append

end Session

namespace CommandLine

/-! ## Lines of input -/

/-- A script that is the first text of a session writes its live text. -/
theorem script_stdout (e : Surroundings) (source : String) :
    (script e source).stdout = (firstSession e).liveText source := by
  show (script e source).stdout = ((Session.start (surroundings e (.live ""))).run source).2.machine.written
  unfold script
  rcases (Session.start (surroundings e (.live ""))).run source with ⟨⟨⟩ | result, s⟩
  · rfl
  · dsimp only
    cases result.outcome <;> rfl

/-- The text that a line of input runs, if it runs one. -/
def source? (line : String) : Option String :=
  if Text.trimmed line = "" ∨ Text.trimmed line = "exit" then none else some (Text.trimmed line)

def isExit (line : String) : Bool := Text.trimmed line == "exit"

/-- The lines that are read, each with the session that it finds. -/
def played (s : Session) : List String → List (Session × String)
  | [] => []
  | line :: rest => (s, line) :: match (turn s line).next with
    | some s => played s rest
    | none => []

/-- How the value of a program is shown. -/
def valueText : Value → String
  | .nil => ""
  | v => v.inMessage ++ "\n"

/-- What a line shows that runs a text: if it succeeds, the text that a script would write, and the value; if it fails,
only what went wrong, whatever was printed before. -/
inductive Shows (s : Session) (source : String) : Turn → Prop
  | success {result v next} : (s.run source).1 = .ok result → result.outcome = .success v →
      linesText result.printed = s.liveText source → Shows s source ⟨s.liveText source ++ valueText v, "", some next⟩
  | failure {result first others message next} : (s.run source).1 = .ok result →
      result.outcome = .failure first others message → linesText result.printed = s.liveText source →
      Shows s source ⟨"", result.errorText ++ "\n", some next⟩
  | outOfFuel {next} : (s.run source).1 = .error (.execution .outOfFuel) → Shows s source ⟨"", "", some next⟩

theorem turn_of_source (s : Session) {line source : String} (h : source? line = some source) :
    turn s line = match s.run source with
      | (.ok result, s) =>
        match result.outcome with
        | .success v => ⟨linesText result.printed ++ valueText v, "", some s⟩
        | .failure .. => ⟨"", result.errorText ++ "\n", some s⟩
      | (.error _, s) => ⟨"", "", some s⟩ := by
  unfold source? at h
  split at h
  · cases h
  · next hline =>
    cases h
    rw [not_or] at hline
    unfold turn
    simp only [hline.1, hline.2, if_false]
    rcases s.run (Text.trimmed line) with ⟨escape | result, next⟩
    · rfl
    · cases hv : result.outcome with
      | failure => rfl
      | success v => cases v <;> rfl

/-- A session that line-by-line input leads to: some texts were run in it, and it has no output, nor would one refuse a
line. -/
structure Reached (e : Surroundings) (s : Session) : Prop where
  output : s.machine.output = .none
  refuses : ∀ n, s.machine.refuses n = false
  runs : ∃ runs, s = (firstSession e).afterAll runs

theorem reached_first (e : Surroundings) : Reached e (firstSession e) := ⟨rfl, fun _ => rfl, [], rfl⟩

section Reached

variable {e : Surroundings}

theorem Reached.run {s : Session} (h : Reached e s) (source : String) : Reached e (s.run source).2 := by
  obtain ⟨runs, hs⟩ := h.runs
  have hnever : ∀ n, s.machine.refusesLine n = false := fun n => by rw [Machine.refusesLine, h.output]
  refine ⟨?_, fun n => ?_, runs ++ [⟨Exec.budget, source⟩], ?_⟩
  · have hout := s.after_output hnever ⟨Exec.budget, source⟩
    rw [h.output] at hout
    exact hout
  · show (s.after ⟨Exec.budget, source⟩).machine.refuses n = false
    rw [s.after_refuses]
    exact h.refuses n
  · unfold Session.afterAll at hs ⊢
    rw [List.foldl_append, ← hs]
    rfl

/-- A line that runs no text ends the input or leaves the session as it is. -/
theorem turn_of_no_source (s : Session) {line : String} (h : source? line = none) :
    turn s line = ⟨"", "", if isExit line then none else some s⟩ := by
  unfold source? at h
  split at h
  · next hline =>
    unfold turn isExit
    by_cases hblank : Text.trimmed line = ""
    · simp [hblank]
    · have hexit : Text.trimmed line = "exit" := hline.resolve_left hblank
      simp [hexit]
  · cases h

theorem next_of_source (s : Session) {line source : String} (h : source? line = some source) :
    (turn s line).next = some (s.run source).2 := by
  rw [turn_of_source s h]
  rcases s.run source with ⟨escape | result, next⟩
  · rfl
  · dsimp only
    cases result.outcome <;> rfl

/-- Only `exit` ends the input. -/
theorem next_eq_none (s : Session) (line : String) : (turn s line).next = none ↔ isExit line = true := by
  cases hs : source? line with
  | none =>
    rw [turn_of_no_source s hs]
    cases isExit line <;> simp
  | some source =>
    have hexit : isExit line = false := by
      unfold source? at hs
      split at hs
      · cases hs
      · next hline =>
        unfold isExit
        simpa using fun heq => hline (.inr heq)
    rw [next_of_source s hs, hexit]
    simp

theorem Reached.turn {s next : Session} (h : Reached e s) {line : String} (hn : (turn s line).next = some next) :
    Reached e next := by
  cases hs : source? line with
  | none =>
    rw [turn_of_no_source s hs] at hn
    cases hexit : isExit line with
    | true => simp [hexit] at hn
    | false =>
      simp only [hexit, Bool.false_eq_true, if_false, Option.some.injEq] at hn
      exact hn ▸ h
  | some source =>
    rw [next_of_source s hs] at hn
    cases hn
    exact h.run source

theorem Reached.shows {s : Session} (h : Reached e s) {line source : String} (hs : source? line = some source) :
    Shows s source (CommandLine.turn s line) := by
  obtain ⟨runs, hruns⟩ := h.runs
  have hends := Session.runs_end (surroundings e .none) runs Exec.budget source
  rw [← firstSession, ← hruns, ← Session.run] at hends
  rw [turn_of_source s hs]
  rcases hr : s.run source with ⟨escape | result, next⟩
  · rw [hr] at hends
    cases hends with
    | outOfFuel => exact .outOfFuel (by rw [hr])
    | raised hclosed =>
      -- no calls are logged, so no log can be closed
      obtain ⟨-, hon, -⟩ := hclosed rfl
      cases hon
    | outOfRange hlent => exact absurd rfl hlent
  · have hanswer : (s.run source).1 = .ok result := by rw [hr]
    have hlive := Session.liveText_eq h.output h.refuses hanswer
    dsimp only
    cases hv : result.outcome with
    | success v =>
      dsimp only
      rw [← hlive]
      exact .success hanswer hv hlive.symm
    | failure first others message => exact .failure hanswer hv hlive.symm

end Reached

/-! ## The whole input -/

/-- Input shows, line by line behind the prompt, what every line shows on its own; the end of the input is shown unless
a line ends it. -/
theorem turns_stdout (s : Session) (lines : List String) :
    (turns s lines).stdout = String.join ((played s lines).map fun (s, line) => prompt ++ (turn s line).stdout) ++
      if lines.any isExit then "" else prompt ++ farewell := by
  induction lines generalizing s with
  | nil => simp [turns, played]
  | cons line lines ih =>
    rw [turns, played, List.map_cons, String.join_cons, List.any_cons]
    cases hn : (turn s line).next with
    | none =>
      have hexit := (next_eq_none s line).mp hn
      simp [hexit]
    | some next =>
      have hexit : isExit line = false := by
        rw [← Bool.not_eq_true, ← next_eq_none s, hn]
        exact fun h => nomatch h
      dsimp only
      rw [ih next, hexit, Bool.false_or, ← String.append_assoc]

theorem reached_of_played {e : Surroundings} {first s : Session} (hfirst : Reached e first) {lines : List String}
    {line : String} (h : (s, line) ∈ played first lines) : Reached e s := by
  induction lines generalizing first with
  | nil => cases h
  | cons line' lines ih =>
    rw [played] at h
    rcases List.mem_cons.mp h with heq | hrest
    · cases heq
      exact hfirst
    · cases hn : (turn first line').next with
      | none =>
        rw [hn] at hrest
        cases hrest
      | some next =>
        rw [hn] at hrest
        exact ih (hfirst.turn hn) hrest

/-- Whatever lines are read: each line that runs a text shows what a script in its place would write, if it succeeds,
and nothing of it, if it fails. -/
theorem turns_show (e : Surroundings) (lines : List String) :
    (turns (firstSession e) lines).stdout =
      String.join ((played (firstSession e) lines).map fun (s, line) => prompt ++ (turn s line).stdout) ++
        (if lines.any isExit then "" else prompt ++ farewell) ∧
    ∀ s line source, (s, line) ∈ played (firstSession e) lines → source? line = some source →
      Shows s source (turn s line) := by
  refine ⟨turns_stdout (firstSession e) lines, fun s line source hplayed hs => ?_⟩
  exact (reached_of_played (reached_first e) hplayed).shows hs

/-- A text that prints, and then fails. -/
def failingText : String := "print true; print missing;"

theorem checked?_failingText :
    checked? failingText = some [.print (.literal (.bool true) 1) 1, .print (.var "missing" 1 none) 1] := by cbv

/-- Its execution prints the value, and then finds no variable. -/
theorem program_failingText (fuel : Nat) :
    Exec.program (fuel + 2) [.print (.literal (.bool true) 1) 1, .print (.var "missing" 1 none) 1]
        ((firstSession {}).parsed failingText).machine =
      .error (.runtime 1 (.notFound "missing")) (Exec.emitted ((firstSession {}).parsed failingText).machine "true") :=
  rfl

/-- As the only line of the input it shows what its failure shows. -/
theorem failing_line_shown :
    (firstSession {}, failingText) ∈ played (firstSession {}) [failingText] ∧ source? failingText = some failingText ∧
      Shows (firstSession {}) failingText (turn (firstSession {}) failingText) := by
  have hplayed : (firstSession {}, failingText) ∈ played (firstSession {}) [failingText] := by
    rw [played]
    exact List.mem_cons_self
  have hsource : source? failingText = some failingText := by cbv
  exact ⟨hplayed, hsource, (turns_show {} [failingText]).2 (firstSession {}) failingText failingText hplayed hsource⟩

/-- The line prints, a script with it writes what is printed, and the input shows nothing of it. -/
theorem failing_line_shows_nothing :
    ∃ result, ((firstSession {}).run failingText).1 = .ok result ∧ result.printed = ["true"] ∧
      (script {} failingText).stdout = "true\n" ∧
      (turns (firstSession {}) [failingText]).stdout = prompt ++ "" ++ (prompt ++ farewell) := by
  have hsource : source? failingText = some failingText := by cbv
  obtain ⟨fuel, hfuel⟩ : ∃ fuel, Exec.budget = fuel + 2 := ⟨Exec.budget - 2, by decide⟩
  have hrun :
      (firstSession {}).run failingText = ((firstSession {}).parsed failingText).execute Exec.budget failingText _ :=
    (firstSession {}).runWith_of_checked Exec.budget checked?_failingText
  rw [hfuel, Session.execute, program_failingText] at hrun
  set m := Exec.emitted ((firstSession {}).parsed failingText).machine "true" with hm
  have hfail : (firstSession {}).run failingText =
      (.ok (Session.fail { (firstSession {}).parsed failingText with machine := m } failingText
          ⟨.runtime, 1, (RuntimeCause.notFound "missing").message⟩ [] []).1,
        (Session.fail { (firstSession {}).parsed failingText with machine := m } failingText
          ⟨.runtime, 1, (RuntimeCause.notFound "missing").message⟩ [] []).2) := hrun
  have hanswer := congrArg Prod.fst hfail
  refine ⟨_, hanswer, rfl, ?_, ?_⟩
  · rw [script_stdout, Session.liveText_eq (reached_first {}).output (reached_first {}).refuses hanswer]
    rfl
  · rw [turns, turn_of_source (firstSession {}) hsource, hfail]
    rfl

end CommandLine

end LoxLang
