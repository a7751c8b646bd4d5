import LoxLang.Proofs.Resolution
import LoxLang.Proofs.Scanning
import LoxLang.Proofs.Trace
import LoxLang.Session

/-!
# Runs

A run is a text with the fuel that bounds its nesting. A text that passes every check is executed
(`runWith_of_checked`), and any other leaves its diagnostics: scanning, parsing or resolution rejects it (`Verdict`).
A result is regular if it is a success, or a failure whose diagnostics are of one phase (`RunResult.Regular`).
-/

namespace LoxLang

/-! ## Runs and their visits -/

/-- The resolved steps of a text that passes every check. -/
def checked? (source : String) : Option (List Node) :=
  if (Scan.of source).diagnostics = [] ∧ Node.diagnosticsOf (parse (Scan.of source).tokens) = [] then
    (resolve (parse (Scan.of source).tokens)).toOption
  else none

structure Run where
  fuel : Nat
  source : String

/-- The resolved programs of runs. -/
def programsOf (runs : List Run) : List (List Node) := runs.filterMap fun r => checked? r.source

namespace Session

/-- The session as the run of a text starts. -/
def begun (s : Session) : Session := s.clear.bindHost

/-- The session once a text is scanned. -/
def scanned (s : Session) (source : String) : Session :=
  s.begun.record .progress ("Scanned " ++ toString (Scan.of source).tokens.length ++ " tokens")

/-- The session once a text is parsed. -/
def parsed (s : Session) (source : String) : Session :=
  (s.scanned source).record .progress
    ("Parsed tokens into " ++ toString (parse (Scan.of source).tokens).length ++ " blocks")

/-- The visits of a run: there are none unless its text passes every check. -/
def visits (s : Session) (r : Run) : List Visit :=
  match checked? r.source with
  | some steps => (Traced.program r.fuel steps (s.parsed r.source).machine).1
  | none => []

def after (s : Session) (r : Run) : Session := (s.runWith r.fuel r.source).2

def afterAll (s : Session) (runs : List Run) : Session := runs.foldl after s

/-- The visits of runs, one after the other. -/
def history (s : Session) : List Run → List Visit
  | [] => []
  | r :: runs => s.visits r ++ (s.after r).history runs

end Session

/-! ## What a run does -/

namespace Session

variable (s : Session) (fuel : Nat) {source : String}

theorem runWith_of_scan {first : Diagnostic} {others : List Diagnostic}
    (h : (Scan.of source).diagnostics = first :: others) :
    s.runWith fuel source = (.ok (s.begun.fail source first others []).1, (s.begun.fail source first others []).2) := by
  simp only [runWith, h, begun]

theorem runWith_of_parse (hs : (Scan.of source).diagnostics = []) {first : Diagnostic} {others : List Diagnostic}
    (h : Node.diagnosticsOf (parse (Scan.of source).tokens) = first :: others) :
    s.runWith fuel source =
      (.ok ((s.scanned source).fail source first others []).1, ((s.scanned source).fail source first others []).2) := by
  simp only [runWith, hs, h, scanned, begun]

theorem runWith_of_resolve (hs : (Scan.of source).diagnostics = [])
    (hp : Node.diagnosticsOf (parse (Scan.of source).tokens) = []) {line : Line} {cause : ResolveCause}
    (h : resolve (parse (Scan.of source).tokens) = .error (.rejected line cause)) :
    s.runWith fuel source = (.ok ((s.parsed source).fail source (cause.diagnostic line) [] []).1,
      ((s.parsed source).fail source (cause.diagnostic line) [] []).2) := by
  simp only [runWith, hs, hp, runSteps, h, parsed, scanned, begun]

end Session

theorem checked?_eq_some {source : String} {steps : List Node} :
    checked? source = some steps ↔ (Scan.of source).diagnostics = [] ∧
      Node.diagnosticsOf (parse (Scan.of source).tokens) = [] ∧
      resolve (parse (Scan.of source).tokens) = .ok steps := by
  unfold checked?
  split
  · next h =>
    cases resolve (parse (Scan.of source).tokens) <;> simp [h, Except.toOption]
  · next h =>
    simp only [false_iff, not_and, reduceCtorEq]
    exact fun hs hp => (h ⟨hs, hp⟩).elim

/-- What the checks say of a text: scanning, parsing or resolution rejects it, or it passes them all. -/
inductive Verdict (source : String) : Prop
  | scan {first : Diagnostic} {others : List Diagnostic} : (Scan.of source).diagnostics = first :: others →
    Verdict source
  | parse {first : Diagnostic} {others : List Diagnostic} : (Scan.of source).diagnostics = [] →
    Node.diagnosticsOf (parse (Scan.of source).tokens) = first :: others → Verdict source
  | resolve {line : Line} {cause : ResolveCause} : (Scan.of source).diagnostics = [] →
    Node.diagnosticsOf (parse (Scan.of source).tokens) = [] →
    resolve (parse (Scan.of source).tokens) = .error (.rejected line cause) → Verdict source
  | passed {steps : List Node} : checked? source = some steps → Verdict source

theorem verdict (source : String) : Verdict source := by
  cases hs : (Scan.of source).diagnostics with
  | cons first others => exact .scan hs
  | nil =>
    cases hp : Node.diagnosticsOf (parse (Scan.of source).tokens) with
    | cons first others => exact .parse hs hp
    | nil =>
      cases hr : resolve (parse (Scan.of source).tokens) with
      | ok steps => exact .passed (checked?_eq_some.mpr ⟨hs, hp, hr⟩)
      | error fault =>
        obtain ⟨line, cause, rfl⟩ := resolve_rejects (isStep_of_parse hp) hr
        exact .resolve hs hp hr

theorem Session.runWith_of_checked (s : Session) (fuel : Nat) {source : String} {steps : List Node}
    (h : checked? source = some steps) : s.runWith fuel source = (s.parsed source).execute fuel source steps := by
  obtain ⟨hs, hp, hr⟩ := checked?_eq_some.mp h
  simp only [runWith, hs, hp, runSteps, hr, parsed, scanned, begun]

/-- The resolved steps of a text are their own twins. -/
theorem twins_of_checked {source : String} {steps : List Node} (h : checked? source = some steps) :
    TwinSteps .same [⟨.program, []⟩] steps steps :=
  let ⟨_, hp, hr⟩ := checked?_eq_some.mp h
  resolve_twins (isStep_of_parse hp) hr

/-! ## What is printed -/

/-- What was printed among recorded effects. -/
def printedIn (effects : List Effect) : List String := (effects.filter (·.topic = .stdout)).map (·.message)

theorem printedIn_append (effects more : List Effect) :
    printedIn (effects ++ more) = printedIn effects ++ printedIn more := by
  rw [printedIn, List.filter_append, List.map_append, printedIn, printedIn]

theorem Machine.printed_eq (m : Machine) : m.printed = printedIn m.effects.toList := rfl

namespace Session

theorem printed_record (s : Session) {topic : Topic} (ht : topic ≠ .stdout) (message : String) :
    (s.record topic message).machine.printed = s.machine.printed := by
  simp [record, Machine.printed, ht]

theorem parsed_printed (s : Session) (source : String) : (s.parsed source).machine.printed = [] := by
  rw [parsed, printed_record _ (by decide), scanned, printed_record _ (by decide)]
  rfl

end Session

/-! ## Results -/

/-- A result with a property can be computed. -/
theorem exists_ok_of_any {ε α : Type} {x : Except ε α} {p : α → Prop} [DecidablePred p]
    (h : x.toOption.any (fun a => decide (p a)) = true) : ∃ a, x = .ok a ∧ p a := by
  cases x with
  | error fault => cases h
  | ok a => exact ⟨a, rfl, of_decide_eq_true h⟩

/-- The diagnostics of a failed run are of one phase: several may come from scanning or from parsing, and one from the
phases behind. -/
inductive OfOnePhase : List Diagnostic → Prop
  | scan {d ds} : (∀ e ∈ d :: ds, e.phase = .scan) → OfOnePhase (d :: ds)
  | parse {d ds} : (∀ e ∈ d :: ds, e.phase = .parse) → OfOnePhase (d :: ds)
  | resolve {d} : d.phase = .resolve → OfOnePhase [d]
  | runtime {d} : d.phase = .runtime → OfOnePhase [d]

/-- A result is a success without diagnostics, or a failure with diagnostics of one phase. -/
def RunResult.Regular (r : RunResult) : Prop :=
  r.status = Report.successStatus ∧ r.diagnostics = [] ∨ r.status = Report.failedStatus ∧ OfOnePhase r.diagnostics

theorem Scan.phase_of_mem {source : String} {d : Diagnostic} (h : d ∈ (Scan.of source).diagnostics) :
    d.phase = .scan := by
  obtain ⟨⟨line, p⟩, -, hd⟩ := List.mem_filterMap.mp h
  cases p with
  | stray | openString => cases hd; rfl
  | _ => cases hd

mutual

theorem Node.phase_of_mem_diagnostics {d : Diagnostic} : ∀ {n : Node}, d ∈ n.diagnostics → d.phase = .parse
  | .error _, h => by
    rw [diagnostics] at h
    split at h
    · next hd => exact List.mem_singleton.mp h ▸ hd
    · cases h
  | .block steps _, h => phase_of_mem_diagnosticsOf (l := steps) (by rwa [diagnostics] at h)
  | .ifElse _ t e _, h => by
    rw [diagnostics] at h
    obtain h | h := List.mem_append.mp h
    · exact phase_of_mem_diagnostics (n := t) h
    · exact phase_of_mem_diagnostics (n := e) h
  | .whileLoop _ body _, h => phase_of_mem_diagnostics (n := body) (by rwa [diagnostics] at h)
  | .function _ _ body _, h => phase_of_mem_diagnostics (n := body) (by rwa [diagnostics] at h)
  | .classDecl _ methods _, h => phase_of_mem_diagnosticsOf (l := methods) (by rwa [diagnostics] at h)
  | .literal .., h | .grouping .., h | .unary .., h | .binary .., h | .logical .., h | .var .., h | .assign .., h
  | .this .., h | .call .., h | .get .., h | .set .., h | .letDecl .., h | .print .., h | .returnStep .., h
  | .absent, h | .bare _, h => by simp [diagnostics] at h

theorem Node.phase_of_mem_diagnosticsOf {d : Diagnostic} : ∀ {l : List Node}, d ∈ diagnosticsOf l → d.phase = .parse
  | n :: ns, h => by
    rw [diagnosticsOf] at h
    obtain h | h := List.mem_append.mp h
    · exact phase_of_mem_diagnostics (n := n) h
    · exact phase_of_mem_diagnosticsOf (l := ns) h
  | [], h => by simp [diagnosticsOf] at h

end

end LoxLang
