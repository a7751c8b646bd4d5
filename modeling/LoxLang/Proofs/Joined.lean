import Mathlib
import LoxLang.Proofs.Balance
import LoxLang.Proofs.Sessions
import LoxLang.Proofs.WiderLayers

/-!
# One run or two

Two texts run one after the other in a session do what they do when they are joined by a line break and run at once
(`Session.runs_agree_with_joined`), as long as the first ends without an error or a return, the second does not start
with an `else`, and no use in the second of a name that the first declares is shadowed by a later declaration around
it.
-/

namespace LoxLang

/-! ## The steps of joined texts -/

/-- Behind a program that passes every check, a text passes every check that the joined text passes, and its resolved
steps are like those at the end of the joined text. -/
theorem checked?_newline {a b : String} {first joined : List Node} (ha : checked? a = some first)
    (hj : checked? (a ++ "\n" ++ b) = some joined) (hb : StartsAlone b) :
    ∃ rest second, joined = first ++ rest ∧ checked? b = some second ∧ Node.AllSimilar rest second := by
  obtain ⟨hscan, hparse, hresolve⟩ := checked?_eq_some.mp ha
  obtain ⟨hscan', hparse', hresolve'⟩ := checked?_eq_some.mp hj
  obtain ⟨hsteps, hparse₂⟩ := parse_newline hscan hparse hb hparse'
  rw [Scan.diagnostics_newline (Scan.not_isOpen hscan), List.append_eq_nil_iff, List.map_eq_nil_iff] at hscan'
  rw [hsteps] at hresolve'
  obtain ⟨rest, second, rfl, hresolve₂, halike⟩ := resolve_append (isStep_of_parse hparse) hresolve hresolve'
  exact ⟨rest, second, rfl, checked?_eq_some.mpr ⟨hscan'.2, hparse₂, hresolve₂⟩, halike⟩

/-! ## Results that are alike -/

/-- Two runs end alike: with the same value, with failures that differ in line and excerpt only, given up both, or, if
the log of calls may be closed, both with what it answers then. -/
inductive EndsAlike (closes : Prop) (source source' : String) :
    Except Escape RunResult → Except Escape RunResult → Prop
  | success {v effects effects'} :
      EndsAlike closes source source' (.ok ⟨.success v, effects⟩) (.ok ⟨.success v, effects'⟩)
  | failure {line line' text calls calls' effects effects'} : Report.stackTrace? calls' = Report.stackTrace? calls →
      EndsAlike closes source source'
        (.ok ⟨.failure ⟨.runtime, line, text⟩ [] (Report.message source [⟨.runtime, line, text⟩] calls), effects⟩)
        (.ok ⟨.failure ⟨.runtime, line', text⟩ [] (Report.message source' [⟨.runtime, line', text⟩] calls'), effects'⟩)
  | outOfFuel : EndsAlike closes source source' (.error (.execution .outOfFuel)) (.error (.execution .outOfFuel))
  | logClosed : closes → EndsAlike closes source source' (.error (.execution (.raised Exec.logRefusal)))
      (.error (.execution (.raised Exec.logRefusal)))

/-- Two executions end alike, on machines that look alike from outside. -/
inductive ResultsAlike (sides : Sides) :
    EStateM.Result Fault Machine Signal → EStateM.Result Fault Machine Signal → Prop
  | ok {signal m m'} : SurfaceAlike sides m m' → ResultsAlike sides (.ok signal m) (.ok signal m')
  | error {fault fault' m m'} : fault.Alike sides fault' → SurfaceAlike sides m m' →
      ResultsAlike sides (.error fault m) (.error fault' m')

/-- Calls that are alike apart from their lines are listed alike. -/
theorem stackTrace?_of_alike {L : Line → Line → Prop} {calls calls' : List Activation}
    (h : List.Forall₂ (Activation.Alike L) calls calls') : Report.stackTrace? calls' = Report.stackTrace? calls := by
  have htext : calls'.map Report.activation = calls.map Report.activation := by
    induction h with
    | nil => rfl
    | cons ha _ ih => rw [List.map_cons, List.map_cons, ih, Report.activation, Report.activation, ha.name, ha.arguments]
  have hempty : calls'.isEmpty = calls.isEmpty := by
    simpa using congrArg List.isEmpty htext
  rw [Report.stackTrace?, Report.stackTrace?, hempty, htext]

namespace SurfaceAlike

variable {sides : Sides} {m m' : Machine}

/-- The active calls of the second machine can be shown too. -/
theorem shown_right (h : SurfaceAlike sides m m') (hq : sides.lent = []) :
    ∀ a ∈ m'.activations.toList, a.hasText = true := by
  have hcalls := h.calls
  have hshown := h.shown hq
  generalize m.activations.toList = calls at hcalls hshown
  generalize m'.activations.toList = calls' at hcalls ⊢
  induction hcalls with
  | nil => exact fun a ha => nomatch ha
  | @cons a a' calls calls' hab _ ih =>
    have ha : a'.hasText = true := by
      rw [Activation.hasText, hab.arguments]
      exact hshown a List.mem_cons_self
    exact List.forall_mem_cons.mpr ⟨ha, ih fun b hb => hshown b (List.mem_cons_of_mem a hb)⟩

theorem take (h : SurfaceAlike sides m m') (k : Nat) :
    SurfaceAlike sides { m with activations := m.activations.take k }
      { m' with activations := m'.activations.take k } := by
  refine { h with calls := ?_, shown := fun hl a ha => h.shown hl a ?_ }
  · simpa using List.forall₂_take k h.calls
  · exact List.mem_of_mem_take (by simpa using ha)

/-- What the first machine prints more than the second one was printed before. -/
theorem printed (h : SurfaceAlike sides m m') (hb : printedIn sides.before' = []) :
    m.printed = printedIn sides.before ++ m'.printed := by
  obtain ⟨new, hnew, hnew'⟩ := h.effects
  rw [Machine.printed_eq, Machine.printed_eq, hnew, hnew', printedIn_append, printedIn_append, hb, List.nil_append]

end SurfaceAlike

/-- Two machines whose lines are not compared, with what each of them has recorded; names may be searched for on the
second one. -/
def Sides.anyLines (closes : Prop) (m m' : Machine) : Sides :=
  ⟨⟨fun _ _ => True, True⟩, fun _ => trivial, m.effects.toList, m'.effects.toList, [], closes, fun _ => rfl⟩

namespace Session

variable {sides : Sides} {source source' : String}

/-- Failures on machines that look alike are alike. -/
theorem failInCalls_alike {s s' : Session} (hb : printedIn sides.before' = []) (hq : sides.lent = [])
    (h : SurfaceAlike sides s.machine s'.machine) (line line' : Line) (text : String) :
    EndsAlike sides.closes source source' (s.failInCalls source ⟨.runtime, line, text⟩).1
        (s'.failInCalls source' ⟨.runtime, line', text⟩).1 ∧
      (s.failInCalls source ⟨.runtime, line, text⟩).2.machine.printed =
        printedIn sides.before ++ (s'.failInCalls source' ⟨.runtime, line', text⟩).2.machine.printed := by
  rw [failInCalls, failInCalls, if_pos (List.all_eq_true.mpr (h.shown hq)),
    if_pos (List.all_eq_true.mpr (h.shown_right hq))]
  refine ⟨.failure (stackTrace?_of_alike h.calls), ?_⟩
  show (s.record .stderr _).machine.printed = printedIn sides.before ++ (s'.record .stderr _).machine.printed
  rw [printed_record s (by decide), printed_record s' (by decide), h.printed hb]

/-- Programs whose executions end alike give results that are alike. -/
theorem execute_alike {s s' : Session} {fuel : Nat} {steps steps' : List Node} (hb : printedIn sides.before' = [])
    (hq : sides.lent = [])
    (h : ResultsAlike sides (Exec.program fuel steps s.machine) (Exec.program fuel steps' s'.machine)) :
    EndsAlike sides.closes source source' (s.execute fuel source steps).1 (s'.execute fuel source' steps').1 ∧
      (s.execute fuel source steps).2.machine.printed =
        printedIn sides.before ++ (s'.execute fuel source' steps').2.machine.printed := by
  rw [execute, execute]
  generalize Exec.program fuel steps s.machine = r at h
  generalize Exec.program fuel steps' s'.machine = r' at h
  cases h with
  | @ok signal m m' h =>
    refine ⟨.success, ?_⟩
    show (record { s with machine := m } .progress _).machine.printed =
      printedIn sides.before ++ (record { s' with machine := m' } .progress _).machine.printed
    rw [printed_record _ (by decide), printed_record _ (by decide), h.printed hb]
  | error hf h =>
    cases hf with
    | runtime => exact failInCalls_alike hb hq h _ _ _
    | overflow => exact failInCalls_alike hb hq (h.take keptCalls) _ _ _
    | outOfFuel => exact ⟨.outOfFuel, h.printed hb⟩
    | raised hd =>
      obtain ⟨rfl, hcloses⟩ := hd hq
      exact ⟨.logClosed hcloses, h.printed hb⟩
    | outOfRange hne => exact absurd hq hne

/-! ## From the first text to the second -/

/-- Two texts start on machines that are in lockstep. -/
theorem Sound.parsed_lockstep {closes : Prop} {programs : List (List Node)} {w : World} {s : Session}
    (hs : s.Sound closes programs w) (hq : w.lent = []) (hh : s.host = none) (source source' : String) :
    Lockstep programs (.anyLines closes (s.parsed source).machine (s.parsed source').machine) w
      (s.parsed source).machine
      (s.parsed source').machine := by
  have hparsed := (hs.parsed source).lockstep
  rw [s.toLend_of_none hh] at hparsed
  have hlend : w.lend [] = w := by rw [World.lend, List.append_nil]
  change Lockstep programs (.exact (w.lend []).lent closes) (w.lend []) _ _ at hparsed
  rw [hlend] at hparsed
  exact hparsed.between (.anyLines closes _ _) ⟨fun _ => trivial, False.elim⟩ hq.symm rfl rfl rfl
    ⟨.nil, fun _ _ ha => absurd ha List.not_mem_nil, ⟨[], (List.append_nil _).symm, (List.append_nil _).symm⟩,
      rfl, rfl, rfl, rfl, rfl, rfl, rfl, ⟨rfl, rfl, rfl⟩, hparsed.surface.closes⟩

/-- What was recorded before is forgotten when a text starts. -/
theorem parsed_record (s : Session) (topic : Topic) (message source : String) :
    (s.record topic message).parsed source = s.parsed source := rfl

/-- A machine without active calls goes on as the next run of a session starts whose machine is in lockstep with it. -/
theorem parsed_next {closes : Prop} {programs : List (List Node)} {w : World} {m₀ m₀' m : Machine} {s : Session}
    (hh : s.host = none) (hl : s.lent = []) (h : Lockstep programs (.anyLines closes m₀ m₀') w m s.machine)
    (hm : m.activations = #[]) (source : String) :
    Lockstep programs (.anyLines closes m (s.parsed source).machine) w m (s.parsed source).machine := by
  have hsurface := h.surface
  refine h.between (.anyLines closes m (s.parsed source).machine) ⟨id, id⟩ rfl rfl (parsed_store hh hl source) rfl
    ⟨?_, hsurface.shown, ⟨[], (List.append_nil _).symm, (List.append_nil _).symm⟩, hsurface.output, hsurface.refuses,
      hsurface.writes, hsurface.hosts, hsurface.clock, hsurface.ticks, hsurface.callLimit, hsurface.log,
      hsurface.closes⟩
  rw [hm]
  exact .nil

end Session

theorem Holds.resultsAlike {programs : List (List Node)} {sides : Sides} {w : World} {m m' : Machine}
    {fuel : Nat} {steps steps' : List Node} {R : World → Signal → Prop}
    (h : Holds programs sides w m m' (Traced.program fuel steps) (Exec.program fuel steps') R) :
    ResultsAlike sides (Exec.program fuel steps m) (Exec.program fuel steps' m') := by
  rw [← Traced.program_erases]
  cases h with
  | ok hx hy _ _ hl _ => rw [hx, hy]; exact .ok hl.surface
  | error hx hy ha _ _ hl => rw [hx, hy]; exact .error ha hl.surface

namespace Session

/-- Joined steps go on behind the first ones as the second ones do in the next run. -/
theorem Sound.continues {closes : Prop} {programs : List (List Node)} {w : World} {s : Session}
    (hs : s.Sound closes programs w) (hq : w.lent = []) (hhost : s.host = none) (fuel : Nat)
    (a b joined : String) {first rest second : List Node} {m₁ : Machine}
    (hfirst : TwinSteps .same [⟨.program, []⟩] first first)
    (hsecond : TwinSteps ⟨fun _ _ => True, True⟩ (behindAll [⟨.program, []⟩] first) rest second)
    (hrun : Exec.program fuel first (s.parsed a).machine = .ok .proceed m₁) :
    ∃ m, m.printed = m₁.printed ∧
      ResultsAlike (.anyLines closes m (((s.parsed a).execute fuel a first).2.parsed b).machine)
        (Exec.program fuel (first ++ rest) (s.parsed joined).machine)
        (Exec.program fuel second (((s.parsed a).execute fuel a first).2.parsed b).machine) := by
  have hmem : first ∈ [first, first ++ rest] ++ programs := by simp
  have hmem' : first ++ rest ∈ [first, first ++ rest] ++ programs := by simp
  have hs' := hs.more (List.subset_append_right [first, first ++ rest] programs)
  have hroot := hs.lockstep.stores.sound.fits_root
  -- the first steps run in lockstep in both, and where they end the next run starts in lockstep with the rest
  have hphase := (ofFuel_sound _ _ fuel).executeAll (hs'.parsed_lockstep hq hhost joined a) hroot
    ⟨first, hmem, .program⟩ (hfirst.mono ⟨fun _ => trivial, False.elim⟩)
  cases hphase with
  | error _ hy => rw [Exec.program, hy] at hrun; cases hrun
  | @ok visits signal m m' w₁ hx hy hw _ hl hfits =>
    obtain ⟨rfl, rfl⟩ : signal = .proceed ∧ m' = m₁ := by
      rw [Exec.program, hy] at hrun
      cases hrun
      exact ⟨rfl, rfl⟩
    have hjoined : Exec.program fuel first (s.parsed joined).machine = .ok .proceed m := by
      rw [← Traced.program_erases, Traced.program, hx]
    have hprinted : m.printed = m'.printed := by
      have h := hl.surface.printed (s.parsed_printed a)
      rwa [Sides.anyLines, ← Machine.printed_eq, s.parsed_printed joined, List.nil_append] at h
    have hafter : ((s.parsed a).execute fuel a first).2.parsed b =
        Session.parsed { s.parsed a with machine := m' } b := by
      rw [Session.execute, hrun]
      exact parsed_record _ _ _ b
    have hnext := parsed_next (s := { s.parsed a with machine := m' }) hhost
      (congrArg Table.keys (s.toLend_of_none hhost)) hl (Exec.program_conserves fuel first _ _ _ hjoined).calls b
    refine ⟨m, hprinted, ?_⟩
    rw [hafter, Exec.program_append hjoined]
    exact ((ofFuel_sound _ _ fuel).executeAll hnext hfits
      ⟨first ++ rest, hmem', Within.program.drop⟩ hsecond).resultsAlike

/-- The runs of two texts, one after the other, end and print as the run of the joined text does. -/
structure AgreesWithJoined (s : Session) (closes : Prop) (fuel : Nat) (a b : String) : Prop where
  ends : EndsAlike closes (a ++ "\n" ++ b) b (s.runWith fuel (a ++ "\n" ++ b)).1 ((s.after ⟨fuel, a⟩).runWith fuel b).1
  printed : (s.after ⟨fuel, a ++ "\n" ++ b⟩).machine.printed =
    (s.after ⟨fuel, a⟩).machine.printed ++ ((s.after ⟨fuel, a⟩).after ⟨fuel, b⟩).machine.printed

/-- A text that runs to its end, and another one behind it, do what the joined text does, if the second starts with no
`else` and none of its uses of what the first declares is shadowed later. -/
theorem runs_agree_with_joined (e : Surroundings) (rs : List Run) (fuel : Nat) {a b : String}
    {first joined : List Node} {m : Machine} (ha : checked? a = some first)
    (hj : checked? (a ++ "\n" ++ b) = some joined)
    (hrun : Exec.program fuel first (((start e).afterAll rs).parsed a).machine = .ok .proceed m)
    (hb : StartsAlone b) (hu : ∀ second, checked? b = some second → Unshadowed first second) :
    ((start e).afterAll rs).AgreesWithJoined e.log.CanClose fuel a b := by
  obtain ⟨w, -, hq, hs⟩ := runs_sound e rs
  have hhost : ((start e).afterAll rs).host = none := (start e).afterAll_host rs
  generalize (start e).afterAll rs = s at hrun hs hhost
  obtain ⟨rest, second, rfl, hsecond, halike⟩ := checked?_newline ha hj hb
  have hrest := TwinSteps.behind_program halike (hu second hsecond) (twins_of_checked hj) (twins_of_checked hsecond)
  have hfirst : s.after ⟨fuel, a⟩ = ((s.parsed a).execute fuel a first).2 := by
    rw [after, s.runWith_of_checked fuel ha]
  have hprinted : (s.after ⟨fuel, a⟩).machine.printed = m.printed := by
    rw [hfirst, execute, hrun]
    exact printed_record _ (by decide) _
  obtain ⟨m₁, hm₁, hresults⟩ := hs.continues hq hhost fuel a b (a ++ "\n" ++ b) (twins_of_checked ha) hrest hrun
  rw [← hfirst] at hresults
  have hnone : printedIn (Sides.anyLines e.log.CanClose m₁ ((s.after ⟨fuel, a⟩).parsed b).machine).before' = [] :=
    parsed_printed (s.after ⟨fuel, a⟩) b
  obtain ⟨hends, hprints⟩ := execute_alike hnone rfl hresults
  refine ⟨?_, ?_⟩
  · rw [s.runWith_of_checked fuel hj, runWith_of_checked _ fuel hsecond]
    exact hends
  · rw [hprinted, ← hm₁, after, s.runWith_of_checked fuel hj, after, runWith_of_checked _ fuel hsecond]
    exact hprints

end Session

/-- The machine that an execution leaves which comes to the end of its steps. -/
def Exec.endOf? : EStateM.Result Fault Machine Signal → Option Machine
  | .ok .proceed m => some m
  | _ => none

theorem Exec.endOf?_eq_some {r : EStateM.Result Fault Machine Signal} {m : Machine} :
    endOf? r = some m ↔ r = .ok .proceed m := by
  cases r with
  | ok signal => cases signal <;> simp [endOf?]
  | error => simp [endOf?]

/-- A text that declares a variable. -/
def globalText : String := "let x = true;"

theorem checked?_globalText : checked? globalText = some [.letDecl "x" (.literal (.bool true) 1) 1] := by cbv

theorem endOf?_globalText : (Exec.endOf? (Exec.program 30 [.letDecl "x" (.literal (.bool true) 1) 1]
    ((Session.start {}).parsed globalText).machine)).isSome = true := by cbv

/-- A text that reads the variable in a function. -/
def closureText : String := "\x7b fun f() \x7b print x; \x7d f(); \x7d"

/-- The function finds the variable of the first text, joined with it or not. -/
theorem Session.closure_agrees_with_joined :
    AgreesWithJoined ((start {}).afterAll []) DebugLog.off.CanClose 30 globalText closureText := by
  obtain ⟨joined, hj⟩ : ∃ joined, checked? (globalText ++ "\n" ++ closureText) = some joined :=
    Option.isSome_iff_exists.mp (by cbv)
  obtain ⟨m, hm⟩ := Option.isSome_iff_exists.mp endOf?_globalText
  refine runs_agree_with_joined {} [] 30 checked?_globalText hj (Exec.endOf?_eq_some.mp hm) ?_ ?_
  · intro t ht
    have hkind : (Scan.of closureText).tokens.head?.map (·.kind) = some .leftBrace := by cbv
    rw [ht] at hkind
    have hbrace : t.kind = .leftBrace := Option.some.inj hkind
    rw [hbrace]
    decide
  · intro second hs
    have hsecond : checked? closureText = some
        [.block [.function "f" [] (.block [.print (.var "x" 1 none) 1] 1) 1, .call (.var "f" 1 (some 0)) [] 1] 1] := by
      cbv
    rw [hsecond] at hs
    cases hs
    exact .of_places (by decide)

/-- A text that reads the variable in a function, and declares it anew before the function is called again. -/
def shadowingText : String := "\x7b fun f() \x7b print x; \x7d f(); let x = nil; f(); \x7d"

/-- In the joined text the function keeps to the first variable; in a run of its own it finds the second one. -/
theorem Session.shadowing_divides_runs :
    (∃ first m, checked? globalText = some first ∧
      Exec.program 30 first ((start {}).parsed globalText).machine = .ok .proceed m) ∧
    (∃ joined, checked? (globalText ++ "\n" ++ shadowingText) = some joined) ∧
    ((start {}).after ⟨30, globalText ++ "\n" ++ shadowingText⟩).machine.printed =
      ["true", "true"] ∧
    ((start {}).after ⟨30, globalText⟩).machine.printed ++
      (((start {}).after ⟨30, globalText⟩).after ⟨30, shadowingText⟩).machine.printed =
      ["true", "nil"] := by
  obtain ⟨m, hm⟩ := Option.isSome_iff_exists.mp endOf?_globalText
  refine ⟨⟨_, m, checked?_globalText, Exec.endOf?_eq_some.mp hm⟩, Option.isSome_iff_exists.mp ?_, ?_, ?_⟩
  · cbv
  · cbv
  · cbv

end LoxLang
