import LoxLang.Proofs.Events
import LoxLang.Proofs.Joined
import LoxLang.Proofs.Renumbering

/-!
# Layout

Texts whose tokens differ in nothing but their lines are parsed and resolved to trees that differ in nothing else, and
their runs end and print alike (`Session.layout_does_not_matter`).
-/

namespace LoxLang

/-- Every line is taken to be the first one. -/
def oneLine (_ : Line) : Line := 1

/-- The tokens are the same, on whatever lines they stand. -/
structure Token.SameLexeme (t t' : Token) : Prop where
  kind : t.kind = t'.kind
  lexeme : t.lexeme = t'.lexeme
  literal : t.literal = t'.literal

theorem Token.SameLexeme.renumber {t t' : Token} (h : t.SameLexeme t') :
    t.renumber oneLine = t'.renumber oneLine := by
  obtain ⟨kind, lexeme, line, literal⟩ := t
  obtain ⟨rfl, rfl, rfl⟩ := h
  rfl

theorem map_renumber_of_sameLexeme {ts ts' : List Token} (h : List.Forall₂ Token.SameLexeme ts ts') :
    ts.map (Token.renumber oneLine) = ts'.map (Token.renumber oneLine) := by
  induction h with
  | nil => rfl
  | cons ht _ ih => rw [List.map_cons, List.map_cons, ht.renumber, ih]

/-! ## Twins -/

section Twins

variable {f : Line → Line}

theorem Node.eq_absent_of_renumber {n : Node} (h : absent.renumber f = n.renumber f) : n = absent := by
  cases n with
  | absent => rfl
  | _ => cases h

mutual

/-- A resolved expression is a twin of one that differs in lines only. -/
theorem Twin.of_renumber {layers : List Layer} {n n' : Node} (h : n.renumber f = n'.renumber f)
    (hn : Twin .same layers n n) : Twin ⟨fun _ _ => True, True⟩ layers n n' := by
  -- renumbering keeps the kind of a node, so that the other node is of the same one
  cases hn with
  | literal _ hv =>
    cases n' with
    | literal =>
      obtain ⟨rfl, -⟩ := Node.literal.inj h
      exact .literal trivial hv
    | _ => cases h
  | grouping _ hn =>
    cases n' with
    | grouping =>
      obtain ⟨h, -⟩ := Node.grouping.inj h
      exact .grouping trivial (hn.of_renumber h)
    | _ => cases h
  | unary _ hn =>
    cases n' with
    | unary =>
      obtain ⟨rfl, h, -⟩ := Node.unary.inj h
      exact .unary trivial (hn.of_renumber h)
    | _ => cases h
  | binary _ ha hb =>
    cases n' with
    | binary =>
      obtain ⟨rfl, h, h', -⟩ := Node.binary.inj h
      exact .binary trivial (ha.of_renumber h) (hb.of_renumber h')
    | _ => cases h
  | logical _ ha hb =>
    cases n' with
    | logical =>
      obtain ⟨rfl, h, h', -⟩ := Node.logical.inj h
      exact .logical trivial (ha.of_renumber h) (hb.of_renumber h')
    | _ => cases h
  | var _ hd =>
    cases n' with
    | var =>
      obtain ⟨rfl, -, rfl⟩ := Node.var.inj h
      exact .var trivial (hd.mono False.elim)
    | _ => cases h
  | this _ hd =>
    cases n' with
    | this =>
      obtain ⟨-, rfl⟩ := Node.this.inj h
      exact .this trivial (hd.mono False.elim)
    | _ => cases h
  | assign _ hn hd =>
    cases n' with
    | assign =>
      obtain ⟨rfl, hvalue, -, rfl⟩ := Node.assign.inj h
      exact .assign trivial (hn.of_renumber hvalue) (hd.mono False.elim)
    | _ => cases h
  | call _ hn hargs =>
    cases n' with
    | call =>
      obtain ⟨h, hall, -⟩ := Node.call.inj h
      exact .call trivial (hn.of_renumber h) (hargs.of_renumber hall)
    | _ => cases h
  | get _ hn =>
    cases n' with
    | get =>
      obtain ⟨hobject, rfl, -⟩ := Node.get.inj h
      exact .get trivial (hn.of_renumber hobject)
    | _ => cases h
  | set _ hn hv =>
    cases n' with
    | set =>
      obtain ⟨hobject, rfl, hvalue, -⟩ := Node.set.inj h
      exact .set trivial (hn.of_renumber hobject) (hv.of_renumber hvalue)
    | _ => cases h

theorem TwinAll.of_renumber {layers : List Layer} {ns ns' : List Node}
    (h : Node.renumberAll f ns = Node.renumberAll f ns') (hns : TwinAll .same layers ns ns) :
    TwinAll ⟨fun _ _ => True, True⟩ layers ns ns' := by
  cases hns with
  | nil =>
    cases ns' with
    | nil => exact .nil
    | cons => cases h
  | cons hn hns =>
    cases ns' with
    | nil => cases h
    | cons =>
      obtain ⟨h, hall⟩ := List.cons.inj h
      exact .cons (hn.of_renumber h) (hns.of_renumber hall)

end

mutual

/-- A resolved step is a twin of one that differs in lines only. -/
theorem TwinStep.of_renumber {layers : List Layer} {n n' : Node} (h : n.renumber f = n'.renumber f)
    (hn : TwinStep .same layers n n) : TwinStep ⟨fun _ _ => True, True⟩ layers n n' := by
  cases hn with
  | expression hn => exact .expression (hn.of_renumber h)
  | block _ hs =>
    cases n' with
    | block =>
      obtain ⟨hall, -⟩ := Node.block.inj h
      exact .block trivial (hs.of_renumber hall)
    | _ => cases h
  | letDecl _ hd hn =>
    cases n' with
    | letDecl =>
      obtain ⟨rfl, h, -⟩ := Node.letDecl.inj h
      exact .letDecl trivial hd (hn.of_renumber h)
    | _ => cases h
  | function _ hd hp hb =>
    cases n' with
    | function =>
      obtain ⟨rfl, rfl, h, -⟩ := Node.function.inj h
      exact .function trivial hd hp (hb.of_renumber h)
    | _ => cases h
  | classDecl _ hd hm =>
    cases n' with
    | classDecl =>
      obtain ⟨rfl, hall, -⟩ := Node.classDecl.inj h
      exact .classDecl trivial hd (hm.of_renumber hall)
    | _ => cases h
  | print _ hn =>
    cases n' with
    | print =>
      obtain ⟨h, -⟩ := Node.print.inj h
      exact .print trivial (hn.of_renumber h)
    | _ => cases h
  | ifThen _ hc ht =>
    cases n' with
    | ifElse =>
      obtain ⟨h, h', he, -⟩ := Node.ifElse.inj h
      rw [Node.eq_absent_of_renumber he]
      exact .ifThen trivial (hc.of_renumber h) (ht.of_renumber h')
    | _ => cases h
  | ifElse _ hc ht he =>
    cases n' with
    | ifElse =>
      obtain ⟨h, h', h'', -⟩ := Node.ifElse.inj h
      exact .ifElse trivial (hc.of_renumber h) (ht.of_renumber h') (he.of_renumber h'')
    | _ => cases h
  | whileLoop _ hc hb =>
    cases n' with
    | whileLoop =>
      obtain ⟨h, h', -⟩ := Node.whileLoop.inj h
      exact .whileLoop trivial (hc.of_renumber h) (hb.of_renumber h')
    | _ => cases h
  | returnNil =>
    cases n' with
    | returnStep =>
      obtain ⟨h, -⟩ := Node.returnStep.inj h
      rw [Node.eq_absent_of_renumber h]
      exact .returnNil trivial
    | _ => cases h
  | returnValue _ hn =>
    cases n' with
    | returnStep =>
      obtain ⟨h, -⟩ := Node.returnStep.inj h
      exact .returnValue trivial (hn.of_renumber h)
    | _ => cases h

theorem TwinSteps.of_renumber {layers : List Layer} {ns ns' : List Node}
    (h : Node.renumberAll f ns = Node.renumberAll f ns') (hns : TwinSteps .same layers ns ns) :
    TwinSteps ⟨fun _ _ => True, True⟩ layers ns ns' := by
  cases hns with
  | nil =>
    cases ns' with
    | nil => exact .nil
    | cons => cases h
  | cons hn hns =>
    cases ns' with
    | nil => cases h
    | cons =>
      obtain ⟨h, hall⟩ := List.cons.inj h
      exact .cons (hn.of_renumber h) (hns.of_renumber hall)

theorem TwinMethods.of_renumber {layers : List Layer} {ns ns' : List Node}
    (h : Node.renumberAll f ns = Node.renumberAll f ns') (hns : TwinMethods .same layers ns ns) :
    TwinMethods ⟨fun _ _ => True, True⟩ layers ns ns' := by
  cases hns with
  | nil =>
    cases ns' with
    | nil => exact .nil
    | cons => cases h
  | cons _ hp hb hns =>
    cases ns' with
    | nil => cases h
    | cons n' ns' =>
      obtain ⟨h, hall⟩ := List.cons.inj h
      cases n' with
      | function =>
        obtain ⟨rfl, rfl, h, -⟩ := Node.function.inj h
        exact .cons trivial hp (hb.of_renumber h) (hns.of_renumber hall)
      | _ => cases h

end

end Twins

/-! ## Texts that are read alike -/

/-- Two texts without scanning diagnostics are parsed and resolved to the same, apart from lines. -/
structure ReadAlike (a b : String) : Prop where
  scanned : (Scan.of a).diagnostics = []
  scanned' : (Scan.of b).diagnostics = []
  parsed : Node.renumberAll oneLine (parse (Scan.of a).tokens) = Node.renumberAll oneLine (parse (Scan.of b).tokens)
  collected : (Node.diagnosticsOf (parse (Scan.of a).tokens)).map (Diagnostic.renumber oneLine) =
    (Node.diagnosticsOf (parse (Scan.of b).tokens)).map (Diagnostic.renumber oneLine)
  resolved : Resolve.renumbered oneLine (Node.renumberAll oneLine) (resolve (parse (Scan.of a).tokens)) =
    Resolve.renumbered oneLine (Node.renumberAll oneLine) (resolve (parse (Scan.of b).tokens))

namespace ReadAlike

variable {a b : String}

/-- The parser and resolution look at no line. -/
theorem of_tokens (ha : (Scan.of a).diagnostics = []) (hb : (Scan.of b).diagnostics = [])
    (h : List.Forall₂ Token.SameLexeme (Scan.of a).tokens (Scan.of b).tokens) : ReadAlike a b := by
  have hparsed : Node.renumberAll oneLine (parse (Scan.of a).tokens) =
      Node.renumberAll oneLine (parse (Scan.of b).tokens) := by
    rw [← parse_renumber oneLine (Scan.tokens_ne_nil a), ← parse_renumber oneLine (Scan.tokens_ne_nil b),
      map_renumber_of_sameLexeme h]
  refine ⟨ha, hb, hparsed, ?_, ?_⟩
  · rw [← Node.diagnosticsOf_renumberAll, ← Node.diagnosticsOf_renumberAll, hparsed]
  · rw [← resolve_renumber, ← resolve_renumber, hparsed]

variable (h : ReadAlike a b)
include h

theorem symm : ReadAlike b a := ⟨h.scanned', h.scanned, h.parsed.symm, h.collected.symm, h.resolved.symm⟩

/-- If the first text passes every check, so does the second, and their resolved steps differ in lines only. -/
theorem checked? {steps : List Node} (ha : LoxLang.checked? a = some steps) :
    ∃ steps', LoxLang.checked? b = some steps' ∧ Node.renumberAll oneLine steps = Node.renumberAll oneLine steps' := by
  obtain ⟨-, hp, hr⟩ := checked?_eq_some.mp ha
  have hcollected := h.collected
  have hresolved := h.resolved
  rw [hp, List.map_nil] at hcollected
  rw [hr] at hresolved
  cases hr' : resolve (parse (Scan.of b).tokens) with
  | error fault =>
    rw [hr'] at hresolved
    cases hresolved
  | ok steps' =>
    rw [hr'] at hresolved
    have hp' : Node.diagnosticsOf (parse (Scan.of b).tokens) = [] := List.map_eq_nil_iff.mp hcollected.symm
    exact ⟨steps', checked?_eq_some.mpr ⟨h.scanned', hp', hr'⟩, Except.ok.inj hresolved⟩

end ReadAlike

/-! ## Runs that answer alike -/

/-- Two runs answer alike: with the same value, with failures whose diagnostics differ in lines only and whose messages
list the active calls alike, or both are given up, or a log of calls that may be closed answers both. -/
inductive AnswersAlike (closes : Prop) (source source' : String) :
    Except Escape RunResult → Except Escape RunResult → Prop
  | success {v effects effects'} :
      AnswersAlike closes source source' (.ok ⟨.success v, effects⟩) (.ok ⟨.success v, effects'⟩)
  | failure {first first' others others' calls calls' effects effects'} :
      (first :: others).map (Diagnostic.renumber oneLine) = (first' :: others').map (Diagnostic.renumber oneLine) →
      Report.stackTrace? calls = Report.stackTrace? calls' →
      AnswersAlike closes source source'
        (.ok ⟨.failure first others (Report.message source (first :: others) calls), effects⟩)
        (.ok ⟨.failure first' others' (Report.message source' (first' :: others') calls'), effects'⟩)
  | outOfFuel : AnswersAlike closes source source' (.error (.execution .outOfFuel)) (.error (.execution .outOfFuel))
  | logClosed : closes → AnswersAlike closes source source' (.error (.execution (.raised Exec.logRefusal)))
      (.error (.execution (.raised Exec.logRefusal)))

theorem EndsAlike.answersAlike {closes : Prop} {source source' : String} {answer answer' : Except Escape RunResult}
    (h : EndsAlike closes source source' answer answer') : AnswersAlike closes source source' answer answer' := by
  cases h with
  | success => exact .success
  | failure hcalls => exact .failure rfl hcalls.symm
  | outOfFuel => exact .outOfFuel
  | logClosed hcloses => exact .logClosed hcloses

/-- A text that is rejected prints nothing. -/
theorem Session.after_printed_of_rejected (s : Session) {r : Run} (h : checked? r.source = none) :
    (s.after r).machine.printed = [] := by
  obtain ⟨result, effects, hrun, -, hprinted⟩ := s.runWith_of_rejected r.fuel h
  rw [after, hrun]
  exact hprinted

namespace Session

variable {s : Session} {a b : String}

/-- Resolved steps that differ in lines only are executed alike. -/
theorem Sound.execute_renumbered {closes : Prop} {programs : List (List Node)} {w : World}
    (hs : s.Sound closes programs w) (hq : w.lent = []) (hh : s.host = none) (fuel : Nat) {f : Line → Line}
    {steps steps' : List Node} (h : Node.renumberAll f steps = Node.renumberAll f steps')
    (htwins : TwinSteps .same [⟨.program, []⟩] steps steps) :
    EndsAlike closes a b ((s.parsed a).execute fuel a steps).1 ((s.parsed b).execute fuel b steps').1 ∧
      ((s.parsed a).execute fuel a steps).2.machine.printed =
        ((s.parsed b).execute fuel b steps').2.machine.printed := by
  have hs' := hs.more (List.subset_cons_self steps programs)
  have hroot := hs.lockstep.stores.sound.fits_root
  have hrun := (ofFuel_sound _ _ fuel).executeAll (hs'.parsed_lockstep hq hh a b) hroot
    ⟨steps, List.mem_cons_self, .program⟩ (htwins.of_renumber h)
  have hbefore : printedIn (Sides.anyLines closes (s.parsed a).machine (s.parsed b).machine).before = [] :=
    s.parsed_printed a
  have hbefore' : printedIn (Sides.anyLines closes (s.parsed a).machine (s.parsed b).machine).before' = [] :=
    s.parsed_printed b
  obtain ⟨hends, hprints⟩ := execute_alike hbefore' rfl hrun.resultsAlike
  rw [hbefore, List.nil_append] at hprints
  exact ⟨hends, hprints⟩

/-- Two texts are answered alike, and print the same. -/
structure RunsAlike (s : Session) (closes : Prop) (fuel : Nat) (a b : String) : Prop where
  answers : AnswersAlike closes a b (s.runWith fuel a).1 (s.runWith fuel b).1
  printed : (s.after ⟨fuel, a⟩).machine.printed = (s.after ⟨fuel, b⟩).machine.printed

/-- Texts that are rejected alike are answered alike. -/
theorem answersAlike_of_rejected (s : Session) (closes : Prop) (fuel : Nat) (h : ReadAlike a b)
    (ha : checked? a = none) : AnswersAlike closes a b (s.runWith fuel a).1 (s.runWith fuel b).1 := by
  have hcollected := h.collected
  cases hp : Node.diagnosticsOf (parse (Scan.of a).tokens) with
  | cons first others =>
    rw [hp] at hcollected
    cases hp' : Node.diagnosticsOf (parse (Scan.of b).tokens) with
    | nil =>
      rw [hp'] at hcollected
      cases hcollected
    | cons first' others' =>
      rw [hp'] at hcollected
      rw [s.runWith_of_parse fuel h.scanned hp, s.runWith_of_parse fuel h.scanned' hp']
      exact .failure hcollected rfl
  | nil =>
    rw [hp, List.map_nil] at hcollected
    have hp' : Node.diagnosticsOf (parse (Scan.of b).tokens) = [] := List.map_eq_nil_iff.mp hcollected.symm
    have hresolved := h.resolved
    cases hr : resolve (parse (Scan.of a).tokens) with
    | ok steps =>
      rw [checked?_eq_some.mpr ⟨h.scanned, hp, hr⟩] at ha
      cases ha
    | error fault =>
      obtain ⟨line, cause, rfl⟩ := resolve_rejects (isStep_of_parse hp) hr
      rw [hr] at hresolved
      cases hr' : resolve (parse (Scan.of b).tokens) with
      | ok steps =>
        rw [hr'] at hresolved
        cases hresolved
      | error fault' =>
        obtain ⟨line', cause', rfl⟩ := resolve_rejects (isStep_of_parse hp') hr'
        rw [hr'] at hresolved
        cases hresolved
        rw [s.runWith_of_resolve fuel h.scanned hp hr, s.runWith_of_resolve fuel h.scanned' hp' hr']
        exact .failure rfl rfl

/-- Texts that are read alike run alike. -/
theorem Sound.runsAlike {closes : Prop} {programs : List (List Node)} {w : World} (hs : s.Sound closes programs w)
    (hq : w.lent = []) (hh : s.host = none) (fuel : Nat) (h : ReadAlike a b) : s.RunsAlike closes fuel a b := by
  cases ha : checked? a with
  | some steps =>
    obtain ⟨steps', hb, hsteps⟩ := h.checked? ha
    obtain ⟨hends, hprinted⟩ := hs.execute_renumbered (a := a) (b := b) hq hh fuel hsteps (twins_of_checked ha)
    refine ⟨?_, ?_⟩
    · rw [s.runWith_of_checked fuel ha, s.runWith_of_checked fuel hb]
      exact hends.answersAlike
    · rw [after, s.runWith_of_checked fuel ha, after, s.runWith_of_checked fuel hb]
      exact hprinted
  | none =>
    have hb : checked? b = none := by
      cases hb : checked? b with
      | none => rfl
      | some steps =>
        obtain ⟨steps', ha', -⟩ := h.symm.checked? hb
        rw [ha'] at ha
        cases ha
    refine ⟨s.answersAlike_of_rejected closes fuel h ha, ?_⟩
    rw [s.after_printed_of_rejected (r := ⟨fuel, a⟩) ha, s.after_printed_of_rejected (r := ⟨fuel, b⟩) hb]

/-- Where the tokens of a text stand does not matter: texts with the same tokens on other lines are parsed and resolved
to the same apart from lines, and whatever was run before, they answer and print the same. -/
theorem layout_does_not_matter (e : Surroundings) (rs : List Run) (fuel : Nat)
    (ha : (Scan.of a).diagnostics = []) (hb : (Scan.of b).diagnostics = [])
    (h : List.Forall₂ Token.SameLexeme (Scan.of a).tokens (Scan.of b).tokens) :
    ReadAlike a b ∧ ((start e).afterAll rs).RunsAlike e.log.CanClose fuel a b := by
  obtain ⟨w, -, hq, hs⟩ := runs_sound e rs
  have hread := ReadAlike.of_tokens ha hb h
  exact ⟨hread, hs.runsAlike hq ((start e).afterAll_host rs) fuel hread⟩

/-- A text that fails. -/
def flatText : String := "print x;"

/-- The same text on two lines. -/
def tallText : String := "print\nx;"

theorem layout_of_failing_text :
    (Scan.of flatText).diagnostics = [] ∧ (Scan.of tallText).diagnostics = [] ∧
      List.Forall₂ Token.SameLexeme (Scan.of flatText).tokens (Scan.of tallText).tokens ∧
      ReadAlike flatText tallText ∧
      ((start {}).afterAll []).RunsAlike DebugLog.off.CanClose 30 flatText tallText := by
  have ha : (Scan.of flatText).diagnostics = [] := by cbv
  have hb : (Scan.of tallText).diagnostics = [] := by cbv
  have htokens : (Scan.of flatText).tokens = [⟨.printWord, "print", 1, .nil⟩, ⟨.identifier, "x", 1, .string "x"⟩,
      ⟨.semicolon, ";", 1, .nil⟩, ⟨.endOfInput, "", 1, .nil⟩] := by cbv
  have htokens' : (Scan.of tallText).tokens = [⟨.printWord, "print", 1, .nil⟩, ⟨.identifier, "x", 2, .string "x"⟩,
      ⟨.semicolon, ";", 2, .nil⟩, ⟨.endOfInput, "", 2, .nil⟩] := by cbv
  have h : List.Forall₂ Token.SameLexeme (Scan.of flatText).tokens (Scan.of tallText).tokens := by
    rw [htokens, htokens']
    exact .cons ⟨rfl, rfl, rfl⟩ (.cons ⟨rfl, rfl, rfl⟩ (.cons ⟨rfl, rfl, rfl⟩ (.cons ⟨rfl, rfl, rfl⟩ .nil)))
  exact ⟨ha, hb, h, layout_does_not_matter {} [] 30 ha hb h⟩

end Session

end LoxLang
