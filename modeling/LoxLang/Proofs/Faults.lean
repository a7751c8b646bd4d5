import LoxLang.Proofs.Alike
import LoxLang.Proofs.ParsedTrees

/-!
# Faults anywhere in a tree

`Node.faults` lists the parse diagnostics that stand anywhere in a node, also where only an expression may stand, in the
order in which resolution comes to them. In a parsed tree they are those that `Node.diagnostics` lists, since the parser
puts them nowhere but in the place of steps (`faults_of_parse`). For every tree, a resolution that succeeds has met none
of them, and one that stops at a parse diagnostic stops at the first (`resolve_meets`).
-/

namespace LoxLang

namespace Node

mutual

/-- The parse diagnostics in a node, at any depth, in the order in which resolution comes to them. -/
def faults : Node → List Diagnostic
  | error d => if d.phase = .parse then [d] else []
  | grouping inner _ | unary _ inner _ | assign _ inner _ _ | get inner _ _ | letDecl _ inner _ | print inner _
  | function _ _ inner _ | returnStep inner _ => faults inner
  | binary _ left right _ | logical _ left right _ | whileLoop left right _ => faults left ++ faults right
  | set object _ value _ => faults value ++ faults object
  | ifElse condition thenBranch elseBranch _ => faults condition ++ (faults thenBranch ++ faults elseBranch)
  | call callee arguments _ => faults callee ++ faultsOf arguments
  | block steps _ | classDecl _ steps _ => faultsOf steps
  | literal .. | var .. | this .. | absent | bare _ => []

def faultsOf : List Node → List Diagnostic
  | [] => []
  | n :: ns => faults n ++ faultsOf ns

end

theorem faultsOf_append (ns ns' : List Node) : faultsOf (ns ++ ns') = faultsOf ns ++ faultsOf ns' := by
  induction ns with
  | nil => rfl
  | cons n ns ih => rw [List.cons_append, faultsOf, ih, faultsOf, List.append_assoc]

theorem faultsOf_of_mem {ns : List Node} (h : ∀ n ∈ ns, n.faults = []) : faultsOf ns = [] := by
  induction ns with
  | nil => rfl
  | cons n ns ih =>
    rw [faultsOf, h n List.mem_cons_self, ih fun m hm => h m (List.mem_cons_of_mem n hm), List.append_nil]

/-- A loop has the faults of its clauses and its body. -/
theorem forLoop_faults {initializer condition increment : Option Node} (body : Node) (line : Line)
    (hi : ∀ n, initializer = some n → n.faults = []) (hc : ∀ n, condition = some n → n.faults = [])
    (hs : ∀ n, increment = some n → n.faults = []) :
    (forLoop initializer condition increment body line).faults = body.faults := by
  have hinitializer : faultsOf initializer.toList = [] :=
    faultsOf_of_mem fun n hn => hi n (Option.mem_toList.mp hn)
  have hcondition : (condition.getD (.literal (.bool true) line)).faults = [] := by
    cases condition with
    | none => rfl
    | some n => exact hc n rfl
  rw [Node.forLoop.eq_def, faults, faultsOf_append, hinitializer, List.nil_append]
  cases increment with
  | none => simp [faultsOf, faults, hcondition]
  | some step => simp [faultsOf, faults, hcondition, hs step rfl]

mutual

/-- What collecting finds is among the faults. -/
theorem diagnostics_sublist : ∀ n : Node, n.diagnostics.Sublist n.faults
  | error _ => .refl _
  | block steps _ | classDecl _ steps _ => diagnosticsOf_sublist steps
  | ifElse _ thenBranch elseBranch _ =>
    List.sublist_append_of_sublist_right ((diagnostics_sublist thenBranch).append (diagnostics_sublist elseBranch))
  | whileLoop _ body _ => List.sublist_append_of_sublist_right (diagnostics_sublist body)
  | function _ _ body _ => diagnostics_sublist body
  | literal .. | grouping .. | unary .. | binary .. | logical .. | var .. | assign .. | this .. | call .. | get ..
  | set .. | letDecl .. | print .. | returnStep .. | absent | bare _ => List.nil_sublist _

theorem diagnosticsOf_sublist : ∀ ns : List Node, (diagnosticsOf ns).Sublist (faultsOf ns)
  | [] => .refl _
  | n :: ns => (diagnostics_sublist n).append (diagnosticsOf_sublist ns)

end

theorem diagnostics_of_faultless {n : Node} (h : n.faults = []) : n.diagnostics = [] :=
  List.sublist_nil.mp (h ▸ n.diagnostics_sublist)

/-! ## Alike trees -/

mutual

theorem Alike.faults_eq {L : Line → Line → Prop} {D : Depth → Depth → Prop} :
    ∀ {n n' : Node}, n.Alike L D n' → n'.faults = n.faults
  | _, _, .literal .. | _, _, .var .. | _, _, .this .. | _, _, .absent => rfl
  | _, _, .grouping _ h | _, _, .unary _ h | _, _, .assign _ _ h | _, _, .get _ h | _, _, .letDecl _ h
  | _, _, .print _ h | _, _, .function _ h | _, _, .returnStep _ h => h.faults_eq
  | _, _, .binary _ h h' | _, _, .logical _ h h' | _, _, .whileLoop _ h h' | _, _, .set _ h h' => by
    rw [faults, faults, h.faults_eq, h'.faults_eq]
  | _, _, .ifElse _ h h' h'' => by rw [faults, faults, h.faults_eq, h'.faults_eq, h''.faults_eq]
  | _, _, .call _ h h' => by rw [faults, faults, h.faults_eq, h'.faultsOf_eq]
  | _, _, .block _ h | _, _, .classDecl _ h => h.faultsOf_eq

theorem AllAlike.faultsOf_eq {L : Line → Line → Prop} {D : Depth → Depth → Prop} :
    ∀ {ns ns' : List Node}, AllAlike L D ns ns' → faultsOf ns' = faultsOf ns
  | _, _, .nil => rfl
  | _, _, .cons h h' => by rw [faultsOf, faultsOf, h.faults_eq, h'.faultsOf_eq]

end

end Node

/-! ## Parsed trees -/

namespace Grammar

/-- What derives from tokens is free of faults. -/
theorem Derives.faults {c : Category} {ts : List Token} {n : Node} (h : Derives c ts n) : n.faults = [] := by
  have hitems : ∀ {items : List Item}, (∀ i ∈ items, i.2.faults = []) → Node.faultsOf (items.map (·.2)) = [] :=
    fun h => Node.faultsOf_of_mem fun n hn => by
      obtain ⟨i, hi, rfl⟩ := List.mem_map.mp hn
      exact h i hi
  have hgiven : ∀ {n m : Node}, n.faults = [] → given? n = some m → m.faults = [] := fun {n m} h hm => by
    cases n <;> cases hm <;> exact h
  induction h with
  | atom h =>
    unfold Parser.atom? at h
    split at h <;> cases h <;> rfl
  | noClause | letNil => rfl
  | grouping _ _ _ ih | primary _ ih | get _ _ _ ih | operand _ ih | unary _ _ ih | single _ ih | assign _ _ _ ih
  | plain _ ih | clause _ _ ih | openingClause _ ih | openingLet _ _ ih | letValue _ _ _ _ ih | function _ _ _ _ _ _ ih
  | letStep _ _ ih | funStep _ _ ih | printStep _ _ _ ih | ifStep _ ih | returnStep _ _ ih | blockStep _ ih
  | expressionStep _ _ ih => exact ih
  | call _ _ _ _ _ ih ihargs => rw [Node.faults, ih, hitems ihargs, List.append_nil]
  | left _ _ hb _ iha ihb | right _ _ hb _ iha ihb =>
    obtain ⟨o, rfl⟩ | ⟨o, rfl⟩ := Level.build?_shape hb
    · rw [Node.faults, iha, ihb, List.append_nil]
    · rw [Node.faults, iha, ihb, List.append_nil]
  | set _ _ _ _ _ ihn ihv => rw [Node.faults, ihn, ihv, List.append_nil]
  | block _ _ _ ih | classStep _ _ _ _ _ ih => exact hitems ih
  | ifThen _ _ _ ihc ihb =>
    rw [Node.faults, ihc, ihb]
    rfl
  | ifElse _ _ _ _ _ ihc ihb ihe | ifElseIf _ _ _ _ _ ihc ihb ihe =>
    rw [Node.faults, ihc, ihb, ihe]
    rfl
  | whileStep _ _ _ ihc ihb => rw [Node.faults, ihc, ihb, List.append_nil]
  | forStep _ _ _ _ _ _ ihi ihc ihs ihb =>
    rw [Node.forLoop_faults _ _ (fun _ => hgiven ihi) (fun _ => hgiven ihc) (fun _ => hgiven ihs), ihb]

end Grammar

namespace Parser

open Grammar

theorem faultsOf_eq_diagnosticsOf {ns : List Node} (h : ∀ n ∈ ns, n.faults = n.diagnostics) :
    Node.faultsOf ns = Node.diagnosticsOf ns := by
  induction ns with
  | nil => rfl
  | cons n ns ih =>
    rw [Node.faultsOf, Node.diagnosticsOf, h n List.mem_cons_self, ih fun m hm => h m (List.mem_cons_of_mem n hm)]

/-- All faults of a parsed tree are in the place of steps. -/
theorem upholds_faults : Upholds (fun _ => True) fun n => n.faults = n.diagnostics := by
  have derived {c : Category} {ts : List Token} {n : Node} (h : Derives c ts n) : n.faults = n.diagnostics :=
    h.faults.trans (Node.diagnostics_of_faultless h.faults).symm
  have hclause : ∀ {c : Category} {ts : List Token} {clause : Node}, Derives c ts clause →
      ∀ n, given? clause = some n → n.faults = [] := fun {_ _ clause} h n hn => by
    cases clause <;> cases hn <;> exact h.faults
  exact {
    derived := fun h _ => derived h
    fault := fun _ => rfl
    absent := rfl
    block := fun _ h => faultsOf_eq_diagnosticsOf h
    function := fun _ _ _ h => h
    classDecl := fun _ _ h => faultsOf_eq_diagnosticsOf h
    ifElse := fun _ hc _ hthen helse => by
      rw [Node.faults, Node.diagnostics, hc.faults, hthen, helse, List.nil_append]
    whileLoop := fun _ hc _ hbody => by
      rw [Node.faults, hc.faults, List.nil_append, hbody]
      rfl
    forLoop := fun {_ _ _ i _ _ body} line hi _ hc _ hs _ hbody => by
      have hinitializer : Node.diagnosticsOf (given? i).toList = [] :=
        diagnosticsOf_of_mem fun n hn => Node.diagnostics_of_faultless (hclause hi n (Option.mem_toList.mp hn))
      rw [Node.forLoop_faults body line (hclause hi) (hclause hc) (hclause hs), hbody,
        forLoop_diagnostics _ body line hinitializer fun n hn => Node.diagnostics_of_faultless (hclause hs n hn)] }

end Parser

/-- Whatever the tokens, the faults of the steps are those that collecting finds. -/
theorem faults_of_parse (tokens : List Token) : Node.faultsOf (parse tokens) = Node.diagnosticsOf (parse tokens) :=
  Parser.faultsOf_eq_diagnosticsOf (Parser.parse_keeps Parser.upholds_faults fun _ _ => trivial)

/-! ## Resolution -/

namespace Node

/-- The tree is the other one with depths for its uses. -/
abbrev WithDepths : Node → Node → Prop := Alike Eq fun _ _ => True

/-- The trees are the others with depths for their uses. -/
abbrev AllWithDepths : List Node → List Node → Prop := AllAlike Eq fun _ _ => True

end Node

namespace Resolve

variable {α β : Type}

/-- A resolution that comes to these diagnostics: it succeeds only if there are none, with an answer in `Q`, and if it
stops at a diagnostic then at the first of them. -/
def Meets (ds : List Diagnostic) (Q : α → Prop) (x : Resolve α) : Prop :=
  ∀ scopes, match x.run scopes with
    | .ok (a, _) => ds = [] ∧ Q a
    | .error (.unread d) => ds.head? = some d
    | .error _ => True

namespace Meets

variable {ds ds' : List Diagnostic} {Q : α → Prop} {R : β → Prop} {x : Resolve α}

theorem pure {a : α} (h : Q a) : Meets [] Q (Pure.pure a : Resolve α) := fun _ => ⟨rfl, h⟩

theorem reject (line : Line) (cause : ResolveCause) : Meets ds Q (reject line cause : Resolve α) := fun _ => trivial

theorem notANode (shape : String) : Meets ds Q (throw (.notANode shape) : Resolve α) := fun _ => trivial

theorem bind {f : α → Resolve β} (hx : Meets ds Q x) (hf : ∀ a, Q a → Meets ds' R (f a)) :
    Meets (ds ++ ds') R (x >>= f) := by
  intro scopes
  have h := hx scopes
  rw [StateT.run_bind]
  cases hr : x.run scopes with
  | ok answer =>
    rw [hr] at h
    obtain ⟨hds, ha⟩ := h
    rw [hds]
    exact hf answer.1 ha answer.2
  | error fault =>
    rw [hr] at h
    cases fault with
    | unread d =>
      cases ds with
      | nil => cases h
      | cons first others => exact h
    | _ => trivial

/-- What comes last comes to none. -/
theorem andLast {f : α → Resolve β} (hx : Meets ds Q x) (hf : ∀ a, Q a → Meets [] R (f a)) : Meets ds R (x >>= f) :=
  List.append_nil ds ▸ hx.bind hf

/-- A resolution that comes to none, whatever it answers. -/
abbrev Quiet (x : Resolve α) : Prop := Meets [] (fun _ => True) x

/-- What comes first comes to none. -/
theorem andThen {f : α → Resolve β} (hx : Quiet x) (hf : ∀ a, Meets ds R (f a)) : Meets ds R (x >>= f) :=
  hx.bind fun a _ => hf a

theorem get : Quiet (get : Resolve Scopes) := fun _ => ⟨rfl, trivial⟩

theorem modify (f : Scopes → Scopes) : Quiet (modify f : Resolve Unit) := fun _ => ⟨rfl, trivial⟩

theorem define (name : String) : Quiet (define name) := .modify _

theorem depthOf (name : String) : Quiet (depthOf name) := fun _ => ⟨rfl, trivial⟩

theorem declare (name : String) (line : Line) : Quiet (declare name line) := by
  refine .andThen .get fun scopes => ?_
  cases scopes.declare name with
  | ok after => exact fun _ => ⟨rfl, trivial⟩
  | error cause => exact .reject line cause

theorem checkReady (name : String) (line : Line) : Quiet (checkReady name line) := by
  refine .andThen .get fun scopes => ?_
  split
  · exact .reject line _
  · exact .pure trivial

theorem checkInClass (inClass : Bool) (line : Line) : Quiet (checkInClass inClass line) := by
  cases inClass with
  | true => exact .pure trivial
  | false => exact .reject line _

theorem inScope (hx : Meets ds Q x) : Meets ds Q (inScope x) :=
  .andThen (.modify _) fun _ => .andLast hx fun _ ha => .andThen (.modify _) fun _ => .pure ha

theorem declareParameters (line : Line) (params : List String) : Quiet (params.forM (declareParameter line)) := by
  induction params with
  | nil => exact .pure trivial
  | cons p params ih => exact .andThen (.andThen (.declare p line) fun _ => .define p) fun _ => ih

end Meets

end Resolve

namespace Node

open Resolve

mutual

theorem resolve_meets (inClass : Bool) : ∀ n : Node, Meets n.faults (WithDepths · n) (n.resolve inClass)
  | .error d => by
    rw [faults, resolve]
    split
    · exact fun _ => rfl
    · exact .notANode _
  | .absent => .pure .absent
  | .literal .. => .pure (.literal rfl)
  | .bare text => .notANode _
  | .block steps _ => .andLast (.inScope (resolveAll_meets inClass steps)) fun _ h => .pure (.block rfl h)
  | .letDecl name initializer line =>
    .andThen (.declare name line) fun _ => .andLast (resolve_meets inClass initializer) fun _ h =>
      .andThen (.define name) fun _ => .pure (.letDecl rfl h)
  | .function name params body line =>
    .andThen (.declare name line) fun _ => .andThen (.define name) fun _ =>
      .andLast (.inScope (.andThen (.declareParameters line params) fun _ => resolve_meets inClass body)) fun _ h =>
        .pure (.function rfl h)
  | .classDecl name methods line =>
    .andThen (.declare name line) fun _ => .andThen (.define name) fun _ =>
      .andLast (.inScope (.andThen (.define "this") fun _ => resolveMethods_meets methods)) fun _ h =>
        .pure (.classDecl rfl h)
  | .print expression _ => .andLast (resolve_meets inClass expression) fun _ h => .pure (.print rfl h)
  | .ifElse condition thenBranch elseBranch _ =>
    .bind (resolve_meets inClass condition) fun _ hc => .bind (resolve_meets inClass thenBranch) fun _ ht =>
      .andLast (resolve_meets inClass elseBranch) fun _ he => .pure (.ifElse rfl hc ht he)
  | .whileLoop condition body _ =>
    .bind (resolve_meets inClass condition) fun _ hc => .andLast (resolve_meets inClass body) fun _ hb =>
      .pure (.whileLoop rfl hc hb)
  | .returnStep value _ => .andLast (resolve_meets inClass value) fun _ h => .pure (.returnStep rfl h)
  | .var name line _ =>
    .andThen (.checkReady name line) fun _ => .andThen (.depthOf name) fun _ => .pure (.var rfl trivial)
  | .assign name value _ _ =>
    .andLast (resolve_meets inClass value) fun _ h => .andThen (.depthOf name) fun _ => .pure (.assign rfl trivial h)
  | .this line _ =>
    .andThen (.checkInClass inClass line) fun _ => .andThen (.depthOf "this") fun _ => .pure (.this rfl trivial)
  | .grouping inner _ => .andLast (resolve_meets inClass inner) fun _ h => .pure (.grouping rfl h)
  | .unary _ operand _ => .andLast (resolve_meets inClass operand) fun _ h => .pure (.unary rfl h)
  | .binary _ left right _ =>
    .bind (resolve_meets inClass left) fun _ ha => .andLast (resolve_meets inClass right) fun _ hb =>
      .pure (.binary rfl ha hb)
  | .logical _ left right _ =>
    .bind (resolve_meets inClass left) fun _ ha => .andLast (resolve_meets inClass right) fun _ hb =>
      .pure (.logical rfl ha hb)
  | .call callee arguments _ =>
    .bind (resolve_meets inClass callee) fun _ h => .andLast (resolveAll_meets inClass arguments) fun _ hargs =>
      .pure (.call rfl h hargs)
  | .get object _ _ => .andLast (resolve_meets inClass object) fun _ h => .pure (.get rfl h)
  | .set object _ value _ =>
    .bind (resolve_meets inClass value) fun _ hv => .andLast (resolve_meets inClass object) fun _ h =>
      .pure (.set rfl h hv)

theorem resolveAll_meets (inClass : Bool) :
    ∀ ns : List Node, Meets (faultsOf ns) (AllWithDepths · ns) (resolveAll inClass ns)
  | [] => .pure .nil
  | n :: ns => .bind (resolve_meets inClass n) fun _ h => .andLast (resolveAll_meets inClass ns) fun _ hns =>
    .pure (.cons h hns)

theorem resolveMethods_meets : ∀ ns : List Node, Meets (faultsOf ns) (AllWithDepths · ns) (resolveMethods ns)
  | [] => .pure .nil
  | .function _ params body line :: methods =>
    .bind (.inScope (.andThen (.declareParameters line params) fun _ => resolve_meets true body)) fun _ h =>
      .andLast (resolveMethods_meets methods) fun _ hns => .pure (.cons (.function rfl h) hns)
  | .literal .. :: _ | .grouping .. :: _ | .unary .. :: _ | .binary .. :: _ | .logical .. :: _ | .var .. :: _
  | .assign .. :: _ | .this .. :: _ | .call .. :: _ | .get .. :: _ | .set .. :: _ | .block .. :: _ | .letDecl .. :: _
  | .print .. :: _ | .ifElse .. :: _ | .whileLoop .. :: _ | .returnStep .. :: _ | .classDecl .. :: _ | .error _ :: _
  | .absent :: _ | .bare _ :: _ => .notANode _

end

end Node

/-- A resolution succeeds only if the steps hold no faults, and then it gives their uses depths; one that stops at a
fault stops at the first. -/
theorem resolve_meets (steps : List Node) : match resolve steps with
    | .ok resolved => Node.faultsOf steps = [] ∧ Node.AllWithDepths resolved steps
    | .error (.unread d) => (Node.faultsOf steps).head? = some d
    | .error _ => True := by
  have h := Node.resolveAll_meets false steps Scopes.initial
  unfold resolve
  cases hr : (Node.resolveAll false steps).run Scopes.initial with
  | ok answer => rwa [hr] at h
  | error fault =>
    rw [hr] at h
    cases fault <;> exact h

end LoxLang
