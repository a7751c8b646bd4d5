import LoxLang.Proofs.Decisions
import LoxLang.Proofs.Parsing

/-!
# Resolution follows the rules for names

Every tree that the grammar derives is resolved as `Proofs.Decisions` says of its construct (`Grammar.Derives.law`), so
what can be read is resolved exactly if it is well scoped, and then with the depths of lexical scoping
(`resolve_iff_wellScoped`). A use is left without a depth only if no scope around it declares its name in front of it;
a scope may still declare the name behind it (`declared_behind_of_unresolved`).
-/

namespace LoxLang

/-! ## Trees that can be read -/

theorem ExpressionLaw.literal (v : Value) {line : Line} : ExpressionLaw (.literal v line) :=
  ⟨rfl, fun {_ s _} _ => .literal (Place.good_aboutNames s) v⟩

namespace BranchLaw

variable {a b c : Node} {line : Line}

theorem whileLoop (ha : BranchLaw a) (hb : BranchLaw b) : BranchLaw (.whileLoop a b line) :=
  ⟨rfl, fun hm hs => .whileLoop Place.legal_aboutNames (ha.conforms hm hs) (hb.conforms hm hs)⟩

theorem ifElse (ha : BranchLaw a) (hb : BranchLaw b) (hc : BranchLaw c) : BranchLaw (.ifElse a b c line) :=
  ⟨rfl, fun hm hs =>
    .ifElse Place.legal_aboutNames (ha.conforms hm hs) (hb.conforms hm hs) (hc.conforms hm hs)⟩

end BranchLaw

namespace Grammar

/-- How the trees of a category are resolved. -/
def Category.Law : Category → Node → Prop
  | .opening, n | .letDecl, n | .declaration, n => StepLaw n
  | .function, n => MethodLaw n
  | .block, n | .ifStep, n => BranchLaw n
  | _, n => ExpressionLaw n

theorem Level.law_operand (l : Level) (n : Node) : l.operand.Law n ↔ ExpressionLaw n := by
  cases l <;> rfl

theorem Level.law_build {l : Level} {k : TokenKind} {build : Node → Node → Line → Node} {a b : Node} {line : Line}
    (h : l.build? k = some build) (ha : ExpressionLaw a) (hb : ExpressionLaw b) : ExpressionLaw (build a b line) := by
  obtain ⟨o, rfl⟩ | ⟨o, rfl⟩ := Level.build?_shape h
  · exact ⟨rfl, fun {_ s _} hm => .logical (Place.good_aboutNames s) (ha.conforms hm) (hb.conforms hm)⟩
  · exact ⟨rfl, fun {_ s _} hm => .binary (Place.good_aboutNames s) (ha.conforms hm) (hb.conforms hm)⟩

theorem atom_law {t : Token} {n : Node} (h : Parser.atom? t = some n) : ExpressionLaw n := by
  have hliteral : ∀ v, ExpressionLaw (.literal v t.line) := fun v =>
    ⟨rfl, fun {_ s _} _ => .literal (Place.good_aboutNames s) v⟩
  unfold Parser.atom? at h
  split at h <;> cases h
  · exact hliteral _
  · exact hliteral _
  · exact hliteral _
  · exact hliteral _
  · exact hliteral _
  · exact ⟨rfl, .var⟩
  · exact ⟨rfl, .this⟩

theorem forLoop_law {i c s b : Node} {line : Line} (hi : StepLaw i) (hc : ExpressionLaw c) (hs : ExpressionLaw s)
    (hb : BranchLaw b) : BranchLaw (Node.forLoop (given? i) (given? c) (given? s) b line) := by
  have hgiven : ∀ {n m : Node}, given? n = some m → n = m := fun {n m} h => by
    cases n <;> cases h <;> rfl
  have hcondition : ExpressionLaw ((given? c).getD (.literal (.bool true) line)) := by
    cases hcase : given? c with
    | none => exact .literal _
    | some m => exact hgiven hcase ▸ hc
  have hloop {round : Node} (hround : BranchLaw round) :
      BranchLaw (.block ((given? i).toList ++ [.whileLoop ((given? c).getD (.literal (.bool true) line)) round line])
        line) := by
    refine .block fun n hn => ?_
    obtain hn | hn := List.mem_append.mp hn
    · obtain rfl := hgiven (Option.mem_toList.mp hn)
      exact hi
    · obtain rfl := List.mem_singleton.mp hn
      exact (BranchLaw.whileLoop hcondition.branch hround).step
  unfold Node.forLoop
  cases hcase : given? s with
  | none => exact hloop hb
  | some m =>
    obtain rfl := hgiven hcase
    exact hloop (.block (List.forall_mem_cons.mpr ⟨hb.step, List.forall_mem_singleton.mpr hs.branch.step⟩))

/-- Trees that derive are resolved as their category demands. -/
theorem Derives.law {c : Category} {ts : List Token} {n : Node} (h : Derives c ts n) : c.Law n := by
  induction h with
  | atom h => exact atom_law h
  | grouping _ _ _ ih => exact ⟨rfl, fun {_ s _} hm => .grouping (Place.good_aboutNames s) (ih.conforms hm)⟩
  | primary _ ih | operand _ ih | plain _ ih | openingLet _ _ ih | letStep _ _ ih => exact ih
  | call _ _ _ _ _ ih ihargs =>
    refine ⟨rfl, fun {_ s _} hm => .call (Place.good_aboutNames s) (ih.conforms hm) fun a ha => ?_⟩
    obtain ⟨i, hi, rfl⟩ := List.mem_map.mp ha
    exact (ihargs i hi).conforms hm
  | get _ _ _ ih => exact ⟨rfl, fun {_ s _} hm => .get (Place.good_aboutNames s) (ih.conforms hm)⟩
  | unary _ _ ih => exact ⟨rfl, fun {_ s _} hm => .unary (Place.good_aboutNames s) (ih.conforms hm)⟩
  | @single l _ n _ ih => exact (l.law_operand n).mp ih
  | @left l _ _ _ _ _ b _ _ hb _ iha ihb => exact l.law_build hb iha ((l.law_operand b).mp ihb)
  | @right l _ a _ _ _ _ _ _ hb _ iha ihb => exact l.law_build hb ((l.law_operand a).mp iha) ihb
  | assign _ _ _ ih => exact ⟨rfl, fun {_ s _} hm => .assign (Place.good_aboutNames s) hm (ih.conforms hm)⟩
  | set _ _ _ _ _ ihn ihv =>
    exact ⟨rfl, fun {_ s _} hm => .set (Place.good_aboutNames s) (ihn.conforms hm) (ihv.conforms hm)⟩
  | noClause => exact ⟨rfl, fun {_ s _} _ => .absent (Place.good_aboutNames s)⟩
  | clause _ _ ih => exact ih
  | openingClause _ ih | expressionStep _ _ ih => exact ih.branch.step
  | letNil => exact .letDecl ⟨rfl, fun {_ s _} _ => .literal (Place.good_aboutNames s) _⟩
  | letValue _ _ _ _ ih => exact .letDecl ih
  | function _ _ _ _ _ _ ih => exact ⟨_, _, _, _, rfl, ih⟩
  | block _ _ _ ih =>
    refine .block fun n hn => ?_
    obtain ⟨i, hi, rfl⟩ := List.mem_map.mp hn
    exact ih i hi
  | ifThen _ _ _ ihc ihb => exact .ifElse ihc.branch ihb ⟨rfl, fun _ _ => .absent Place.legal_aboutNames⟩
  | ifElse _ _ _ _ _ ihc ihb ihe | ifElseIf _ _ _ _ _ ihc ihb ihe => exact .ifElse ihc.branch ihb ihe
  | funStep _ _ ih =>
    obtain ⟨_, _, _, _, rfl, hbody⟩ := ih
    exact .function hbody
  | classStep _ _ _ _ _ ih =>
    refine .classDecl fun m hm => ?_
    obtain ⟨i, hi, rfl⟩ := List.mem_map.mp hm
    exact ih i hi
  | printStep _ _ _ ih =>
    exact BranchLaw.step ⟨rfl, fun hm hs => .print Place.legal_aboutNames (ih.branch.conforms hm hs)⟩
  | ifStep _ ih | blockStep _ ih => exact ih.step
  | whileStep _ _ _ ihc ihb => exact (BranchLaw.whileLoop ihc.branch ihb).step
  | forStep _ _ _ _ _ _ ihi ihc ihs ihb => exact (forLoop_law ihi ihc ihs ihb).step
  | returnStep _ _ ih =>
    exact BranchLaw.step ⟨rfl, fun hm hs => .returnStep Place.legal_aboutNames (ih.branch.conforms hm hs)⟩

theorem Program.law {ts : List Token} {ns : List Node} (h : Program ts ns) : ∀ n ∈ ns, StepLaw n := by
  obtain ⟨items, hi, rfl, rfl⟩ := h
  intro n hn
  obtain ⟨i, hmem, rfl⟩ := List.mem_map.mp hn
  exact (hi i hmem).law

end Grammar

/-! ## Resolution of what can be read -/

/-- What is read without an error is resolved exactly if it is well scoped. Resolution then changes nothing but depths:
every use has the number of scopes between it and the nearest one that declares its name in front of it, and none
where no scope does. -/
theorem resolve_iff_wellScoped {tokens : List Token} (h : Node.diagnosticsOf (parse tokens) = []) :
    ((∃ resolved, resolve (parse tokens) = .ok resolved) ↔ WellScoped (parse tokens)) ∧
      ∀ resolved, resolve (parse tokens) = .ok resolved → Node.AllResolve resolved (parse tokens) ∧
        ∀ p : Place, p.In resolved → ∀ name depth, p.node.use? = some (name, depth) → depth = p.depthOf name :=
  resolve_decides (Grammar.program_sound h).law

/-- A method that reads its parameter, `this` and its class. -/
def classText : String := "class C \x7b get(n) \x7b let c = n; print this; return C; \x7d \x7d"

theorem diagnosticsOf_classText : Node.diagnosticsOf (parse (Scan.of classText).tokens) = [] := by cbv

theorem exists_resolve_classText : ∃ resolved, resolve (parse (Scan.of classText).tokens) = .ok resolved := by
  have hsome : (resolve (parse (Scan.of classText).tokens)).toOption.isSome = true := by cbv
  cases hr : resolve (parse (Scan.of classText).tokens) with
  | ok resolved => exact ⟨resolved, rfl⟩
  | error fault => rw [hr] at hsome; cases hsome

/-- A class with a method is well scoped, and its uses have the depths of lexical scoping. -/
theorem classText_wellScoped : WellScoped (parse (Scan.of classText).tokens) ∧
    ∃ resolved, resolve (parse (Scan.of classText).tokens) = .ok resolved ∧
      Node.AllResolve resolved (parse (Scan.of classText).tokens) ∧
      ∀ p : Place, p.In resolved → ∀ name depth, p.node.use? = some (name, depth) → depth = p.depthOf name := by
  obtain ⟨hiff, hcounted⟩ := resolve_iff_wellScoped diagnosticsOf_classText
  obtain ⟨resolved, hr⟩ := exists_resolve_classText
  exact ⟨hiff.mp ⟨resolved, hr⟩, resolved, hr, hcounted resolved hr⟩

/-! ## Steps that could not be read -/

mutual

theorem Node.resolve_diagnostics (inClass : Bool) : ∀ (n : Node) (s : Scopes),
    (n.resolve inClass).Yields s fun _ _ => n.diagnostics = []
  | .error _, s => by rw [resolve]; exact .throw _
  | .block steps _, s => by
    rw [resolve]
    refine .bind (.inScope (fun s => resolveAll_diagnostics inClass steps s) s) fun _ _ hsteps => .pure ?_
    rwa [diagnostics]
  | .ifElse condition thenBranch elseBranch _, s => by
    rw [resolve]
    refine .bind_any fun _ s => .bind (resolve_diagnostics inClass thenBranch s) fun _ s hthen =>
      .bind (resolve_diagnostics inClass elseBranch s) fun _ _ helse => .pure ?_
    rw [diagnostics, hthen, helse, List.append_nil]
  | .whileLoop condition body _, s => by
    rw [resolve]
    refine .bind_any fun _ s => .bind (resolve_diagnostics inClass body s) fun _ _ hbody => .pure ?_
    rwa [diagnostics]
  | .function _ _ body _, s => by
    rw [resolve]
    refine .bind_any fun _ s => .bind_any fun _ s => .bind (.inScope (fun s => .bind_any fun _ s =>
      resolve_diagnostics inClass body s) s) fun _ _ hbody => .pure ?_
    rwa [diagnostics]
  | .classDecl _ methods _, s => by
    rw [resolve]
    refine .bind_any fun _ s => .bind_any fun _ s => .bind (.inScope (fun s => .bind_any fun _ s =>
      resolveMethods_diagnostics methods s) s) fun _ _ hmethods => .pure ?_
    rwa [diagnostics]
  | .literal .., _ | .grouping .., _ | .unary .., _ | .binary .., _ | .logical .., _ | .var .., _ | .assign .., _
  | .this .., _ | .call .., _ | .get .., _ | .set .., _ | .letDecl .., _ | .print .., _ | .returnStep .., _ | .absent, _
  | .bare _, _ => fun _ _ _ => rfl

theorem Node.resolveAll_diagnostics (inClass : Bool) : ∀ (ns : List Node) (s : Scopes),
    (resolveAll inClass ns).Yields s fun _ _ => diagnosticsOf ns = []
  | [], _ => fun _ _ _ => rfl
  | n :: ns, s => by
    rw [resolveAll]
    refine .bind (resolve_diagnostics inClass n s) fun _ s hn => .bind (resolveAll_diagnostics inClass ns s)
      fun _ _ hns => .pure ?_
    rw [diagnosticsOf, hn, hns, List.append_nil]

theorem Node.resolveMethods_diagnostics : ∀ (ns : List Node) (s : Scopes),
    (resolveMethods ns).Yields s fun _ _ => diagnosticsOf ns = []
  | [], _ => fun _ _ _ => rfl
  | n :: ns, s => by
    cases n with
    | function _ _ body _ =>
      rw [resolveMethods]
      refine .bind (.inScope (fun s => .bind_any fun _ s => resolve_diagnostics true body s) s) fun _ s hbody =>
        .bind (resolveMethods_diagnostics ns s) fun _ _ hns => .pure ?_
      rw [diagnosticsOf, diagnostics, hbody, hns, List.append_nil]
    | _ => exact .throw _

end

/-- Resolution stops at a step that could not be read. -/
theorem diagnosticsOf_of_resolve {program resolved : List Node} (h : resolve program = .ok resolved) :
    Node.diagnosticsOf program = [] := by
  unfold resolve at h
  cases hrun : (Node.resolveAll false program).run Scopes.initial with
  | error fault => rw [hrun] at h; cases h
  | ok result => exact Node.resolveAll_diagnostics false program _ _ _ hrun

/-! ## Names that are left to be searched for -/

namespace Place

/-- Only steps declare a name behind a place. -/
theorem kind_of_behind {p q : Place} (h : p.Inside q)
    (hp : ∀ e ∈ p.around, e.behind ≠ [] → e.kind = .program ∨ e.kind = .block) :
    ∀ e ∈ q.around, e.behind ≠ [] → e.kind = .program ∨ e.kind = .block := by
  induction h with
  | refl => exact hp
  | tail _ hstep ih =>
    cases hstep with
    | part | initializer => exact ih
    | step => exact List.forall_mem_cons.mpr ⟨fun _ => .inr rfl, ih⟩
    | body | method => exact List.forall_mem_cons.mpr ⟨fun h => absurd rfl h, ih⟩

end Place

/-- A use without a depth has a name that no scope around it declares in front of it. Where a scope declares the name
at all, it is that of the program or of a block, and declares it behind the step that the use is in. -/
theorem declared_behind_of_unresolved {tokens : List Token} {resolved : List Node}
    (hr : resolve (parse tokens) = .ok resolved) {p : Place} (hp : p.In resolved) {name : String}
    (hu : p.node.use? = some (name, none)) : ∀ e ∈ p.around, name ∉ e.front ∧
      (e.Declares name → name ∈ e.behind ∧ (e.kind = .program ∨ e.kind = .block)) := by
  intro e he
  have hdepth := ((resolve_decides (Grammar.program_sound (diagnosticsOf_of_resolve hr)).law).2 resolved hr).2 p hp
    name none hu
  have hfront : name ∉ e.front := by
    simpa using List.findIdx?_eq_none_iff.mp hdepth.symm e he
  refine ⟨hfront, fun hdecl => ?_⟩
  have hbehind := hdecl.resolve_left hfront
  obtain ⟨before, n, after, -, hinside⟩ := hp
  exact ⟨hbehind, Place.kind_of_behind hinside (by simp [Enclosure.ofSteps]) e he (List.ne_nil_of_mem hbehind)⟩

/-- A function that uses a variable which is declared behind it. -/
def earlyUse : String := "fun f() \x7b return x; \x7d\nlet x = nil;"

/-- The function of the text. -/
def earlyFunction : Node := .function "f" [] (.block [.returnStep (.var "x" 1 none) 1] 1) 1

theorem resolve_earlyUse : resolve (parse (Scan.of earlyUse).tokens) =
    .ok [earlyFunction, .letDecl "x" (.literal .nil 2) 2] := by cbv

/-- The use of the variable, inside a block, the parameters of the function and the program. -/
def earlyPlace : Place :=
  ⟨[.ofSteps .block [] (.returnStep (.var "x" 1 none) 1) [], .ofParameters [],
    .ofSteps .program [] earlyFunction [.letDecl "x" (.literal .nil 2) 2]], .var "x" 1 none⟩

theorem earlyPlace_in : earlyPlace.In [earlyFunction, .letDecl "x" (.literal .nil 2) 2] :=
  ⟨[], _, _, rfl, .head .body (.head (@Place.Contains.step _ [] _ [] _) (.single (.part List.mem_cons_self)))⟩

/-- The use has no depth, though the global scope declares its name. -/
theorem earlyUse_unresolved : ¬ ∀ resolved, resolve (parse (Scan.of earlyUse).tokens) = .ok resolved →
    ∀ p : Place, p.In resolved → ∀ name, p.node.use? = some (name, none) → ∀ e ∈ p.around, ¬ e.Declares name := by
  intro h
  have hglobal : Enclosure.ofSteps .program [] earlyFunction [.letDecl "x" (.literal .nil 2) 2] ∈ earlyPlace.around :=
    List.mem_of_getLast? rfl
  exact h _ resolve_earlyUse earlyPlace earlyPlace_in "x" rfl _ hglobal (.inr (by decide))

/-- The global scope declares the name of the use behind it. -/
theorem earlyUse_declared_behind : resolve (parse (Scan.of earlyUse).tokens) =
      .ok [earlyFunction, .letDecl "x" (.literal .nil 2) 2] ∧
    earlyPlace.In [earlyFunction, .letDecl "x" (.literal .nil 2) 2] ∧ ∀ e ∈ earlyPlace.around, "x" ∉ e.front ∧
      (e.Declares "x" → "x" ∈ e.behind ∧ (e.kind = .program ∨ e.kind = .block)) :=
  ⟨resolve_earlyUse, earlyPlace_in, declared_behind_of_unresolved resolve_earlyUse earlyPlace_in rfl⟩

end LoxLang
