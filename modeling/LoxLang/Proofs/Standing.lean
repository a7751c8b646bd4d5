import LoxLang.Proofs.Alike
import LoxLang.Proofs.Resolution
import Mathlib.Logic.Relation

/-!
# Places in a resolved program

Wherever a step stands in a program that is its own twin, it is its own twin, and all names in the layers around it are
ready (`Within.standing`). Only in the initializer of a `let` there is a name that is not: that of the `let`.
-/

namespace LoxLang

/-- The second node is the first one, or a part of it at any depth. -/
abbrev Node.Inside : Node → Node → Prop := Relation.ReflTransGen fun n inner => inner ∈ n.parts

/-- What is known of steps where they stand in a program. -/
inductive Standing (program : List Node) : List Layer → List Node → Prop
  | steps {layers ns} : TwinSteps .same layers ns ns → Settled layers → Standing program layers ns
  /-- In the initializer of a `let` the name of the `let` is not ready. -/
  | initializer {name init line outer n} : Stands [program] outer (.letDecl name init line) → Settled outer →
      init.Inside n → Twin .same (mark outer name false) n n → Standing program (mark outer name false) [n]
  /-- Where a branch or a value is left out. -/
  | nothing {layers ns} : (∀ n ∈ ns, n = .absent) → Standing program layers ns

/-- The depth of a resolved use is what resolution counts. -/
theorem Twin.resolved {layers : List Layer} {n : Node} (h : Twin .same layers n n) {name : String} {d : Depth}
    (hn : n.use? = some (name, d)) : d = (scopesOf layers).depthOf? name := by
  cases h with
  | var _ hd | this _ hd => cases hn; exact hd.resolved
  | assign _ _ hd => cases hn; exact hd.resolved
  | _ => cases hn

/-- The parts of an expression are expressions. -/
theorem Twin.part {layers : List Layer} {n inner : Node} (h : Twin .same layers n n) (hi : inner ∈ n.parts) :
    Twin .same layers inner inner := by
  have hall : ∀ ns : List Node, TwinAll .same layers ns ns → inner ∈ ns → Twin .same layers inner inner := by
    intro ns
    induction ns with
    | nil => exact fun _ hi => by cases hi
    | cons m ns ih =>
      intro h hi
      cases h with
      | cons hm hns =>
        obtain rfl | hi := List.mem_cons.mp hi
        · exact hm
        · exact ih hns hi
  cases h with
  | literal | var | this => cases hi
  | grouping _ hn | unary _ hn | assign _ hn | get _ hn =>
    obtain rfl := List.mem_singleton.mp hi
    exact hn
  | binary _ ha hb | logical _ ha hb | set _ ha hb =>
    simp only [Node.parts, List.mem_cons, List.not_mem_nil, or_false] at hi
    obtain rfl | rfl := hi
    · exact ha
    · exact hb
  | call _ hn hargs =>
    obtain rfl | hi := List.mem_cons.mp hi
    · exact hn
    · exact hall _ hargs hi

/-- The parts of a step are steps or expressions, or are left out. -/
theorem TwinStep.part {layers : List Layer} {n inner : Node} (h : TwinStep .same layers n n) (hi : inner ∈ n.parts) :
    TwinStep .same layers inner inner ∨ inner = .absent := by
  cases h with
  | expression h => exact .inl (.expression (h.part hi))
  | block | letDecl | function | classDecl => cases hi
  | print _ hn | returnValue _ hn =>
    obtain rfl := List.mem_singleton.mp hi
    exact .inl (.expression hn)
  | returnNil => exact .inr (List.mem_singleton.mp hi)
  | ifThen _ hc ht =>
    simp only [Node.parts, List.mem_cons, List.not_mem_nil, or_false] at hi
    obtain rfl | rfl | rfl := hi
    · exact .inl (.expression hc)
    · exact .inl ht
    · exact .inr rfl
  | ifElse _ hc ht he =>
    simp only [Node.parts, List.mem_cons, List.not_mem_nil, or_false] at hi
    obtain rfl | rfl | rfl := hi
    · exact .inl (.expression hc)
    · exact .inl ht
    · exact .inl he
  | whileLoop _ hc hb =>
    simp only [Node.parts, List.mem_cons, List.not_mem_nil, or_false] at hi
    obtain rfl | rfl := hi
    · exact .inl (.expression hc)
    · exact .inl hb

theorem TwinStep.declarable {layers : List Layer} {n : Node} (h : TwinStep .same layers n n) {name : String}
    (hd : n.declares? = some name) : Declarable layers name := by
  cases h with
  | letDecl _ h | function _ h | classDecl _ h => cases hd; exact h.declarable
  | expression h => cases h <;> cases hd
  | _ => cases hd

theorem TwinMethods.body {layers : List Layer} {methods : List Node} (h : TwinMethods .same layers methods methods)
    {name : String} {params : List String} {body : Node} {line : Line}
    (hm : .function name params body line ∈ methods) :
    TwinStep .same (Layer.ofParameters name params body :: layers) body body := by
  induction methods with
  | nil => cases hm
  | cons m methods ih =>
    cases h with
    | cons _ _ hb hrest =>
      obtain hm | hm := List.mem_cons.mp hm
      · cases hm
        exact hb
      · exact ih hrest hm

namespace Standing

variable {program : List Node} {layers : List Layer} {n : Node} {ns : List Node}

/-- A place that holds a step other than an expression is not in an initializer. -/
theorem step (h : Standing program layers (n :: ns)) (hn : ∀ layers', ¬ Twin .same layers' n n) (ha : n ≠ .absent) :
    TwinStep .same layers n n ∧ Settled layers := by
  cases h with
  | steps h hl =>
    cases h with
    | cons h => exact ⟨h, hl⟩
  | initializer _ _ _ h => exact absurd h (hn _)
  | nothing h => exact absurd (h n List.mem_cons_self) ha

theorem next (h : Standing program layers (n :: ns)) : Standing program (behind layers n) ns := by
  cases h with
  | steps h hl =>
    cases h with
    | cons h hns => exact .steps hns (hl.behind fun _ => h.declarable)
  | initializer => exact .nothing fun _ h => by cases h
  | nothing h => exact .nothing fun m hm => h m (List.mem_cons_of_mem n hm)

theorem part (h : Standing program layers (n :: ns)) {inner : Node} (hi : inner ∈ n.parts) :
    Standing program layers [inner] := by
  cases h with
  | steps h hl =>
    cases h with
    | cons h =>
      obtain h | rfl := h.part hi
      · exact .steps (.cons h .nil) hl
      · exact .nothing fun m hm => List.mem_singleton.mp hm
  | initializer hs hl hinside h => exact .initializer hs hl (hinside.tail hi) (h.part hi)
  | nothing h =>
    rw [h n List.mem_cons_self] at hi
    cases hi

end Standing

/-- What a resolved program holds is resolved where it stands. -/
theorem Within.standing {program : List Node} (hp : TwinSteps .same [⟨.program, []⟩] program program)
    {layers : List Layer} {ns : List Node} (h : Within program layers ns) : Standing program layers ns := by
  -- on the way into the program: every step inward stays inside what was resolved, with the layers it was resolved in
  induction h with
  | program =>
    refine .steps hp fun layer hl name b hb => ?_
    rw [List.mem_singleton.mp hl] at hb
    cases hb
  | next _ ih => exact ih.next
  | part _ hi ih => exact ih.part hi
  | initializer hw ih =>
    obtain ⟨h, hl⟩ := ih.step (fun _ h => by cases h) (by simp)
    cases h with
    | expression h => cases h
    | letDecl _ hd hn => exact .initializer ⟨program, List.mem_cons_self, _, hw⟩ hl .refl hn
  | block _ ih =>
    obtain ⟨h, hl⟩ := ih.step (fun _ h => by cases h) (by simp)
    cases h with
    | expression h => cases h
    | block _ hs => exact .steps hs (hl.cons fun _ _ hb => by cases hb)
  | body _ ih =>
    obtain ⟨h, hl⟩ := ih.step (fun _ h => by cases h) (by simp)
    cases h with
    | expression h => cases h
    | function _ hd _ hb =>
      exact .steps (.cons hb .nil) ((hl.mark_ready hd.declarable).cons fun _ _ => Layer.get?_ofParameters _ _)
  | method _ hm ih =>
    obtain ⟨h, hl⟩ := ih.step (fun _ h => by cases h) (by simp)
    cases h with
    | expression h => cases h
    | classDecl _ hd hmethods =>
      exact .steps (.cons (hmethods.body hm) .nil)
        (((hl.mark_ready hd.declarable).receiver _).cons fun _ _ => Layer.get?_ofParameters _ _)

/-- A use in a resolved program is resolved where it stands. -/
theorem Stands.twin {program : List Node} {layers : List Layer} {n : Node} (h : Stands [program] layers n)
    (hp : TwinSteps .same [⟨.program, []⟩] program program) {use : String × Depth} (hn : n.use? = some use) :
    Twin .same layers n n := by
  obtain ⟨program', hmem, ns, hw⟩ := h
  obtain rfl := List.mem_singleton.mp hmem
  cases hw.standing hp with
  | steps h =>
    cases h with
    | cons h =>
      cases h with
      | expression h => exact h
      | _ => cases hn
  | initializer _ _ _ h => exact h
  | nothing h =>
    rw [h n List.mem_cons_self] at hn
    cases hn

/-- Where the depth of a use counts to, the name is ready, or the use stands in the initializer of a `let` of the
name. -/
theorem Stands.ready_or_initializer {program : List Node} {layers : List Layer} {n : Node}
    (h : Stands [program] layers n) (hp : TwinSteps .same [⟨.program, []⟩] program program) {name : String} {i : Nat}
    (hn : n.use? = some (name, some i)) :
    ReadyAt layers name i ∨ i = 0 ∧ ∃ outer init line,
      Stands [program] outer (.letDecl name init line) ∧ init.Inside n := by
  have hdepth := ((h.twin hp hn).resolved hn).symm
  obtain ⟨layer, b, hl, hb⟩ := layer_of_depthOf? hdepth
  obtain ⟨program', hmem, ns, hw⟩ := h
  obtain rfl := List.mem_singleton.mp hmem
  cases hw.standing hp with
  | steps _ hsettled =>
    rw [(hsettled layer (List.mem_of_getElem? hl) name b hb).1] at hb
    exact .inl ⟨layer, hl, hb⟩
  | nothing h =>
    rw [h n List.mem_cons_self] at hn
    cases hn
  | @initializer _ init line outer _ hlet hsettled hinside _ =>
    obtain ⟨rfl, -, old, rest, rfl, -⟩ | ⟨old, hold, -, hget⟩ := get?_of_mem_mark (List.mem_of_getElem? hl) hb
    · have hnearest : i = 0 := by
        rw [scopesOf_mark] at hdepth
        simpa [Scopes.mark, Scopes.depthOf?, List.findIdx?_cons, eq_comm] using hdepth
      exact .inr ⟨hnearest, _, init, line, hlet, hinside⟩
    · rw [(hsettled old hold name b hget).1] at hb
      exact .inl ⟨layer, hl, hb⟩

end LoxLang
