import LoxLang.Binding
import LoxLang.Proofs.Table

/-!
# Places in a program

Between a node of a program and the program itself stand the constructs that open scopes: the program, blocks, the
parameters of functions and the instances of classes. `Within program layers (n :: ns)` says that `n`, with `ns` behind
it in the same scope, stands in the program inside these layers, the innermost first. A layer knows the construct that
opens it, and which names are declared in it in front of the place.
-/

namespace LoxLang

/-- What opens a scope. -/
inductive Opening
  | program
  | block (steps : List Node) (line : Line)
  | parameters (name : String) (params : List String) (body : Node)
  /-- The scope of `this` around the methods of a class. -/
  | receiver (methods : List Node)

/-- The name that a step declares in the scope it stands in. -/
def Node.declares? : Node → Option String
  | .letDecl name .. | .function name .. | .classDecl name .. => some name
  | _ => none

/-- Whether the construct declares the name in its scope, in front of a place or behind it. The global scope is open to
every name. -/
def Opening.Declares : Opening → String → Prop
  | program, _ => True
  | block steps _, name => ∃ n ∈ steps, n.declares? = some name
  | parameters _ params _, name => name ∈ params
  | receiver _, name => name = "this"

/-- A scope around a place: what opens it, and its names in front of the place. -/
structure Layer where
  opening : Opening
  names : Scope

namespace Layer

/-- The scope of the parameters of a function. -/
def ofParameters (name : String) (params : List String) (body : Node) : Layer :=
  ⟨.parameters name params body, params.foldl (fun names p => names.set p true) []⟩

/-- The scope of parameters holds them and nothing else, and all of them are ready. -/
theorem get?_ofParameters (name : String) {params : List String} (body : Node) {p : String} {b : Bool}
    (h : (ofParameters name params body).names.get? p = some b) : b = true ∧ p ∈ params := by
  suffices ∀ names : Scope, (params.foldl (fun names p => names.set p true) names).get? p = some b →
      b = true ∧ p ∈ params ∨ names.get? p = some b from (this [] h).resolve_right fun h => by cases h
  clear h
  induction params with
  | nil => exact fun names h => .inr h
  | cons q params ih =>
    intro names h
    obtain ⟨hb, h⟩ | h := ih _ h
    · exact .inl ⟨hb, List.mem_cons_of_mem q h⟩
    · rw [Table.get?_set] at h
      split at h
      · next hq => cases h; exact .inl ⟨rfl, hq ▸ List.mem_cons_self⟩
      · exact .inr h

/-- The scope of `this`. -/
def ofReceiver (methods : List Node) : Layer := ⟨.receiver methods, [("this", true)]⟩

end Layer

/-- The layers with a name marked in the innermost one. -/
def mark (layers : List Layer) (name : String) (ready : Bool) : List Layer :=
  match layers with
  | [] => []
  | layer :: outer => ⟨layer.opening, layer.names.set name ready⟩ :: outer

/-- The layers behind a step. -/
def behind (layers : List Layer) (n : Node) : List Layer :=
  match n.declares? with
  | some name => mark layers name true
  | none => layers

/-- The layers behind steps. -/
abbrev behindAll (layers : List Layer) (ns : List Node) : List Layer := ns.foldl behind layers

/-- The parts of a node that stand in its own scope, apart from the initializer of a `let`. -/
def Node.parts : Node → List Node
  | .grouping inner _ | .unary _ inner _ | .assign _ inner _ _ | .get inner _ _ | .print inner _
  | .returnStep inner _ => [inner]
  | .binary _ left right _ | .logical _ left right _ | .set left _ right _ | .whileLoop left right _ => [left, right]
  | .ifElse condition thenBranch elseBranch _ => [condition, thenBranch, elseBranch]
  | .call callee arguments _ => callee :: arguments
  | _ => []

/-- The steps stand in the program, one behind the other, inside the layers. -/
inductive Within (program : List Node) : List Layer → List Node → Prop
  | program : Within program [⟨.program, []⟩] program
  | next {layers n ns} : Within program layers (n :: ns) → Within program (behind layers n) ns
  | part {layers n ns inner} : Within program layers (n :: ns) → inner ∈ n.parts → Within program layers [inner]
  | initializer {layers name init line ns} : Within program layers (.letDecl name init line :: ns) →
      Within program (mark layers name false) [init]
  | block {layers steps line ns} : Within program layers (.block steps line :: ns) →
      Within program (⟨.block steps line, []⟩ :: layers) steps
  | body {layers name params body line ns} : Within program layers (.function name params body line :: ns) →
      Within program (Layer.ofParameters name params body :: mark layers name true) [body]
  | method {layers className methods line ns name params body line'} :
      Within program layers (.classDecl className methods line :: ns) → .function name params body line' ∈ methods →
      Within program (Layer.ofParameters name params body :: Layer.ofReceiver methods :: mark layers className true)
        [body]

/-- A node that stands in one of the programs inside the layers. -/
def Stands (programs : List (List Node)) (layers : List Layer) (n : Node) : Prop :=
  ∃ program ∈ programs, ∃ ns, Within program layers (n :: ns)

/-- Steps that stand in one of the programs inside the layers, one behind the other. -/
def StandTogether (programs : List (List Node)) (layers : List Layer) (ns : List Node) : Prop :=
  ∃ program ∈ programs, Within program layers ns

namespace StandTogether

variable {programs : List (List Node)} {layers : List Layer} {n : Node} {ns : List Node}

theorem head (h : StandTogether programs layers (n :: ns)) : Stands programs layers n :=
  let ⟨program, hp, hw⟩ := h
  ⟨program, hp, ns, hw⟩

theorem tail (h : StandTogether programs layers (n :: ns)) : StandTogether programs (behind layers n) ns :=
  let ⟨program, hp, hw⟩ := h
  ⟨program, hp, hw.next⟩

end StandTogether

namespace Stands

variable {programs : List (List Node)} {layers : List Layer}

theorem part {n inner : Node} (h : Stands programs layers n) (hi : inner ∈ n.parts) : Stands programs layers inner :=
  let ⟨program, hp, _, hw⟩ := h
  ⟨program, hp, [], hw.part hi⟩

theorem initializer {name : String} {init : Node} {line : Line} (h : Stands programs layers (.letDecl name init line)) :
    Stands programs (mark layers name false) init :=
  let ⟨program, hp, _, hw⟩ := h
  ⟨program, hp, [], hw.initializer⟩

theorem block {steps : List Node} {line : Line} (h : Stands programs layers (.block steps line)) :
    StandTogether programs (⟨.block steps line, []⟩ :: layers) steps :=
  let ⟨program, hp, _, hw⟩ := h
  ⟨program, hp, hw.block⟩

theorem body {name : String} {params : List String} {body : Node} {line : Line}
    (h : Stands programs layers (.function name params body line)) :
    Stands programs (Layer.ofParameters name params body :: mark layers name true) body :=
  let ⟨program, hp, _, hw⟩ := h
  ⟨program, hp, [], hw.body⟩

theorem method {className : String} {methods : List Node} {line line' : Line} {name : String} {params : List String}
    {body : Node} (h : Stands programs layers (.classDecl className methods line))
    (hm : .function name params body line' ∈ methods) :
    Stands programs (Layer.ofParameters name params body :: Layer.ofReceiver methods :: mark layers className true)
      body :=
  let ⟨program, hp, _, hw⟩ := h
  ⟨program, hp, [], hw.method hm⟩

end Stands

end LoxLang
