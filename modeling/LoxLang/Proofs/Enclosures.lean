import LoxLang.Proofs.Alike
import Mathlib.Data.List.Nodup
import Mathlib.Logic.Relation

/-!
# Enclosing scopes

`Place.In program p` says that the node of `p` stands in the program inside the scopes of `p`, the innermost first. Of
every scope around a place, an `Enclosure` knows which names it declares in front of the place, textually, and which
behind it. `WellScoped` collects the rules that a program has to keep to be resolved, and `Place.depthOf` is the depth
that lexical scoping gives to a name. Nothing here goes through the program in any order.
-/

namespace LoxLang

/-! ## Enclosures -/

/-- What makes a scope. -/
inductive ScopeKind
  | program
  | block
  | parameters
  /-- The scope of `this` around the methods of a class. -/
  | receiver
deriving DecidableEq

/-- A scope around a place. -/
structure Enclosure where
  kind : ScopeKind
  /-- The names it declares in front of the place, and by the step that the place is in. -/
  front : List String
  /-- The names it declares by later steps. -/
  behind : List String

/-- The names that steps declare, one behind the other. -/
abbrev Node.stepNames (steps : List Node) : List String := steps.filterMap Node.declares?

theorem Node.stepNames_cons (n : Node) (ns : List Node) : stepNames (n :: ns) = n.declares?.toList ++ stepNames ns := by
  cases h : n.declares? <;> simp [h]

namespace Enclosure

/-- The scope of steps, around what stands in the step between `before` and `after`. -/
def ofSteps (kind : ScopeKind) (before : List Node) (n : Node) (after : List Node) : Enclosure :=
  ⟨kind, Node.stepNames (before ++ [n]), Node.stepNames after⟩

def ofParameters (params : List String) : Enclosure := ⟨.parameters, params, []⟩

def ofReceiver : Enclosure := ⟨.receiver, ["this"], []⟩

/-- The scope declares the name, in front of the place or behind it. -/
def Declares (e : Enclosure) (name : String) : Prop := name ∈ e.front ∨ name ∈ e.behind

end Enclosure

/-! ## Places -/

/-- A node and the scopes around it, the innermost first. -/
structure Place where
  around : List Enclosure
  node : Node

namespace Place

/-- The second place is right inside the first one. -/
inductive Contains : Place → Place → Prop
  | part {around n inner} : inner ∈ n.parts → Contains ⟨around, n⟩ ⟨around, inner⟩
  | initializer {around name init line} : Contains ⟨around, .letDecl name init line⟩ ⟨around, init⟩
  | step {around before n after line} :
      Contains ⟨around, .block (before ++ n :: after) line⟩ ⟨.ofSteps .block before n after :: around, n⟩
  | body {around name params body line} :
      Contains ⟨around, .function name params body line⟩ ⟨.ofParameters params :: around, body⟩
  | method {around name methods line m} : m ∈ methods →
      Contains ⟨around, .classDecl name methods line⟩ ⟨.ofReceiver :: around, m⟩

/-- The second place is the first one, or somewhere inside it. -/
abbrev Inside : Place → Place → Prop := Relation.ReflTransGen Contains

/-- The place is somewhere in the program. -/
def In (program : List Node) (p : Place) : Prop :=
  ∃ before n after, program = before ++ n :: after ∧ Inside ⟨[.ofSteps .program before n after], n⟩ p

/-- How many scopes lie between the place and the nearest one that declares the name in front of it. -/
def depthOf (p : Place) (name : String) : Depth := p.around.findIdx? fun e => decide (name ∈ e.front)

/-- Uses have the depth that the scopes around them give to their names. -/
def Counted (p : Place) : Prop := ∀ name depth, p.node.use? = some (name, depth) → depth = p.depthOf name

end Place

/-! ## Programs that can be resolved -/

/-- The names of the scope that a node opens, apart from `this`. -/
def Node.opened : Node → List String
  | .block steps _ => Node.stepNames steps
  | .function _ params _ _ => params
  | _ => []

/-- The rules for names: a scope declares a name once, no initializer reads its own variable, and `this` stands in
classes. -/
structure WellScoped (program : List Node) : Prop where
  global : (Node.stepNames program).Nodup
  distinct : ∀ p : Place, p.In program → p.node.opened.Nodup
  initializers : ∀ p : Place, p.In program → ∀ name init line, p.node = .letDecl name init line →
    ∀ q, Place.Inside ⟨p.around, init⟩ q → ∀ line depth, q.node ≠ .var name line depth
  receivers : ∀ p : Place, p.In program → ∀ line depth, p.node = .this line depth → ∃ e ∈ p.around, e.kind = .receiver

/-! ## What holds throughout a place -/

/-- The property holds of the place and of every place inside it. -/
def Place.Throughout (G : Place → Prop) (p : Place) : Prop := ∀ q, p.Inside q → G q

/-- The property holds throughout the steps of a scope that declares the names of `front` before them. -/
def StepsThroughout (G : Place → Prop) (kind : ScopeKind) (front : List String) (around : List Enclosure)
    (steps : List Node) : Prop :=
  ∀ before n after, steps = before ++ n :: after →
    Place.Throughout G ⟨⟨kind, front ++ Node.stepNames (before ++ [n]), Node.stepNames after⟩ :: around, n⟩

namespace Place

variable {G H : Place → Prop} {around : List Enclosure}

theorem throughout_iff {p : Place} : p.Throughout G ↔ G p ∧ ∀ q, p.Contains q → q.Throughout G := by
  constructor
  · exact fun h => ⟨h p .refl, fun q hq r hr => h r (.head hq hr)⟩
  · rintro ⟨hp, hinner⟩ r hr
    obtain rfl | ⟨q, hq, hr⟩ := hr.cases_head
    · exact hp
    · exact hinner q hq r hr

theorem Throughout.mono {p : Place} (h : p.Throughout G) (hGH : ∀ q, G q → H q) : p.Throughout H :=
  fun q hq => hGH q (h q hq)

theorem throughout_congr {p : Place} (h : ∀ q, G q ↔ H q) : p.Throughout G ↔ p.Throughout H :=
  ⟨fun hp => hp.mono fun q => (h q).mp, fun hp => hp.mono fun q => (h q).mpr⟩

theorem throughout_and {p : Place} : p.Throughout (fun q => G q ∧ H q) ↔ p.Throughout G ∧ p.Throughout H :=
  ⟨fun h => ⟨h.mono fun _ => And.left, h.mono fun _ => And.right⟩, fun h q hq => ⟨h.1 q hq, h.2 q hq⟩⟩

/-- Nodes that open no scope and declare nothing contain their parts. -/
theorem throughout_parts {n : Node} (hn : n.declares? = none) (hb : ∀ steps line, n ≠ .block steps line) :
    Throughout G ⟨around, n⟩ ↔ G ⟨around, n⟩ ∧ ∀ inner ∈ n.parts, Throughout G ⟨around, inner⟩ := by
  rw [throughout_iff]
  refine and_congr_right fun _ => ⟨fun h inner hi => h _ (.part hi), fun h q hq => ?_⟩
  cases hq with
  | part hi => exact h _ hi
  | step => exact absurd rfl (hb _ _)
  | initializer | body | method => cases hn

theorem throughout_letDecl {name : String} {init : Node} {line : Line} :
    Throughout G ⟨around, .letDecl name init line⟩ ↔
      G ⟨around, .letDecl name init line⟩ ∧ Throughout G ⟨around, init⟩ := by
  rw [throughout_iff]
  refine and_congr_right fun _ => ⟨fun h => h _ .initializer, fun h q hq => ?_⟩
  cases hq with
  | part hi => cases hi
  | initializer => exact h

theorem throughout_function {name : String} {params : List String} {body : Node} {line : Line} :
    Throughout G ⟨around, .function name params body line⟩ ↔
      G ⟨around, .function name params body line⟩ ∧ Throughout G ⟨.ofParameters params :: around, body⟩ := by
  rw [throughout_iff]
  refine and_congr_right fun _ => ⟨fun h => h _ .body, fun h q hq => ?_⟩
  cases hq with
  | part hi => cases hi
  | body => exact h

theorem throughout_classDecl {name : String} {methods : List Node} {line : Line} :
    Throughout G ⟨around, .classDecl name methods line⟩ ↔
      G ⟨around, .classDecl name methods line⟩ ∧ ∀ m ∈ methods, Throughout G ⟨.ofReceiver :: around, m⟩ := by
  rw [throughout_iff]
  refine and_congr_right fun _ => ⟨fun h m hm => h _ (.method hm), fun h q hq => ?_⟩
  cases hq with
  | part hi => cases hi
  | method hm => exact h _ hm

theorem throughout_block {steps : List Node} {line : Line} :
    Throughout G ⟨around, .block steps line⟩ ↔
      G ⟨around, .block steps line⟩ ∧ StepsThroughout G .block [] around steps := by
  rw [throughout_iff]
  refine and_congr_right fun _ => ⟨fun h before n after hs => ?_, fun h q hq => ?_⟩
  · subst hs
    exact h _ .step
  · cases hq with
    | part hi => cases hi
    | step => exact h _ _ _ rfl

/-- What holds everywhere in a program holds throughout its steps. -/
theorem forall_in_iff {program : List Node} :
    (∀ p : Place, p.In program → G p) ↔ StepsThroughout G .program [] [] program :=
  ⟨fun h before n after hs p hp => h p ⟨before, n, after, hs, hp⟩,
    fun h p ⟨before, n, after, hs, hp⟩ => h before n after hs p hp⟩

end Place

theorem stepsThroughout_nil {G : Place → Prop} {kind : ScopeKind} {front : List String} {around : List Enclosure} :
    StepsThroughout G kind front around [] := fun _ _ _ h => by simp at h

theorem stepsThroughout_cons {G : Place → Prop} {kind : ScopeKind} {front : List String} {around : List Enclosure}
    {n : Node} {ns : List Node} :
    StepsThroughout G kind front around (n :: ns) ↔
      Place.Throughout G ⟨⟨kind, front ++ n.declares?.toList, Node.stepNames ns⟩ :: around, n⟩ ∧
        StepsThroughout G kind (front ++ n.declares?.toList) around ns := by
  have hone : ∀ m, Node.stepNames [m] = m.declares?.toList := fun m => by
    rw [Node.stepNames_cons, Node.stepNames, List.filterMap_nil, List.append_nil]
  constructor
  · refine fun h => ⟨?_, fun before m after hs => ?_⟩
    · have hn := h [] n ns rfl
      rwa [List.nil_append, hone] at hn
    · subst hs
      have hm := h (n :: before) m after rfl
      rwa [List.cons_append, Node.stepNames_cons, ← List.append_assoc] at hm
  · rintro ⟨hn, hns⟩ before m after hs
    cases before with
    | nil =>
      obtain ⟨rfl, rfl⟩ := List.cons.inj hs
      rwa [List.nil_append, hone]
    | cons first before =>
      obtain ⟨rfl, rfl⟩ := List.cons.inj hs
      have hm := hns before m after rfl
      rwa [List.append_assoc, ← Node.stepNames_cons, ← List.cons_append] at hm

end LoxLang
