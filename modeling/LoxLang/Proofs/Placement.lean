import LoxLang.Proofs.Invariants
import LoxLang.Proofs.Renumbering

/-!
# Where a run may fail

The lines that a run takes over are those of the trees that it executes. A renumbering may leave all of them in place
(`Node.renumber f n = n`); then the line of every fault stays in place as well, with one exception: `println` prints on
line 0, and an output that refuses it fails there. This is an invariant of machines (`Machine.Placed`, `placement`),
and so it is known of the execution of whole programs (`Exec.program_places`).
-/

namespace LoxLang

/-- The lines that a machine keeps stay in place: those in the bodies of its closures, and those of its active calls. It
has no hosts, whose faults bring lines of their own. -/
structure Machine.Placed (f : Line → Line) (m : Machine) : Prop where
  bodies : ∀ c, (m.store.closure c).body.renumber f = (m.store.closure c).body
  calls : ∀ a ∈ m.activations.toList, f a.line = a.line
  hosts : m.hosts = #[]

/-- The line of a fault stays in place, or an output that refuses lines has failed on line 0. An overflow has no line
of its own, but an active call. -/
def Fault.Placed (f : Line → Line) (m : Machine) : Fault → Prop
  | .runtime line cause => f line = line ∨ line = 0 ∧ cause = .stdoutClosed ∧ ∃ n, m.refusesLine n = true
  | .overflow => 0 < m.activations.size
  | _ => True

namespace Machine.Placed

variable {f : Line → Line} {m : Machine}

/-- Whatever else changes on a machine keeps no lines. -/
theorem of_same (h : m.Placed f) {m' : Machine} (hc : m'.store.closures = m.store.closures)
    (ha : m'.activations = m.activations) (hh : m'.hosts = m.hosts) : m'.Placed f where
  bodies c := by
    have hsame : m'.store.closure c = m.store.closure c := by rw [Store.closure, hc, Store.closure]
    rw [hsame]
    exact h.bodies c
  calls a hm := h.calls a (ha ▸ hm)
  hosts := hh.trans h.hosts

theorem pushClosure (h : m.Placed f) {c : Closure} (hc : c.body.renumber f = c.body) :
    Machine.Placed f { m with store := m.store.pushClosure c } where
  bodies i := by
    have hget : (m.store.pushClosure c).closure i = m.store.closure i ∨ (m.store.pushClosure c).closure i = c := by
      unfold Store.closure Store.pushClosure
      rw [Array.getD_eq_getD_getElem?, Array.getD_eq_getD_getElem?, Array.getElem?_push]
      split
      · exact .inr rfl
      · exact .inl rfl
    rcases hget with hi | hi
    · rw [hi]
      exact h.bodies i
    · rw [hi, hc]
  calls := h.calls
  hosts := h.hosts

theorem entered (h : m.Placed f) {a : Activation} (ha : f a.line = a.line) : (Exec.entered m a).Placed f where
  bodies := h.bodies
  calls b hb := by
    rw [Exec.entered, Array.toList_push] at hb
    obtain hb | hb := List.mem_append.mp hb
    · exact h.calls b hb
    · rw [List.mem_singleton.mp hb, ha]
  hosts := h.hosts

theorem left (h : m.Placed f) : Machine.Placed f { m with activations := m.activations.pop } where
  bodies := h.bodies
  calls a ha := by
    rw [Array.toList_pop] at ha
    exact h.calls a ((List.dropLast_sublist _).subset ha)
  hosts := h.hosts

end Machine.Placed

/-! ## Computations -/

/-- The computation keeps the lines of a machine in place, and fails on such a line if it fails. -/
def Exec.Places {α : Type} (f : Line → Line) (x : Exec α) : Prop :=
  ∀ m, m.Placed f → match x m with
    | .ok _ m' => m'.Placed f
    | .error fault m' => m'.Placed f ∧ fault.Placed f m'

/-! ## Trees -/

namespace Node

variable {f : Line → Line}

theorem renumber_of_mem {ns : List Node} (h : renumberAll f ns = ns) : ∀ n ∈ ns, n.renumber f = n := by
  induction ns with
  | nil => exact List.forall_mem_nil _
  | cons n ns ih =>
    obtain ⟨hn, hns⟩ := List.cons.inj h
    exact List.forall_mem_cons.mpr ⟨hn, ih hns⟩

/-- A renumbering that leaves a tree as it is leaves the trees right inside as they are. -/
theorem renumber_of_child {n inner : Node} (hn : n.renumber f = n) (hi : inner ∈ n.children) :
    inner.renumber f = inner := by
  cases n with
  | literal | var | this | error | absent | bare => cases hi
  | block steps => exact renumber_of_mem (block.inj hn).1 inner hi
  | classDecl name methods => exact renumber_of_mem (classDecl.inj hn).2.1 inner hi
  | call =>
    obtain ⟨hc, ha, -⟩ := call.inj hn
    obtain rfl | hi := List.mem_cons.mp hi
    · exact hc
    · exact renumber_of_mem ha inner hi
  | grouping | unary | assign | get | letDecl | print | function | returnStep =>
    obtain rfl := List.mem_singleton.mp hi
    simp only [renumber] at hn
    injections
  | binary | logical | set | whileLoop =>
    simp only [children, parts, List.mem_cons, List.not_mem_nil, or_false] at hi
    simp only [renumber] at hn
    obtain rfl | rfl := hi <;> injections
  | ifElse =>
    obtain ⟨hc, ht, he, -⟩ := ifElse.inj hn
    simp only [children, parts, List.mem_cons, List.not_mem_nil, or_false] at hi
    obtain rfl | rfl | rfl := hi <;> assumption

/-- A renumbering that leaves a tree as it is leaves its line in place. -/
theorem line_of_renumber {n : Node} {line : Line} (hn : n.renumber f = n) (hl : n.line? = some line) :
    f line = line := by
  cases n <;> cases hl <;> simp only [renumber] at hn <;> injections

end Node

/-! ## Programs -/

/-- The lines of a machine stay in place where those of the trees do. -/
def placement (f : Line → Line) : Invariant where
  machine := Machine.Placed f
  fault := Fault.Placed f
  node n := n.renumber f = n
  line l := f l = l

theorem placement_lawful (f : Line → Line) : (placement f).Lawful where
  same h hclosures hcalls hhosts _ := h.of_same hclosures hcalls hhosts
  body h := h.bodies
  pushClosure h := h.pushClosure
  logged _ h := h.of_same rfl rfl rfl
  entered h := h.entered
  left h := h.left
  runtime _ _ hl := .inl hl
  refused h := .inr ⟨rfl, rfl, _, h⟩
  overflow h := h
  unlogged _ _ _ := trivial
  internal {fault} _ hf := by
    cases fault with
    | runtime | overflow => exact hf.elim
    | _ => trivial
  unread _ _ _ := trivial
  host index call _ _ _ := by
    intro m h
    -- There is no host, and nothing is what it replies.
    have hask : Exec.askHost index call m = .ok (.value .nil) m := by
      unfold Exec.askHost
      rw [Machine.Placed.hosts h, Array.getElem?_empty]
    rw [Exec.bind_apply, hask]
    exact h
  child := Node.renumber_of_child
  ownLine := Node.line_of_renumber

/-- A program whose lines stay in place fails on such a line, unless `println` finds the output closed. -/
theorem Exec.program_places {f : Line → Line} (fuel : Nat) {steps : List Node}
    (h : Node.renumberAll f steps = steps) : Exec.Places f (Exec.program fuel steps) :=
  (placement_lawful f).program fuel (Node.renumber_of_mem h)

end LoxLang
