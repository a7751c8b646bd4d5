import LoxLang.Proofs.Enclosures

/-!
# What holds everywhere in a node

`Node.Everywhere p n` says that `p` holds of `n` and of every node inside it, at any depth. It passes to the nodes
inside, and from a tree to one that is the same apart from lines and depths, if `p` does.
-/

namespace LoxLang

namespace Node

/-- The nodes right inside a node. -/
def children : Node → List Node
  | letDecl _ init _ => [init]
  | block steps _ => steps
  | function _ _ body _ => [body]
  | classDecl _ methods _ => methods
  | n => n.parts

/-- The second node is the first one, or inside it at any depth. -/
abbrev Contains : Node → Node → Prop := Relation.ReflTransGen fun n inner => inner ∈ n.children

/-- The property holds of the node and of every node inside it. -/
def Everywhere (p : Node → Prop) (n : Node) : Prop := ∀ inner, n.Contains inner → p inner

theorem mem_children_of_part {n inner : Node} (h : inner ∈ n.parts) : inner ∈ n.children := by
  cases n with
  | letDecl | block | function | classDecl => cases h
  | _ => exact h

mutual

/-- What passes from the nodes right inside a node to the node itself holds of every node. -/
theorem of_inner {p : Node → Prop} (h : ∀ n : Node, (∀ inner ∈ n.children, p inner) → p n) : ∀ n : Node, p n
  | literal .. | var .. | this .. | error _ | absent | bare _ => h _ (List.forall_mem_nil _)
  | grouping n _ | unary _ n _ | assign _ n _ _ | get n _ _ | letDecl _ n _ | print n _ | function _ _ n _
  | returnStep n _ => h _ (List.forall_mem_singleton.mpr (of_inner h n))
  | binary _ a b _ | logical _ a b _ | set a _ b _ | whileLoop a b _ =>
    h _ (List.forall_mem_cons.mpr ⟨of_inner h a, List.forall_mem_singleton.mpr (of_inner h b)⟩)
  | ifElse a b c _ => h _ (List.forall_mem_cons.mpr
    ⟨of_inner h a, List.forall_mem_cons.mpr ⟨of_inner h b, List.forall_mem_singleton.mpr (of_inner h c)⟩⟩)
  | call n ns _ => h _ (List.forall_mem_cons.mpr ⟨of_inner h n, of_inner_all h ns⟩)
  | block ns _ | classDecl _ ns _ => h _ (of_inner_all h ns)

theorem of_inner_all {p : Node → Prop} (h : ∀ n : Node, (∀ inner ∈ n.children, p inner) → p n) :
    ∀ ns : List Node, ∀ n ∈ ns, p n
  | [] => List.forall_mem_nil _
  | n :: ns => List.forall_mem_cons.mpr ⟨of_inner h n, of_inner_all h ns⟩

end

namespace Everywhere

variable {p q : Node → Prop} {n inner : Node}

theorem self (h : n.Everywhere p) : p n := h n .refl

theorem child (h : n.Everywhere p) (hi : inner ∈ n.children) : inner.Everywhere p :=
  fun m hm => h m (.head hi hm)

theorem part (h : n.Everywhere p) (hi : inner ∈ n.parts) : inner.Everywhere p := h.child (mem_children_of_part hi)

theorem mono (h : n.Everywhere p) (hpq : ∀ m, p m → q m) : n.Everywhere q := fun m hm => hpq m (h m hm)

theorem of_children (h : p n) (hc : ∀ inner ∈ n.children, inner.Everywhere p) : n.Everywhere p := by
  intro m hm
  obtain rfl | ⟨inner, hi, hm⟩ := hm.cases_head
  · exact h
  · exact hc inner hi m hm

theorem leaf (h : p n) (hc : n.children = []) : n.Everywhere p := .of_children h (hc ▸ List.forall_mem_nil _)

theorem one {a : Node} (h : p n) (hc : n.children = [a]) (ha : a.Everywhere p) : n.Everywhere p :=
  .of_children h (hc ▸ List.forall_mem_singleton.mpr ha)

theorem two {a b : Node} (h : p n) (hc : n.children = [a, b]) (ha : a.Everywhere p) (hb : b.Everywhere p) :
    n.Everywhere p :=
  .of_children h (hc ▸ List.forall_mem_cons.mpr ⟨ha, List.forall_mem_singleton.mpr hb⟩)

theorem three {a b c : Node} (h : p n) (hc : n.children = [a, b, c]) (ha : a.Everywhere p) (hb : b.Everywhere p)
    (hc' : c.Everywhere p) : n.Everywhere p :=
  .of_children h (hc ▸ List.forall_mem_cons.mpr ⟨ha, List.forall_mem_cons.mpr ⟨hb, List.forall_mem_singleton.mpr hc'⟩⟩)

/-- What every node inside inherits from the one around it holds everywhere. -/
theorem of_inherited (h : p n) (hp : ∀ m inner, p m → inner ∈ m.children → p inner) : n.Everywhere p := by
  intro m hm
  induction hm with
  | refl => exact h
  | tail _ hi ih => exact hp _ _ ih hi

theorem true (n : Node) : n.Everywhere fun _ => True := fun _ _ => trivial

end Everywhere

/-! ## Alike trees -/

variable {L : Line → Line → Prop} {D : Depth → Depth → Prop} {n n' : Node}

theorem Alike.children (h : n.Alike L D n') : AllAlike L D n.children n'.children := by
  have hparts := h.parts
  cases h with
  | letDecl _ h | function _ h => exact .cons h .nil
  | block _ h | classDecl _ h => exact h
  | _ => exact hparts

theorem Alike.contains {inner : Node} (h : n.Alike L D n') (hi : n.Contains inner) :
    ∃ inner', n'.Contains inner' ∧ inner.Alike L D inner' := by
  induction hi with
  | refl => exact ⟨n', .refl, h⟩
  | tail _ hc ih =>
    obtain ⟨m', hm', hm⟩ := ih
    obtain ⟨inner', hc', hinner⟩ := hm.children.mem hc
    exact ⟨inner', hm'.tail hc', hinner⟩

/-- What alike nodes share holds everywhere in a tree if it does in one that is alike. -/
theorem Everywhere.of_alike {p q : Node → Prop} (hp : ∀ m m' : Node, m.Alike L D m' → q m' → p m)
    (h : n.Alike L D n') (hn : n'.Everywhere q) : n.Everywhere p := by
  intro m hm
  obtain ⟨m', hm', ha⟩ := h.contains hm
  exact hp m m' ha (hn m' hm')

end Node

/-! ## Places -/

/-- Wherever a node is inside another one, there is a place for it. -/
theorem Place.exists_inside {n inner : Node} (h : n.Contains inner) (around : List Enclosure) :
    ∃ around', Place.Inside ⟨around, n⟩ ⟨around', inner⟩ := by
  induction h with
  | refl => exact ⟨around, .refl⟩
  | @tail m c _ hc ih =>
    obtain ⟨around', hm⟩ := ih
    suffices hstep : ∃ around'', Place.Contains ⟨around', m⟩ ⟨around'', c⟩ from
      let ⟨around'', hstep⟩ := hstep
      ⟨around'', hm.tail hstep⟩
    cases m with
    | letDecl => exact List.mem_singleton.mp hc ▸ ⟨_, .initializer⟩
    | function => exact List.mem_singleton.mp hc ▸ ⟨_, .body⟩
    | classDecl => exact ⟨_, .method hc⟩
    | block =>
      obtain ⟨before, after, rfl⟩ := List.append_of_mem hc
      exact ⟨_, .step⟩
    | _ => exact ⟨_, .part hc⟩

/-- What holds at every place of a program holds everywhere in its steps. -/
theorem Place.everywhere {program : List Node} {p : Node → Prop} (h : ∀ q : Place, q.In program → p q.node) {n : Node}
    (hn : n ∈ program) : n.Everywhere p := by
  intro inner hi
  obtain ⟨before, after, rfl⟩ := List.append_of_mem hn
  obtain ⟨around, hinside⟩ := exists_inside hi [.ofSteps .program before n after]
  exact h _ ⟨before, n, after, rfl, hinside⟩

end LoxLang
