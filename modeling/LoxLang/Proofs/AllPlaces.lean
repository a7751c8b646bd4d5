import LoxLang.Proofs.Places

/-!
# All places of a program

`Node.places layers n` lists every node in `n` with the layers around it, and `placesInOrder` those of steps that stand
one behind the other. Every place of a program is listed (`Stands.mem_places`), so that what is said of all its places
can be computed.
-/

namespace LoxLang

instance (o : Opening) (name : String) : Decidable (o.Declares name) :=
  match o with
  | .program => .isTrue True.intro
  | .block steps _ => inferInstanceAs (Decidable (∃ n ∈ steps, n.declares? = some name))
  | .parameters _ params _ => inferInstanceAs (Decidable (name ∈ params))
  | .receiver _ => inferInstanceAs (Decidable (name = "this"))

namespace Node

mutual

/-- The nodes in a node, each with the layers around it. -/
def places (layers : List Layer) (n : Node) : List (List Layer × Node) :=
  (layers, n) :: match n with
    | grouping inner _ | unary _ inner _ | assign _ inner _ _ | get inner _ _ | print inner _ | returnStep inner _ =>
      places layers inner
    | binary _ left right _ | logical _ left right _ | set left _ right _ | whileLoop left right _ =>
      places layers left ++ places layers right
    | ifElse condition thenBranch elseBranch _ =>
      places layers condition ++ places layers thenBranch ++ places layers elseBranch
    | call callee arguments _ => places layers callee ++ placesOfEach layers arguments
    | letDecl name initializer _ => places (mark layers name false) initializer
    | block steps line => placesInOrder (⟨.block steps line, []⟩ :: layers) steps
    | function name params body _ => places (Layer.ofParameters name params body :: mark layers name true) body
    | classDecl name methods _ => placesOfMethods (Layer.ofReceiver methods :: mark layers name true) methods
    | literal .. | var .. | this .. | error _ | absent | bare _ => []

/-- The nodes in several expressions of one place. -/
def placesOfEach (layers : List Layer) : List Node → List (List Layer × Node)
  | [] => []
  | n :: ns => places layers n ++ placesOfEach layers ns

/-- The nodes in steps, each behind those before it. -/
def placesInOrder (layers : List Layer) : List Node → List (List Layer × Node)
  | [] => []
  | n :: ns => places layers n ++ placesInOrder (behind layers n) ns

/-- The nodes in the bodies of methods. -/
def placesOfMethods (layers : List Layer) : List Node → List (List Layer × Node)
  | [] => []
  | function name params body _ :: ns =>
    places (Layer.ofParameters name params body :: layers) body ++ placesOfMethods layers ns
  | _ :: ns => placesOfMethods layers ns

end

theorem mem_places_self (layers : List Layer) (n : Node) : (layers, n) ∈ places layers n := by
  rw [places.eq_def]
  exact List.mem_cons_self

theorem places_subset_ofEach (layers : List Layer) {n : Node} {ns : List Node} (h : n ∈ ns) :
    places layers n ⊆ placesOfEach layers ns := by
  induction ns with
  | nil => cases h
  | cons m ns ih =>
    rw [placesOfEach]
    obtain rfl | h := List.mem_cons.mp h
    · exact List.subset_append_left _ _
    · exact List.subset_append_of_subset_right _ (ih h)

theorem places_subset_ofMethods (layers : List Layer) {name : String} {params : List String} {body : Node} {line : Line}
    {methods : List Node} (h : function name params body line ∈ methods) :
    places (Layer.ofParameters name params body :: layers) body ⊆ placesOfMethods layers methods := by
  induction methods with
  | nil => cases h
  | cons m methods ih =>
    obtain rfl | hm := List.mem_cons.mp h
    · rw [placesOfMethods]
      exact List.subset_append_left _ _
    · have hrest := ih hm
      cases m with
      | function =>
        rw [placesOfMethods]
        exact List.subset_append_of_subset_right _ hrest
      | _ => exact hrest

theorem places_subset_inOrder (layers : List Layer) (n : Node) (ns : List Node) :
    n.places layers ⊆ placesInOrder layers (n :: ns) := by
  rw [placesInOrder]
  exact List.subset_append_left _ _

theorem placesInOrder_singleton (layers : List Layer) (n : Node) : placesInOrder layers [n] = n.places layers := by
  rw [placesInOrder, placesInOrder, List.append_nil]

/-- The places of the parts of a node are places of the node. -/
theorem places_subset_of_part {layers : List Layer} {n inner : Node} (h : inner ∈ n.parts) :
    places layers inner ⊆ places layers n := by
  rw [places.eq_def layers n]
  refine List.subset_cons_of_subset _ ?_
  cases n with
  | grouping | unary | assign | get | print | returnStep =>
    obtain rfl := List.mem_singleton.mp h
    exact List.Subset.refl _
  | binary | logical | set | whileLoop =>
    simp only [parts, List.mem_cons, List.not_mem_nil, or_false] at h
    obtain rfl | rfl := h
    · exact List.subset_append_left _ _
    · exact List.subset_append_right _ _
  | ifElse =>
    simp only [parts, List.mem_cons, List.not_mem_nil, or_false] at h
    obtain rfl | rfl | rfl := h
    · exact List.subset_append_of_subset_left _ (List.subset_append_left _ _)
    · exact List.subset_append_of_subset_left _ (List.subset_append_right _ _)
    · exact List.subset_append_right _ _
  | call =>
    obtain rfl | h := List.mem_cons.mp h
    · exact List.subset_append_left _ _
    · exact List.subset_append_of_subset_right _ (places_subset_ofEach layers h)
  | _ => cases h

end Node

theorem Within.places_subset {program ns : List Node} {layers : List Layer} (h : Within program layers ns) :
    Node.placesInOrder layers ns ⊆ Node.placesInOrder [⟨.program, []⟩] program := by
  -- on the way into the program: a step inward leads from places of a node to places of what stands in it
  induction h with
  | program => exact List.Subset.refl _
  | next _ ih =>
    refine List.Subset.trans ?_ ih
    rw [Node.placesInOrder]
    exact List.subset_append_right _ _
  | part _ hi ih =>
    rw [Node.placesInOrder_singleton]
    exact List.Subset.trans (Node.places_subset_of_part hi) (List.Subset.trans (Node.places_subset_inOrder _ _ _) ih)
  | initializer _ ih =>
    rw [Node.placesInOrder_singleton]
    refine List.Subset.trans ?_ (List.Subset.trans (Node.places_subset_inOrder _ _ _) ih)
    rw [Node.places.eq_def _ (.letDecl ..)]
    exact List.subset_cons_self _ _
  | block _ ih =>
    refine List.Subset.trans ?_ (List.Subset.trans (Node.places_subset_inOrder _ _ _) ih)
    rw [Node.places]
    exact List.subset_cons_self _ _
  | body _ ih =>
    rw [Node.placesInOrder_singleton]
    refine List.Subset.trans ?_ (List.Subset.trans (Node.places_subset_inOrder _ _ _) ih)
    rw [Node.places.eq_def _ (.function ..)]
    exact List.subset_cons_self _ _
  | method _ hm ih =>
    rw [Node.placesInOrder_singleton]
    refine List.Subset.trans (Node.places_subset_ofMethods _ hm) ?_
    refine List.Subset.trans ?_ (List.Subset.trans (Node.places_subset_inOrder _ _ _) ih)
    rw [Node.places.eq_def _ (.classDecl ..)]
    exact List.subset_cons_self _ _

/-- Every place of a program is listed. -/
theorem Stands.mem_places {program : List Node} {layers : List Layer} {n : Node} (h : Stands [program] layers n) :
    (layers, n) ∈ Node.placesInOrder [⟨.program, []⟩] program := by
  obtain ⟨program', hp, ns, hw⟩ := h
  obtain rfl := List.mem_singleton.mp hp
  refine hw.places_subset ?_
  rw [Node.placesInOrder]
  exact List.mem_append_left _ (n.mem_places_self layers)

end LoxLang
