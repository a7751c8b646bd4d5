import LoxLang.Proofs.Places

/-!
# Declared names

`Node.declared` lists the names that are declared in a node, at any depth. Inside a function, the layers up to its
parameters hold nothing but its parameters and what its body declares (`Within.declared_inside`).
-/

namespace LoxLang

/-! ## Names inside a node -/

namespace Node

mutual

/-- The names that are declared in a node: where it stands, and in the scopes that it opens. -/
def declared : Node → List String
  | letDecl name init _ => name :: declared init
  | function name params body _ => name :: (params ++ declared body)
  | classDecl name methods _ => name :: "this" :: declaredInMethods methods
  | block steps _ => declaredInAll steps
  | grouping inner _ | unary _ inner _ | assign _ inner _ _ | get inner _ _ | print inner _ | returnStep inner _ =>
    declared inner
  | binary _ left right _ | logical _ left right _ | set left _ right _ | whileLoop left right _ =>
    declared left ++ declared right
  | ifElse condition thenBranch elseBranch _ => declared condition ++ declared thenBranch ++ declared elseBranch
  | call callee arguments _ => declared callee ++ declaredInAll arguments
  | literal .. | var .. | this .. | error _ | absent | bare _ => []

def declaredInAll : List Node → List String
  | [] => []
  | n :: ns => declared n ++ declaredInAll ns

/-- Methods do not declare their own names. -/
def declaredInMethods : List Node → List String
  | [] => []
  | function _ params body _ :: methods => params ++ declared body ++ declaredInMethods methods
  | _ :: methods => declaredInMethods methods

end

theorem declared_of_declares? {n : Node} {name : String} (h : n.declares? = some name) : name ∈ n.declared := by
  cases n with
  | letDecl | function | classDecl => cases h; rw [declared]; exact List.mem_cons_self
  | _ => cases h

theorem declared_subset_declaredInAll {n : Node} {ns : List Node} (h : n ∈ ns) : n.declared ⊆ declaredInAll ns := by
  induction ns with
  | nil => cases h
  | cons m ns ih =>
    rw [declaredInAll]
    obtain rfl | h := List.mem_cons.mp h
    · exact List.subset_append_left _ _
    · exact List.Subset.trans (ih h) (List.subset_append_right _ _)

theorem declared_subset_declaredInMethods {name : String} {params : List String} {body : Node} {line : Line}
    {methods : List Node} (h : function name params body line ∈ methods) :
    params ++ body.declared ⊆ declaredInMethods methods := by
  induction methods with
  | nil => cases h
  | cons m methods ih =>
    obtain rfl | hm := List.mem_cons.mp h
    · rw [declaredInMethods]
      exact List.subset_append_left _ _
    · cases m with
      | function =>
        rw [declaredInMethods]
        exact List.Subset.trans (ih hm) (List.subset_append_right _ _)
      | _ => exact ih hm

theorem declared_subset_of_part {n inner : Node} (h : inner ∈ n.parts) : inner.declared ⊆ n.declared := by
  cases n with
  | call callee arguments =>
    rw [declared]
    obtain rfl | h := List.mem_cons.mp h
    · exact List.subset_append_left _ _
    · exact List.Subset.trans (declared_subset_declaredInAll h) (List.subset_append_right _ _)
  | grouping | unary | assign | get | print | returnStep =>
    obtain rfl := List.mem_singleton.mp h
    rw [declared]
    exact List.Subset.refl _
  | binary | logical | set | whileLoop =>
    simp only [parts, List.mem_cons, List.not_mem_nil, or_false] at h
    rw [declared]
    obtain rfl | rfl := h
    · exact List.subset_append_left _ _
    · exact List.subset_append_right _ _
  | ifElse =>
    simp only [parts, List.mem_cons, List.not_mem_nil, or_false] at h
    rw [declared]
    obtain rfl | rfl | rfl := h
    · exact List.subset_append_of_subset_left _ (List.subset_append_left _ _)
    · exact List.subset_append_of_subset_left _ (List.subset_append_right _ _)
    · exact List.subset_append_right _ _
  | _ => cases h

end Node

/-! ## Layers inside a function -/

/-- The layer holds the name in front of a place, or declares it. -/
def Layer.Holds (layer : Layer) (name : String) : Prop := layer.names.contains name = true ∨ layer.opening.Declares name

/-- From the outside, layer `i` is that of the parameters. -/
def ParametersAt (layers : List Layer) (i : Nat) (name : String) (params : List String) (body : Node)
    (site : List Layer) : Prop :=
  ∃ names, layers.drop i = ⟨.parameters name params body, names⟩ :: site

/-- Up to layer `i`, the layers hold names of `own` only. -/
def HoldOnly (layers : List Layer) (i : Nat) (own : List String) : Prop :=
  ∀ layer ∈ layers.take (i + 1), ∀ x, layer.Holds x → x ∈ own

section Marks

variable {layers : List Layer} {i : Nat} {x : String} {ready : Bool}

theorem parametersAt_mark {name : String} {params : List String} {body : Node} {site : List Layer} :
    ParametersAt (mark layers x ready) i name params body site ↔ ParametersAt layers i name params body site := by
  cases layers with
  | nil => exact Iff.rfl
  | cons layer layers =>
    cases i with
    | zero =>
      obtain ⟨opening, names⟩ := layer
      simp [ParametersAt, mark]
    | succ i => exact Iff.rfl

theorem HoldOnly.mark {own : List String} (h : HoldOnly layers i own) (hx : x ∈ own) :
    HoldOnly (mark layers x ready) i own := by
  cases layers with
  | nil => exact h
  | cons layer layers =>
    intro l hl y hy
    obtain rfl | hl := List.mem_cons.mp hl
    · obtain hy | hy := hy
      · rw [Table.contains_set, Bool.or_eq_true, decide_eq_true_eq] at hy
        obtain rfl | hy := hy
        · exact hx
        · exact h layer List.mem_cons_self y (.inl hy)
      · exact h layer List.mem_cons_self y (.inr hy)
    · exact h l (List.mem_cons_of_mem _ hl) y hy

theorem HoldOnly.cons {own : List String} {layer : Layer} (h : HoldOnly layers i own)
    (hl : ∀ y, layer.Holds y → y ∈ own) : HoldOnly (layer :: layers) (i + 1) own := fun l hm y hy => by
  obtain rfl | hm := List.mem_cons.mp hm
  · exact hl y hy
  · exact h l hm y hy

end Marks

theorem Layer.Holds.ofParameters {name : String} {params : List String} {body : Node} {x : String}
    (h : (Layer.ofParameters name params body).Holds x) : x ∈ params := by
  obtain h | h := h
  · obtain ⟨b, hb⟩ := Table.contains_iff.mp h
    exact (Layer.get?_ofParameters name body hb).2
  · exact h

theorem HoldOnly.parameters (name : String) (params own : List String) (body : Node) (outer : List Layer) :
    HoldOnly (Layer.ofParameters name params body :: outer) 0 (params ++ own) := fun l hl y hy => by
  obtain rfl := List.mem_singleton.mp hl
  exact List.mem_append_left _ hy.ofParameters

theorem Layer.Holds.ofReceiver {methods : List Node} {x : String} (h : (Layer.ofReceiver methods).Holds x) :
    x = "this" := by
  obtain h | h := h
  · rw [Layer.ofReceiver, Table.contains_cons, Table.contains_nil, Bool.or_false, beq_iff_eq] at h
    exact h.symm
  · exact h

/-- Inside a function, the layers up to its parameters hold only what the function declares, and so do the steps. -/
theorem Within.declared_inside {program : List Node} {layers : List Layer} {ns : List Node}
    (h : Within program layers ns) {i : Nat} {name : String} {params : List String} {body : Node} {site : List Layer}
    (hp : ParametersAt layers i name params body site) :
    HoldOnly layers i (params ++ body.declared) ∧ ∀ n ∈ ns, n.declared ⊆ body.declared := by
  -- on the way into the program; a place inside a further scope has the parameters one or two layers further out
  induction h generalizing i with
  | program =>
    obtain ⟨names, hp⟩ := hp
    cases i <;> simp at hp
  | @next layers n ns _ ih =>
    unfold behind at hp ⊢
    cases hd : n.declares? with
    | none =>
      rw [hd] at hp
      obtain ⟨hl, hn⟩ := ih hp
      exact ⟨hl, fun m hm => hn m (List.mem_cons_of_mem _ hm)⟩
    | some x =>
      rw [hd] at hp
      obtain ⟨hl, hn⟩ := ih (parametersAt_mark.mp hp)
      have hx := hn n List.mem_cons_self (Node.declared_of_declares? hd)
      exact ⟨hl.mark (List.mem_append_right _ hx), fun m hm => hn m (List.mem_cons_of_mem _ hm)⟩
  | part _ hi ih =>
    obtain ⟨hl, hn⟩ := ih hp
    refine ⟨hl, fun m hm => ?_⟩
    obtain rfl := List.mem_singleton.mp hm
    exact List.Subset.trans (Node.declared_subset_of_part hi) (hn _ List.mem_cons_self)
  | @initializer layers x init line ns _ ih =>
    obtain ⟨hl, hn⟩ := ih (parametersAt_mark.mp hp)
    have hdecl := hn _ List.mem_cons_self
    rw [Node.declared, List.cons_subset] at hdecl
    refine ⟨hl.mark (List.mem_append_right _ hdecl.1), fun m hm => ?_⟩
    obtain rfl := List.mem_singleton.mp hm
    exact hdecl.2
  | @block layers steps line ns _ ih =>
    cases i with
    | zero =>
      obtain ⟨names, hp⟩ := hp
      cases hp
    | succ i =>
      obtain ⟨hl, hn⟩ := ih hp
      have hdecl := hn _ List.mem_cons_self
      rw [Node.declared] at hdecl
      refine ⟨hl.cons fun y hy => ?_, fun m hm => List.Subset.trans (Node.declared_subset_declaredInAll hm) hdecl⟩
      obtain hy | ⟨m, hm, hy⟩ := hy
      · cases hy
      · exact List.mem_append_right _
          (hdecl (Node.declared_subset_declaredInAll hm (Node.declared_of_declares? hy)))
  | @body layers name' params' body' line ns _ ih =>
    cases i with
    | zero =>
      obtain ⟨names, hp⟩ := hp
      cases hp
      refine ⟨.parameters _ _ _ _ _, fun m hm => ?_⟩
      obtain rfl := List.mem_singleton.mp hm
      exact List.Subset.refl _
    | succ i =>
      obtain ⟨hl, hn⟩ := ih (parametersAt_mark.mp hp)
      have hdecl := hn _ List.mem_cons_self
      rw [Node.declared, List.cons_subset, List.append_subset] at hdecl
      obtain ⟨hname, hparams, hbody⟩ := hdecl
      refine ⟨(hl.mark (List.mem_append_right _ hname)).cons fun y hy =>
        List.mem_append_right _ (hparams hy.ofParameters), fun m hm => ?_⟩
      obtain rfl := List.mem_singleton.mp hm
      exact hbody
  | @method layers className methods line ns name' params' body' line' _ hm ih =>
    cases i with
    | zero =>
      obtain ⟨names, hp⟩ := hp
      cases hp
      refine ⟨.parameters _ _ _ _ _, fun m hm => ?_⟩
      obtain rfl := List.mem_singleton.mp hm
      exact List.Subset.refl _
    | succ i =>
      cases i with
      | zero =>
        obtain ⟨names, hp⟩ := hp
        cases hp
      | succ i =>
        obtain ⟨hl, hn⟩ := ih (parametersAt_mark.mp hp)
        have hdecl := hn _ List.mem_cons_self
        rw [Node.declared, List.cons_subset, List.cons_subset] at hdecl
        obtain ⟨hname, hthis, hmethods⟩ := hdecl
        have hmethod := List.append_subset.mp (List.Subset.trans (Node.declared_subset_declaredInMethods hm) hmethods)
        refine ⟨((hl.mark (List.mem_append_right _ hname)).cons fun y hy => ?_).cons fun y hy => ?_, fun m hm => ?_⟩
        · exact hy.ofReceiver ▸ List.mem_append_right _ hthis
        · exact List.mem_append_right _ (hmethod.1 hy.ofParameters)
        · obtain rfl := List.mem_singleton.mp hm
          exact hmethod.2

end LoxLang
