import LoxLang.Proofs.AllPlaces
import LoxLang.Proofs.Standing
import LoxLang.Proofs.WiderScopes

/-!
# Uses in a wider global scope

A use that resolution leaves without a depth gets one where more names are global. It means the same with and without
it as long as no scope in between declares its name behind the use (`Unshadowed`): then the tree that is resolved in the
wider scope is a twin of the one that is resolved alone (`TwinSteps.behind_program`).
-/

namespace LoxLang

/-! ## Wider layers -/

/-- The first layers are opened by constructs that declare the same names as those of the second, and hold the same
names, but more in the global layer. -/
inductive LayersAlike (more : Scope) : List Layer → List Layer → Prop
  | program {g g'} : (∀ name, g.get? name = (g'.get? name).or (more.get? name)) →
      LayersAlike more [⟨.program, g⟩] [⟨.program, g'⟩]
  | inner {o o' names layers layers'} : (∀ name, o.Declares name ↔ o'.Declares name) →
      LayersAlike more layers layers' → LayersAlike more (⟨o, names⟩ :: layers) (⟨o', names⟩ :: layers')

namespace LayersAlike

variable {more : Scope} {layers layers' : List Layer}

theorem mark (h : LayersAlike more layers layers') (name : String) (ready : Bool) :
    LayersAlike more (mark layers name ready) (mark layers' name ready) := by
  cases h with
  | program h => exact .program (Table.get?_set_or h name ready)
  | inner ho h => exact .inner ho h

theorem ne_nil (h : LayersAlike more layers layers') : layers ≠ [] ∧ layers' ≠ [] := by
  cases h <;> simp

/-- A scope between a place and the global scope that declares a name does so on both sides. -/
theorem not_declares (h : LayersAlike more layers layers') {name : String}
    (hd : ∀ layer ∈ layers'.dropLast, ¬ layer.opening.Declares name) :
    ∀ layer ∈ layers.dropLast, ¬ layer.opening.Declares name := by
  induction h with
  | program => exact fun layer hl => by cases hl
  | @inner o o' names layers layers' ho h ih =>
    rw [List.dropLast_cons_of_ne_nil h.ne_nil.2] at hd
    rw [List.dropLast_cons_of_ne_nil h.ne_nil.1]
    intro layer hl
    obtain rfl | hl := List.mem_cons.mp hl
    · exact fun hx => hd _ List.mem_cons_self ((ho name).mp hx)
    · exact ih (fun layer hl => hd layer (List.mem_cons_of_mem _ hl)) layer hl

/-- A use has the same depth in the wider layers, unless it has none in the others and the name is one of those that
are added. -/
theorem depthOf? (h : LayersAlike more layers layers') (hready : ∀ name b, more.get? name = some b → b = true)
    (name : String) : (scopesOf layers').depthOf? name = (scopesOf layers).depthOf? name ∨
      (scopesOf layers').depthOf? name = none ∧ more.contains name = true ∧
        ∀ i, (scopesOf layers).depthOf? name = some i → ReadyAt layers name i ∧ i + 1 = layers.length := by
  -- from the global layer inward: only that one differs, and an inner one that has the name decides in both
  induction h with
  | @program g g' h =>
    simp only [List.map_cons, List.map_nil, Scopes.depthOf?, List.findIdx?_cons, List.findIdx?_nil, Option.map_none]
    cases hg' : g'.get? name with
    | some b =>
      have hc' : g'.contains name = true := Table.contains_iff.mpr ⟨b, hg'⟩
      have hc : g.contains name = true := Table.contains_iff.mpr ⟨b, by rw [h, hg', Option.some_or]⟩
      rw [hc, hc']
      exact .inl rfl
    | none =>
      have hg : g.get? name = more.get? name := by rw [h, hg', Option.none_or]
      have hc' : g'.contains name = false := by rw [Table.contains_eq_isSome, hg', Option.isSome_none]
      cases hm : more.get? name with
      | none =>
        have hc : g.contains name = false := by rw [Table.contains_eq_isSome, hg, hm, Option.isSome_none]
        rw [hc, hc']
        exact .inl rfl
      | some b =>
        have hb := hready name b hm
        subst hb
        have hc : g.contains name = true := Table.contains_iff.mpr ⟨true, hg.trans hm⟩
        rw [hc, hc']
        refine .inr ⟨rfl, Table.contains_iff.mpr ⟨true, hm⟩, fun i hi => ?_⟩
        cases hi
        exact ⟨⟨_, rfl, hg.trans hm⟩, rfl⟩
  | @inner o o' names layers layers' ho h ih =>
    simp only [List.map_cons, Scopes.depthOf?, List.findIdx?_cons] at ih ⊢
    cases names.contains name with
    | true => exact .inl rfl
    | false =>
      simp only [Bool.false_eq_true, if_false]
      obtain heq | ⟨hnone, hmore, hglobal⟩ := ih
      · exact .inl (congrArg (Option.map (· + 1)) heq)
      · refine .inr ⟨by rw [hnone, Option.map_none], hmore, fun i hi => ?_⟩
        obtain ⟨j, hj, rfl⟩ := Option.map_eq_some_iff.mp hi
        obtain ⟨⟨layer, hl, hr⟩, hlen⟩ := hglobal j hj
        exact ⟨⟨layer, by rw [List.getElem?_cons_succ]; exact hl, hr⟩, by rw [List.length_cons, hlen]⟩

end LayersAlike

/-! ## Uses -/

/-- A use without a depth, of a name that one of the first steps declares, stands in no scope of the program other than
the global one that declares the name. -/
def Unshadowed (first program : List Node) : Prop :=
  ∀ layers n name, Stands [program] layers n → n.use? = some (name, none) → (∃ m ∈ first, m.declares? = some name) →
    ∀ layer ∈ layers.dropLast, ¬ layer.opening.Declares name

/-- The name of a use that has no depth. -/
def Node.searched? (n : Node) : Option String :=
  n.use?.bind fun (name, depth) => if depth = none then some name else none

/-- What holds at every listed place of a program holds at its uses. -/
theorem Unshadowed.of_places {first program : List Node}
    (h : ∀ place ∈ Node.placesInOrder [⟨.program, []⟩] program, ∀ name ∈ place.2.searched?,
      (∃ m ∈ first, m.declares? = some name) → ∀ layer ∈ place.1.dropLast, ¬ layer.opening.Declares name) :
    Unshadowed first program := by
  intro layers n name hs hn
  refine h (layers, n) hs.mem_places name ?_
  show n.searched? = some name
  rw [Node.searched?, hn]
  rfl

/-- The global layer has more names, which are those of the first steps and ready. -/
structure Widened (first : List Node) (more : Scope) (layers layers' : List Layer) : Prop where
  alike : LayersAlike more layers layers'
  ready : ∀ name b, more.get? name = some b → b = true
  declared : ∀ name, more.contains name = true → ∃ m ∈ first, m.declares? = some name

namespace Widened

variable {first program : List Node} {more : Scope} {layers layers' : List Layer}

theorem inner (h : Widened first more layers layers') {o o' : Opening} (ho : ∀ name, o.Declares name ↔ o'.Declares name)
    (names : Scope) : Widened first more (⟨o, names⟩ :: layers) (⟨o', names⟩ :: layers') :=
  ⟨.inner ho h.alike, h.ready, h.declared⟩

theorem relation {L : Line → Line → Prop} {D : Depth → Depth → Prop} :
    LayerRelation L D (Widened first more) := by
  refine ⟨fun name ready h => ⟨h.alike.mark name ready, h.ready, h.declared⟩, fun l l' hs h => ?_,
    fun name params body body' h => ?_, fun methods methods' h => ?_⟩
  · refine h.inner (fun name => ?_) []
    show (∃ n ∈ _, _) ↔ ∃ n ∈ _, _
    rw [← List.mem_map, ← List.mem_map, hs.map_declares?]
  · refine h.inner (fun x => ?_) _
    exact Iff.rfl
  · refine h.inner (fun x => ?_) _
    exact Iff.rfl

/-- The two depths of a use agree, or the second is left open and the first counts to a ready name of the global scope
that nothing in between declares. -/
theorem depthsAgree (h : Widened first more layers layers') (hu : Unshadowed first program) {n' : Node} {name : String}
    {d d' : Depth} (hs : Stands [program] layers' n') (hn : n'.use? = some (name, d'))
    (hd : d = (scopesOf layers).depthOf? name) (hd' : d' = (scopesOf layers').depthOf? name) :
    DepthsAgree layers name d d' := by
  obtain heq | ⟨hnone, hmore, hglobal⟩ := h.alike.depthOf? h.ready name
  · exact .inl (by rw [hd', heq, hd])
  · refine .inr ⟨hd'.trans hnone, fun i hi => ?_⟩
    obtain ⟨hready, hlen⟩ := hglobal i (hd ▸ hi)
    refine ⟨hready, fun j layer hj hl => ?_⟩
    rw [hd', hnone] at hn
    have hinner := h.alike.not_declares (hu layers' n' name hs hn (h.declared name hmore))
    refine hinner layer (List.mem_iff_getElem?.mpr ⟨j, ?_⟩)
    rw [List.getElem?_dropLast, if_pos (by omega), hl]

/-- Uses in a program that is resolved alone find their names as they do where it is resolved behind other steps. -/
theorem usesAgree (hp : TwinSteps .same [⟨.program, []⟩] program program) (hu : Unshadowed first program)
    (D : Depth → Depth → Prop) (programs : List (List Node)) :
    UsesAgree D (Widened first more) programs [program] := by
  intro layers layers' n n' name d d' hw _ hs' hn hn' _ htwin
  have hd : d = (scopesOf layers).depthOf? name := htwin.resolved hn
  have hd' : d' = (scopesOf layers').depthOf? name := (hs'.twin hp hn').resolved hn'
  exact hw.depthsAgree hu hs' hn' hd hd'

end Widened

/-! ## One program behind another -/

/-- The steps behind some others are twins in the layers behind those. -/
theorem TwinSteps.drop {ns rest rest' : List Node} {layers : List Layer}
    (h : TwinSteps .same layers (ns ++ rest) (ns ++ rest')) : TwinSteps .same (behindAll layers ns) rest rest' := by
  induction ns generalizing layers with
  | nil => exact h
  | cons n ns ih =>
    cases h with
    | cons _ h => exact ih h

theorem Within.drop {program ns rest : List Node} {layers : List Layer} (h : Within program layers (ns ++ rest)) :
    Within program (behindAll layers ns) rest := by
  induction ns generalizing layers with
  | nil => exact h
  | cons n ns ih => exact ih h.next

/-- What is resolved behind a program is a twin of what is resolved alone, if no use of a name that the program declares
is shadowed later. -/
theorem TwinSteps.behind_program {first rest alone : List Node} (h : Node.AllSimilar rest alone)
    (hu : Unshadowed first alone) (hn : TwinSteps .same [⟨.program, []⟩] (first ++ rest) (first ++ rest))
    (hn' : TwinSteps .same [⟨.program, []⟩] alone alone) :
    TwinSteps ⟨fun _ _ => True, True⟩ (behindAll [⟨.program, []⟩] first) rest alone := by
  obtain ⟨names, hnames, hheld⟩ := behindAll_single .program first []
  have hdeclared : ∀ name b, names.get? name = some b → b = true ∧ ∃ m ∈ first, m.declares? = some name :=
    fun name b hb => (hheld name b hb).resolve_right fun h => by cases h
  have hw : Widened first names (behindAll [⟨.program, []⟩] first) [⟨.program, []⟩] := by
    rw [hnames]
    refine ⟨.program fun name => rfl, fun name b hb => (hdeclared name b hb).1, fun name hc => ?_⟩
    obtain ⟨b, hb⟩ := Table.contains_iff.mp hc
    exact (hdeclared name b hb).2
  exact .of_alike Widened.relation (Widened.usesAgree hn' hu (fun _ _ => True) [first ++ rest]) hw h
    ⟨_, List.mem_cons_self, Within.program.drop⟩ ⟨alone, List.mem_cons_self, .program⟩ hn.drop

end LoxLang
