import LoxLang.Proofs.Twins

/-!
# Alike trees

Trees that are the same apart from lines and depths are twins if the first one is resolved and every use in the second
one finds its name as the use in the first one does (`TwinStep.of_alike`).
-/

namespace LoxLang

mutual

/-- Trees that are the same apart from lines and depths, which are related by `L` and `D`. -/
inductive Node.Alike (L : Line → Line → Prop) (D : Depth → Depth → Prop) : Node → Node → Prop
  | literal {v l l'} : L l l' → Alike L D (.literal v l) (.literal v l')
  | grouping {n n' l l'} : L l l' → Alike L D n n' → Alike L D (.grouping n l) (.grouping n' l')
  | unary {op n n' l l'} : L l l' → Alike L D n n' → Alike L D (.unary op n l) (.unary op n' l')
  | binary {op a a' b b' l l'} : L l l' → Alike L D a a' → Alike L D b b' →
      Alike L D (.binary op a b l) (.binary op a' b' l')
  | logical {op a a' b b' l l'} : L l l' → Alike L D a a' → Alike L D b b' →
      Alike L D (.logical op a b l) (.logical op a' b' l')
  | var {name l l' d d'} : L l l' → D d d' → Alike L D (.var name l d) (.var name l' d')
  | assign {name n n' l l' d d'} : L l l' → D d d' → Alike L D n n' →
      Alike L D (.assign name n l d) (.assign name n' l' d')
  | this {l l' d d'} : L l l' → D d d' → Alike L D (.this l d) (.this l' d')
  | call {n n' args args' l l'} : L l l' → Alike L D n n' → AllAlike L D args args' →
      Alike L D (.call n args l) (.call n' args' l')
  | get {n n' name l l'} : L l l' → Alike L D n n' → Alike L D (.get n name l) (.get n' name l')
  | set {n n' name v v' l l'} : L l l' → Alike L D n n' → Alike L D v v' →
      Alike L D (.set n name v l) (.set n' name v' l')
  | block {steps steps' l l'} : L l l' → AllAlike L D steps steps' → Alike L D (.block steps l) (.block steps' l')
  | letDecl {name n n' l l'} : L l l' → Alike L D n n' → Alike L D (.letDecl name n l) (.letDecl name n' l')
  | print {n n' l l'} : L l l' → Alike L D n n' → Alike L D (.print n l) (.print n' l')
  | ifElse {c c' t t' e e' l l'} : L l l' → Alike L D c c' → Alike L D t t' → Alike L D e e' →
      Alike L D (.ifElse c t e l) (.ifElse c' t' e' l')
  | whileLoop {c c' n n' l l'} : L l l' → Alike L D c c' → Alike L D n n' →
      Alike L D (.whileLoop c n l) (.whileLoop c' n' l')
  | function {name params n n' l l'} : L l l' → Alike L D n n' →
      Alike L D (.function name params n l) (.function name params n' l')
  | returnStep {n n' l l'} : L l l' → Alike L D n n' → Alike L D (.returnStep n l) (.returnStep n' l')
  | classDecl {name ns ns' l l'} : L l l' → AllAlike L D ns ns' →
      Alike L D (.classDecl name ns l) (.classDecl name ns' l')
  | absent : Alike L D .absent .absent

inductive Node.AllAlike (L : Line → Line → Prop) (D : Depth → Depth → Prop) : List Node → List Node → Prop
  | nil : AllAlike L D [] []
  | cons {n n' ns ns'} : Alike L D n n' → AllAlike L D ns ns' → AllAlike L D (n :: ns) (n' :: ns')

end

namespace Node

variable {L : Line → Line → Prop} {D : Depth → Depth → Prop}

theorem Alike.declares?_eq {n n' : Node} (h : n.Alike L D n') : n'.declares? = n.declares? := by
  cases h <;> rfl

theorem AllAlike.map_declares? {ns ns' : List Node} (h : AllAlike L D ns ns') :
    ns'.map declares? = ns.map declares? := by
  induction ns generalizing ns' with
  | nil => cases h; rfl
  | cons n ns ih =>
    cases h with
    | cons hn hns => rw [List.map_cons, List.map_cons, hn.declares?_eq, ih hns]

theorem AllAlike.mem {ns ns' : List Node} (h : AllAlike L D ns ns') {n : Node} (hn : n ∈ ns) :
    ∃ n' ∈ ns', n.Alike L D n' := by
  induction ns generalizing ns' with
  | nil => cases hn
  | cons m ns ih =>
    cases h with
    | @cons _ m' _ ns' hm hns =>
      obtain rfl | hn := List.mem_cons.mp hn
      · exact ⟨m', List.mem_cons_self, hm⟩
      · obtain ⟨n', hn', h⟩ := ih hns hn
        exact ⟨n', List.mem_cons_of_mem m' hn', h⟩

/-- Alike nodes have alike parts. -/
theorem Alike.parts {n n' : Node} (h : n.Alike L D n') : AllAlike L D n.parts n'.parts := by
  cases h with
  | grouping _ h | unary _ h | assign _ _ h | get _ h | print _ h | returnStep _ h => exact .cons h .nil
  | binary _ h g | logical _ h g | set _ h g | whileLoop _ h g => exact .cons h (.cons g .nil)
  | ifElse _ h₁ h₂ h₃ => exact .cons h₁ (.cons h₂ (.cons h₃ .nil))
  | call _ h g => exact .cons h g
  | _ => exact .nil

/-- The name that a use is about, and its depth. -/
def use? : Node → Option (String × Depth)
  | var name _ depth | assign name _ _ depth => some (name, depth)
  | this _ depth => some ("this", depth)
  | _ => none

end Node

/-- Trees that are the same apart from lines and depths. -/
abbrev Node.Similar : Node → Node → Prop := Node.Alike (fun _ _ => True) fun _ _ => True

abbrev Node.AllSimilar : List Node → List Node → Prop := Node.AllAlike (fun _ _ => True) fun _ _ => True

/-! ## Uses that find their names alike -/

/-- Two uses of a name have the same depth, or the second has none, and counting for the first ends at a ready name that
nothing nearer declares. -/
def DepthsAgree (layers : List Layer) (name : String) (d d' : Depth) : Prop :=
  d' = d ∨ d' = none ∧ ∀ i, d = some i → ReadyAt layers name i ∧ FirstAt layers name i

theorem ReadsAlike.withDepth {searches : Prop} {layers : List Layer} {name : String} {d d' : Depth}
    (h : ReadsAlike searches layers name d d) (hd : DepthsAgree layers name d d') : ReadsAlike True layers name d d' :=
  ⟨h.resolved, h.ready, hd.imp_right fun ⟨hnone, hi⟩ => ⟨trivial, hnone, fun i hd => (hi i hd).2⟩⟩

theorem WritesAlike.withDepth {searches : Prop} {layers : List Layer} {name : String} {d d' : Depth}
    (h : WritesAlike searches layers name d d) (hd : DepthsAgree layers name d d') :
    WritesAlike True layers name d d' :=
  ⟨h.resolved, h.declares, hd.imp_right fun hnone => ⟨trivial, hnone⟩⟩

/-- A relation between the layers around two places that is kept on the way into alike steps. -/
structure LayerRelation (L : Line → Line → Prop) (D : Depth → Depth → Prop)
    (Rel : List Layer → List Layer → Prop) : Prop where
  mark : ∀ {layers layers'} name ready, Rel layers layers' → Rel (mark layers name ready) (mark layers' name ready)
  block : ∀ {layers layers' steps steps'} l l', Node.AllAlike L D steps steps' → Rel layers layers' →
    Rel (⟨.block steps l, []⟩ :: layers) (⟨.block steps' l', []⟩ :: layers')
  parameters : ∀ {layers layers'} name params body body', Rel layers layers' →
    Rel (Layer.ofParameters name params body :: layers) (Layer.ofParameters name params body' :: layers')
  receiver : ∀ {layers layers'} methods methods', Rel layers layers' →
    Rel (Layer.ofReceiver methods :: layers) (Layer.ofReceiver methods' :: layers')

/-- Any two places. -/
theorem LayerRelation.any (L : Line → Line → Prop) (D : Depth → Depth → Prop) :
    LayerRelation L D fun _ _ => True :=
  ⟨fun _ _ _ => trivial, fun _ _ _ _ => trivial, fun _ _ _ _ _ => trivial, fun _ _ _ => trivial⟩

theorem LayerRelation.behind {L : Line → Line → Prop} {D : Depth → Depth → Prop}
    {Rel : List Layer → List Layer → Prop} (h : LayerRelation L D Rel) {layers layers' : List Layer} {n n' : Node}
    (hn : n.Alike L D n') (hl : Rel layers layers') : Rel (behind layers n) (behind layers' n') := by
  unfold LoxLang.behind
  rw [hn.declares?_eq]
  cases n.declares? with
  | none => exact hl
  | some name => exact h.mark name true hl

/-- Where nodes stand in a program, alike ones stand in a program that is alike. -/
theorem Within.alike {L : Line → Line → Prop} {D : Depth → Depth → Prop} {Rel : List Layer → List Layer → Prop}
    (hr : LayerRelation L D Rel) {program program' : List Node} (hp : Node.AllAlike L D program program')
    (h₀ : Rel [⟨.program, []⟩] [⟨.program, []⟩]) {layers : List Layer} {ns : List Node}
    (h : Within program layers ns) :
    ∃ layers' ns', Within program' layers' ns' ∧ Node.AllAlike L D ns ns' ∧ Rel layers layers' := by
  -- on the way into the program; the same way through the alike one leads to the alike nodes
  induction h with
  | program => exact ⟨_, _, .program, hp, h₀⟩
  | next _ ih =>
    obtain ⟨layers', ns', hw, ha, hl⟩ := ih
    cases ha with
    | cons hn hns => exact ⟨_, _, hw.next, hns, hr.behind hn hl⟩
  | part _ hi ih =>
    obtain ⟨layers', ns', hw, ha, hl⟩ := ih
    cases ha with
    | cons hn =>
      obtain ⟨inner', hi', hinner⟩ := hn.parts.mem hi
      exact ⟨_, _, hw.part hi', .cons hinner .nil, hl⟩
  | initializer _ ih =>
    obtain ⟨layers', ns', hw, ha, hl⟩ := ih
    cases ha with
    | cons hn =>
      cases hn with
      | letDecl _ hn => exact ⟨_, _, hw.initializer, .cons hn .nil, hr.mark _ false hl⟩
  | block _ ih =>
    obtain ⟨layers', ns', hw, ha, hl⟩ := ih
    cases ha with
    | cons hn =>
      cases hn with
      | block _ hs => exact ⟨_, _, hw.block, hs, hr.block _ _ hs hl⟩
  | body _ ih =>
    obtain ⟨layers', ns', hw, ha, hl⟩ := ih
    cases ha with
    | cons hn =>
      cases hn with
      | function _ hb => exact ⟨_, _, hw.body, .cons hb .nil, hr.parameters _ _ _ _ (hr.mark _ true hl)⟩
  | method _ hm ih =>
    obtain ⟨layers', ns', hw, ha, hl⟩ := ih
    cases ha with
    | cons hn =>
      cases hn with
      | classDecl _ hmethods =>
        obtain ⟨method', hm', hmethod⟩ := hmethods.mem hm
        cases hmethod with
        | function _ hb =>
          exact ⟨_, _, hw.method hm', .cons hb .nil, hr.parameters _ _ _ _ (hr.receiver _ _ (hr.mark _ true hl))⟩

/-- Wherever two uses of a name stand in programs inside related layers, they find the name alike. -/
def UsesAgree (D : Depth → Depth → Prop) (Rel : List Layer → List Layer → Prop)
    (programs programs' : List (List Node)) :
    Prop :=
  ∀ {layers layers' n n' name d d'}, Rel layers layers' → Stands programs layers n → Stands programs' layers' n' →
    n.use? = some (name, d) → n'.use? = some (name, d') → D d d' → Twin .same layers n n → DepthsAgree layers name d d'

/-! ## Twins -/

section Twins

variable {L : Line → Line → Prop} {D : Depth → Depth → Prop} {Rel : List Layer → List Layer → Prop}
  {programs programs' : List (List Node)} {layers layers' : List Layer}

mutual

/-- An expression is a twin of an alike one that is resolved, if their uses find their names alike. -/
theorem Twin.of_alike (hu : UsesAgree D Rel programs programs') (hl : Rel layers layers') {n n' : Node}
    (h : n.Alike L D n') (hs : Stands programs layers n) (hs' : Stands programs' layers' n')
    (hn : Twin .same layers n n) : Twin ⟨L, True⟩ layers n n' := by
  cases hn with
  | literal _ hv =>
    cases h with
    | literal l => exact .literal l hv
  | grouping _ hn =>
    cases h with
    | grouping l h =>
      exact .grouping l (Twin.of_alike hu hl h (hs.part (by simp [Node.parts])) (hs'.part (by simp [Node.parts])) hn)
  | unary _ hn =>
    cases h with
    | unary l h =>
      exact .unary l (Twin.of_alike hu hl h (hs.part (by simp [Node.parts])) (hs'.part (by simp [Node.parts])) hn)
  | binary _ ha hb =>
    cases h with
    | binary l h g =>
      exact .binary l
        (Twin.of_alike hu hl h (hs.part (by simp [Node.parts])) (hs'.part (by simp [Node.parts])) ha)
        (Twin.of_alike hu hl g (hs.part (by simp [Node.parts])) (hs'.part (by simp [Node.parts])) hb)
  | logical _ ha hb =>
    cases h with
    | logical l h g =>
      exact .logical l
        (Twin.of_alike hu hl h (hs.part (by simp [Node.parts])) (hs'.part (by simp [Node.parts])) ha)
        (Twin.of_alike hu hl g (hs.part (by simp [Node.parts])) (hs'.part (by simp [Node.parts])) hb)
  | var hl' hd =>
    cases h with
    | var l d => exact .var l (hd.withDepth (hu hl hs hs' rfl rfl d (.var hl' hd)))
  | this hl' hd =>
    cases h with
    | this l d => exact .this l (hd.withDepth (hu hl hs hs' rfl rfl d (.this hl' hd)))
  | assign hl' hn hd =>
    cases h with
    | assign l d h =>
      exact .assign l
        (Twin.of_alike hu hl h (hs.part (by simp [Node.parts])) (hs'.part (by simp [Node.parts])) hn)
        (hd.withDepth (hu hl hs hs' rfl rfl d (.assign hl' hn hd)))
  | call _ hn hargs =>
    cases h with
    | call l h g =>
      exact .call l
        (Twin.of_alike hu hl h (hs.part (by simp [Node.parts])) (hs'.part (by simp [Node.parts])) hn)
        (TwinAll.of_alike hu hl g (fun a ha => hs.part (by simp [Node.parts, ha]))
          (fun a ha => hs'.part (by simp [Node.parts, ha])) hargs)
  | get _ hn =>
    cases h with
    | get l h =>
      exact .get l (Twin.of_alike hu hl h (hs.part (by simp [Node.parts])) (hs'.part (by simp [Node.parts])) hn)
  | set _ hn hv =>
    cases h with
    | set l h g =>
      exact .set l
        (Twin.of_alike hu hl h (hs.part (by simp [Node.parts])) (hs'.part (by simp [Node.parts])) hn)
        (Twin.of_alike hu hl g (hs.part (by simp [Node.parts])) (hs'.part (by simp [Node.parts])) hv)

theorem TwinAll.of_alike (hu : UsesAgree D Rel programs programs') (hl : Rel layers layers') {ns ns' : List Node}
    (h : Node.AllAlike L D ns ns') (hs : ∀ n ∈ ns, Stands programs layers n)
    (hs' : ∀ n ∈ ns', Stands programs' layers' n) (hn : TwinAll .same layers ns ns) :
    TwinAll ⟨L, True⟩ layers ns ns' := by
  cases h with
  | nil => exact .nil
  | cons h g =>
    cases hn with
    | cons hn hns =>
      exact .cons (Twin.of_alike hu hl h (hs _ List.mem_cons_self) (hs' _ List.mem_cons_self) hn)
        (TwinAll.of_alike hu hl g (fun n hn => hs n (List.mem_cons_of_mem _ hn))
          (fun n hn => hs' n (List.mem_cons_of_mem _ hn)) hns)

end

mutual

/-- A step is a twin of an alike one that is resolved, if their uses find their names alike. -/
theorem TwinStep.of_alike (hr : LayerRelation L D Rel) (hu : UsesAgree D Rel programs programs')
    {layers layers' : List Layer} {n n' : Node} (hl : Rel layers layers') (h : n.Alike L D n')
    (hs : Stands programs layers n) (hs' : Stands programs' layers' n') (hn : TwinStep .same layers n n) :
    TwinStep ⟨L, True⟩ layers n n' := by
  cases hn with
  | expression hn => exact .expression (Twin.of_alike hu hl h hs hs' hn)
  | block _ hn =>
    cases h with
    | block l h => exact .block l (TwinSteps.of_alike hr hu (hr.block _ _ h hl) h hs.block hs'.block hn)
  | letDecl _ hd hn =>
    cases h with
    | letDecl l h => exact .letDecl l hd (Twin.of_alike hu (hr.mark _ false hl) h hs.initializer hs'.initializer hn)
  | function _ hd hp hn =>
    cases h with
    | function l h =>
      exact .function l hd hp
        (TwinStep.of_alike hr hu (hr.parameters _ _ _ _ (hr.mark _ true hl)) h hs.body hs'.body hn)
  | classDecl _ hd hn =>
    cases h with
    | classDecl l h =>
      exact .classDecl l hd (TwinMethods.of_alike hr hu (hr.receiver _ _ (hr.mark _ true hl)) h (fun hm => hs.method hm)
        (fun hm => hs'.method hm) hn)
  | print _ hn =>
    cases h with
    | print l h =>
      exact .print l (Twin.of_alike hu hl h (hs.part (by simp [Node.parts])) (hs'.part (by simp [Node.parts])) hn)
  | ifThen _ hc ht =>
    cases h with
    | ifElse l h₁ h₂ h₃ =>
      cases h₃ with
      | absent =>
        exact .ifThen l
          (Twin.of_alike hu hl h₁ (hs.part (by simp [Node.parts])) (hs'.part (by simp [Node.parts])) hc)
          (TwinStep.of_alike hr hu hl h₂ (hs.part (by simp [Node.parts])) (hs'.part (by simp [Node.parts])) ht)
  | ifElse _ hc ht he =>
    cases h with
    | ifElse l h₁ h₂ h₃ =>
      exact .ifElse l
        (Twin.of_alike hu hl h₁ (hs.part (by simp [Node.parts])) (hs'.part (by simp [Node.parts])) hc)
        (TwinStep.of_alike hr hu hl h₂ (hs.part (by simp [Node.parts])) (hs'.part (by simp [Node.parts])) ht)
        (TwinStep.of_alike hr hu hl h₃ (hs.part (by simp [Node.parts])) (hs'.part (by simp [Node.parts])) he)
  | whileLoop _ hc hb =>
    cases h with
    | whileLoop l h₁ h₂ =>
      exact .whileLoop l
        (Twin.of_alike hu hl h₁ (hs.part (by simp [Node.parts])) (hs'.part (by simp [Node.parts])) hc)
        (TwinStep.of_alike hr hu hl h₂ (hs.part (by simp [Node.parts])) (hs'.part (by simp [Node.parts])) hb)
  | returnNil =>
    cases h with
    | returnStep l h =>
      cases h with
      | absent => exact .returnNil l
  | returnValue _ hn =>
    cases h with
    | returnStep l h =>
      exact .returnValue l
        (Twin.of_alike hu hl h (hs.part (by simp [Node.parts])) (hs'.part (by simp [Node.parts])) hn)

theorem TwinSteps.of_alike (hr : LayerRelation L D Rel) (hu : UsesAgree D Rel programs programs')
    {layers layers' : List Layer} {ns ns' : List Node} (hl : Rel layers layers') (h : Node.AllAlike L D ns ns')
    (hs : StandTogether programs layers ns) (hs' : StandTogether programs' layers' ns')
    (hn : TwinSteps .same layers ns ns) : TwinSteps ⟨L, True⟩ layers ns ns' := by
  cases h with
  | nil => exact .nil
  | cons h g =>
    cases hn with
    | cons hn hns =>
      exact .cons (TwinStep.of_alike hr hu hl h hs.head hs'.head hn)
        (TwinSteps.of_alike hr hu (hr.behind h hl) g hs.tail hs'.tail hns)

theorem TwinMethods.of_alike (hr : LayerRelation L D Rel) (hu : UsesAgree D Rel programs programs')
    {layers layers' : List Layer} {ns ns' : List Node} (hl : Rel layers layers') (h : Node.AllAlike L D ns ns')
    (hs : ∀ {name params body line}, .function name params body line ∈ ns →
      Stands programs (Layer.ofParameters name params body :: layers) body)
    (hs' : ∀ {name params body line}, .function name params body line ∈ ns' →
      Stands programs' (Layer.ofParameters name params body :: layers') body)
    (hn : TwinMethods .same layers ns ns) : TwinMethods ⟨L, True⟩ layers ns ns' := by
  cases h with
  | nil => exact .nil
  | cons h g =>
    cases hn with
    | cons _ hp hn hns =>
      cases h with
      | function l h =>
        exact .cons l hp
          (TwinStep.of_alike hr hu (hr.parameters _ _ _ _ hl) h (hs List.mem_cons_self) (hs' List.mem_cons_self) hn)
          (TwinMethods.of_alike hr hu hl g (fun hm => hs (List.mem_cons_of_mem _ hm))
            (fun hm => hs' (List.mem_cons_of_mem _ hm)) hns)

end

end Twins

end LoxLang
