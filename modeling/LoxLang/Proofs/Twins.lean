import LoxLang.Proofs.Places

/-!
# Twin trees

`Twin K layers n n'` says of two expressions, and `TwinStep K layers n n'` of two steps, that inside the layers `n` is
resolved, that the lines of `n'` are related to its own as the kinship `K` says, and that `n'` differs otherwise in how
some uses find their names only: a use that has a depth in `n` may have none in `n'`, provided that no scope nearer than
the one it is resolved to ever declares the name (`ReadsAlike`, `WritesAlike`). A resolved tree is its own twin, so that
what holds of two twins side by side holds of a single tree.
-/

namespace LoxLang

/-- How twins may differ. -/
structure Kinship where
  /-- The lines that belong together. -/
  lines : Line → Line → Prop
  /-- Names may be searched for in the second tree that are resolved in the first one. -/
  searches : Prop

namespace Kinship

/-- The lines are the same, and so are the depths. -/
def same : Kinship := ⟨Eq, False⟩

/-- The second kinship allows what the first one does. -/
structure Within (K K' : Kinship) : Prop where
  lines : ∀ {line line'}, K.lines line line' → K'.lines line line'
  searches : K.searches → K'.searches

theorem within_refl (K : Kinship) : K.Within K := ⟨id, id⟩

end Kinship

/-- The static scopes of layers. -/
abbrev scopesOf (layers : List Layer) : Scopes := layers.map (·.names)

/-- The values of literals. -/
def Value.IsLiteral : Value → Prop
  | .nil | .bool _ | .number _ | .string _ => True
  | _ => False

/-- The use is resolved to layer `i`, where the name is ready. -/
def ReadyAt (layers : List Layer) (name : String) (i : Nat) : Prop :=
  ∃ layer, layers[i]? = some layer ∧ layer.names.get? name = some true

/-- No layer nearer than layer `i` ever declares the name. -/
def FirstAt (layers : List Layer) (name : String) (i : Nat) : Prop :=
  ∀ j layer, j < i → layers[j]? = some layer → ¬ layer.opening.Declares name

/-- Two reads of a name: the first is resolved to a ready name, and the second has the same depth or none. -/
structure ReadsAlike (searches : Prop) (layers : List Layer) (name : String) (depth depth' : Depth) : Prop where
  resolved : depth = (scopesOf layers).depthOf? name
  ready : ∀ i, depth = some i → ReadyAt layers name i
  alike : depth' = depth ∨ searches ∧ depth' = none ∧ ∀ i, depth = some i → FirstAt layers name i

/-- Two writes to a name: the first is resolved, to a ready name if the second is searched for. -/
structure WritesAlike (searches : Prop) (layers : List Layer) (name : String) (depth depth' : Depth) : Prop where
  resolved : depth = (scopesOf layers).depthOf? name
  declares : ∀ i layer, depth = some i → layers[i]? = some layer → layer.opening.Declares name
  alike : depth' = depth ∨
    searches ∧ depth' = none ∧ ∀ i, depth = some i → ReadyAt layers name i ∧ FirstAt layers name i

/-- The construct of the innermost layer declares the name. -/
def Declarable (layers : List Layer) (name : String) : Prop :=
  ∃ layer outer, layers = layer :: outer ∧ layer.opening.Declares name

/-- The construct of the innermost layer declares the name, and the layer does not hold it yet. -/
structure Vacant (layers : List Layer) (name : String) : Prop where
  declarable : Declarable layers name
  unheld : (scopesOf layers).innermost.contains name = false

mutual

/-- The second expression is a twin of the first one, related by the kinship. -/
inductive Twin (K : Kinship) (layers : List Layer) : Node → Node → Prop
  | literal {v l l'} : K.lines l l' → v.IsLiteral → Twin K layers (.literal v l) (.literal v l')
  | grouping {n n' l l'} : K.lines l l' → Twin K layers n n' → Twin K layers (.grouping n l) (.grouping n' l')
  | unary {op n n' l l'} : K.lines l l' → Twin K layers n n' → Twin K layers (.unary op n l) (.unary op n' l')
  | binary {op a a' b b' l l'} : K.lines l l' → Twin K layers a a' → Twin K layers b b' →
      Twin K layers (.binary op a b l) (.binary op a' b' l')
  | logical {op a a' b b' l l'} : K.lines l l' → Twin K layers a a' → Twin K layers b b' →
      Twin K layers (.logical op a b l) (.logical op a' b' l')
  | var {name l l' d d'} : K.lines l l' → ReadsAlike K.searches layers name d d' →
      Twin K layers (.var name l d) (.var name l' d')
  | this {l l' d d'} : K.lines l l' → ReadsAlike K.searches layers "this" d d' → Twin K layers (.this l d) (.this l' d')
  | assign {name n n' l l' d d'} : K.lines l l' → Twin K layers n n' → WritesAlike K.searches layers name d d' →
      Twin K layers (.assign name n l d) (.assign name n' l' d')
  | call {n n' args args' l l'} : K.lines l l' → Twin K layers n n' → TwinAll K layers args args' →
      Twin K layers (.call n args l) (.call n' args' l')
  | get {n n' name l l'} : K.lines l l' → Twin K layers n n' → Twin K layers (.get n name l) (.get n' name l')
  | set {n n' name v v' l l'} : K.lines l l' → Twin K layers n n' → Twin K layers v v' →
      Twin K layers (.set n name v l) (.set n' name v' l')

inductive TwinAll (K : Kinship) (layers : List Layer) : List Node → List Node → Prop
  | nil : TwinAll K layers [] []
  | cons {n n' ns ns'} : Twin K layers n n' → TwinAll K layers ns ns' → TwinAll K layers (n :: ns) (n' :: ns')

end

mutual

/-- The second step is a twin of the first one, related by the kinship. -/
inductive TwinStep (K : Kinship) : List Layer → Node → Node → Prop
  | expression {layers n n'} : Twin K layers n n' → TwinStep K layers n n'
  | block {layers steps steps' l l'} : K.lines l l' → TwinSteps K (⟨.block steps l, []⟩ :: layers) steps steps' →
      TwinStep K layers (.block steps l) (.block steps' l')
  | letDecl {layers name n n' l l'} : K.lines l l' → Vacant layers name → Twin K (mark layers name false) n n' →
      TwinStep K layers (.letDecl name n l) (.letDecl name n' l')
  | function {layers name params body body' l l'} : K.lines l l' → Vacant layers name → params.Nodup →
      TwinStep K (Layer.ofParameters name params body :: mark layers name true) body body' →
      TwinStep K layers (.function name params body l) (.function name params body' l')
  | classDecl {layers name methods methods' l l'} : K.lines l l' → Vacant layers name →
      TwinMethods K (Layer.ofReceiver methods :: mark layers name true) methods methods' →
      TwinStep K layers (.classDecl name methods l) (.classDecl name methods' l')
  | print {layers n n' l l'} : K.lines l l' → Twin K layers n n' → TwinStep K layers (.print n l) (.print n' l')
  | ifThen {layers c c' t t' l l'} : K.lines l l' → Twin K layers c c' → TwinStep K layers t t' →
      TwinStep K layers (.ifElse c t .absent l) (.ifElse c' t' .absent l')
  | ifElse {layers c c' t t' e e' l l'} : K.lines l l' → Twin K layers c c' → TwinStep K layers t t' →
      TwinStep K layers e e' → TwinStep K layers (.ifElse c t e l) (.ifElse c' t' e' l')
  | whileLoop {layers c c' n n' l l'} : K.lines l l' → Twin K layers c c' → TwinStep K layers n n' →
      TwinStep K layers (.whileLoop c n l) (.whileLoop c' n' l')
  | returnNil {layers l l'} : K.lines l l' → TwinStep K layers (.returnStep .absent l) (.returnStep .absent l')
  | returnValue {layers n n' l l'} : K.lines l l' → Twin K layers n n' →
      TwinStep K layers (.returnStep n l) (.returnStep n' l')

inductive TwinSteps (K : Kinship) : List Layer → List Node → List Node → Prop
  | nil {layers} : TwinSteps K layers [] []
  | cons {layers n n' ns ns'} : TwinStep K layers n n' → TwinSteps K (behind layers n) ns ns' →
      TwinSteps K layers (n :: ns) (n' :: ns')

/-- Methods inside the layers around their parameters. -/
inductive TwinMethods (K : Kinship) : List Layer → List Node → List Node → Prop
  | nil {layers} : TwinMethods K layers [] []
  | cons {layers name params body body' l l' ns ns'} : K.lines l l' → params.Nodup →
      TwinStep K (Layer.ofParameters name params body :: layers) body body' → TwinMethods K layers ns ns' →
      TwinMethods K layers (.function name params body l :: ns) (.function name params body' l' :: ns')

end

theorem Twin.present {K : Kinship} {layers : List Layer} {n n' : Node} (h : Twin K layers n n') :
    n.isAbsent = false ∧ n'.isAbsent = false := by
  cases h <;> exact ⟨rfl, rfl⟩

theorem TwinStep.present {K : Kinship} {layers : List Layer} {n n' : Node} (h : TwinStep K layers n n') :
    n.isAbsent = false ∧ n'.isAbsent = false := by
  cases h with
  | expression h => exact h.present
  | _ => exact ⟨rfl, rfl⟩

theorem TwinAll.length_eq {K : Kinship} {layers : List Layer} :
    ∀ {ns ns'}, TwinAll K layers ns ns' → ns'.length = ns.length
  | _, _, .nil => rfl
  | _, _, .cons _ h => congrArg (· + 1) h.length_eq

/-! ## Wider kinships -/

section Wider

variable {K K' : Kinship} {searches searches' : Prop} {layers : List Layer} {name : String} {d d' : Depth}

theorem ReadsAlike.mono (hs : searches → searches') (h : ReadsAlike searches layers name d d') :
    ReadsAlike searches' layers name d d' :=
  { h with alike := h.alike.imp_right (And.imp_left hs) }

theorem WritesAlike.mono (hs : searches → searches') (h : WritesAlike searches layers name d d') :
    WritesAlike searches' layers name d d' :=
  { h with alike := h.alike.imp_right (And.imp_left hs) }

mutual

/-- Twins stay twins when more may differ. -/
theorem Twin.mono (hK : K.Within K') {layers : List Layer} : ∀ {n n'}, Twin K layers n n' →
    Twin K' layers n n'
  | _, _, .literal l hv => .literal (hK.lines l) hv
  | _, _, .grouping l hn => .grouping (hK.lines l) (hn.mono hK)
  | _, _, .unary l hn => .unary (hK.lines l) (hn.mono hK)
  | _, _, .binary l ha hb => .binary (hK.lines l) (ha.mono hK) (hb.mono hK)
  | _, _, .logical l ha hb => .logical (hK.lines l) (ha.mono hK) (hb.mono hK)
  | _, _, .var l hd => .var (hK.lines l) (hd.mono hK.searches)
  | _, _, .this l hd => .this (hK.lines l) (hd.mono hK.searches)
  | _, _, .assign l hn hd => .assign (hK.lines l) (hn.mono hK) (hd.mono hK.searches)
  | _, _, .call l hn hargs => .call (hK.lines l) (hn.mono hK) (hargs.mono hK)
  | _, _, .get l hn => .get (hK.lines l) (hn.mono hK)
  | _, _, .set l hn hv => .set (hK.lines l) (hn.mono hK) (hv.mono hK)

theorem TwinAll.mono (hK : K.Within K') {layers : List Layer} : ∀ {ns ns'}, TwinAll K layers ns ns' →
    TwinAll K' layers ns ns'
  | _, _, .nil => .nil
  | _, _, .cons hn hns => .cons (hn.mono hK) (hns.mono hK)

end

mutual

theorem TwinStep.mono (hK : K.Within K') : ∀ {layers n n'}, TwinStep K layers n n' →
    TwinStep K' layers n n'
  | _, _, _, .expression hn => .expression (hn.mono hK)
  | _, _, _, .block l hs => .block (hK.lines l) (hs.mono hK)
  | _, _, _, .letDecl l hd hn => .letDecl (hK.lines l) hd (hn.mono hK)
  | _, _, _, .function l hd hp hb => .function (hK.lines l) hd hp (hb.mono hK)
  | _, _, _, .classDecl l hd hm => .classDecl (hK.lines l) hd (hm.mono hK)
  | _, _, _, .print l hn => .print (hK.lines l) (hn.mono hK)
  | _, _, _, .ifThen l hc ht => .ifThen (hK.lines l) (hc.mono hK) (ht.mono hK)
  | _, _, _, .ifElse l hc ht he => .ifElse (hK.lines l) (hc.mono hK) (ht.mono hK) (he.mono hK)
  | _, _, _, .whileLoop l hc hb => .whileLoop (hK.lines l) (hc.mono hK) (hb.mono hK)
  | _, _, _, .returnNil l => .returnNil (hK.lines l)
  | _, _, _, .returnValue l hn => .returnValue (hK.lines l) (hn.mono hK)

theorem TwinSteps.mono (hK : K.Within K') : ∀ {layers ns ns'}, TwinSteps K layers ns ns' →
    TwinSteps K' layers ns ns'
  | _, _, _, .nil => .nil
  | _, _, _, .cons hn hns => .cons (hn.mono hK) (hns.mono hK)

theorem TwinMethods.mono (hK : K.Within K') : ∀ {layers ns ns'}, TwinMethods K layers ns ns' →
    TwinMethods K' layers ns ns'
  | _, _, _, .nil => .nil
  | _, _, _, .cons l hp hb hns => .cons (hK.lines l) hp (hb.mono hK) (hns.mono hK)

end

end Wider

end LoxLang
