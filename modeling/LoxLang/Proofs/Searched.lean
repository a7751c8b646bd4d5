import Mathlib
import LoxLang.Proofs.AllPlaces
import LoxLang.Proofs.Sessions
import LoxLang.Proofs.Standing

/-!
# Names that are resolved and names that are searched for

A program can be run as it is parsed: then every use searches the chain of frames for its name. If every scope other
than the global one declares its names in front of their uses, and no initializer assigns to the variable it is for
(`DeclaredFirst`), the parsed program is a twin of the resolved one, and both run alike
(`Session.resolved_agrees_with_searched`).
-/

namespace LoxLang

/-! ## The tree that is resolved -/

/-- A resolved tree is that of the parser, but for the depths of its uses. -/
abbrev Node.Resolves : Node → Node → Prop := Node.Alike Eq fun _ depth => depth = none

abbrev Node.AllResolve : List Node → List Node → Prop := Node.AllAlike Eq fun _ depth => depth = none

section Resolves

variable {inClass : Bool}

theorem resolveAll_resolves : ∀ {ns : List Node} (_ : ∀ n ∈ ns, ∀ s, (Node.resolve inClass n).Yields s
    fun n' _ => n'.Resolves n) (s : Scopes), (Node.resolveAll inClass ns).Yields s fun ns' _ => Node.AllResolve ns' ns
  | [], _, _ => .pure .nil
  | n :: ns, h, s => by
    rw [Node.resolveAll]
    refine .bind (h n List.mem_cons_self s) fun n' s' hn => ?_
    exact .bind (resolveAll_resolves (fun m hm => h m (List.mem_cons_of_mem n hm)) s') fun ns' _ hns =>
      .pure (.cons hn hns)

theorem Resolve.Yields.inScope {α : Type} {x : Resolve α} {Q : α → Prop} (h : ∀ s, x.Yields s fun a _ => Q a)
    (s : Scopes) : (Resolve.inScope x).Yields s fun a _ => Q a :=
  .bind_any fun _ s' => .bind (h s') fun _ _ ha => .bind_any fun _ _ => .pure ha

theorem resolveMethods_resolves {methods : List Node} (hm : ∀ n ∈ methods, n.functionName?.isSome)
    (h : ∀ name params body line, .function name params body line ∈ methods →
      ∀ s, (Node.resolve true body).Yields s fun n' _ => n'.Resolves body) (s : Scopes) :
    (Node.resolveMethods methods).Yields s fun methods' _ => Node.AllResolve methods' methods := by
  induction methods generalizing s with
  | nil => exact .pure .nil
  | cons n methods ih =>
    have hn := hm n List.mem_cons_self
    cases n with
    | function name params body line =>
      rw [Node.resolveMethods]
      refine .bind (.inScope (fun _ => .bind_any fun _ s' => h name params body line List.mem_cons_self s') s)
        fun body' s' hb => ?_
      refine .bind (ih (fun m hm' => hm m (List.mem_cons_of_mem _ hm')) (fun _ _ _ _ hm' =>
        h _ _ _ _ (List.mem_cons_of_mem _ hm')) s') fun methods' _ hrest => ?_
      exact .pure (.cons (.function rfl hb) hrest)
    | _ => cases hn

theorem IsExpression.resolves {n : Node} (h : IsExpression n) (s : Scopes) :
    (Node.resolve inClass n).Yields s fun n' _ => n'.Resolves n := by
  induction h generalizing s with
  | literal => rw [Node.resolve]; exact .pure (.literal rfl)
  | grouping _ ih => rw [Node.resolve]; exact .bind (ih s) fun _ _ h => .pure (.grouping rfl h)
  | unary _ ih => rw [Node.resolve]; exact .bind (ih s) fun _ _ h => .pure (.unary rfl h)
  | binary _ _ iha ihb =>
    rw [Node.resolve]
    exact .bind (iha s) fun _ s' ha => .bind (ihb s') fun _ _ hb => .pure (.binary rfl ha hb)
  | logical _ _ iha ihb =>
    rw [Node.resolve]
    exact .bind (iha s) fun _ s' ha => .bind (ihb s') fun _ _ hb => .pure (.logical rfl ha hb)
  | var => rw [Node.resolve]; exact .bind_any fun _ _ => .bind_any fun _ _ => .pure (.var rfl rfl)
  | this => rw [Node.resolve]; exact .bind_any fun _ _ => .bind_any fun _ _ => .pure (.this rfl rfl)
  | assign _ _ ih =>
    rw [Node.resolve]
    exact .bind (ih s) fun _ _ h => .bind_any fun _ _ => .pure (.assign rfl rfl h)
  | call _ _ ih ihargs =>
    rw [Node.resolve]
    exact .bind (ih s) fun _ s' h => .bind (resolveAll_resolves ihargs s') fun _ _ hargs => .pure (.call rfl h hargs)
  | get _ ih => rw [Node.resolve]; exact .bind (ih s) fun _ _ h => .pure (.get rfl h)
  | set _ _ ihn ihv =>
    rw [Node.resolve]
    exact .bind (ihv s) fun _ s' hv => .bind (ihn s') fun _ _ hn => .pure (.set rfl hn hv)

theorem IsStep.resolves {n : Node} (h : IsStep n) (inClass : Bool) (s : Scopes) :
    (Node.resolve inClass n).Yields s fun n' _ => n'.Resolves n := by
  induction h generalizing inClass s with
  | expression h => exact h.resolves s
  | block _ ih =>
    rw [Node.resolve]
    exact .bind (.inScope (resolveAll_resolves fun n hn => ih n hn inClass) s) fun _ _ h => .pure (.block rfl h)
  | letDecl _ hn =>
    rw [Node.resolve]
    exact .bind_any fun _ s' => .bind (hn.resolves s') fun _ _ h => .bind_any fun _ _ => .pure (.letDecl rfl h)
  | function _ _ _ _ ih =>
    rw [Node.resolve]
    exact .bind_any fun _ _ => .bind_any fun _ s' =>
      .bind (.inScope (fun _ => .bind_any fun _ s => ih inClass s) s') fun _ _ h => .pure (.function rfl h)
  | classDecl _ hm _ _ ih =>
    rw [Node.resolve]
    refine .bind_any fun _ _ => .bind_any fun _ s' => .bind (.inScope (fun _ => .bind_any fun _ s => ?_) s')
      fun _ _ h => .pure (.classDecl rfl h)
    exact resolveMethods_resolves hm (fun name params body line hmem => ih name params body line hmem true) s
  | print hn => rw [Node.resolve]; exact .bind (hn.resolves s) fun _ _ h => .pure (.print rfl h)
  | ifThen hc _ _ iht =>
    rw [Node.resolve]
    refine .bind (hc.resolves s) fun _ s' hc => .bind (iht inClass s') fun _ _ ht => ?_
    rw [Node.resolve]
    exact .pure (.ifElse rfl hc ht .absent)
  | ifElse hc _ _ _ _ iht ihe =>
    rw [Node.resolve]
    exact .bind (hc.resolves s) fun _ s' hc => .bind (iht inClass s') fun _ s' ht =>
      .bind (ihe inClass s') fun _ _ he => .pure (.ifElse rfl hc ht he)
  | whileLoop hc _ _ ihb =>
    rw [Node.resolve]
    exact .bind (hc.resolves s) fun _ s' hc => .bind (ihb inClass s') fun _ _ hb => .pure (.whileLoop rfl hc hb)
  | returnNil => rw [Node.resolve, Node.resolve]; exact .pure (.returnStep rfl .absent)
  | returnValue hn => rw [Node.resolve]; exact .bind (hn.resolves s) fun _ _ h => .pure (.returnStep rfl h)

end Resolves

theorem resolve_resolves {steps resolved : List Node} (h : ∀ n ∈ steps, IsStep n) (hr : resolve steps = .ok resolved) :
    Node.AllResolve resolved steps := by
  unfold resolve at hr
  cases hrun : (Node.resolveAll false steps).run Scopes.initial with
  | error fault => rw [hrun] at hr; cases hr
  | ok result =>
    rw [hrun] at hr
    cases hr
    exact resolveAll_resolves (fun n hn => (h n hn).resolves false) _ _ _ hrun

/-! ## Declarations in front of uses -/

/-- No initializer assigns to the variable it is for, and a scope other than the global one that declares a name
declares it in front of every use of the name inside the scope. -/
structure DeclaredFirst (program : List Node) : Prop where
  initializers : ∀ layers name init line value line' depth, Stands [program] layers (.letDecl name init line) →
    ¬ init.Inside (.assign name value line' depth)
  uses : ∀ layers n name depth, Stands [program] layers n → n.use? = some (name, depth) →
    ∀ layer ∈ layers.dropLast, layer.opening.Declares name → layer.names.contains name = true

/-- The name that an assignment is about. -/
def Node.assigns? : Node → Option String
  | .assign name .. => some name
  | _ => none

/-- The node declares a variable whose initializer assigns to it. -/
def Node.assignsItself : Node → Bool
  | .letDecl name init _ => (init.places []).any fun place => place.2.assigns? = some name
  | _ => false

/-- What is inside a node is listed among its places. -/
theorem Node.Inside.mem_places {n inner : Node} (h : n.Inside inner) (layers : List Layer) :
    (layers, inner) ∈ n.places layers := by
  have hsubset : inner.places layers ⊆ n.places layers := by
    induction h with
    | refl => exact List.Subset.refl _
    | tail _ hp ih => exact List.Subset.trans (places_subset_of_part hp) ih
  exact hsubset (inner.mem_places_self layers)

/-- What holds at every listed place of a program holds at its uses and initializers. -/
theorem DeclaredFirst.of_places {program : List Node}
    (hi : ∀ place ∈ Node.placesInOrder [⟨.program, []⟩] program, place.2.assignsItself = false)
    (hu : ∀ place ∈ Node.placesInOrder [⟨.program, []⟩] program, ∀ use ∈ place.2.use?, ∀ layer ∈ place.1.dropLast,
      layer.opening.Declares use.1 → layer.names.contains use.1 = true) : DeclaredFirst program := by
  refine ⟨fun layers name init line value line' depth hs hinside => ?_, fun layers n name depth hs hn =>
    hu (layers, n) hs.mem_places (name, depth) hn⟩
  have hnone := hi _ hs.mem_places
  rw [Node.assignsItself, List.any_eq_false] at hnone
  exact hnone _ (hinside.mem_places []) (decide_eq_true rfl)

/-- What a layer holds, and which names its construct declares. -/
def Layer.outline (layer : Layer) : Scope × (String → Prop) := (layer.names, layer.opening.Declares)

/-- Around places in alike programs stand layers with the same outlines. -/
theorem outlines_relation {L : Line → Line → Prop} {D : Depth → Depth → Prop} :
    LayerRelation L D fun layers layers' => layers'.map Layer.outline = layers.map Layer.outline := by
  refine ⟨fun {layers layers'} name ready h => ?_, fun {layers layers' steps steps'} l l' hs h => ?_,
    fun _ _ _ _ h => congrArg (_ :: ·) h, fun _ _ h => congrArg (_ :: ·) h⟩
  · have hmark : ∀ layers : List Layer, (mark layers name ready).map Layer.outline =
        match layers.map Layer.outline with
        | [] => []
        | (names, declares) :: outer => (names.set name ready, declares) :: outer := by
      intro layers
      cases layers <;> rfl
    rw [hmark, hmark, h]
  · have hdeclares : (Opening.block steps' l').Declares = (Opening.block steps l).Declares := by
      funext name
      show (∃ n ∈ _, _) = ∃ n ∈ _, _
      rw [← List.mem_map, ← List.mem_map, hs.map_declares?]
    rw [List.map_cons, List.map_cons, h, Layer.outline, Layer.outline, hdeclares]

theorem Node.Alike.use? {L : Line → Line → Prop} {D : Depth → Depth → Prop} {n n' : Node} (h : n.Alike L D n')
    {name : String} {depth : Depth} (hn : n.use? = some (name, depth)) : ∃ depth', n'.use? = some (name, depth') := by
  cases h with
  | var | assign | this => cases hn; exact ⟨_, rfl⟩
  | _ => cases hn

theorem Node.Alike.inside {L : Line → Line → Prop} {D : Depth → Depth → Prop} {n n' inner : Node} (h : n.Alike L D n')
    (hi : n.Inside inner) : ∃ inner', n'.Inside inner' ∧ inner.Alike L D inner' := by
  induction hi with
  | refl => exact ⟨n', .refl, h⟩
  | tail _ hp ih =>
    obtain ⟨m', hm', hm⟩ := ih
    obtain ⟨inner', hp', hinner⟩ := hm.parts.mem hp
    exact ⟨inner', hm'.tail hp', hinner⟩

/-- What is declared first in a program is declared first in an alike one. -/
theorem DeclaredFirst.of_alike {L : Line → Line → Prop} {D : Depth → Depth → Prop} {program program' : List Node}
    (h : Node.AllAlike L D program program') (hd : DeclaredFirst program') : DeclaredFirst program := by
  have hplace : ∀ layers n, Stands [program] layers n → ∃ layers' n', Stands [program'] layers' n' ∧
      n.Alike L D n' ∧ layers'.map Layer.outline = layers.map Layer.outline := by
    rintro layers n ⟨_, hp, ns, hw⟩
    obtain rfl := List.mem_singleton.mp hp
    obtain ⟨layers', ns', hw', ha, hl⟩ := hw.alike outlines_relation h rfl
    cases ha with
    | cons hn => exact ⟨layers', _, ⟨program', List.mem_cons_self, _, hw'⟩, hn, hl⟩
  refine ⟨fun layers name init line value line' depth hs hi => ?_, fun layers n name depth hs hn layer hl hdecl => ?_⟩
  · obtain ⟨layers', n', hs', ha, -⟩ := hplace layers _ hs
    cases ha with
    | letDecl _ hinit =>
      obtain ⟨inner', hi', hinner⟩ := hinit.inside hi
      cases hinner with
      | assign => exact hd.initializers layers' _ _ _ _ _ _ hs' hi'
  · obtain ⟨layers', n', hs', ha, hlayers⟩ := hplace layers _ hs
    obtain ⟨depth', hn'⟩ := ha.use? hn
    have hmem : layer.outline ∈ (layers'.dropLast).map Layer.outline := by
      rw [List.map_dropLast, hlayers, ← List.map_dropLast]
      exact List.mem_map_of_mem hl
    obtain ⟨layer', hl', houtline⟩ := List.mem_map.mp hmem
    obtain ⟨hnames, hdeclares⟩ := Prod.mk.inj houtline
    rw [← hnames]
    exact hd.uses layers' n' name depth' hs' hn' layer' hl' (hdeclares ▸ hdecl)

/-! ## Twins -/

/-- No layer in front of the one that a depth counts to holds the name. -/
theorem not_contains_of_depthOf? {layers : List Layer} {name : String} {i : Nat}
    (h : (scopesOf layers).depthOf? name = some i) {j : Nat} (hj : j < i) {layer : Layer}
    (hl : layers[j]? = some layer) : layer.names.contains name = false := by
  obtain ⟨hi, -, hfirst⟩ := List.findIdx?_eq_some_iff_getElem.mp h
  have hne := hfirst j hj
  obtain ⟨hlt, rfl⟩ := List.getElem?_eq_some_iff.mp hl
  rw [List.getElem_map] at hne
  exact Bool.eq_false_iff.mpr hne

/-- The name of a resolved use is ready where it is resolved to, but for that of a variable that its own initializer
assigns to. -/
theorem DeclaredFirst.readyAt {program : List Node} (hd : DeclaredFirst program)
    (hp : TwinSteps .same [⟨.program, []⟩] program program) {layers : List Layer} {n : Node} {name : String} {i : Nat}
    (hs : Stands [program] layers n) (hn : n.use? = some (name, some i)) : ReadyAt layers name i := by
  obtain hr | ⟨-, outer, init, line, hlet, hinside⟩ := hs.ready_or_initializer hp hn
  · exact hr
  · cases hs.twin hp hn with
    | var _ hr | this _ hr => cases hn; exact hr.ready i rfl
    | assign => cases hn; exact absurd hinside (hd.initializers _ _ _ _ _ _ _ hlet)
    | _ => cases hn

/-- Uses of a resolved program find their names as uses without depths do. -/
theorem DeclaredFirst.usesAgree {program : List Node} (hd : DeclaredFirst program)
    (hp : TwinSteps .same [⟨.program, []⟩] program program) (programs : List (List Node)) :
    UsesAgree (fun _ depth => depth = none) (fun _ _ => True) [program] programs := by
  intro layers layers' n n' name d d' _ hs _ hn _ hnone htwin
  refine .inr ⟨hnone, fun i hi => ?_⟩
  subst hi
  refine ⟨hd.readyAt hp hs hn, fun j layer hj hl hdecl => ?_⟩
  have hdepth : (scopesOf layers).depthOf? name = some i := (htwin.resolved hn).symm
  obtain ⟨last, -, hlast, -⟩ := layer_of_depthOf? hdepth
  have hlt : i < layers.length := (List.getElem?_eq_some_iff.mp hlast).1
  have hinner : layer ∈ layers.dropLast := by
    refine List.mem_iff_getElem?.mpr ⟨j, ?_⟩
    rw [List.getElem?_dropLast, if_pos (by omega), hl]
  have hcontains := hd.uses layers n name (some i) hs hn layer hinner hdecl
  rw [not_contains_of_depthOf? hdepth hj hl] at hcontains
  cases hcontains

/-- A program whose names are declared first is, as it is parsed, a twin of its resolved form. -/
theorem DeclaredFirst.twins {source : String} {resolved : List Node} (hc : checked? source = some resolved)
    (hd : DeclaredFirst (parse (Scan.of source).tokens)) :
    TwinSteps ⟨Eq, True⟩ [⟨.program, []⟩] resolved (parse (Scan.of source).tokens) := by
  obtain ⟨-, hparse, hresolve⟩ := checked?_eq_some.mp hc
  have htwins := twins_of_checked hc
  have halike := resolve_resolves (isStep_of_parse hparse) hresolve
  exact .of_alike (.any _ _) ((hd.of_alike halike).usesAgree htwins [parse (Scan.of source).tokens]) trivial halike
    ⟨resolved, List.mem_cons_self, .program⟩ ⟨_, List.mem_cons_self, .program⟩ htwins

/-! ## Runs -/

/-- Two machines have recorded the same, and hold the same calls, scopes and objects. -/
structure Machine.Agrees (m m' : Machine) : Prop where
  effects : m'.effects = m.effects
  activations : m'.activations = m.activations
  frames : m'.store.frames = m.store.frames
  objects : m'.store.objects = m.store.objects
  output : m'.output = m.output

/-- Two executions end with the same signal or the same fault, on machines that agree. -/
inductive EndsAgree : EStateM.Result Fault Machine Signal → EStateM.Result Fault Machine Signal → Prop
  | ok {signal m m'} : m.Agrees m' → EndsAgree (.ok signal m) (.ok signal m')
  | error {fault m m'} : m.Agrees m' → EndsAgree (.error fault m) (.error fault m')

/-- Calls of the same functions with the same arguments from the same lines are the same. -/
theorem Activation.Alike.eq {a a' : Activation} (h : a.Alike Eq a') : a = a' := by
  obtain ⟨hn, ha, hl⟩ := h
  cases a
  cases a'
  simp_all

/-- Two machines that run the same lines, while names may be searched for on the second one. -/
def Sides.searching (closes : Prop) : Sides := ⟨⟨Eq, True⟩, fun _ => rfl, [], [], [], closes, fun _ => rfl⟩

theorem Lockstep.agrees {programs : List (List Node)} {closes : Prop} {w : World} {m m' : Machine}
    (h : Lockstep programs (.searching closes) w m m') : m.Agrees m' := by
  obtain ⟨new, hnew, hnew'⟩ := h.surface.effects
  have hcalls : List.Forall₂ Eq m.activations.toList m'.activations.toList :=
    h.surface.calls.imp fun _ _ => Activation.Alike.eq
  rw [List.forall₂_eq_eq_eq] at hcalls
  exact ⟨Array.toList_inj.mp (hnew'.trans hnew.symm), Array.toList_inj.mp hcalls.symm, h.stores.frames,
    h.stores.objects, h.surface.output⟩

/-- A program whose names are declared first runs the same resolved and as it is parsed. -/
theorem Session.resolved_agrees_with_searched (e : Surroundings) (fuel : Nat) {source : String}
    {resolved : List Node} (hc : checked? source = some resolved)
    (hd : DeclaredFirst (parse (Scan.of source).tokens)) :
    EndsAgree (Exec.program fuel resolved (start e).machine)
      (Exec.program fuel (parse (Scan.of source).tokens) (start e).machine) := by
  have hs := (start_sound e).more (List.nil_subset [resolved])
  have hstart : Lockstep [resolved] (.searching e.log.CanClose) World.initial (start e).machine (start e).machine :=
    hs.lockstep.between (.searching e.log.CanClose) ⟨id, False.elim⟩ rfl rfl rfl rfl
      (.beside rfl rfl hs.lockstep.surface.shown id)
  have hrun := (ofFuel_sound [resolved] (.searching e.log.CanClose) fuel).executeAll hstart
    hs.lockstep.stores.sound.fits_root ⟨resolved, List.mem_cons_self, .program⟩ (hd.twins hc)
  rw [← Traced.program_erases]
  cases hrun with
  | ok hx hy _ _ hl _ => rw [Traced.program, hx, Exec.program, hy]; exact .ok hl.agrees
  | error hx hy ha _ _ hl =>
    rw [Traced.program, hx, Exec.program, hy]
    cases ha with
    | runtime hline => cases hline; exact .error hl.agrees
    | overflow => exact .error hl.agrees
    | outOfFuel => exact .error hl.agrees
    | raised => exact .error hl.agrees
    | outOfRange hne => exact absurd rfl hne

/-- A text with a function that assigns to a variable around it. -/
def capturingText : String := "let g = true; \x7b let y = nil; fun f(x) \x7b y = x; print y; \x7d f(g); \x7d"

/-- Resolved or not, the function finds its parameter, the variable around it and the global one. -/
theorem Session.capturing_runs_agree : ∃ resolved, checked? capturingText = some resolved ∧
    DeclaredFirst (parse (Scan.of capturingText).tokens) ∧
    EndsAgree (Exec.program 30 resolved (start {}).machine)
      (Exec.program 30 (parse (Scan.of capturingText).tokens) (start {}).machine) := by
  obtain ⟨resolved, hc⟩ : ∃ resolved, checked? capturingText = some resolved :=
    Option.isSome_iff_exists.mp (by cbv)
  have hd : DeclaredFirst (parse (Scan.of capturingText).tokens) := by
    have hparse : parse (Scan.of capturingText).tokens = [.letDecl "g" (.literal (.bool true) 1) 1,
        .block [.letDecl "y" (.literal .nil 1) 1,
          .function "f" ["x"]
            (.block [.assign "y" (.var "x" 1 none) 1 none, .print (.var "y" 1 none) 1] 1) 1,
          .call (.var "f" 1 none) [.var "g" 1 none] 1] 1] := by cbv
    rw [hparse]
    exact .of_places (by decide) (by decide)
  exact ⟨resolved, hc, hd, resolved_agrees_with_searched {} 30 hc hd⟩

end LoxLang
