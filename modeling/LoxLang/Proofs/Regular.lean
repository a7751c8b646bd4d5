import LoxLang.Proofs.Events
import LoxLang.Proofs.ScopedChanges
import LoxLang.Proofs.ScopeRules

/-!
# Regular programs

Of a program that passes every check, more is known at every node than that its uses are resolved: nothing is assigned
to `this` and nothing declares it, the names of a scope differ, and only blocks, functions and programs have steps that
declare names (`checked?_regular`). So it is with the functions of every closure that such programs make
(`Session.executed_leads`).
-/

namespace LoxLang

/-! ## Regular nodes -/

structure Node.IsRegular (n : Node) : Prop where
  assigned : ∀ name value line depth, n = .assign name value line depth → IsName name
  named : ∀ name ∈ n.opened, IsName name
  distinct : n.opened.Nodup
  /-- Branches and the bodies of loops declare nothing in the scope of the node. -/
  silent : ∀ inner ∈ n.parts, inner.IsSilent
  body : ∀ name params body line, n = .function name params body line → body.IsSilent
  methods : ∀ name methods line, n = .classDecl name methods line → ∀ m ∈ methods, m.functionName?.isSome

/-- What stands in a tree that can be read: a step, a method, or nothing. -/
inductive Node.IsPiece : Node → Prop
  | step {n} : IsStep n → IsPiece n
  | method {name params body line} : (∀ p ∈ params, IsName p) → body.IsSilent → IsStep body →
      IsPiece (.function name params body line)
  | absent : IsPiece .absent

theorem IsExpression.part {n inner : Node} (h : IsExpression n) (hi : inner ∈ n.parts) : IsExpression inner := by
  cases h with
  | literal | var | this => cases hi
  | grouping h | unary h | assign _ h | get h => exact List.mem_singleton.mp hi ▸ h
  | binary h g | logical h g | set h g =>
    obtain rfl | hi := List.mem_cons.mp hi
    · exact h
    · exact List.mem_singleton.mp hi ▸ g
  | call h hargs =>
    obtain rfl | hi := List.mem_cons.mp hi
    · exact h
    · exact hargs inner hi

/-- The nodes right inside an expression are its parts. -/
theorem IsExpression.children_eq {n : Node} (h : IsExpression n) : n.children = n.parts := by
  cases h <;> rfl

theorem IsStep.isName_of_declares? {n : Node} (h : IsStep n) {name : String} (hd : n.declares? = some name) :
    IsName name := by
  cases h with
  | letDecl hn | function hn | classDecl hn => cases hd; exact hn
  | expression h => rw [h.isSilent] at hd; cases hd
  | _ => cases hd

/-- The parts of a step declare nothing. -/
theorem IsStep.part_isSilent {n inner : Node} (h : IsStep n) (hi : inner ∈ n.parts) : inner.IsSilent := by
  cases h with
  | expression h => exact (h.part hi).isSilent
  | block | letDecl | function | classDecl => cases hi
  | print h | returnValue h => exact List.mem_singleton.mp hi ▸ h.isSilent
  | returnNil => exact List.mem_singleton.mp hi ▸ rfl
  | ifThen hc ht | whileLoop hc ht | ifElse hc ht =>
    simp only [Node.parts, List.mem_cons, List.not_mem_nil, or_false] at hi
    rcases hi with rfl | rfl | rfl <;> first | exact hc.isSilent | assumption | rfl

namespace Node.IsPiece

variable {n inner : Node}

theorem child (h : n.IsPiece) (hi : inner ∈ n.children) : inner.IsPiece := by
  cases h with
  | method _ _ hb => exact List.mem_singleton.mp hi ▸ .step hb
  | absent => cases hi
  | step h =>
    cases h with
    | expression h => exact .step (.expression (h.part (h.children_eq ▸ hi)))
    | block hs => exact .step (hs inner hi)
    | letDecl _ h | print h | returnValue h => exact List.mem_singleton.mp hi ▸ .step (.expression h)
    | function _ _ _ hb => exact List.mem_singleton.mp hi ▸ .step hb
    | returnNil => exact List.mem_singleton.mp hi ▸ .absent
    | classDecl _ hfunctions hparams hbodies =>
      have hfunction := hfunctions inner hi
      cases inner with
      | function name params body line =>
        exact .method (hparams _ _ _ _ hi).1 (hparams _ _ _ _ hi).2 (hbodies _ _ _ _ hi)
      | _ => cases hfunction
    | ifThen hc _ ht =>
      simp only [children, parts, List.mem_cons, List.not_mem_nil, or_false] at hi
      obtain rfl | rfl | rfl := hi
      · exact .step (.expression hc)
      · exact .step ht
      · exact .absent
    | ifElse hc _ ht _ he =>
      simp only [children, parts, List.mem_cons, List.not_mem_nil, or_false] at hi
      obtain rfl | rfl | rfl := hi
      · exact .step (.expression hc)
      · exact .step ht
      · exact .step he
    | whileLoop hc _ hb =>
      simp only [children, parts, List.mem_cons, List.not_mem_nil, or_false] at hi
      obtain rfl | rfl := hi
      · exact .step (.expression hc)
      · exact .step hb

/-- A piece is regular if the names of the scope that it opens differ. -/
theorem isRegular (h : n.IsPiece) (hd : n.opened.Nodup) : n.IsRegular := by
  cases h with
  | absent => exact ⟨nofun, nofun, hd, nofun, nofun, nofun⟩
  | method hparams hsilent =>
    exact ⟨nofun, hparams, hd, nofun, fun _ _ _ _ he => by cases he; exact hsilent, nofun⟩
  | step h =>
    refine ⟨?_, ?_, hd, fun inner hi => h.part_isSilent hi, ?_, ?_⟩
    · rintro name value line depth rfl
      cases h with
      | expression h => cases h with | assign hn => exact hn
    · intro name hname
      cases h with
      | expression h => cases h <;> cases hname
      | block hs =>
        obtain ⟨step, hstep, hdecl⟩ := List.mem_filterMap.mp hname
        exact (hs step hstep).isName_of_declares? hdecl
      | function _ hparams => exact hparams name hname
      | _ => cases hname
    · rintro name params body line rfl
      cases h with
      | expression h => cases h
      | function _ _ hsilent => exact hsilent
    · rintro name methods line rfl
      cases h with
      | expression h => cases h
      | classDecl _ hfunctions => exact hfunctions

end Node.IsPiece

/-- Alike nodes are regular both, or neither. -/
theorem Node.IsRegular.of_alike {n n' : Node} (h : n'.Resolves n) (hn : n.IsRegular) : n'.IsRegular := by
  have hparts : ∀ inner ∈ n'.parts, ∃ inner' ∈ n.parts, inner.declares? = inner'.declares? := fun inner hi =>
    let ⟨inner', hi', ha⟩ := h.parts.mem hi
    ⟨inner', hi', ha.declares?_eq.symm⟩
  have hopened : n'.opened = n.opened := by
    cases h with
    | block _ hs => exact hs.stepNames
    | _ => rfl
  refine ⟨?_, hopened ▸ hn.named, hopened ▸ hn.distinct, fun inner hi => ?_, ?_, ?_⟩
  · rintro name value line depth rfl
    cases h with
    | assign => exact hn.assigned _ _ _ _ rfl
  · obtain ⟨inner', hi', heq⟩ := hparts inner hi
    exact heq.trans (hn.silent inner' hi')
  · rintro name params body line rfl
    cases h with
    | function _ hb => exact hb.declares?_eq.symm.trans (hn.body _ _ _ _ rfl)
  · rintro name methods line rfl
    cases h with
    | classDecl _ hm =>
      intro m hmem
      obtain ⟨m', hmem', ha⟩ := hm.mem hmem
      have hfunction := hn.methods _ _ _ rfl m' hmem'
      cases ha <;> exact hfunction

/-- Wherever a step stands in a text that passes every check, it is regular, and so is everything inside it. -/
theorem checked?_regular {source : String} {steps : List Node} (h : checked? source = some steps) :
    ∀ n ∈ steps, n.Everywhere Node.IsRegular := by
  obtain ⟨-, hparse, hresolve⟩ := checked?_eq_some.mp h
  obtain ⟨hwell, hresolved⟩ := resolve_decides (Grammar.program_sound hparse).law
  have hdistinct : ∀ n ∈ parse (Scan.of source).tokens, n.Everywhere fun n => n.opened.Nodup := fun n hn =>
    Place.everywhere (hwell.mp ⟨steps, hresolve⟩).distinct hn
  intro n hn
  obtain ⟨n', hn', ha⟩ := (hresolved steps hresolve).1.mem hn
  have hpieces : n'.Everywhere Node.IsPiece :=
    .of_inherited (.step (isStep_of_parse hparse n' hn')) fun m inner hm hi => hm.child hi
  exact .of_alike (fun m m' ha hm => Node.IsRegular.of_alike ha hm) ha fun inner hi =>
    (hpieces inner hi).isRegular (hdistinct n' hn' inner hi)

/-- The names that a text declares at its top level differ. -/
theorem checked?_distinct {source : String} {steps : List Node} (h : checked? source = some steps) :
    (Node.stepNames steps).Nodup := by
  obtain ⟨-, hparse, hresolve⟩ := checked?_eq_some.mp h
  obtain ⟨hwell, hresolved⟩ := resolve_decides (Grammar.program_sound hparse).law
  rw [(hresolved steps hresolve).1.stepNames]
  exact (hwell.mp ⟨steps, hresolve⟩).global

/-- What stands in a program holds everywhere what its steps do. -/
theorem Within.everywhere {p : Node → Prop} {program : List Node} (hp : ∀ n ∈ program, n.Everywhere p)
    {layers : List Layer} {ns : List Node} (h : Within program layers ns) : ∀ n ∈ ns, n.Everywhere p := by
  induction h with
  | program => exact hp
  | next _ ih => exact fun n hn => ih n (List.mem_cons_of_mem _ hn)
  | part _ hi ih => exact List.forall_mem_singleton.mpr ((ih _ List.mem_cons_self).part hi)
  | initializer _ ih | body _ ih =>
    exact List.forall_mem_singleton.mpr ((ih _ List.mem_cons_self).child List.mem_cons_self)
  | block _ ih => exact fun n hn => (ih _ List.mem_cons_self).child hn
  | method _ hm ih =>
    exact List.forall_mem_singleton.mpr (((ih _ List.mem_cons_self).child hm).child List.mem_cons_self)

/-- Whatever stands in the resolved programs of runs is regular. -/
theorem Stands.isRegular {rs : List Run} {layers : List Layer} {n : Node} (h : Stands (programsOf rs) layers n) :
    n.Everywhere Node.IsRegular := by
  obtain ⟨program, hp, ns, hw⟩ := h
  obtain ⟨r, -, hr⟩ := List.mem_filterMap.mp hp
  exact hw.everywhere (checked?_regular hr) n List.mem_cons_self

/-! ## Runs of regular programs -/

theorem Node.isRegular_absent : Node.absent.IsRegular :=
  Node.IsPiece.absent.isRegular .nil

/-- Where there is no closure, a store shows a function that does nothing. -/
theorem Closure.from_default : (default : Closure).From Node.IsRegular := by
  refine ⟨0, fun inner hi => ?_⟩
  obtain rfl | ⟨body, hbody, hi⟩ := hi.cases_head
  · exact ⟨nofun, nofun, .nil, nofun, fun _ _ _ _ he => by cases he; rfl, nofun⟩
  · obtain rfl := List.mem_singleton.mp hbody
    obtain rfl | ⟨_, hnone, -⟩ := hi.cases_head
    · exact Node.isRegular_absent
    · cases hnone

namespace Session

variable {s : Session}

/-- A new session has no closures. -/
theorem start_from (e : Surroundings) : (start e).machine.From Node.IsRegular := by
  intro c
  have hnone : (start e).machine.store.closure c = default := by
    rw [start_store]
    simp [Store.closure]
  rw [hnone]
  exact Closure.from_default

/-- Hosts lend and take back names, and no closures. -/
theorem begun_from (hm : s.machine.From Node.IsRegular) : s.begun.machine.From Node.IsRegular :=
  hm.of_closures (by rw [begun_eq]; simp)

/-- The closures of a session stay regular, on every machine that a run comes by; and between the ends of a run every
relation holds that composes and that all changes of a machine satisfy. -/
theorem executed_leads {R : FrameId → List String → List Visit → Machine → Option Fault → Machine → Prop}
    (hR : AccruesIn Node.IsRegular R) (hm : s.machine.From Node.IsRegular) (r : Run) :
    (s.executed r).From Node.IsRegular ∧ (∀ v ∈ s.visits r, v.machine.From Node.IsRegular) ∧
      ∃ names fault, R Store.root names (s.visits r) s.begun.machine fault (s.executed r) := by
  have hstore : (s.parsed r.source).machine.store = s.begun.machine.store := rfl
  have hbegun := begun_from hm
  unfold executed visits
  cases hc : checked? r.source with
  | none => exact ⟨hbegun, nofun, [], none, hR.refl Store.root s.begun.machine⟩
  | some steps =>
    obtain ⟨hfrom, hvisits, hleads⟩ := hR.program r.fuel (checked?_regular hc) (s.parsed r.source).machine
      (hbegun.of_closures (congrArg Store.closures hstore))
    rw [Traced.program_erases] at hfrom hleads
    exact ⟨hfrom, hvisits, _, _, hR.trans (hR.surface Store.root hstore) hleads⟩

end Session

end LoxLang
