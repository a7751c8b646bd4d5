import LoxLang.Proofs.References
import LoxLang.Proofs.Store
import LoxLang.Proofs.Trace
import LoxLang.Proofs.Twins

/-!
# What is known of a store

A frame is an instance of a construct that opens a scope (`Instance`), which the visits of the run tell. A `World` says
of every frame which construct that is and which frames are around it, of every closure the layers it stands in, and
which names are bound; nothing of this is ever taken back, so worlds only grow. `Fits w f layers` says that a place
inside the layers can be executed in frame `f`: the frame and those around it are instances of the constructs that open
the layers, and what is ready in a layer is bound in its frame.

`StoreSound w s` says that a store is as the world describes it: every frame stands in one that fits the place of its
construct, binds only names that the construct declares, and holds only values that can be used where they are found.
Global names that hosts lend may be taken out again. A world tells which names these are, and as long as there are none,
no value is one that only a host can have made (`Value.IsPlain`).
-/

namespace LoxLang

/-! ## Instances -/

/-- The closure is a method of a class with these methods, made when the class was declared. -/
def MethodOf (visits : List Visit) (c : ClosureId) (methods : List Node) : Prop :=
  ∃ scope name line m, ⟨.execute scope (.classDecl name methods line), m⟩ ∈ visits ∧ m.store.nextClosure ≤ c ∧
    c < m.store.nextClosure + methods.length

/-- The frame was made to execute a block, to run the body of a function, or to hold the receiver of a method; the
global frame was there before. -/
inductive Instance (visits : List Visit) : FrameId → Opening → Prop
  | root : Instance visits Store.root .program
  | block {scope steps line m} : ⟨.execute scope (.block steps line), m⟩ ∈ visits →
      Instance visits m.store.nextFrame (.block steps line)
  | call {c arguments line m} : ⟨.invoke c arguments line, m⟩ ∈ visits →
      Instance visits m.store.nextFrame
        (.parameters (m.store.closure c).name (m.store.closure c).params (m.store.closure c).body)
  | receiver {c v m methods} : ⟨.bind c v, m⟩ ∈ visits → MethodOf visits c methods →
      Instance visits m.store.nextFrame (.receiver methods)

/-! ## Worlds -/

structure FrameType where
  opening : Opening
  /-- The layers around the construct, when the frame was made. -/
  around : List Layer
  parents : List FrameId

structure ClosureType where
  /-- The layers around the parameters. -/
  site : List Layer
  params : List String
  frame : FrameId

structure World where
  frames : List FrameType
  closures : List ClosureType
  /-- The names that frames bind. -/
  bound : List (FrameId × String)
  /-- The visits so far. -/
  visits : List Visit
  /-- The global names that hosts lent so far. -/
  lent : List String

namespace World

/-- The second world knows all that the first one does. -/
structure Grows (w w' : World) : Prop where
  frames : w.frames <+: w'.frames
  closures : w.closures <+: w'.closures
  bound : w.bound <+: w'.bound
  visits : w.visits <+: w'.visits
  lent : w.lent <+: w'.lent

instance : LE World := ⟨Grows⟩

variable {w w₁ w₂ : World}

theorem le_refl (w : World) : w ≤ w :=
  ⟨List.prefix_rfl, List.prefix_rfl, List.prefix_rfl, List.prefix_rfl, List.prefix_rfl⟩

theorem le_trans (h : w ≤ w₁) (h' : w₁ ≤ w₂) : w ≤ w₂ :=
  ⟨h.frames.trans h'.frames, h.closures.trans h'.closures, h.bound.trans h'.bound, h.visits.trans h'.visits,
    h.lent.trans h'.lent⟩

/-- What a list holds at an index, every longer list holds there. -/
theorem getElem?_of_prefix {α : Type} {l l' : List α} {i : Nat} {a : α} (h : l <+: l') (ha : l[i]? = some a) :
    l'[i]? = some a := by
  obtain ⟨rest, rfl⟩ := h
  rw [List.getElem?_append_left (List.getElem?_eq_some_iff.mp ha).1, ha]

theorem frame_of_le (h : w ≤ w₁) {f : FrameId} {t : FrameType} (ht : w.frames[f]? = some t) :
    w₁.frames[f]? = some t := getElem?_of_prefix h.frames ht

theorem closure_of_le (h : w ≤ w₁) {c : ClosureId} {t : ClosureType} (ht : w.closures[c]? = some t) :
    w₁.closures[c]? = some t := getElem?_of_prefix h.closures ht

theorem bound_of_le (h : w ≤ w₁) {entry : FrameId × String} (he : entry ∈ w.bound) : entry ∈ w₁.bound :=
  h.bound.subset he

theorem visit_of_le (h : w ≤ w₁) {v : Visit} (hv : v ∈ w.visits) : v ∈ w₁.visits := h.visits.subset hv

/-- If no name was lent so far, none was before. -/
theorem lent_of_le (h : w ≤ w₁) (hl : w₁.lent = []) : w.lent = [] := List.prefix_nil.mp (hl ▸ h.lent)

/-! ### What is added to a world -/

def pushFrame (w : World) (t : FrameType) : World := { w with frames := w.frames ++ [t] }

def pushClosure (w : World) (t : ClosureType) : World := { w with closures := w.closures ++ [t] }

def bind (w : World) (f : FrameId) (name : String) : World := { w with bound := w.bound ++ [(f, name)] }

def visit (w : World) (v : Visit) : World := { w with visits := w.visits ++ [v] }

def lend (w : World) (names : List String) : World := { w with lent := w.lent ++ names }

theorem le_pushFrame (w : World) (t : FrameType) : w ≤ w.pushFrame t :=
  { w.le_refl with frames := List.prefix_append _ _ }

theorem le_pushClosure (w : World) (t : ClosureType) : w ≤ w.pushClosure t :=
  { w.le_refl with closures := List.prefix_append _ _ }

theorem le_bind (w : World) (f : FrameId) (name : String) : w ≤ w.bind f name :=
  { w.le_refl with bound := List.prefix_append _ _ }

theorem le_visit (w : World) (v : Visit) : w ≤ w.visit v := { w.le_refl with visits := List.prefix_append _ _ }

theorem le_lend (w : World) (names : List String) : w ≤ w.lend names :=
  { w.le_refl with lent := List.prefix_append _ _ }

theorem frame_pushFrame (w : World) (t : FrameType) : (w.pushFrame t).frames[w.frames.length]? = some t := by
  simp [pushFrame]

theorem closure_pushClosure (w : World) (t : ClosureType) :
    (w.pushClosure t).closures[w.closures.length]? = some t := by
  simp [pushClosure]

theorem mem_bound_bind {f : FrameId} {name : String} {entry : FrameId × String} :
    entry ∈ (w.bind f name).bound ↔ entry ∈ w.bound ∨ entry = (f, name) := by
  simp [bind]

theorem bound_bind (w : World) (f : FrameId) (name : String) : (f, name) ∈ (w.bind f name).bound :=
  mem_bound_bind.mpr (.inr rfl)

theorem visit_mem (w : World) (v : Visit) : v ∈ (w.visit v).visits := by simp [visit]

/-- The frame at an index of a longer world is one of before, or the new one. -/
theorem frame_pushFrame_cases {t t' : FrameType} {f : Nat} (h : (w.pushFrame t).frames[f]? = some t') :
    w.frames[f]? = some t' ∨ f = w.frames.length ∧ t' = t := by
  simp only [pushFrame, List.getElem?_append, List.getElem?_singleton] at h
  split at h
  · exact .inl h
  · next hf =>
    split at h
    · next h' => cases h; exact .inr ⟨by omega, rfl⟩
    · cases h

theorem closure_pushClosure_cases {t t' : ClosureType} {c : Nat}
    (h : (w.pushClosure t).closures[c]? = some t') :
    w.closures[c]? = some t' ∨ c = w.closures.length ∧ t' = t := by
  simp only [pushClosure, List.getElem?_append, List.getElem?_singleton] at h
  split at h
  · exact .inl h
  · next hc =>
    split at h
    · next h' => cases h; exact .inr ⟨by omega, rfl⟩
    · cases h

end World

theorem MethodOf.mono {visits visits' : List Visit} {c : ClosureId} {methods : List Node}
    (hv : ∀ v ∈ visits, v ∈ visits') (h : MethodOf visits c methods) : MethodOf visits' c methods :=
  let ⟨scope, name, line, m, hm, hc⟩ := h
  ⟨scope, name, line, m, hv _ hm, hc⟩

theorem Instance.mono {visits visits' : List Visit} {f : FrameId} {o : Opening} (hv : ∀ v ∈ visits, v ∈ visits')
    (h : Instance visits f o) : Instance visits' f o := by
  cases h with
  | root => exact .root
  | block h => exact .block (hv _ h)
  | call h => exact .call (hv _ h)
  | receiver h hm => exact .receiver (hv _ h) (hm.mono hv)

/-! ## Frames that fit a place -/

/-- The frame and those around it are instances of the constructs that open the layers, and bind what is ready. -/
def Fits (w : World) (f : FrameId) (layers : List Layer) : Prop :=
  ∃ t names, w.frames[f]? = some t ∧ layers = ⟨t.opening, names⟩ :: t.around ∧
    ∀ name, names.get? name = some true → (f, name) ∈ w.bound

namespace Fits

variable {w w' : World} {f : FrameId} {layers : List Layer}

theorem mono (hw : w ≤ w') (h : Fits w f layers) : Fits w' f layers :=
  let ⟨t, names, ht, hl, hn⟩ := h
  ⟨t, names, World.frame_of_le hw ht, hl, fun name hr => World.bound_of_le hw (hn name hr)⟩

/-- A name that is bound may be marked as ready. -/
theorem mark_ready {name : String} (h : Fits w f layers) (hb : (f, name) ∈ w.bound) :
    Fits w f (mark layers name true) := by
  obtain ⟨t, names, ht, rfl, hn⟩ := h
  refine ⟨t, names.set name true, ht, rfl, fun other hr => ?_⟩
  rw [Table.get?_set] at hr
  split at hr
  · next h => exact h ▸ hb
  · exact hn other hr

/-- Fewer names may be ready. -/
theorem mark_pending (h : Fits w f layers) (name : String) : Fits w f (mark layers name false) := by
  obtain ⟨t, names, ht, rfl, hn⟩ := h
  refine ⟨t, names.set name false, ht, rfl, fun other hr => ?_⟩
  rw [Table.get?_set] at hr
  split at hr
  · cases hr
  · exact hn other hr

end Fits

/-! ## Sound values -/

/-- A function that can be called with so many arguments: the frame it is closed over fits the place of its
parameters. -/
def Callable (w : World) (c : ClosureId) (count : Nat) : Prop :=
  ∃ t, w.closures[c]? = some t ∧ t.params.length = count ∧ Fits w t.frame t.site

/-- A method of a class: it can be called once a frame for its receiver stands between. -/
def MethodSound (w : World) (c : ClosureId) (count : Nat) : Prop :=
  ∃ t methods outer, w.closures[c]? = some t ∧ t.params.length = count ∧ t.site = Layer.ofReceiver methods :: outer ∧
    Fits w t.frame outer ∧ MethodOf w.visits c methods

def ClassSound (w : World) (info : ClassInfo) : Prop :=
  ∀ name c, (name, c) ∈ info.methods → ∃ count, MethodSound w c count

def RoleSound (w : World) : Role → ClosureId → Prop
  | .function, c => ∃ count, Callable w c count
  | .method, c => ∃ count, MethodSound w c count

/-- The value is one of those that programs build on their own, or a native that every program finds. -/
def Value.IsPlain : Value → Prop
  | .native _ _ service => service = .clock ∨ service = .println
  | .integer _ | .list _ | .map _ | .diagnostic _ | .foreign _ => False
  | _ => True

/-- The closures that the value names can be called as it has them called, and only a host can have made it
otherwise. -/
structure ValueSound (w : World) (v : Value) : Prop where
  plain : w.lent = [] → v.IsPlain
  references : ∀ r ∈ v.references, RoleSound w r.1 r.2

/-- A value that can be called with so many arguments. -/
def Accepts (w : World) (callee : Value) (count : Nat) : Prop :=
  match callee with
  | .function _ c => Callable w c count
  | .native .. => ValueSound w callee
  | .classRef info => ClassSound w info ∧ ∀ c, Store.initializer? info = some c → MethodSound w c count
  | _ => False

namespace ValueSound

variable {w : World} {v : Value}

/-- A value that names no closure, and that a program can build. -/
theorem of_plain (hp : v.IsPlain) (hr : v.references = []) : ValueSound w v := ⟨fun _ => hp, hr ▸ nofun⟩

theorem nil : ValueSound w .nil := .of_plain trivial rfl

theorem object (name : String) (o : ObjectId) : ValueSound w (.object name o) := .of_plain trivial rfl

theorem native {name : String} {arity : Nat} {service : Service} :
    ValueSound w (.native name arity service) ↔ (w.lent = [] → service = .clock ∨ service = .println) :=
  ⟨plain, fun h => ⟨h, nofun⟩⟩

theorem function {name : String} {c : ClosureId} :
    ValueSound w (.function name c) ↔ ∃ count, Callable w c count :=
  ⟨fun h => h.references _ (List.mem_singleton_self _), fun h => ⟨fun _ => trivial, List.forall_mem_singleton.mpr h⟩⟩

theorem classRef {info : ClassInfo} : ValueSound w (.classRef info) ↔ ClassSound w info := by
  refine ⟨fun h name c hc => h.references (.method, c) (List.mem_map.mpr ⟨_, hc, rfl⟩), fun h => ⟨fun _ => trivial, ?_⟩⟩
  intro r hr
  obtain ⟨entry, he, rfl⟩ := List.mem_map.mp hr
  exact h entry.1 entry.2 he

/-- What sound values name can be called. -/
theorem role_of_mem {vs : List Value} (hv : ∀ v ∈ vs, ValueSound w v) :
    ∀ r ∈ Value.referencesOf vs, RoleSound w r.1 r.2 := fun r hr =>
  let ⟨v, hmem, hr⟩ := Value.mem_referencesOf.mp hr
  (hv v hmem).references r hr

end ValueSound

section Mono

variable {w w' : World} (hw : w ≤ w')
include hw

theorem Callable.mono {c : ClosureId} {count : Nat} (h : Callable w c count) : Callable w' c count :=
  let ⟨t, ht, hp, hf⟩ := h
  ⟨t, World.closure_of_le hw ht, hp, hf.mono hw⟩

theorem MethodSound.mono {c : ClosureId} {count : Nat} (h : MethodSound w c count) : MethodSound w' c count :=
  let ⟨t, methods, outer, ht, hp, hs, hf, hm⟩ := h
  ⟨t, methods, outer, World.closure_of_le hw ht, hp, hs, hf.mono hw, hm.mono fun _ => World.visit_of_le hw⟩

theorem ClassSound.mono {info : ClassInfo} (h : ClassSound w info) : ClassSound w' info := fun name c hc =>
  let ⟨count, hm⟩ := h name c hc
  ⟨count, hm.mono hw⟩

theorem RoleSound.mono {role : Role} {c : ClosureId} (h : RoleSound w role c) : RoleSound w' role c := by
  cases role with
  | function => exact Exists.imp (fun _ hc => Callable.mono hw hc) h
  | method => exact Exists.imp (fun _ hc => MethodSound.mono hw hc) h

theorem ValueSound.mono {v : Value} (h : ValueSound w v) : ValueSound w' v :=
  ⟨fun hl => h.plain (World.lent_of_le hw hl), fun r hr => (h.references r hr).mono hw⟩

theorem Accepts.mono {v : Value} {count : Nat} (h : Accepts w v count) : Accepts w' v count := by
  cases v with
  | function name c => exact Callable.mono hw h
  | native => exact ValueSound.mono hw h
  | classRef info => exact ⟨h.1.mono hw, fun c hc => (h.2 c hc).mono hw⟩
  | _ => exact h

end Mono

theorem Value.IsPlain.hasText {v : Value} (h : v.IsPlain) : v.hasText = true := by
  cases v with
  | integer | list | foreign => exact h.elim
  | _ => rfl

/-- What programs build has a text. -/
theorem ValueSound.haveText {w : World} (hl : w.lent = []) :
    ∀ {vs : List Value}, (∀ v ∈ vs, ValueSound w v) → Value.haveText vs = true
  | [], _ => rfl
  | v :: vs, h => by
    simp [Value.haveText, ((h v List.mem_cons_self).plain hl).hasText,
      ValueSound.haveText hl fun v' hv' => h v' (List.mem_cons_of_mem v hv')]

theorem Value.IsLiteral.isPlain {v : Value} (h : v.IsLiteral) : v.IsPlain := by
  cases v with
  | nil | bool | number | string => trivial
  | _ => exact h.elim

theorem Value.IsLiteral.sound {v : Value} (h : v.IsLiteral) (w : World) : ValueSound w v :=
  .of_plain h.isPlain h.references_eq

/-! ## Sound stores -/

/-- A frame other than the global one stands in an earlier frame that fits the place of its construct. -/
def Enclosed (w : World) (f : FrameId) (t : FrameType) : Prop :=
  f = Store.root ∧ t = ⟨.program, [], []⟩ ∨
    ∃ g t', g < f ∧ w.frames[g]? = some t' ∧ t.parents = g :: t'.parents ∧ Fits w g t.around

structure FrameSound (w : World) (s : Store) (f : FrameId) (t : FrameType) : Prop where
  enclosed : Enclosed w f t
  parents : (s.frame f).parents = t.parents
  declared : ∀ name, s.binds name f = true → t.opening.Declares name
  values : ∀ name v, s.own? f name = some v → ValueSound w v

/-- The host has no closures but those that it was handed, and they can be called. -/
structure HostSound (w : World) (h : Host) : Prop where
  faithful : h.Faithful
  kept : ∀ r ∈ Value.referencesOf h.memory.kept, RoleSound w r.1 r.2

structure ObjectSound (w : World) (o : Object) : Prop where
  info : ClassSound w o.info
  fields : ∀ name v, o.fields.get? name = some v → ValueSound w v

structure StoreSound (w : World) (s : Store) : Prop where
  frameCount : w.frames.length = s.nextFrame
  closureCount : w.closures.length = s.nextClosure
  root : w.frames[Store.root]? = some ⟨.program, [], []⟩
  bound : ∀ f name, (f, name) ∈ w.bound → s.binds name f = true ∨ f = Store.root ∧ name ∈ w.lent
  frames : ∀ f t, w.frames[f]? = some t → FrameSound w s f t
  closures : ∀ c t, w.closures[c]? = some t → (s.closure c).params = t.params ∧ (s.closure c).frame = t.frame
  objects : ∀ o, ObjectSound w (s.object o)

/-- The global frame fits the layer that a program starts in. -/
theorem StoreSound.fits_root {w : World} {s : Store} (h : StoreSound w s) : Fits w Store.root [⟨.program, []⟩] :=
  ⟨_, [], h.root, rfl, fun name hr => by cases hr⟩

theorem Enclosed.mono {w w' : World} {f : FrameId} {t : FrameType} (hw : w ≤ w') (h : Enclosed w f t) :
    Enclosed w' f t := by
  obtain h | ⟨g, t', hg, ht, hp, hf⟩ := h
  · exact .inl h
  · exact .inr ⟨g, t', hg, World.frame_of_le hw ht, hp, hf.mono hw⟩

theorem HostSound.mono {w w' : World} (hw : w ≤ w') {h : Host} (hh : HostSound w h) : HostSound w' h :=
  ⟨hh.faithful, fun r hr => (hh.kept r hr).mono hw⟩

theorem ObjectSound.mono {w w' : World} {o : Object} (hw : w ≤ w') (h : ObjectSound w o) : ObjectSound w' o :=
  ⟨h.info.mono hw, fun name v hv => (h.fields name v hv).mono hw⟩

end LoxLang
