import LoxLang.Proofs.Table
import LoxLang.Store

/-!
# Changes of a store

What a store shows after each of its changes: after a frame, a closure or an object is added, a name is bound, or a
field is set. Nothing else is changed by them, and none of them takes a frame or a name away (`Grows`). Only global
names that a host lent are taken out again (`own?_without`), before others are lent (`own?_lending`).
-/

namespace LoxLang.Store

variable (s : Store)

/-! ## Frames -/

@[simp] theorem frame_pushFrame (parents : List FrameId) (bindings : Table Value) (f : FrameId) :
    (s.pushFrame parents bindings).frame f = if f = s.nextFrame then ⟨parents, bindings⟩ else s.frame f := by
  simp only [frame, pushFrame, nextFrame, Array.getD_eq_getD_getElem?, Array.getElem?_push]
  split <;> rfl

@[simp] theorem nextFrame_pushFrame (parents : List FrameId) (bindings : Table Value) :
    (s.pushFrame parents bindings).nextFrame = s.nextFrame + 1 := Array.size_push _

@[simp] theorem nextFrame_bind (f : FrameId) (name : String) (v : Value) :
    (s.bind f name v).nextFrame = s.nextFrame := Array.size_modify

theorem frame_bind {f : FrameId} (hf : f < s.nextFrame) (name : String) (v : Value) (g : FrameId) :
    (s.bind f name v).frame g =
      if g = f then { s.frame f with bindings := (s.frame f).bindings.set name v } else s.frame g := by
  simp only [frame, bind, Array.getD_eq_getD_getElem?, Array.getElem?_modify]
  by_cases h : g = f
  · subst h
    have hs : g < s.frames.size := hf
    simp [hs]
  · simp [h, Ne.symm h]

/-- A frame that does not exist cannot be changed. -/
theorem bind_of_le {f : FrameId} (hf : s.nextFrame ≤ f) (name : String) (v : Value) : s.bind f name v = s := by
  have hs : s.frames.modify f (fun frame => { frame with bindings := frame.bindings.set name v }) = s.frames := by
    refine Array.ext_getElem? fun g => ?_
    rw [Array.getElem?_modify]
    split
    · next h =>
      subst h
      rw [Array.getElem?_eq_none hf]
      rfl
    · rfl
  rw [bind, hs]

@[simp] theorem parents_bind (f : FrameId) (name : String) (v : Value) (g : FrameId) :
    ((s.bind f name v).frame g).parents = (s.frame g).parents := by
  by_cases hf : f < s.nextFrame
  · rw [s.frame_bind hf]
    split
    · next h => rw [h]
    · rfl
  · rw [s.bind_of_le (Nat.le_of_not_lt hf)]

theorem own?_bind {f : FrameId} (hf : f < s.nextFrame) (name : String) (v : Value) (g : FrameId) (other : String) :
    (s.bind f name v).own? g other = if g = f ∧ name = other then some v else s.own? g other := by
  unfold own?
  rw [s.frame_bind hf]
  by_cases h : g = f
  · subst h; simp
  · simp [h]

/-- A binding is read where it was made, if that frame exists. -/
theorem own?_bind_cases (f : FrameId) (name : String) (v : Value) (g : FrameId) (other : String) :
    (s.bind f name v).own? g other = if f < s.nextFrame ∧ g = f ∧ name = other then some v else s.own? g other := by
  by_cases hf : f < s.nextFrame
  · simp [s.own?_bind hf, hf]
  · simp [s.bind_of_le (Nat.le_of_not_lt hf), hf]

theorem binds_eq_isSome (name : String) (f : FrameId) : s.binds name f = (s.own? f name).isSome :=
  Table.contains_eq_isSome _ _

variable {s} in
theorem binds_iff {name : String} {f : FrameId} : s.binds name f = true ↔ ∃ v, s.own? f name = some v :=
  Table.contains_iff

theorem binds_bind {f : FrameId} (hf : f < s.nextFrame) (name : String) (v : Value) (g : FrameId) (other : String) :
    (s.bind f name v).binds other g = (decide (g = f ∧ name = other) || s.binds other g) := by
  rw [binds_eq_isSome, binds_eq_isSome, s.own?_bind hf]
  by_cases h : g = f ∧ name = other <;> simp [h]

@[simp] theorem own?_pushFrame (parents : List FrameId) (bindings : Table Value) (f : FrameId) (name : String) :
    (s.pushFrame parents bindings).own? f name =
      if f = s.nextFrame then bindings.get? name else s.own? f name := by
  unfold own?
  rw [frame_pushFrame]
  split <;> rfl

@[simp] theorem binds_pushFrame (parents : List FrameId) (bindings : Table Value) (f : FrameId) (name : String) :
    (s.pushFrame parents bindings).binds name f =
      if f = s.nextFrame then bindings.contains name else s.binds name f := by
  unfold binds
  rw [frame_pushFrame]
  split <;> rfl

theorem lt_nextFrame_of_binds {name : String} {f : FrameId} (h : s.binds name f = true) : f < s.nextFrame := by
  by_cases hf : f < s.frames.size
  · exact hf
  · simp [binds, frame, Array.getD_eq_getD_getElem?, hf, default, instInhabitedFrame.default] at h

/-- A frame that does not exist binds nothing. -/
theorem own?_of_le {f : FrameId} (hf : s.nextFrame ≤ f) (name : String) : s.own? f name = none := by
  unfold own? frame
  rw [Array.getD_eq_getD_getElem?, Array.getElem?_eq_none hf]
  rfl

/-! ### Taking names out -/

@[simp] theorem nextFrame_unbind (f : FrameId) (name : String) : (s.unbind f name).nextFrame = s.nextFrame :=
  Array.size_modify

theorem frame_unbind (f : FrameId) (name : String) (g : FrameId) :
    (s.unbind f name).frame g =
      if g = f then { s.frame f with bindings := (s.frame f).bindings.erase name } else s.frame g := by
  simp only [frame, unbind, Array.getD_eq_getD_getElem?, Array.getElem?_modify]
  by_cases h : g = f
  · subst h
    by_cases hs : g < s.frames.size
    · simp [hs]
    · simp [hs, default, instInhabitedFrame.default, Table.erase]
  · simp [h, Ne.symm h]

@[simp] theorem parents_unbind (f : FrameId) (name : String) (g : FrameId) :
    ((s.unbind f name).frame g).parents = (s.frame g).parents := by
  rw [frame_unbind]
  split
  · next h => rw [h]
  · rfl

theorem own?_unbind (f : FrameId) (name : String) (g : FrameId) (other : String) :
    (s.unbind f name).own? g other = if g = f ∧ name = other then none else s.own? g other := by
  unfold own?
  rw [frame_unbind]
  by_cases h : g = f
  · subst h
    simp
  · simp [h]

/-! ## Closures and objects -/

@[simp] theorem closure_pushClosure (closure : Closure) (c : ClosureId) :
    (s.pushClosure closure).closure c = if c = s.nextClosure then closure else s.closure c := by
  simp only [Store.closure, pushClosure, nextClosure, Array.getD_eq_getD_getElem?, Array.getElem?_push]
  split <;> rfl

@[simp] theorem nextClosure_pushClosure (closure : Closure) :
    (s.pushClosure closure).nextClosure = s.nextClosure + 1 := Array.size_push _

@[simp] theorem nextObject_pushObject (object : Object) : (s.pushObject object).nextObject = s.nextObject + 1 :=
  Array.size_push _

@[simp] theorem nextObject_setField (o : ObjectId) (name : String) (v : Value) :
    (s.setField o name v).nextObject = s.nextObject := Array.size_modify

@[simp] theorem object_pushObject (object : Object) (o : ObjectId) :
    (s.pushObject object).object o = if o = s.nextObject then object else s.object o := by
  simp only [Store.object, pushObject, nextObject, Array.getD_eq_getD_getElem?, Array.getElem?_push]
  split <;> rfl

/-- Setting a field keeps the class of every object, and adds at most that field. -/
theorem object_setField (o : ObjectId) (name : String) (v : Value) (p : ObjectId) :
    (s.setField o name v).object p = s.object p ∨
      p = o ∧ (s.setField o name v).object p = { s.object p with fields := (s.object p).fields.set name v } := by
  simp only [Store.object, setField, Array.getD_eq_getD_getElem?, Array.getElem?_modify]
  by_cases h : o = p
  · subst h
    by_cases hs : o < s.objects.size
    · right; simp [hs]
    · left; simp [hs]
  · left; simp [h]

/-! ## Names lent and taken back -/

/-- The store without these global names. -/
def without (s : Store) (names : List String) : Store := names.foldl (fun s name => s.unbind root name) s

/-- The store with these global names added, or with new values. -/
def lending (s : Store) (table : Table Value) : Store := table.foldl (fun s (name, v) => s.bind root name v) s

@[simp] theorem nextFrame_without (names : List String) : (s.without names).nextFrame = s.nextFrame := by
  induction names generalizing s with
  | nil => rfl
  | cons name names ih => exact (ih (s.unbind root name)).trans (s.nextFrame_unbind root name)

@[simp] theorem parents_without (names : List String) (f : FrameId) :
    ((s.without names).frame f).parents = (s.frame f).parents := by
  induction names generalizing s with
  | nil => rfl
  | cons name names ih => exact (ih (s.unbind root name)).trans (s.parents_unbind root name f)

@[simp] theorem closures_without (names : List String) : (s.without names).closures = s.closures := by
  induction names generalizing s with
  | nil => rfl
  | cons name names ih => exact ih (s.unbind root name)

@[simp] theorem objects_without (names : List String) : (s.without names).objects = s.objects := by
  induction names generalizing s with
  | nil => rfl
  | cons name names ih => exact ih (s.unbind root name)

theorem own?_without (names : List String) (f : FrameId) (name : String) :
    (s.without names).own? f name = if f = root ∧ name ∈ names then none else s.own? f name := by
  induction names generalizing s with
  | nil => simp [without]
  | cons first names ih =>
    refine (ih (s.unbind root first)).trans ?_
    rw [own?_unbind]
    by_cases hf : f = root
    · by_cases hn : name ∈ names
      · simp [hf, hn]
      · by_cases h : first = name
        · simp [hf, h]
        · simp [hf, hn, h, Ne.symm h]
    · simp [hf]

@[simp] theorem nextFrame_lending (table : Table Value) : (s.lending table).nextFrame = s.nextFrame := by
  induction table generalizing s with
  | nil => rfl
  | cons entry table ih => exact (ih (s.bind root entry.1 entry.2)).trans (s.nextFrame_bind root entry.1 entry.2)

@[simp] theorem parents_lending (table : Table Value) (f : FrameId) :
    ((s.lending table).frame f).parents = (s.frame f).parents := by
  induction table generalizing s with
  | nil => rfl
  | cons entry table ih => exact (ih (s.bind root entry.1 entry.2)).trans (s.parents_bind root entry.1 entry.2 f)

@[simp] theorem closures_lending (table : Table Value) : (s.lending table).closures = s.closures := by
  induction table generalizing s with
  | nil => rfl
  | cons entry table ih => exact ih (s.bind root entry.1 entry.2)

@[simp] theorem objects_lending (table : Table Value) : (s.lending table).objects = s.objects := by
  induction table generalizing s with
  | nil => rfl
  | cons entry table ih => exact ih (s.bind root entry.1 entry.2)

variable {s} in
/-- Of the values that a table has for a name, the last one counts. -/
theorem own?_lending (hs : root < s.nextFrame) (table : Table Value) (f : FrameId) (name : String) :
    (s.lending table).own? f name =
      if f = root then (Table.get? table.reverse name).or (s.own? f name) else s.own? f name := by
  induction table generalizing s with
  | nil => simp [lending]
  | cons entry table ih =>
    obtain ⟨key, v⟩ := entry
    have hs' : root < (s.bind root key v).nextFrame := by rwa [nextFrame_bind]
    refine (ih hs').trans ?_
    rw [s.own?_bind hs]
    by_cases hf : f = root
    · rw [if_pos hf, if_pos hf, List.reverse_cons, Table.get?_append, Table.get?_cons]
      by_cases hk : key = name
      · simp [hf, hk]
      · simp [hk]
    · simp [hf]

/-- Names that are not lent stay what they are. -/
theorem own?_lending_of_not_mem {table : Table Value} (f : FrameId) {name : String} (h : name ∉ table.keys) :
    (s.lending table).own? f name = s.own? f name := by
  induction table generalizing s with
  | nil => rfl
  | cons entry table ih =>
    obtain ⟨key, v⟩ := entry
    have hkey : key ≠ name := fun heq => h (heq ▸ List.mem_cons_self)
    refine (ih (s.bind root key v) fun hmem => h (List.mem_cons_of_mem key hmem)).trans ?_
    rw [own?_bind_cases, if_neg fun hc => hkey hc.2.2]

/-- A store without a global frame has nothing to lend. -/
theorem lending_of_le (hs : s.nextFrame ≤ root) (table : Table Value) : s.lending table = s := by
  induction table with
  | nil => rfl
  | cons entry table ih =>
    show (s.bind root entry.1 entry.2).lending table = s
    rw [s.bind_of_le hs, ih]

/-! ## Growth -/

/-- No frame is taken away or moved, and no name is taken out of a frame. -/
structure Grows (s s' : Store) : Prop where
  frames : s.nextFrame ≤ s'.nextFrame
  chain : ∀ f < s.nextFrame, s'.chain f = s.chain f
  binds : ∀ name f, s.binds name f = true → s'.binds name f = true

namespace Grows

variable {s s' s'' : Store}

theorem refl (s : Store) : s.Grows s := ⟨Nat.le_refl _, fun _ _ => rfl, fun _ _ h => h⟩

theorem trans (h : s.Grows s') (h' : s'.Grows s'') : s.Grows s'' :=
  ⟨Nat.le_trans h.frames h'.frames,
    fun f hf => (h'.chain f (Nat.lt_of_lt_of_le hf h.frames)).trans (h.chain f hf),
    fun name f hb => h'.binds name f (h.binds name f hb)⟩

theorem ancestor? (h : s.Grows s') {f : FrameId} (hf : f < s.nextFrame) (i : Nat) :
    s'.ancestor? f i = s.ancestor? f i := by
  rw [Store.ancestor?, h.chain f hf, Store.ancestor?]

/-- What changes closures and objects only. -/
theorem of_frames (h : s'.frames = s.frames) : s.Grows s' := by
  have hframe : s'.frame = s.frame := by
    funext f
    rw [frame, h, frame]
  refine ⟨Nat.le_of_eq (congrArg Array.size h.symm), fun f _ => ?_, fun name f hb => ?_⟩
  · rw [Store.chain, hframe, Store.chain]
  · rwa [Store.binds, hframe]

theorem pushFrame (s : Store) (parents : List FrameId) (bindings : Table Value) :
    s.Grows (s.pushFrame parents bindings) := by
  refine ⟨by rw [nextFrame_pushFrame]; exact Nat.le_succ _, fun f hf => ?_, fun name f hb => ?_⟩
  · rw [Store.chain, frame_pushFrame, if_neg (Nat.ne_of_lt hf), Store.chain]
  · rwa [binds_pushFrame, if_neg (Nat.ne_of_lt (s.lt_nextFrame_of_binds hb))]

theorem bind (s : Store) (f : FrameId) (name : String) (v : Value) : s.Grows (s.bind f name v) := by
  refine ⟨Nat.le_of_eq (s.nextFrame_bind f name v).symm, fun g _ => ?_, fun other g hb => ?_⟩
  · rw [Store.chain, parents_bind, Store.chain]
  · by_cases hf : f < s.nextFrame
    · rw [s.binds_bind hf, hb, Bool.or_true]
    · rwa [s.bind_of_le (Nat.le_of_not_lt hf)]

end Grows

end LoxLang.Store
