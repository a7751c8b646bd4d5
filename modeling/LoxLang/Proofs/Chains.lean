import LoxLang.Proofs.World

/-!
# Frames around a frame

In a sound store, the frames around a frame that fits a place are instances of the constructs around that place, one by
one (`Fits.ancestor`). So a name that is ready in a layer is found in the frame of that layer (`Fits.own?_of_ready`),
and the search along the chain ends there unless a nearer construct declares the name (`Fits.owner?_of_first`). Only a
global name that a host lent can be missing (`StoreSound.bound`).
-/

namespace LoxLang

variable {w : World} {s : Store}

namespace StoreSound

theorem frame_lt (hs : StoreSound w s) {f : FrameId} {t : FrameType} (ht : w.frames[f]? = some t) : f < s.nextFrame :=
  hs.frameCount ▸ (List.getElem?_eq_some_iff.mp ht).1

theorem chain_eq (hs : StoreSound w s) {f : FrameId} {t : FrameType} (ht : w.frames[f]? = some t) :
    s.chain f = f :: t.parents := by
  rw [Store.chain, (hs.frames f t ht).parents]

/-- The chain of a frame is the frame itself and the chain of the frame it stands in. -/
theorem chain_cons (hs : StoreSound w s) {f : FrameId} {t : FrameType} (ht : w.frames[f]? = some t) :
    f = Store.root ∧ t = ⟨.program, [], []⟩ ∧ s.chain f = [f] ∨
      ∃ g, g < f ∧ Fits w g t.around ∧ s.chain f = f :: s.chain g := by
  obtain ⟨hf, rfl⟩ | ⟨g, t', hg, ht', hp, hfits⟩ := (hs.frames f t ht).enclosed
  · exact .inl ⟨hf, rfl, hs.chain_eq ht⟩
  · exact .inr ⟨g, hg, hfits, by rw [hs.chain_eq ht, hp, hs.chain_eq ht']⟩

end StoreSound

namespace Fits

variable {f : FrameId} {layers : List Layer}

/-- Layer by layer: the frame that many frames outwards is an instance of the construct, and binds what is ready. -/
theorem ancestor (hs : StoreSound w s) {i : Nat} {layer : Layer} (h : Fits w f layers)
    (hl : layers[i]? = some layer) :
    ∃ g t, s.ancestor? f i = some g ∧ w.frames[g]? = some t ∧ t.opening = layer.opening ∧
      ∀ name, layer.names.get? name = some true → s.binds name g = true ∨ g = Store.root ∧ name ∈ w.lent := by
  induction i generalizing f layers with
  | zero =>
    obtain ⟨t, names, ht, rfl, hn⟩ := h
    cases hl
    exact ⟨f, t, rfl, ht, rfl, fun name hr => hs.bound f name (hn name hr)⟩
  | succ i ih =>
    obtain ⟨t, names, ht, rfl, hn⟩ := h
    rw [List.getElem?_cons_succ] at hl
    obtain ⟨-, rfl, -⟩ | ⟨g, -, hg, hc⟩ := hs.chain_cons ht
    · cases hl
    · obtain ⟨g', t', ha, hrest⟩ := ih hg hl
      refine ⟨g', t', ?_, hrest⟩
      rw [Store.ancestor?, hc, List.getElem?_cons_succ]
      exact ha

theorem length_chain (hs : StoreSound w s) (h : Fits w f layers) : (s.chain f).length = layers.length := by
  induction layers generalizing f with
  | nil => obtain ⟨t, names, -, h, -⟩ := h; cases h
  | cons layer layers ih =>
    obtain ⟨t, names, ht, hl, -⟩ := h
    cases hl
    obtain ⟨-, rfl, hc⟩ | ⟨g, -, hg, hc⟩ := hs.chain_cons ht
    · rw [hc]; rfl
    · rw [hc, List.length_cons, List.length_cons, ih hg]

/-- No frame is around the global one. -/
theorem length_chain_of_root (hs : StoreSound w s) (h : Fits w f layers) {i : Nat}
    (ha : s.ancestor? f i = some Store.root) : (s.chain f).length = i + 1 := by
  induction i generalizing f layers with
  | zero =>
    obtain ⟨t, -, ht, -, -⟩ := h
    obtain rfl : f = Store.root := Option.some.inj ha
    obtain ⟨-, -, hc⟩ | ⟨g, hg, -, -⟩ := hs.chain_cons ht
    · rw [hc]; rfl
    · exact absurd hg (Nat.not_lt_zero g)
  | succ i ih =>
    obtain ⟨t, -, ht, -, -⟩ := h
    obtain ⟨-, -, hc⟩ | ⟨g, -, hg, hc⟩ := hs.chain_cons ht <;>
      rw [Store.ancestor?, hc, List.getElem?_cons_succ] at ha
    · cases ha
    · rw [hc, List.length_cons, ih hg ha]

/-- The frame of a layer has only sound values. -/
theorem ancestor_sound (hs : StoreSound w s) {i : Nat} {layer : Layer} (h : Fits w f layers)
    (hl : layers[i]? = some layer) :
    ∃ g, s.ancestor? f i = some g ∧ ∀ name v, s.own? g name = some v → ValueSound w v :=
  let ⟨g, t, ha, ht, _⟩ := h.ancestor hs hl
  ⟨g, ha, (hs.frames g t ht).values⟩

/-- A name that is ready in a layer is bound in the frame of the layer, or it is a global name that a host lent. -/
theorem frame_of_ready (hs : StoreSound w s) (h : Fits w f layers) {name : String} {i : Nat}
    (hr : ReadyAt layers name i) :
    ∃ g, s.ancestor? f i = some g ∧ (s.binds name g = true ∨ g = Store.root ∧ name ∈ w.lent) :=
  let ⟨_, hl, hn⟩ := hr
  let ⟨g, _, ha, _, _, hb⟩ := h.ancestor hs hl
  ⟨g, ha, hb name hn⟩

/-- A name that is ready in a layer is found in the frame of the layer, if no name was ever lent. -/
theorem own?_of_ready (hs : StoreSound w s) (hq : w.lent = []) (h : Fits w f layers) {name : String} {i : Nat}
    (hr : ReadyAt layers name i) : ∃ g v, s.ancestor? f i = some g ∧ s.own? g name = some v := by
  obtain ⟨g, ha, hbinds | ⟨-, hlent⟩⟩ := h.frame_of_ready hs hr
  · obtain ⟨v, hv⟩ := Store.binds_iff.mp hbinds
    exact ⟨g, v, ha, hv⟩
  · cases hq ▸ hlent

/-- A frame does not bind what its construct does not declare. -/
theorem unbound (hs : StoreSound w s) (h : Fits w f layers) {name : String} {i : Nat} {layer : Layer}
    (hl : layers[i]? = some layer) (hd : ¬ layer.opening.Declares name) {g : FrameId}
    (ha : s.ancestor? f i = some g) : s.binds name g = false := by
  obtain ⟨g', t, ha', ht, ho, -⟩ := h.ancestor hs hl
  obtain rfl : g' = g := Option.some.inj (ha'.symm.trans ha)
  rw [← ho] at hd
  exact Bool.eq_false_iff.mpr fun hb => hd ((hs.frames g' t ht).declared name hb)

/-- The search for a name ends at a layer where it is ready, unless a nearer construct declares it. -/
theorem owner?_of_first (hs : StoreSound w s) (hq : w.lent = []) (h : Fits w f layers) {name : String} {i : Nat}
    (hr : ReadyAt layers name i) (hf : FirstAt layers name i) : s.owner? f name = s.ancestor? f i := by
  obtain ⟨g, v, ha, hv⟩ := h.own?_of_ready hs hq hr
  rw [ha, Store.owner?, List.find?_eq_some_iff_getElem]
  obtain ⟨hi, hg⟩ := List.getElem?_eq_some_iff.mp ha
  refine ⟨Store.binds_iff.mpr ⟨v, hv⟩, i, hi, hg, fun j hj => ?_⟩
  have hjc : j < (s.chain f).length := Nat.lt_trans hj hi
  have hjl : j < layers.length := h.length_chain hs ▸ hjc
  have hl : layers[j]? = some layers[j] := List.getElem?_eq_getElem hjl
  have hub := h.unbound hs hl (hf j _ hj hl) (List.getElem?_eq_getElem hjc)
  simp [hub]

/-- The frame where the search for a name ends binds it. -/
theorem owner?_frame (hs : StoreSound w s) (h : Fits w f layers) {name : String} {g : FrameId}
    (ho : s.owner? f name = some g) : s.binds name g = true ∧ ∃ t, w.frames[g]? = some t := by
  rw [Store.owner?] at ho
  refine ⟨List.find?_some ho, ?_⟩
  obtain ⟨i, hi, hg⟩ := List.getElem_of_mem (List.mem_of_find?_eq_some ho)
  obtain ⟨g', t, ha, ht, -, -⟩ := h.ancestor hs (List.getElem?_eq_getElem (h.length_chain hs ▸ hi))
  rw [Store.ancestor?, List.getElem?_eq_getElem hi] at ha
  obtain rfl : g' = g := (Option.some.inj ha).symm.trans hg
  exact ⟨t, ht⟩

/-- What the search for a name finds is sound. -/
theorem lookup?_sound (hs : StoreSound w s) (h : Fits w f layers) {name : String} {v : Value}
    (hv : s.lookup? f name = some v) : ValueSound w v := by
  obtain ⟨g, ho, hg⟩ := Option.bind_eq_some_iff.mp hv
  obtain ⟨-, t, ht⟩ := h.owner?_frame hs ho
  exact (hs.frames g t ht).values name v hg

end Fits

/-! ## Changes of a sound store -/

theorem StoreSound.pushFrame {f : FrameId} {layers : List Layer} (hs : StoreSound w s) (hf : Fits w f layers)
    {opening : Opening} {bindings : Table Value}
    (hb : ∀ name v, bindings.get? name = some v → opening.Declares name ∧ ValueSound w v) :
    StoreSound (w.pushFrame ⟨opening, layers, s.chain f⟩) (s.pushFrame (s.chain f) bindings) := by
  have hle := w.le_pushFrame ⟨opening, layers, s.chain f⟩
  obtain ⟨t, names, ht, hl, hn⟩ := hf
  refine ⟨?_, hs.closureCount, World.frame_of_le hle hs.root, fun g name h => ?_, fun g t' ht' => ?_, hs.closures,
    fun o => (hs.objects o).mono hle⟩
  · rw [Store.nextFrame_pushFrame, ← hs.frameCount]
    simp [World.pushFrame]
  · obtain hg | hlent := hs.bound g name h
    · have hne : g ≠ s.nextFrame := Nat.ne_of_lt (s.lt_nextFrame_of_binds hg)
      exact .inl (by simpa [hne] using hg)
    · exact .inr hlent
  · obtain hold | ⟨rfl, rfl⟩ := World.frame_pushFrame_cases ht'
    · have hg := hs.frames g t' hold
      have hne : g ≠ s.nextFrame := Nat.ne_of_lt (hs.frame_lt hold)
      refine ⟨hg.enclosed.mono hle, ?_, fun name h => ?_, fun name v h => ?_⟩
      · simpa [hne] using hg.parents
      · exact hg.declared name (by simpa [hne] using h)
      · exact (hg.values name v (by simpa [hne] using h)).mono hle
    · rw [hs.frameCount]
      refine ⟨.inr ⟨f, t, hs.frame_lt ht, World.frame_of_le hle ht, hs.chain_eq ht, ?_⟩, by simp, fun name h => ?_,
        fun name v h => ?_⟩
      · exact Fits.mono hle ⟨t, names, ht, hl, hn⟩
      · rw [Store.binds_pushFrame, if_pos rfl, Table.contains_iff] at h
        obtain ⟨v, hv⟩ := h
        exact (hb name v hv).1
      · rw [Store.own?_pushFrame, if_pos rfl] at h
        exact (hb name v h).2.mono hle

/-- A world may take note of a name that a frame binds. -/
theorem StoreSound.noteBound (hs : StoreSound w s) {f : FrameId} {name : String} (hb : s.binds name f = true) :
    StoreSound (w.bind f name) s := by
  have hle := w.le_bind f name
  refine ⟨hs.frameCount, hs.closureCount, hs.root, fun g other h => ?_, fun g t ht => ?_, hs.closures, fun o =>
    (hs.objects o).mono hle⟩
  · obtain h | h := World.mem_bound_bind.mp h
    · exact hs.bound g other h
    · cases h; exact .inl hb
  · have hg := hs.frames g t ht
    exact ⟨hg.enclosed.mono hle, hg.parents, hg.declared, fun other v hv => (hg.values other v hv).mono hle⟩

/-- Names are bound where they are declared. -/
theorem StoreSound.bind (hs : StoreSound w s) {f : FrameId} {t : FrameType} {name : String} {v : Value}
    (ht : w.frames[f]? = some t) (hd : t.opening.Declares name) (hv : ValueSound (w.bind f name) v) :
    StoreSound (w.bind f name) (s.bind f name v) := by
  have hle := w.le_bind f name
  have hf := hs.frame_lt ht
  refine ⟨by rw [Store.nextFrame_bind]; exact hs.frameCount, hs.closureCount, hs.root, fun g other h => ?_,
    fun g t' ht' => ?_, hs.closures, fun o => (hs.objects o).mono hle⟩
  · rw [s.binds_bind hf]
    obtain h | h := World.mem_bound_bind.mp h
    · exact (hs.bound g other h).imp_left fun hg => by simp [hg]
    · cases h; simp
  · have hg := hs.frames g t' ht'
    refine ⟨hg.enclosed.mono hle, by rw [Store.parents_bind]; exact hg.parents, fun other h => ?_,
      fun other u h => ?_⟩
    · rw [s.binds_bind hf, Bool.or_eq_true, decide_eq_true_eq] at h
      obtain ⟨rfl, rfl⟩ | h := h
      · obtain rfl : t' = t := Option.some.inj (ht'.symm.trans ht)
        exact hd
      · exact hg.declared other h
    · rw [s.own?_bind hf] at h
      split at h
      · cases h; exact hv
      · exact (hg.values other u h).mono hle

/-! ### Names that hosts lend -/

theorem StoreSound.unbind (hs : StoreSound w s) {name : String} (hl : name ∈ w.lent) :
    StoreSound w (s.unbind Store.root name) := by
  have hown : ∀ f other v, (s.unbind Store.root name).own? f other = some v → s.own? f other = some v :=
    fun f other v hv => by
      rw [Store.own?_unbind] at hv
      split at hv
      · cases hv
      · exact hv
  refine ⟨by rw [Store.nextFrame_unbind]; exact hs.frameCount, hs.closureCount, hs.root, fun f other h => ?_,
    fun f t ht => ?_, hs.closures, hs.objects⟩
  · by_cases hname : f = Store.root ∧ name = other
    · exact .inr ⟨hname.1, hname.2 ▸ hl⟩
    · refine (hs.bound f other h).imp_left fun hb => ?_
      rwa [Store.binds_eq_isSome, Store.own?_unbind, if_neg hname, ← Store.binds_eq_isSome]
  · have hf := hs.frames f t ht
    refine ⟨hf.enclosed, by rw [Store.parents_unbind]; exact hf.parents, fun other h => ?_, fun other v hv =>
      hf.values other v (hown f other v hv)⟩
    obtain ⟨v, hv⟩ := Store.binds_iff.mp h
    exact hf.declared other (Store.binds_iff.mpr ⟨v, hown f other v hv⟩)

/-- Global names that hosts lent can be taken out. -/
theorem StoreSound.without (hs : StoreSound w s) {names : List String} (hl : names ⊆ w.lent) :
    StoreSound w (s.without names) := by
  induction names generalizing s with
  | nil => exact hs
  | cons name names ih => exact ih (hs.unbind (hl List.mem_cons_self)) (List.subset_of_cons_subset hl)

theorem StoreSound.bindRoot (hs : StoreSound w s) {name : String} {v : Value} (hv : ValueSound w v) :
    StoreSound w (s.bind Store.root name v) := by
  have hroot := hs.frame_lt hs.root
  refine ⟨by rw [Store.nextFrame_bind]; exact hs.frameCount, hs.closureCount, hs.root, fun f other h =>
    (hs.bound f other h).imp_left ((Store.Grows.bind s _ _ _).binds other f), fun f t ht => ?_, hs.closures, hs.objects⟩
  have hf := hs.frames f t ht
  refine ⟨hf.enclosed, by rw [Store.parents_bind]; exact hf.parents, fun other h => ?_, fun other u hu => ?_⟩
  · rw [s.binds_bind hroot, Bool.or_eq_true, decide_eq_true_eq] at h
    obtain ⟨rfl, -⟩ | h := h
    · -- the program may declare any name
      obtain rfl : t = ⟨.program, [], []⟩ := Option.some.inj (ht.symm.trans hs.root)
      exact trivial
    · exact hf.declared other h
  · rw [s.own?_bind hroot] at hu
    split at hu
    · cases hu; exact hv
    · exact hf.values other u hu

/-- Sound values can be lent under any global names. -/
theorem StoreSound.lending (hs : StoreSound w s) {table : Table Value} (hv : ∀ entry ∈ table, ValueSound w entry.2) :
    StoreSound w (s.lending table) := by
  induction table generalizing s with
  | nil => exact hs
  | cons entry table ih =>
    exact ih (hs.bindRoot (hv entry List.mem_cons_self)) fun other hmem => hv other (List.mem_cons_of_mem _ hmem)

/-- More names may have been lent. -/
theorem StoreSound.lend (hs : StoreSound w s) (names : List String) : StoreSound (w.lend names) s := by
  have hle := w.le_lend names
  refine ⟨hs.frameCount, hs.closureCount, hs.root, fun f name h =>
    (hs.bound f name h).imp_right (And.imp_right fun hl => List.mem_append_left _ hl), fun f t ht => ?_, hs.closures,
    fun o => (hs.objects o).mono hle⟩
  have hf := hs.frames f t ht
  exact ⟨hf.enclosed.mono hle, hf.parents, hf.declared, fun name v hv => (hf.values name v hv).mono hle⟩

/-! ### Closures and objects -/

theorem StoreSound.pushClosure (hs : StoreSound w s) (site : List Layer) (c : Closure) :
    StoreSound (w.pushClosure ⟨site, c.params, c.frame⟩) (s.pushClosure c) := by
  have hle := w.le_pushClosure ⟨site, c.params, c.frame⟩
  refine ⟨hs.frameCount, ?_, hs.root, hs.bound, fun f t ht => ?_, fun c' t ht => ?_, fun o => (hs.objects o).mono hle⟩
  · show (w.closures ++ [_]).length = (s.closures.push c).size
    simpa [Store.nextClosure] using hs.closureCount
  · have hf := hs.frames f t ht
    exact ⟨hf.enclosed.mono hle, hf.parents, hf.declared, fun name v hv => (hf.values name v hv).mono hle⟩
  · rw [Store.closure_pushClosure]
    obtain hold | ⟨rfl, rfl⟩ := World.closure_pushClosure_cases ht
    · have hlt := (List.getElem?_eq_some_iff.mp hold).1
      rw [hs.closureCount] at hlt
      rw [if_neg (Nat.ne_of_lt hlt)]
      exact hs.closures c' t hold
    · rw [if_pos hs.closureCount]
      exact ⟨rfl, rfl⟩

theorem StoreSound.of_objects (hs : StoreSound w s) {objects : Array Object}
    (h : ∀ o, ObjectSound w (Store.object { s with objects } o)) : StoreSound w { s with objects } :=
  ⟨hs.frameCount, hs.closureCount, hs.root, hs.bound,
    fun f t ht => ⟨(hs.frames f t ht).enclosed, (hs.frames f t ht).parents, (hs.frames f t ht).declared,
      (hs.frames f t ht).values⟩,
    hs.closures, h⟩

theorem StoreSound.pushObject (hs : StoreSound w s) {info : ClassInfo} (hi : ClassSound w info) :
    StoreSound w (s.pushObject ⟨info, []⟩) := by
  refine hs.of_objects fun o => ?_
  show ObjectSound w ((s.pushObject ⟨info, []⟩).object o)
  rw [Store.object_pushObject]
  split
  · exact ⟨hi, fun name v h => by cases h⟩
  · exact hs.objects o

theorem StoreSound.setField (hs : StoreSound w s) (o : ObjectId) (name : String) {v : Value} (hv : ValueSound w v) :
    StoreSound w (s.setField o name v) := by
  refine hs.of_objects fun p => ?_
  show ObjectSound w ((s.setField o name v).object p)
  obtain h | ⟨-, h⟩ := s.object_setField o name v p
  · rw [h]; exact hs.objects p
  · rw [h]
    refine ⟨(hs.objects p).info, fun other u hu => ?_⟩
    rw [Table.get?_set] at hu
    split at hu
    · cases hu; exact hv
    · exact (hs.objects p).fields other u hu

end LoxLang
