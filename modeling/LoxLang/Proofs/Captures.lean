import LoxLang.Proofs.Declared
import LoxLang.Proofs.Uses

/-!
# Names that a function takes from outside

In a call, the frames of the function lie between a use and the frame that the function is closed over
(`UseVisit.Free.frames`). A name that the function does not declare is found beyond them: all its uses in calls of one
closure read one frame, if they have a depth, or if no frame around the closure but the global one can bind the name
(`Session.free_uses_read_one_frame`). Otherwise a later declaration may come between.
-/

namespace LoxLang

/-! ## The frame that is read -/

/-- The frame whose binding a use reads, if it finds one. -/
def UseVisit.frameRead? (u : UseVisit) (s : Store) : Option FrameId :=
  match u.depth with
  | some d => (s.ancestor? u.scope d).filter (s.binds u.name)
  | none => s.owner? u.scope u.name

/-- A read that succeeds gives what the name is bound to in this frame. -/
theorem UseVisit.frameRead?_of_readName {u : UseVisit} {m m₁ : Machine} {v : Value}
    (h : Exec.readName u.scope u.name u.line u.depth m = .ok v m₁) :
    ∃ f, u.frameRead? m.store = some f ∧ m.store.own? f u.name = some v := by
  unfold UseVisit.frameRead?
  cases hd : u.depth with
  | some d =>
    rw [hd, Exec.readName] at h
    cases ha : m.store.ancestor? u.scope d with
    | none =>
      rw [Exec.lookupAt, Exec.ancestor, Exec.bind_apply, Exec.bind_apply] at h
      simp only [Exec.inspect, ha] at h
      cases h
    | some f =>
      rw [Exec.lookupAt_apply m ha] at h
      cases hv : m.store.own? f u.name with
      | none => rw [hv] at h; cases h
      | some v' =>
        rw [hv] at h
        cases h
        exact ⟨f, by simp [ha, Store.binds_iff.mpr ⟨v, hv⟩], hv⟩
  | none =>
    rw [hd, Exec.readName, Exec.lookup_apply] at h
    cases hv : m.store.lookup? u.scope u.name with
    | none => rw [hv] at h; cases h
    | some v' =>
      rw [hv] at h
      cases h
      exact Option.bind_eq_some_iff.mp hv

/-! ## Frames inside a call -/

/-- Further out, a chain and its layers go on alike. -/
theorem Fits.drop {w : World} {s : Store} (hs : StoreSound w s) {f g : FrameId} {layers : List Layer} {i : Nat}
    (h : Fits w f layers) (hg : s.ancestor? f i = some g) :
    Fits w g (layers.drop i) ∧ (s.chain f).drop i = s.chain g := by
  induction i generalizing f layers with
  | zero =>
    obtain rfl : f = g := Option.some.inj hg
    exact ⟨h, rfl⟩
  | succ i ih =>
    obtain ⟨t, names, ht, rfl, -⟩ := h
    obtain ⟨-, -, hc⟩ | ⟨f', -, hf', hc⟩ := hs.chain_cons ht
    · rw [Store.ancestor?, hc] at hg
      cases hg
    · rw [Store.ancestor?, hc, List.getElem?_cons_succ] at hg
      rw [hc]
      exact ih hf' hg

/-- A use of a name during a call of a closure, which started on machine `m`; the function does not declare the name. -/
structure UseVisit.Free (visits : List Visit) (c : ClosureId) (m : Machine) (v : Visit) (u : UseVisit) : Prop where
  visit : v ∈ visits
  use : v.use? = some u
  reads : u.reads = true
  call : ∃ arguments line, ⟨.invoke c arguments line, m⟩ ∈ visits
  inside : m.store.nextFrame ∈ v.machine.store.chain u.scope
  notParameter : u.name ∉ (m.store.closure c).params
  notDeclared : u.name ∉ (m.store.closure c).body.declared

/-- What a world knows of a closure and of the frame it is closed over. -/
structure ClosedOver (w : World) (c : ClosureId) (t : ClosureType) (t' : FrameType) : Prop where
  closure : w.closures[c]? = some t
  frame : w.frames[t.frame]? = some t'
  fits : Fits w t.frame t.site

/-- In the `i`-th frame around a use a closure is called: further out lie the frames that it is closed over, and the
layers of the place stand as the closure knows them. -/
structure UseVisit.InCall (u : UseVisit) (v : Visit) (layers : List Layer) (i : Nat) (m : Machine) (c : ClosureId)
    (t : ClosureType) (t' : FrameType) (names : Scope) : Prop where
  frame : (m.store.closure c).frame = t.frame
  around : m.store.chain t.frame = t.frame :: t'.parents
  beyond : (v.machine.store.chain u.scope).drop (i + 1) = t.frame :: t'.parents
  layers : layers.drop i =
    ⟨.parameters (m.store.closure c).name (m.store.closure c).params (m.store.closure c).body, names⟩ :: t.site

theorem UseVisit.Placed.inCall {programs : List (List Node)} {w w₀ : World} {s : Store} {v : Visit} {u : UseVisit}
    {layers : List Layer} (hp : u.Placed programs w₀ v layers) (hw : w₀ ≤ w) (hc : Chronicle programs w)
    (hs : StoreSound w s) {c : ClosureId} {arguments : List Value} {line : Line} {m : Machine}
    (hcall : ⟨.invoke c arguments line, m⟩ ∈ w.visits) {i : Nat}
    (ha : v.machine.store.ancestor? u.scope i = some m.store.nextFrame) :
    ∃ t t' names, ClosedOver w c t t' ∧ u.InCall v layers i m c t t' names := by
  obtain ⟨hfits, hdrop⟩ := hp.fits.drop hp.sound ha
  cases hc.visits _ hcall with
  | @invoke _ _ _ _ t w₁ hw₁ hs₁ ht hframe =>
    obtain ⟨tf, names, htf, hlayers, -⟩ := hfits
    obtain rfl : tf = .ofCall m.store c t := Option.some.inj ((World.frame_of_le hw htf).symm.trans hframe)
    obtain ⟨hroot, hbad⟩ | ⟨f, t', -, ht', hparents, hsite⟩ := (hs.frames _ _ hframe).enclosed
    · cases hbad
    obtain ⟨rfl, htail⟩ := List.cons.inj (show t.frame :: _ = f :: t'.parents from hparents)
    refine ⟨t, t', names, ⟨World.closure_of_le hw₁ ht, ht', hsite⟩, (hs₁.closures c t ht).2, hparents, ?_, hlayers⟩
    rw [← List.tail_drop, hdrop, hp.sound.chain_eq htf]
    exact hparents

namespace UseVisit.Free

/-- A use of an outside name is picked from a list of visits by its place, and by the place of the call around it. -/
theorem pick (visits : List Visit) (c : ClosureId) (u : UseVisit) (i j : Nat) (line : Line)
    (f : FrameId) (own : List String) (chain : List FrameId) (read : Option FrameId)
    (hcall : visits[i]?.map (fun v => (v.activity, v.machine.store.nextFrame,
      (v.machine.store.closure c).params ++ (v.machine.store.closure c).body.declared)) =
      some (.invoke c [] line, f, own))
    (huse : visits[j]?.map (fun v => (v.use?, v.machine.store.chain u.scope, u.frameRead? v.machine.store)) =
      some (some u, chain, read))
    (hreads : u.reads = true) (hf : f ∈ chain) (hown : u.name ∉ own) :
    ∃ m v, u.Free visits c m v ∧ u.frameRead? v.machine.store = read := by
  obtain ⟨call, hi, hcall⟩ := Option.map_eq_some_iff.mp hcall
  obtain ⟨v, hj, huse⟩ := Option.map_eq_some_iff.mp huse
  simp only [Prod.mk.injEq] at hcall huse
  obtain ⟨hactivity, rfl, rfl⟩ := hcall
  obtain ⟨hu, rfl, rfl⟩ := huse
  obtain ⟨activity, m⟩ := call
  obtain rfl : activity = .invoke c [] line := hactivity
  exact ⟨m, v, ⟨List.mem_of_getElem? hj, hu, hreads, ⟨_, _, List.mem_of_getElem? hi⟩, hf,
    fun h => hown (List.mem_append_left _ h), fun h => hown (List.mem_append_right _ h)⟩, rfl⟩

variable {programs : List (List Node)} {w : World} {s : Store} {c : ClosureId} {m : Machine} {v : Visit} {u : UseVisit}

/-- Beyond the frames of the call lie those that the closure is closed over, and the use is not resolved to a layer
nearer than that. -/
theorem frames (h : u.Free w.visits c m v) (hc : Chronicle programs w) (hs : StoreSound w s) :
    ∃ w₀ layers t t' i, w₀ ≤ w ∧ u.Placed programs w₀ v layers ∧ ClosedOver w c t t' ∧
      (m.store.closure c).frame = t.frame ∧ m.store.chain t.frame = t.frame :: t'.parents ∧
      (v.machine.store.chain u.scope).drop (i + 1) = t.frame :: t'.parents ∧ layers.drop (i + 1) = t.site ∧
      ∀ layer ∈ layers.take (i + 1), ¬ layer.Holds u.name := by
  obtain ⟨arguments, line, hcall⟩ := h.call
  obtain ⟨w₀, layers, hw, hp⟩ := (hc.visits v h.visit).placed h.use
  obtain ⟨i, hi, hchain⟩ := List.getElem_of_mem h.inside
  have ha : v.machine.store.ancestor? u.scope i = some m.store.nextFrame := by
    rw [Store.ancestor?, List.getElem?_eq_getElem hi, hchain]
  obtain ⟨t, t', names, hclosed, hcall⟩ := hp.inCall hw hc hs hcall ha
  refine ⟨w₀, layers, t, t', i, hw, hp, hclosed, hcall.frame, hcall.around, hcall.beyond, ?_, ?_⟩
  · rw [← List.tail_drop, hcall.layers]
    rfl
  · obtain ⟨n, -, program, -, ns, hwithin⟩ := hp.stands
    obtain ⟨hold, -⟩ := hwithin.declared_inside ⟨names, hcall.layers⟩
    intro layer hl hx
    obtain hx | hx := List.mem_append.mp (hold layer hl u.name hx)
    · exact h.notParameter hx
    · exact h.notDeclared hx

end UseVisit.Free

/-- Layers that do not hold a name are passed over in its resolution. -/
theorem depthOf?_drop {layers : List Layer} {k : Nat} (hk : k ≤ layers.length) {name : String}
    (h : ∀ layer ∈ layers.take k, ¬ layer.Holds name) :
    (scopesOf layers).depthOf? name = ((scopesOf (layers.drop k)).depthOf? name).map (· + k) := by
  have hnone : (scopesOf (layers.take k)).depthOf? name = none := by
    refine List.findIdx?_eq_none_iff.mpr fun scope hs => ?_
    obtain ⟨layer, hl, rfl⟩ := List.mem_map.mp hs
    exact Bool.eq_false_iff.mpr fun hn => h layer hl (.inl hn)
  have hsplit : scopesOf layers = scopesOf (layers.take k) ++ scopesOf (layers.drop k) := by
    rw [← List.map_append, List.take_append_drop]
  unfold Scopes.depthOf? at hnone ⊢
  rw [hsplit, List.findIdx?_append, hnone, Option.none_or, List.length_map, List.length_take, Nat.min_eq_left hk]

/-- Frames that do not bind a name are passed over in the search for it. -/
theorem Store.owner?_drop {s : Store} {f : FrameId} {k : Nat} {name : String}
    (h : ∀ g ∈ (s.chain f).take k, s.binds name g = false) :
    s.owner? f name = ((s.chain f).drop k).find? (s.binds name) := by
  have hnone : ((s.chain f).take k).find? (s.binds name) = none :=
    List.find?_eq_none.mpr fun g hg => by simp [h g hg]
  rw [Store.owner?]
  conv => lhs; rw [← List.take_append_drop k (s.chain f), List.find?_append, hnone, Option.none_or]

/-- Frames whose constructs do not declare a name do not bind it. -/
theorem Fits.unbound_take {w : World} {s : Store} (hs : StoreSound w s) {f : FrameId} {layers : List Layer}
    (hf : Fits w f layers) {k : Nat} {name : String} (h : ∀ layer ∈ layers.take k, ¬ layer.Holds name) :
    ∀ g ∈ (s.chain f).take k, s.binds name g = false := by
  intro g hg
  obtain ⟨i, hi, rfl⟩ := List.getElem_of_mem hg
  rw [List.length_take] at hi
  have hil : i < layers.length := hf.length_chain hs ▸ (by omega)
  have hl : layers[i]? = some layers[i] := List.getElem?_eq_getElem hil
  refine hf.unbound hs hl (fun hd => h layers[i] ?_ (.inr hd)) ?_
  · exact List.mem_take_iff_getElem.mpr ⟨i, by omega, rfl⟩
  · rw [List.getElem_take]
    exact List.getElem?_eq_getElem (by omega)

/-! ## One frame -/

/-- What a use of a name reads that its function takes from outside: the frame that resolution counts from the place of
the function, or a frame around the closure whose construct declares the name. -/
inductive ReadsOutside (visits : List Visit) (t : ClosureType) (t' : FrameType) (u : UseVisit) (f : FrameId) : Prop
  | resolved {d} : (scopesOf t.site).depthOf? u.name = some d → (t.frame :: t'.parents)[d]? = some f →
      ReadsOutside visits t t' u f
  | searched {o} : u.depth = none → (scopesOf t.site).depthOf? u.name = none → f ∈ t.frame :: t'.parents →
      Instance visits f o → o.Declares u.name → ReadsOutside visits t t' u f

theorem UseVisit.Free.readsOutside {programs : List (List Node)} {w : World} {s : Store} {c : ClosureId} {m : Machine}
    {v : Visit} {u : UseVisit} (h : u.Free w.visits c m v) (hc : Chronicle programs w) (hs : StoreSound w s) :
    ∃ t t', ClosedOver w c t t' ∧ m.store.chain (m.store.closure c).frame = t.frame :: t'.parents ∧
      ∀ f, u.frameRead? v.machine.store = some f → ReadsOutside w.visits t t' u f := by
  obtain ⟨w₀, layers, t, t', i, hw, hp, hclosed, hframe, hchain, hdrop, hsite, hheld⟩ := h.frames hc hs
  have hlength : i + 1 ≤ layers.length := by
    have hlen := congrArg List.length hdrop
    rw [List.length_drop, hp.fits.length_chain hp.sound, List.length_cons] at hlen
    omega
  refine ⟨t, t', hclosed, by rw [hframe, hchain], fun f hf => ?_⟩
  have hdepth := hp.resolved
  rw [depthOf?_drop hlength hheld, hsite] at hdepth
  unfold frameRead? at hf
  cases hd : (scopesOf t.site).depthOf? u.name with
  | some d =>
    rw [hd, Option.map_some] at hdepth
    rw [hdepth] at hf
    obtain ⟨ha, -⟩ := Option.filter_eq_some_iff.mp hf
    refine .resolved hd ?_
    rw [← hdrop, List.getElem?_drop, Nat.add_comm]
    exact ha
  | none =>
    rw [hd, Option.map_none] at hdepth
    rw [hdepth] at hf
    dsimp only at hf
    obtain ⟨hb, tf, htf⟩ := hp.fits.owner?_frame hp.sound hf
    rw [Store.owner?_drop (hp.fits.unbound_take hp.sound hheld), hdrop] at hf
    exact .searched hdepth hd (List.mem_of_find?_eq_some hf) (hc.instances f tf (World.frame_of_le hw htf))
      ((hp.sound.frames f tf htf).declared u.name hb)

/-- All uses of a name that a closure takes from outside read one frame, whatever honest hosts lend and take back, if
one of them has a depth, or if none of the frames around the closure but the global one is an instance of a construct
that declares the name. -/
theorem Session.free_uses_read_one_frame (e : Surroundings) {events : List Event}
    (he : ∀ event ∈ events, event.Honest) {c : ClosureId} {m₁ m₂ : Machine} {v₁ v₂ : Visit} {u₁ u₂ : UseVisit}
    (h₁ : u₁.Free ((start e).visited events) c m₁ v₁) (h₂ : u₂.Free ((start e).visited events) c m₂ v₂)
    (hname : u₂.name = u₁.name)
    (houter : u₁.depth ≠ none ∨ ∀ f ∈ m₁.store.chain (m₁.store.closure c).frame, f ≠ Store.root →
      ∀ o, Instance ((start e).visited events) f o → ¬ o.Declares u₁.name)
    {f₁ f₂ : FrameId} (hf₁ : u₁.frameRead? v₁.machine.store = some f₁)
    (hf₂ : u₂.frameRead? v₂.machine.store = some f₂) : f₁ = f₂ := by
  obtain ⟨w, hv, -, hs⟩ := events_sound e he
  rw [← hv] at h₁ h₂ houter
  have hsound := hs.lockstep.stores.sound
  have hchron := hs.lockstep.chronicle
  obtain ⟨t, t', hclosed, hchain, hr₁⟩ := h₁.readsOutside hchron hsound
  obtain ⟨t₂, t₂', hclosed₂, -, hr₂⟩ := h₂.readsOutside hchron hsound
  obtain rfl : t = t₂ := Option.some.inj (hclosed.closure.symm.trans hclosed₂.closure)
  obtain rfl : t' = t₂' := Option.some.inj (hclosed.frame.symm.trans hclosed₂.frame)
  rw [hchain] at houter
  -- a resolved use takes one place of the chain, and a searched one can only come to the global frame
  cases hr₁ f₁ hf₁ with
  | resolved hd₁ hget₁ =>
    cases hr₂ f₂ hf₂ with
    | resolved hd₂ hget₂ =>
      rw [hname, hd₁] at hd₂
      cases hd₂
      exact Option.some.inj (hget₁.symm.trans hget₂)
    | searched _ hd₂ => rw [hname, hd₁] at hd₂; cases hd₂
  | searched hdepth hd₁ hm₁ hi₁ ho₁ =>
    have hroot := houter.resolve_left fun h => h hdepth
    cases hr₂ f₂ hf₂ with
    | resolved hd₂ => rw [hname, hd₁] at hd₂; cases hd₂
    | searched _ _ hm₂ hi₂ ho₂ =>
      have h₁ : f₁ = Store.root := Decidable.byContradiction fun h => hroot f₁ hm₁ h _ hi₁ ho₁
      have h₂ : f₂ = Store.root := Decidable.byContradiction fun h => hroot f₂ hm₂ h _ hi₂ (hname ▸ ho₂)
      rw [h₁, h₂]

/-- The visits of a single run in a new session. -/
def visitsOf (source : String) : List Visit := (Session.start {}).visited [.run ⟨30, source⟩]

/-- The function is called before and after the block around it declares the name, which is global as well. -/
def shadowedGlobal : String := "let x = nil; \x7b fun f() \x7b return x; \x7d f(); let x = true; f(); \x7d"

/-- Both calls read the global variable. -/
theorem Session.resolved_uses_read_global : (∀ event ∈ [Event.run ⟨30, shadowedGlobal⟩], event.Honest) ∧
    ∃ m₁ v₁ m₂ v₂ f₁ f₂,
    UseVisit.Free (visitsOf shadowedGlobal) 0 m₁ v₁ ⟨3, "x", 1, some 3, true⟩ ∧
    UseVisit.Free (visitsOf shadowedGlobal) 0 m₂ v₂ ⟨5, "x", 1, some 3, true⟩ ∧
    UseVisit.frameRead? ⟨3, "x", 1, some 3, true⟩ v₁.machine.store = some f₁ ∧
    UseVisit.frameRead? ⟨5, "x", 1, some 3, true⟩ v₂.machine.store = some f₂ ∧ f₁ = f₂ := by
  obtain ⟨m₁, v₁, h₁, hf₁⟩ := UseVisit.Free.pick (visitsOf shadowedGlobal) 0 ⟨3, "x", 1, some 3, true⟩ 7 10 1 2 []
    [3, 2, 1, 0] (some 0) (by cbv) (by cbv) rfl (by decide) (by decide)
  obtain ⟨m₂, v₂, h₂, hf₂⟩ := UseVisit.Free.pick (visitsOf shadowedGlobal) 0 ⟨5, "x", 1, some 3, true⟩ 16 19 1 4 []
    [5, 4, 1, 0] (some 0) (by cbv) (by cbv) rfl (by decide) (by decide)
  have hhonest : ∀ event ∈ [Event.run ⟨30, shadowedGlobal⟩], event.Honest := fun event h => by
    obtain rfl := List.mem_singleton.mp h
    exact trivial
  exact ⟨hhonest, m₁, v₁, m₂, v₂, 0, 0, h₁, h₂, hf₁, hf₂,
    free_uses_read_one_frame {} hhonest h₁ h₂ rfl (.inl (by decide)) hf₁ hf₂⟩

/-- The same with a native in place of the global variable, so that the use has no depth. -/
def shadowedNative : String := "\x7b fun f() \x7b return clock; \x7d f(); let clock = true; f(); \x7d"

/-- The first call reads the native, and the second the variable of the block. -/
theorem Session.searched_use_reads_two_frames : ∃ m₁ v₁ m₂ v₂ f₁ f₂,
    UseVisit.Free (visitsOf shadowedNative) 0 m₁ v₁ ⟨3, "clock", 1, none, true⟩ ∧
    UseVisit.Free (visitsOf shadowedNative) 0 m₂ v₂ ⟨5, "clock", 1, none, true⟩ ∧
    UseVisit.frameRead? ⟨3, "clock", 1, none, true⟩ v₁.machine.store = some f₁ ∧
    UseVisit.frameRead? ⟨5, "clock", 1, none, true⟩ v₂.machine.store = some f₂ ∧ f₁ ≠ f₂ := by
  obtain ⟨m₁, v₁, h₁, hf₁⟩ := UseVisit.Free.pick (visitsOf shadowedNative) 0 ⟨3, "clock", 1, none, true⟩ 5 8 1 2 []
    [3, 2, 1, 0] (some 0) (by cbv) (by cbv) rfl (by decide) (by decide)
  obtain ⟨m₂, v₂, h₂, hf₂⟩ := UseVisit.Free.pick (visitsOf shadowedNative) 0 ⟨5, "clock", 1, none, true⟩ 14 17 1 4 []
    [5, 4, 1, 0] (some 1) (by cbv) (by cbv) rfl (by decide) (by decide)
  exact ⟨m₁, v₁, m₂, v₂, 0, 1, h₁, h₂, hf₁, hf₂, by decide⟩

end LoxLang
