import Mathlib
import LoxLang.Proofs.Sessions

/-!
# Uses of names

Every use that a run evaluates stands in layers that fit the frame it is evaluated in, and its depth is what resolution
counts in them (`VisitSound.placed`). So the frame that many frames outwards exists, is an instance of the construct
that declares the name, and binds the name if it is read (`Session.uses_resolved`).
-/

namespace LoxLang

/-! ## The uses that a run evaluates -/

/-- A use whose evaluation starts, in a frame. -/
structure UseVisit where
  scope : FrameId
  name : String
  line : Line
  depth : Depth
  /-- Whether the name is read or written. -/
  reads : Bool

def Visit.use? (v : Visit) : Option UseVisit :=
  match v.activity with
  | .evaluate scope (.var name line depth) => some ⟨scope, name, line, depth, true⟩
  | .evaluate scope (.this line depth) => some ⟨scope, "this", line, depth, true⟩
  | .evaluate scope (.assign name _ line depth) => some ⟨scope, name, line, depth, false⟩
  | _ => none

/-- In a world, the use stands in layers that fit its frame, and is resolved there. -/
structure UseVisit.Placed (programs : List (List Node)) (w : World) (v : Visit) (u : UseVisit) (layers : List Layer) :
    Prop where
  stands : ∃ n, v.activity = .evaluate u.scope n ∧ Stands programs layers n
  sound : StoreSound w v.machine.store
  fits : Fits w u.scope layers
  resolved : u.depth = (scopesOf layers).depthOf? u.name
  ready : u.reads = true → ∀ d, u.depth = some d → ReadyAt layers u.name d

theorem VisitSound.placed {programs : List (List Node)} {w : World} {v : Visit} (h : VisitSound programs w v)
    {u : UseVisit} (hu : v.use? = some u) : ∃ w₀ layers, w₀ ≤ w ∧ u.Placed programs w₀ v layers := by
  cases h with
  | execute | invoke | bind => cases hu
  | @evaluate _ scope n layers n' m w₀ h₀ hs hf hn ht =>
    refine ⟨w₀, layers, h₀, ?_⟩
    cases ht with
    | var _ ht => cases hu; exact ⟨⟨_, rfl, hn⟩, hs, hf, ht.resolved, fun _ => ht.ready⟩
    | this _ ht => cases hu; exact ⟨⟨_, rfl, hn⟩, hs, hf, ht.resolved, fun _ => ht.ready⟩
    | assign _ _ ht => cases hu; exact ⟨⟨_, rfl, hn⟩, hs, hf, ht.resolved, fun hr => nomatch hr⟩
    | _ => cases hu

/-! ## Resolution and evaluation agree -/

/-- The frames around a use are instances of the layers around its place, one by one, and in these layers resolution
counts `d` up to the one that declares the name. -/
structure UseVisit.Agrees (programs : List (List Node)) (visits : List Visit) (v : Visit) (u : UseVisit) (d : Nat)
    (layers : List Layer) : Prop where
  stands : ∃ n, v.activity = .evaluate u.scope n ∧ Stands programs layers n
  counted : (scopesOf layers).depthOf? u.name = some d
  length : (v.machine.store.chain u.scope).length = layers.length
  frames : ∀ i layer, layers[i]? = some layer →
    ∃ f, v.machine.store.ancestor? u.scope i = some f ∧ Instance visits f layer.opening
  target : ∃ layer f, layers[d]? = some layer ∧ layer.names.contains u.name = true ∧
    v.machine.store.ancestor? u.scope d = some f ∧ Instance visits f layer.opening ∧
    (u.reads = true → ∃ value, v.machine.store.own? f u.name = some value)

theorem UseVisit.Placed.agrees {programs : List (List Node)} {w w₀ : World} {v : Visit} {u : UseVisit}
    {layers : List Layer} (h : u.Placed programs w₀ v layers) (hw : w₀ ≤ w) (hq : w.lent = [])
    (hc : Chronicle programs w) {d : Nat} (hd : u.depth = some d) : u.Agrees programs w.visits v d layers := by
  have hcounted : (scopesOf layers).depthOf? u.name = some d := h.resolved ▸ hd
  have hframes : ∀ i layer, layers[i]? = some layer →
      ∃ f, v.machine.store.ancestor? u.scope i = some f ∧ Instance w.visits f layer.opening := fun i layer hl => by
    obtain ⟨f, t, ha, ht, ho, -⟩ := h.fits.ancestor h.sound hl
    exact ⟨f, ha, ho ▸ hc.instances f t (World.frame_of_le hw ht)⟩
  refine ⟨h.stands, hcounted, h.fits.length_chain h.sound, hframes, ?_⟩
  obtain ⟨hlt, hdeclared, -⟩ := List.findIdx?_eq_some_iff_getElem.mp hcounted
  rw [List.length_map] at hlt
  rw [List.getElem_map] at hdeclared
  have hl : layers[d]? = some layers[d] := List.getElem?_eq_getElem hlt
  obtain ⟨f, ha, hi⟩ := hframes d layers[d] hl
  refine ⟨layers[d], f, hl, hdeclared, ha, hi, fun hr => ?_⟩
  obtain ⟨g, value, ha', hv⟩ := h.fits.own?_of_ready h.sound (World.lent_of_le hw hq) (h.ready hr d hd)
  obtain rfl : g = f := Option.some.inj (ha'.symm.trans ha)
  exact ⟨value, hv⟩

/-- No run of a session misses the frame of a resolved use, and every use with a depth is evaluated in frames that agree
with its place. -/
theorem Session.uses_resolved (e : Surroundings) (rs : List Run) :
    (∀ fuel source d, (((start e).afterAll rs).runWith fuel source).1 ≠ .error (.execution (.shortChain d))) ∧
    ∀ v ∈ (start e).history rs, ∀ u d, v.use? = some u → u.depth = some d →
      ∃ layers, u.Agrees (programsOf rs) ((start e).history rs) v d layers := by
  obtain ⟨w, hv, hq, hs⟩ := runs_sound e rs
  refine ⟨fun fuel source d hrun => ?_, fun v hm u d hu hd => ?_⟩
  · obtain ⟨_, -, -, -, -, hr⟩ := hs.run ⟨fuel, source⟩
    rw [hrun] at hr
    cases hr
  · rw [← hv] at hm ⊢
    obtain ⟨w₀, layers, hw, hp⟩ := (hs.lockstep.chronicle.visits v hm).placed hu
    exact ⟨layers, hp.agrees hw hq hs.lockstep.chronicle hd⟩

/-- The first run keeps a function of a block, and the second calls it. -/
def keptFunction : List Run :=
  [⟨30, "let g = nil; \x7b let x = nil; fun f() \x7b print x; \x7d g = f; \x7d"⟩, ⟨30, "g();"⟩]

/-- In the second run the variable of the block is found two frames outwards. -/
theorem Session.kept_use_resolved : ∃ v ∈ (start {}).history keptFunction, ∃ layers,
    v.use? = some ⟨3, "x", 1, some 2, true⟩ ∧ UseVisit.Agrees (programsOf keptFunction)
      ((start {}).history keptFunction) v ⟨3, "x", 1, some 2, true⟩ 2 layers := by
  have huse : (((start {}).history keptFunction)[15]?).bind Visit.use? =
      some ⟨3, "x", 1, some 2, true⟩ := by cbv
  obtain ⟨v, hv, hu⟩ := Option.bind_eq_some_iff.mp huse
  have hmem := List.mem_of_getElem? hv
  obtain ⟨layers, h⟩ := (uses_resolved {} keptFunction).2 v hmem _ 2 hu rfl
  exact ⟨v, hmem, layers, hu, h⟩

end LoxLang
