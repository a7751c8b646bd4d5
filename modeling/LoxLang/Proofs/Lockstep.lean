import LoxLang.Proofs.Chains
import LoxLang.Proofs.Operators
import LoxLang.Proofs.Steps
import Mathlib.Data.List.Forall2

/-!
# Two machines side by side

`Lockstep programs sides w m m'` relates two machines that run twin trees: their stores hold the same frames and
objects, and closures with twin bodies; the first is sound, and since the start both have recorded the same. `Holds`
says of two computations started there that they end alike, on machines that are related again in a later world. It
composes along `>>=` (`Holds.bind`), and every single step of a machine has its lemma.
-/

namespace LoxLang

/-- How two machines are compared: how the trees that they run may differ, what each had recorded before, which names
hosts had lent to both of them, and whether their logs may be closed. A name is searched for on one side only where no
name was lent. -/
structure Sides extends Kinship where
  same : ∀ line, lines line line
  before : List Effect
  before' : List Effect
  lent : List String
  closes : Prop
  quiet : searches → lent = []

/-- A machine beside one that runs the same lines. -/
def Sides.exact (lent : List String) (closes : Prop) : Sides := ⟨.same, fun _ => rfl, [], [], lent, closes, False.elim⟩

/-- Faults of the same cause on related lines. Where hosts never lent a function, nothing is raised but what a closed
log answers. -/
inductive Fault.Alike (sides : Sides) : Fault → Fault → Prop
  | runtime {line line' cause} : sides.lines line line' → Alike sides (.runtime line cause) (.runtime line' cause)
  | overflow : Alike sides .overflow .overflow
  | outOfFuel : Alike sides .outOfFuel .outOfFuel
  | raised {d} : (sides.lent = [] → d = Exec.logRefusal ∧ sides.closes) → Alike sides (.raised d) (.raised d)
  | outOfRange : sides.lent ≠ [] → Alike sides .outOfRange .outOfRange

/-- Calls of the same function with the same arguments, from related lines. -/
structure Activation.Alike (L : Line → Line → Prop) (a a' : Activation) : Prop where
  name : a'.name = a.name
  arguments : a'.arguments = a.arguments
  line : L a.line a'.line

/-! ## Related stores -/

structure TwinClosure (programs : List (List Node)) (K : Kinship) (t : ClosureType) (c c' : Closure) : Prop where
  name : c'.name = c.name
  params : c'.params = c.params
  frame : c'.frame = c.frame
  isInitializer : c'.isInitializer = c.isInitializer
  nodup : c.params.Nodup
  stands : Stands programs (Layer.ofParameters c.name c.params c.body :: t.site) c.body
  body : TwinStep K (Layer.ofParameters c.name c.params c.body :: t.site) c.body c'.body
  receiver : c.isInitializer = true → ∃ methods outer, t.site = Layer.ofReceiver methods :: outer

structure StoresAlike (programs : List (List Node)) (K : Kinship) (w : World) (s s' : Store) : Prop where
  sound : StoreSound w s
  frames : s'.frames = s.frames
  objects : s'.objects = s.objects
  closureCount : s'.nextClosure = s.nextClosure
  closures : ∀ c t, w.closures[c]? = some t → TwinClosure programs K t (s.closure c) (s'.closure c)

namespace StoresAlike

variable {programs : List (List Node)} {K : Kinship} {w : World} {s s' : Store}

theorem frame_eq (h : StoresAlike programs K w s s') : s'.frame = s.frame := by
  funext f
  rw [Store.frame, h.frames, Store.frame]

theorem chain_eq (h : StoresAlike programs K w s s') : s'.chain = s.chain := by
  funext f
  rw [Store.chain, h.frame_eq, Store.chain]

theorem binds_eq (h : StoresAlike programs K w s s') : s'.binds = s.binds := by
  funext name f
  rw [Store.binds, h.frame_eq, Store.binds]

theorem own?_eq (h : StoresAlike programs K w s s') : s'.own? = s.own? := by
  funext f name
  rw [Store.own?, h.frame_eq, Store.own?]

theorem owner?_eq (h : StoresAlike programs K w s s') : s'.owner? = s.owner? := by
  funext f name
  rw [Store.owner?, h.chain_eq, h.binds_eq, Store.owner?]

theorem lookup?_eq (h : StoresAlike programs K w s s') : s'.lookup? = s.lookup? := by
  funext f name
  rw [Store.lookup?, h.owner?_eq, h.own?_eq, Store.lookup?]

theorem ancestor?_eq (h : StoresAlike programs K w s s') : s'.ancestor? = s.ancestor? := by
  funext f depth
  rw [Store.ancestor?, h.chain_eq, Store.ancestor?]

theorem object_eq (h : StoresAlike programs K w s s') : s'.object = s.object := by
  funext o
  rw [Store.object, h.objects, Store.object]

theorem nextFrame_eq (h : StoresAlike programs K w s s') : s'.nextFrame = s.nextFrame := congrArg Array.size h.frames

theorem nextObject_eq (h : StoresAlike programs K w s s') : s'.nextObject = s.nextObject :=
  congrArg Array.size h.objects

/-- Frames and objects may change alike on both sides, as long as the closures stay. -/
theorem update (h : StoresAlike programs K w s s') {w₁ : World} {s₁ s₁' : Store} (hs : StoreSound w₁ s₁)
    (hf : s₁'.frames = s₁.frames) (ho : s₁'.objects = s₁.objects) (hw : w₁.closures = w.closures)
    (hc : s₁.closures = s.closures) (hc' : s₁'.closures = s'.closures) : StoresAlike programs K w₁ s₁ s₁' := by
  refine ⟨hs, hf, ho, ?_, fun c t ht => ?_⟩
  · rw [Store.nextClosure, hc', Store.nextClosure, hc]
    exact h.closureCount
  · rw [Store.closure, hc, Store.closure, hc']
    exact h.closures c t (hw ▸ ht)

/-- More may differ. -/
theorem mono (h : StoresAlike programs K w s s') {K' : Kinship} (hK : K.Within K') : StoresAlike programs K' w s s' :=
  { h with closures := fun c t ht => { h.closures c t ht with body := (h.closures c t ht).body.mono hK } }

end StoresAlike

/-! ## Related histories and surfaces -/

/-- The frame that a call of a closure makes. -/
def FrameType.ofCall (s : Store) (c : ClosureId) (t : ClosureType) : FrameType :=
  ⟨.parameters (s.closure c).name (s.closure c).params (s.closure c).body, t.site, s.chain t.frame⟩

/-- A node is visited where it stands, and a call makes the frame of its parameters. -/
inductive VisitSound (programs : List (List Node)) (w : World) : Visit → Prop
  | execute {K scope n layers n' m w₀} : w₀ ≤ w → StoreSound w₀ m.store → Fits w₀ scope layers →
      Stands programs layers n → TwinStep K layers n n' → VisitSound programs w ⟨.execute scope n, m⟩
  | evaluate {K scope n layers n' m w₀} : w₀ ≤ w → StoreSound w₀ m.store → Fits w₀ scope layers →
      Stands programs layers n → Twin K layers n n' → VisitSound programs w ⟨.evaluate scope n, m⟩
  | invoke {c arguments line m t w₀} : w₀ ≤ w → StoreSound w₀ m.store → w₀.closures[c]? = some t →
      w.frames[m.store.nextFrame]? = some (.ofCall m.store c t) →
      VisitSound programs w ⟨.invoke c arguments line, m⟩
  | bind {c v m} : VisitSound programs w ⟨.bind c v, m⟩

theorem VisitSound.mono {programs : List (List Node)} {w w' : World} (hw : w ≤ w') {v : Visit}
    (h : VisitSound programs w v) : VisitSound programs w' v := by
  cases h with
  | execute h₀ hs hf hp ht => exact .execute (World.le_trans h₀ hw) hs hf hp ht
  | evaluate h₀ hs hf hp ht => exact .evaluate (World.le_trans h₀ hw) hs hf hp ht
  | invoke h₀ hs hc hf => exact .invoke (World.le_trans h₀ hw) hs hc (World.frame_of_le hw hf)
  | bind => exact .bind

/-- What a world knows is what the visits tell. -/
structure Chronicle (programs : List (List Node)) (w : World) : Prop where
  instances : ∀ f t, w.frames[f]? = some t → Instance w.visits f t.opening
  visits : ∀ v ∈ w.visits, VisitSound programs w v

/-- Logs that take the same lines. -/
structure DebugLog.Alike (log log' : DebugLog) : Prop where
  isOn : log'.isOn = log.isOn
  reply : log'.reply = log.reply
  offered : log'.offered = log.offered

theorem DebugLog.Alike.refusesNext_eq {log log' : DebugLog} (h : log.Alike log') :
    log'.refusesNext = log.refusesNext := by
  rw [refusesNext, h.isOn, h.reply, h.offered, refusesNext]

/-- What can be seen of two machines from outside. -/
structure SurfaceAlike (sides : Sides) (m m' : Machine) : Prop where
  calls : List.Forall₂ (Activation.Alike sides.lines) m.activations.toList m'.activations.toList
  shown : sides.lent = [] → ∀ a ∈ m.activations.toList, a.hasText = true
  effects : ∃ new, m.effects.toList = sides.before ++ new ∧ m'.effects.toList = sides.before' ++ new
  output : m'.output = m.output
  refuses : m'.refuses = m.refuses
  writes : m'.writes = m.writes
  hosts : m'.hosts = m.hosts
  clock : m'.clock = m.clock
  ticks : m'.ticks = m.ticks
  callLimit : m'.callLimit = m.callLimit
  log : m.log.Alike m'.log
  closes : m.log.CanClose → sides.closes

structure Lockstep (programs : List (List Node)) (sides : Sides) (w : World) (m m' : Machine) : Prop where
  stores : StoresAlike programs sides.toKinship w m.store m'.store
  chronicle : Chronicle programs w
  surface : SurfaceAlike sides m m'
  hosts : ∀ h ∈ m.hosts, HostSound w h
  lent : w.lent = sides.lent

/-- The computations end alike, on machines that are related in a later world. -/
inductive Holds (programs : List (List Node)) (sides : Sides) {α : Type} (w : World) (m m' : Machine)
    (x : Traced α) (y : Exec α) (R : World → α → Prop) : Prop
  | ok {visits a m₁ m₁' w₁} : x m = (visits, .ok a m₁) → y m' = .ok a m₁' → w ≤ w₁ →
      w₁.visits = w.visits ++ visits → Lockstep programs sides w₁ m₁ m₁' → R w₁ a → Holds programs sides w m m' x y R
  | error {visits fault fault' m₁ m₁' w₁} : x m = (visits, .error fault m₁) → y m' = .error fault' m₁' →
      fault.Alike sides fault' → w ≤ w₁ → w₁.visits = w.visits ++ visits → Lockstep programs sides w₁ m₁ m₁' →
      Holds programs sides w m m' x y R

end LoxLang
