import LoxLang.Proofs.Balance
import LoxLang.Proofs.Standing
import LoxLang.Proofs.Uses

/-!
# Assignments

An assignment overwrites the value of a name that a frame of the chain binds, or fails because none does. There are two
exceptions: in the initializer of its own `let` a variable has a depth before it is bound, and there an assignment
binds it early (`Session.assignments_overwrite`, `Session.initializer_binds_early`); and a global name that a host lent
and took back has a depth still, so that an assignment binds it again.
-/

namespace LoxLang

/-! ## Assignments that a run evaluates -/

/-- An assignment whose evaluation starts, in a frame. -/
structure Assignment where
  scope : FrameId
  name : String
  value : Node
  line : Line
  depth : Depth

def Assignment.node (a : Assignment) : Node := .assign a.name a.value a.line a.depth

def Visit.assignment? (v : Visit) : Option Assignment :=
  match v.activity with
  | .evaluate scope (.assign name value line depth) => some ⟨scope, name, value, line, depth⟩
  | _ => none

theorem Visit.activity_of_assignment {v : Visit} {a : Assignment} (h : v.assignment? = some a) :
    v.activity = .evaluate a.scope a.node ∧ v.use? = some ⟨a.scope, a.name, a.line, a.depth, false⟩ := by
  unfold Visit.assignment? at h
  split at h
  · next heq =>
    cases h
    exact ⟨heq, by rw [Visit.use?, heq]⟩
  · cases h

/-! ## What an assignment changes -/

/-- Between two machines, a frame gets one value for a name, and nothing else changes. -/
structure Machine.Rebinds (m m' : Machine) (f : FrameId) (name : String) (v : Value) : Prop where
  own? : ∀ g other, m'.store.own? g other = if g = f ∧ name = other then some v else m.store.own? g other
  chain : m'.store.chain = m.store.chain
  rest : m' = { m with store := { m.store with frames := m'.store.frames } }

theorem Machine.rebinds (m : Machine) {f : FrameId} (hf : f < m.store.nextFrame) (name : String) (v : Value) :
    m.Rebinds { m with store := m.store.bind f name v } f name v :=
  ⟨fun g other => m.store.own?_bind hf name v g other, funext fun g => by
    rw [Store.chain, Store.parents_bind, Store.chain], rfl⟩

/-- A name that is bound already is not bound anywhere else than before. -/
theorem Machine.Rebinds.binds_eq {m m' : Machine} {f : FrameId} {name : String} {v : Value}
    (h : m.Rebinds m' f name v) (hb : m.store.binds name f = true) : m'.store.binds = m.store.binds := by
  funext other g
  rw [Store.binds_eq_isSome, h.own?, Store.binds_eq_isSome]
  split
  · next hg =>
    obtain ⟨rfl, rfl⟩ := hg
    rw [← Store.binds_eq_isSome, hb]
    rfl
  · rfl

/-- How an assignment ends on the machine on which it has its value. -/
inductive Assignment.Ends (programs : List (List Node)) (lent : List String) (a : Assignment) (v : Value)
    (m : Machine) : EStateM.Result Fault Machine Value → Prop
  /-- The value of a name that a frame of the chain binds is overwritten. -/
  | overwritten {f m'} : f ∈ m.store.chain a.scope → m.store.binds a.name f = true → m.Rebinds m' f a.name v →
      m'.store.binds = m.store.binds → Ends programs lent a v m (.ok v m')
  /-- No frame of the chain binds the name, and nothing changes. -/
  | undefined : (∀ f ∈ m.store.chain a.scope, m.store.binds a.name f = false) →
      Ends programs lent a v m (.error (.runtime a.line (.notDefined a.name)) m)
  /-- A `let` of the name is around the assignment, and its frame binds the name early. -/
  | early {layers init line m'} : a.depth = some 0 → Stands programs layers (.letDecl a.name init line) →
      init.Inside a.node → m.store.binds a.name a.scope = false → m.Rebinds m' a.scope a.name v →
      Ends programs lent a v m (.ok v m')
  /-- A host lent the global name and took it back, and the global frame binds it again. -/
  | withdrawn {i m'} : a.depth = some i → a.name ∈ lent → m.store.ancestor? a.scope i = some Store.root →
      m.store.binds a.name Store.root = false → m.Rebinds m' Store.root a.name v → Ends programs lent a v m (.ok v m')

namespace Assignment

variable {programs : List (List Node)} {lent : List String} {a : Assignment} {v : Value} {m : Machine}

/-- Without a depth the nearest frame that binds the name gets the value. -/
theorem ends_of_search (h : a.depth = none) :
    a.Ends programs lent v m (Exec.writeName a.scope a.name v a.line a.depth m) := by
  rw [h, Exec.writeName, Exec.assign_apply]
  cases ho : m.store.owner? a.scope a.name with
  | some f =>
    rw [Store.owner?] at ho
    have hb : m.store.binds a.name f = true := List.find?_some ho
    have hrebinds := m.rebinds (m.store.lt_nextFrame_of_binds hb) a.name v
    exact .overwritten (List.mem_of_find?_eq_some ho) hb hrebinds (hrebinds.binds_eq hb)
  | none =>
    rw [Store.owner?, List.find?_eq_none] at ho
    exact .undefined fun f hf => Bool.eq_false_iff.mpr (ho f hf)

/-- With a depth the frame that it counts to gets the value. -/
theorem ends_of_depth {i : Nat} {f : FrameId} (h : a.depth = some i) (hf : m.store.ancestor? a.scope i = some f)
    (hb : m.store.binds a.name f = true) :
    a.Ends programs lent v m (Exec.writeName a.scope a.name v a.line a.depth m) := by
  rw [h, Exec.writeName, Exec.assignAt_apply m hf]
  have hrebinds := m.rebinds (m.store.lt_nextFrame_of_binds hb) a.name v
  exact .overwritten (List.mem_of_getElem? hf) hb hrebinds (hrebinds.binds_eq hb)

section Stores

variable {w : World} {s : Store} {layers : List Layer}

/-- If the name is ready, the frame that the depth counts to binds it, or it is a global name that a host lent. -/
theorem ends_of_ready (hs : StoreSound w s) (hf : Fits w a.scope layers) (hgrows : s.Grows m.store) {i : Nat}
    (hd : a.depth = some i) (hready : ReadyAt layers a.name i) :
    a.Ends programs w.lent v m (Exec.writeName a.scope a.name v a.line a.depth m) := by
  have hscope : a.scope < s.nextFrame :=
    let ⟨_, _, ht, _⟩ := hf
    hs.frame_lt ht
  obtain ⟨f, ha, hbound⟩ := hf.frame_of_ready hs hready
  rw [← hgrows.ancestor? hscope] at ha
  cases hb : m.store.binds a.name f with
  | true => exact ends_of_depth hd ha hb
  | false =>
    obtain hbound | ⟨rfl, hlent⟩ := hbound
    · cases (hgrows.binds _ _ hbound).symm.trans hb
    · have hroot : Store.root < m.store.nextFrame := Nat.lt_of_lt_of_le (hs.frame_lt hs.root) hgrows.frames
      rw [hd, Exec.writeName, Exec.assignAt_apply m ha]
      exact .withdrawn hd hlent ha hb (m.rebinds hroot a.name v)

/-- In the initializer of its `let`, the name is bound by the frame around it, or is bound early. -/
theorem ends_of_initializer (hf : a.scope < m.store.nextFrame) (hd : a.depth = some 0) {init : Node} {line : Line}
    (hlet : Stands programs layers (.letDecl a.name init line)) (hinside : init.Inside a.node) :
    a.Ends programs lent v m (Exec.writeName a.scope a.name v a.line a.depth m) := by
  have ha : m.store.ancestor? a.scope 0 = some a.scope := rfl
  cases hb : m.store.binds a.name a.scope with
  | true => exact ends_of_depth hd ha hb
  | false =>
    rw [hd, Exec.writeName, Exec.assignAt_apply m ha]
    exact .early hd hlet hinside hb (m.rebinds hf a.name v)

end Stores

theorem Ends.mono {lent' : List String} {result : EStateM.Result Fault Machine Value} (hl : lent ⊆ lent')
    (h : a.Ends programs lent v m result) : a.Ends programs lent' v m result := by
  cases h with
  | overwritten hf hb hrebinds hsame => exact .overwritten hf hb hrebinds hsame
  | undefined hnone => exact .undefined hnone
  | early hd hlet hinside hb hrebinds => exact .early hd hlet hinside hb hrebinds
  | withdrawn hd hlent ha hb hrebinds => exact .withdrawn hd (hl hlent) ha hb hrebinds

end Assignment

/-- Resolved programs are their own twins. -/
theorem twins_of_mem_programsOf {rs : List Run} {program : List Node} (h : program ∈ programsOf rs) :
    TwinSteps .same [⟨.program, []⟩] program program := by
  obtain ⟨r, -, hr⟩ := List.mem_filterMap.mp h
  exact twins_of_checked hr

/-- Wherever a session evaluates an assignment, it ends in one of these ways. -/
theorem Session.Sound.assignment_ends {closes : Prop} {rs : List Run} {w : World} {s : Session}
    (hs : s.Sound closes (programsOf rs) w)
    {visit : Visit} (hv : visit ∈ w.visits) {a : Assignment} (ha : visit.assignment? = some a) {fuel : Nat}
    {v : Value} {m : Machine}
    (hvalue : (Evaluator.ofFuel fuel).evaluate a.scope a.value visit.machine = .ok v m) :
    a.Ends (programsOf rs) w.lent v m ((Evaluator.ofFuel (fuel + 1)).evaluate a.scope a.node visit.machine) := by
  obtain ⟨hactivity, huse⟩ := Visit.activity_of_assignment ha
  obtain ⟨w₀, layers, hw, hplaced⟩ := (hs.lockstep.chronicle.visits visit hv).placed huse
  have hwrite : (Evaluator.ofFuel (fuel + 1)).evaluate a.scope a.node visit.machine =
      Exec.writeName a.scope a.name v a.line a.depth m := by
    show ((Evaluator.ofFuel fuel).evaluate a.scope a.value >>= fun v => Exec.writeName a.scope a.name v a.line a.depth)
      visit.machine = _
    rw [Exec.bind_apply, hvalue]
  rw [hwrite]
  cases hd : a.depth with
  | none => exact hd ▸ Assignment.ends_of_search hd
  | some i =>
    have hgrows := (Evaluator.evaluate_conserves fuel a.scope a.value _ _ _ hvalue).store
    obtain ⟨n, hn, program, hprogram, hwithin⟩ := hplaced.stands
    obtain rfl : a.node = n := by
      rw [hactivity] at hn
      exact (Activity.evaluate.inj hn).2
    have hstands : Stands [program] layers a.node := ⟨program, List.mem_cons_self, hwithin⟩
    have huse' : a.node.use? = some (a.name, some i) := by rw [← hd]; rfl
    have hscope : a.scope < visit.machine.store.nextFrame :=
      let ⟨_, _, ht, _⟩ := hplaced.fits
      hplaced.sound.frame_lt ht
    -- A resolved name is ready where it is used, and so its frame binds it, or the assignment stands in the
    -- initializer of the variable itself.
    obtain hready | ⟨rfl, outer, init, line, ⟨program', hprogram', hlet⟩, hinside⟩ :=
      hstands.ready_or_initializer (twins_of_mem_programsOf hprogram) huse'
    · exact hd ▸ (Assignment.ends_of_ready hplaced.sound hplaced.fits hgrows hd hready).mono hw.lent.subset
    · obtain rfl := List.mem_singleton.mp hprogram'
      have hframe : a.scope < m.store.nextFrame := Nat.lt_of_lt_of_le hscope hgrows.frames
      exact hd ▸ Assignment.ends_of_initializer hframe hd ⟨program', hprogram, hlet⟩ hinside

/-- Whenever a session with honest hosts evaluates an assignment, the value, once it is there, overwrites that of a
bound name, or the name is not defined, or the variable is bound early, in its own initializer, or a global name that a
host lent and took back is bound again. -/
theorem Session.assignments_overwrite (e : Surroundings) {events : List Event} (he : ∀ event ∈ events, event.Honest)
    {visit : Visit} (hv : visit ∈ (start e).visited events) {a : Assignment} (ha : visit.assignment? = some a)
    (fuel : Nat) {v : Value} {m : Machine}
    (hvalue : (Evaluator.ofFuel fuel).evaluate a.scope a.value visit.machine = .ok v m) :
    a.Ends (programsOf (runsIn events)) ((start e).namesLent events) v m
      ((Evaluator.ofFuel (fuel + 1)).evaluate a.scope a.node visit.machine) := by
  obtain ⟨w, hw, hl, hs⟩ := events_sound e he
  exact hl ▸ hs.assignment_ends (hw ▸ hv) ha hvalue

/-- The visits of a single run are visits of the session. -/
theorem Session.mem_visited_of_getElem? {s : Session} {r : Run} {i : Nat} {visit : Visit}
    (h : (s.visits r)[i]? = some visit) : visit ∈ s.visited [.run r] :=
  List.mem_append_left _ (List.mem_of_getElem? h)

/-- A text that assigns to the variable it declares. -/
def assigningText : String := "let x = true; x = nil;"

/-- The variable is overwritten. -/
theorem Session.declared_variable_overwritten :
    (∀ event ∈ [Event.run ⟨30, assigningText⟩], event.Honest) ∧
      ∃ visit ∈ (start {}).visited [.run ⟨30, assigningText⟩], ∃ a, visit.assignment? = some a ∧
      (Evaluator.ofFuel 1).evaluate a.scope a.value visit.machine = .ok .nil visit.machine ∧
      a.Ends (programsOf (runsIn [.run ⟨30, assigningText⟩])) ((start {}).namesLent [.run ⟨30, assigningText⟩]) .nil
        visit.machine ((Evaluator.ofFuel 2).evaluate a.scope a.node visit.machine) := by
  have hfound : (((start {}).visits ⟨30, assigningText⟩)[3]?).bind Visit.assignment? =
      some ⟨0, "x", .literal .nil 1, 1, some 0⟩ := by cbv
  obtain ⟨visit, hget, ha⟩ := Option.bind_eq_some_iff.mp hfound
  have hmem := mem_visited_of_getElem? hget
  have hhonest : ∀ event ∈ [Event.run ⟨30, assigningText⟩], event.Honest := fun event h => by
    obtain rfl := List.mem_singleton.mp h
    exact trivial
  exact ⟨hhonest, visit, hmem, _, ha, rfl, assignments_overwrite {} hhonest hmem ha 1 rfl⟩

/-- A text that assigns to a variable in its own initializer. -/
def earlyText : String := "let x = x = nil;"

/-- The assignment binds the variable, which no frame bound before. -/
theorem Session.initializer_binds_early :
    ∃ visit ∈ (start {}).visited [.run ⟨30, earlyText⟩], ∃ a m,
      visit.assignment? = some a ∧
      (∀ f ∈ visit.machine.store.chain a.scope, visit.machine.store.binds a.name f = false) ∧
      (Evaluator.ofFuel 1).evaluate a.scope a.value visit.machine = .ok .nil visit.machine ∧
      (Evaluator.ofFuel 2).evaluate a.scope a.node visit.machine = .ok .nil m ∧
      m.store.binds a.name a.scope = true := by
  have hfound : (((start {}).visits ⟨30, earlyText⟩)[1]?).map (fun visit =>
      (visit.assignment?, (visit.machine.store.chain 0).map (visit.machine.store.binds "x"),
        visit.machine.store.nextFrame)) = some (some ⟨0, "x", .literal .nil 1, 1, some 0⟩, [false], 1) := by cbv
  obtain ⟨visit, hget, hvisit⟩ := Option.map_eq_some_iff.mp hfound
  obtain ⟨ha, hrest⟩ := Prod.mk.inj hvisit
  obtain ⟨hunbound, hframes⟩ := Prod.mk.inj hrest
  refine ⟨visit, mem_visited_of_getElem? hget, _, { visit.machine with store := visit.machine.store.bind 0 "x" .nil },
    ha, fun f hf => ?_, rfl, rfl, ?_⟩
  · exact List.mem_singleton.mp (hunbound ▸ List.mem_map_of_mem hf)
  · rw [Store.binds_bind _ (hframes ▸ Nat.one_pos), Bool.or_eq_true]
    exact .inl rfl

end LoxLang
