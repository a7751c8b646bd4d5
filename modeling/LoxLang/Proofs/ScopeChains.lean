import Mathlib
import LoxLang.Proofs.Events
import LoxLang.Proofs.ScopedChanges

/-!
# Scope chains

A frame keeps all the frames around it. Here they are links: each frame has at most one `parent?`, and whoever looks
for the owner of a name follows the links from frame to frame (`Store.Search`). A store is `Nested` if its links lead
outwards to the global frame: each frame but that one was made inside an earlier one.

There are six ways in which a store changes (`Store.Change`). None of them moves a frame that is there, and so every
store that a session passes is nested, and has the links of those before it (`Session.moments_inOrder`). Hence whatever
frame a step or a closure holds, finitely many links lead from it to the global frame, and every search for a name is
over after finitely many steps (`Session.scope_chains_end`).
-/

namespace LoxLang

open Exec

namespace Store

/-! ## Links -/

/-- The frame that a frame was made in. -/
def parent? (s : Store) (f : FrameId) : Option FrameId := (s.frame f).parents.head?

/-- The frame that so many links lead to. -/
def climb (s : Store) : Nat → FrameId → Option FrameId
  | 0, f => some f
  | n + 1, f => (s.parent? f).bind (s.climb n)

/-- The search for the frame that binds a name, from link to link: what is found, if it comes to an end. -/
inductive Search (s : Store) (name : String) : Option FrameId → Option FrameId → Prop
  | nowhere : Search s name none none
  | here {f : FrameId} : s.binds name f = true → Search s name (some f) (some f)
  | outwards {f : FrameId} {found : Option FrameId} : s.binds name f = false → Search s name (s.parent? f) found →
      Search s name (some f) found

theorem Search.unique {s : Store} {name : String} {start found found' : Option FrameId}
    (h : s.Search name start found) (h' : s.Search name start found') : found = found' := by
  induction h with
  | nowhere =>
    cases h'
    rfl
  | here hb =>
    cases h' with
    | here => rfl
    | outwards hb' => exact absurd (hb.symm.trans hb') nofun
  | outwards hb _ ih =>
    cases h' with
    | here hb' => exact absurd (hb.symm.trans hb') nofun
    | outwards _ hrest => exact ih hrest

/-! ## Nested frames -/

/-- The global frame has nothing around it, and any other was made inside an earlier one. Closures stand in frames that
are there. -/
structure Nested (s : Store) : Prop where
  rooted : root < s.nextFrame
  outermost : (s.frame root).parents = []
  inner : ∀ f < s.nextFrame, f ≠ root → ∃ p < f, (s.frame f).parents = s.chain p
  closures : ∀ c, (s.closure c).frame < s.nextFrame

/-- There is nothing around a frame that does not exist. -/
theorem parents_of_le {s : Store} {f : FrameId} (hf : s.nextFrame ≤ f) : (s.frame f).parents = [] := by
  rw [frame, Array.getD_eq_getD_getElem?, Array.getElem?_eq_none hf]
  rfl

namespace Nested

variable {s : Store} (hs : s.Nested)
include hs

/-- A frame is the global one, or missing, or it stands in an earlier one. -/
theorem parents_cases (f : FrameId) : (s.frame f).parents = [] ∨ ∃ p < f, (s.frame f).parents = s.chain p := by
  by_cases hf : f < s.nextFrame
  · by_cases hroot : f = root
    · exact .inl (hroot ▸ hs.outermost)
    · exact .inr (hs.inner f hf hroot)
  · exact .inl (parents_of_le (Nat.le_of_not_lt hf))

/-- Every link leads to a frame that was made before. -/
theorem parent?_lt {f p : FrameId} (h : s.parent? f = some p) : p < f := by
  rw [parent?] at h
  obtain hnone | ⟨q, hq, hparents⟩ := hs.parents_cases f
  · rw [hnone] at h
    cases h
  · rw [hparents] at h
    cases h
    exact hq

theorem parents_eq (f : FrameId) : (s.frame f).parents = ((s.parent? f).map s.chain).getD [] := by
  obtain hnone | ⟨p, -, hparents⟩ := hs.parents_cases f
  · rw [parent?, hnone]
    rfl
  · rw [parent?, hparents]
    rfl

/-- A use with a depth goes so many links outwards. -/
theorem climb_eq_ancestor? (n : Nat) (f : FrameId) : s.climb n f = s.ancestor? f n := by
  induction n generalizing f with
  | zero => rfl
  | succ n ih =>
    rw [climb, ancestor?, chain, List.getElem?_cons_succ, hs.parents_eq f]
    cases s.parent? f with
    | none => rfl
    | some p => exact ih p

/-- Links lead from every frame to the global one. -/
theorem climb_root (f : FrameId) (hf : f < s.nextFrame) : ∃ n, s.climb n f = some root := by
  induction f using Nat.strongRecOn with
  | ind f ih =>
    by_cases hroot : f = root
    · exact ⟨0, congrArg some hroot⟩
    · obtain ⟨p, hp, hparents⟩ := hs.inner f hf hroot
      obtain ⟨n, hn⟩ := ih p hp (Nat.lt_trans hp hf)
      have hparent : s.parent? f = some p := by rw [parent?, hparents]; rfl
      exact ⟨n + 1, by rw [climb, hparent]; exact hn⟩

theorem owner?_eq (f : FrameId) (name : String) :
    s.owner? f name = if s.binds name f then some f else (s.parent? f).bind fun p => s.owner? p name := by
  rw [owner?, chain, List.find?_cons, hs.parents_eq f]
  cases s.binds name f with
  | true => rfl
  | false => cases s.parent? f <;> rfl

/-- Every search comes to an end, and finds the owner. -/
theorem search_owner? (f : FrameId) (name : String) : s.Search name (some f) (s.owner? f name) := by
  induction f using Nat.strongRecOn with
  | ind f ih =>
    rw [hs.owner?_eq]
    cases hb : s.binds name f with
    | true => exact .here hb
    | false =>
      refine .outwards hb ?_
      cases hp : s.parent? f with
      | none => exact .nowhere
      | some p => exact ih p (hs.parent?_lt hp)

theorem search_iff (f : FrameId) (name : String) (found : Option FrameId) :
    s.Search name (some f) found ↔ found = s.owner? f name :=
  ⟨fun h => h.unique (hs.search_owner? f name), fun h => h ▸ hs.search_owner? f name⟩

end Nested

/-! ## Changes -/

/-- What can happen to a store: a frame is made inside another, a name is bound or taken out, a closure is made that
stands in a frame, an object is made, or a field is set. -/
inductive Change (s : Store) : Store → Prop
  | frame {p : FrameId} (bindings : Table Value) : p < s.nextFrame → Change s (s.pushFrame (s.chain p) bindings)
  | bind (f : FrameId) (name : String) (v : Value) : Change s (s.bind f name v)
  | unbind (f : FrameId) (name : String) : Change s (s.unbind f name)
  | closure {c : Closure} : c.frame < s.nextFrame → Change s (s.pushClosure c)
  | object (o : Object) : Change s (s.pushObject o)
  | field (o : ObjectId) (name : String) (v : Value) : Change s (s.setField o name v)

/-- A store turns into another by some changes, or by none. -/
abbrev Becomes : Store → Store → Prop := Relation.ReflTransGen Change

/-- Every frame is still there, with the same frames around it. -/
structure SameLinks (s s' : Store) : Prop where
  frames : s.nextFrame ≤ s'.nextFrame
  parents : ∀ f < s.nextFrame, (s'.frame f).parents = (s.frame f).parents

variable {s s' : Store}

theorem SameLinks.parent? (h : s.SameLinks s') {f : FrameId} (hf : f < s.nextFrame) : s'.parent? f = s.parent? f :=
  congrArg List.head? (h.parents f hf)

/-- No change moves a frame. -/
theorem Change.sameLinks (h : s.Change s') : s.SameLinks s' := by
  cases h with
  | frame bindings =>
    refine ⟨by simp, fun f hf => ?_⟩
    rw [frame_pushFrame, if_neg (Nat.ne_of_lt hf)]
  | bind f name v => exact ⟨by simp, fun g _ => s.parents_bind f name v g⟩
  | unbind f name => exact ⟨by simp, fun g _ => s.parents_unbind f name g⟩
  | closure | object | field => exact ⟨Nat.le_refl _, fun _ _ => rfl⟩

/-- Where frames stay where they are, and closures stand in them, stores stay nested. -/
theorem Nested.of_sameLinks (hs : s.Nested) (h : s.SameLinks s') (hn : s'.nextFrame = s.nextFrame)
    (hc : ∀ c, (s'.closure c).frame < s.nextFrame) : s'.Nested where
  rooted := hn ▸ hs.rooted
  outermost := (h.parents root hs.rooted).trans hs.outermost
  inner f hf hroot := by
    rw [hn] at hf
    obtain ⟨p, hp, hparents⟩ := hs.inner f hf hroot
    refine ⟨p, hp, ?_⟩
    rw [h.parents f hf, hparents, chain, chain, h.parents p (Nat.lt_trans hp hf)]
  closures c := hn ▸ hc c

theorem Nested.pushFrame (hs : s.Nested) {p : FrameId} (hp : p < s.nextFrame) (bindings : Table Value) :
    (s.pushFrame (s.chain p) bindings).Nested := by
  have hnext : (s.pushFrame (s.chain p) bindings).nextFrame = s.nextFrame + 1 := s.nextFrame_pushFrame _ _
  have hold : ∀ f < s.nextFrame, (s.pushFrame (s.chain p) bindings).frame f = s.frame f := fun f hf => by
    rw [frame_pushFrame, if_neg (Nat.ne_of_lt hf)]
  have hchain : ∀ f < s.nextFrame, (s.pushFrame (s.chain p) bindings).chain f = s.chain f := fun f hf => by
    rw [chain, hold f hf, chain]
  refine ⟨?_, ?_, fun f hf hroot => ?_, fun c => ?_⟩
  · rw [hnext]
    exact Nat.lt_succ_of_lt hs.rooted
  · rw [hold root hs.rooted]
    exact hs.outermost
  · rw [hnext] at hf
    obtain hlt | rfl := Nat.lt_or_eq_of_le (Nat.le_of_lt_succ hf)
    · obtain ⟨q, hq, hparents⟩ := hs.inner f hlt hroot
      exact ⟨q, hq, by rw [hold f hlt, hparents, hchain q (Nat.lt_trans hq hlt)]⟩
    · exact ⟨p, hp, by rw [frame_pushFrame, if_pos rfl, hchain p hp]⟩
  · rw [hnext]
    exact Nat.lt_succ_of_lt (hs.closures c)

/-- Every change keeps a store nested. -/
theorem Change.nested (h : s.Change s') (hs : s.Nested) : s'.Nested := by
  have hsame := h.sameLinks
  cases h with
  | frame bindings hp => exact hs.pushFrame hp bindings
  | bind f name v => exact hs.of_sameLinks hsame (s.nextFrame_bind f name v) hs.closures
  | unbind f name => exact hs.of_sameLinks hsame (s.nextFrame_unbind f name) hs.closures
  | closure hc =>
    refine hs.of_sameLinks hsame rfl fun c => ?_
    rw [closure_pushClosure]
    split
    · exact hc
    · exact hs.closures c
  | object | field => exact hs.of_sameLinks hsame rfl hs.closures

namespace Becomes

theorem nested (h : s.Becomes s') (hs : s.Nested) : s'.Nested := by
  induction h with
  | refl => exact hs
  | tail _ hlast ih => exact hlast.nested ih

theorem sameLinks (h : s.Becomes s') : s.SameLinks s' := by
  induction h with
  | refl => exact ⟨Nat.le_refl _, fun _ _ => rfl⟩
  | tail _ hlast ih =>
    have hnext := hlast.sameLinks
    exact ⟨Nat.le_trans ih.frames hnext.frames,
      fun f hf => (hnext.parents f (Nat.lt_of_lt_of_le hf ih.frames)).trans (ih.parents f hf)⟩

theorem lt_nextFrame (h : s.Becomes s') {f : FrameId} (hf : f < s.nextFrame) : f < s'.nextFrame :=
  Nat.lt_of_lt_of_le hf h.sameLinks.frames

theorem without (s : Store) (names : List String) : s.Becomes (s.without names) := by
  induction names generalizing s with
  | nil => exact .refl
  | cons name names ih => exact .head (.unbind root name) (ih _)

theorem lending (s : Store) (table : Table Value) : s.Becomes (s.lending table) := by
  induction table generalizing s with
  | nil => exact .refl
  | cons entry table ih => exact .head (.bind root entry.1 entry.2) (ih _)

theorem withMethods (s : Store) {f : FrameId} (hf : f < s.nextFrame) (methods : List Node) :
    s.Becomes (s.withMethods f methods) := by
  induction methods generalizing s with
  | nil => exact .refl
  | cons n methods ih =>
    cases n with
    | function => exact .head (.closure hf) (ih _ hf)
    | _ => exact ih s hf

/-- The frame that holds a receiver stands where the method was declared. -/
theorem bound (hs : s.Nested) (c : ClosureId) (receiver : Value) : s.Becomes (boundStore s c receiver) := by
  refine .tail (.single (.frame [("this", receiver)] (hs.closures c))) (.closure ?_)
  rw [nextFrame_pushFrame]
  exact Nat.lt_succ_self _

end Becomes

theorem nested_initial : initial.Nested where
  rooted := Nat.one_pos
  outermost := rfl
  inner _ hf hroot := absurd (Nat.lt_one_iff.mp hf) hroot
  closures c := by simp [closure, initial, nextFrame]; rfl

end Store

/-! ## Moments -/

/-- A machine that a session passes, with the frame of the step or expression that starts there, if one does. -/
structure Session.Moment where
  machine : Machine
  scope? : Option FrameId

namespace Session.Moment

def store (v : Moment) : Store := v.machine.store

/-- The moment at which a visit starts. -/
def ofVisit (visit : Visit) : Moment :=
  ⟨visit.machine, match visit.activity with
    | .execute f _ => some f
    | .evaluate f _ => some f
    | _ => none⟩

/-- A frame that is held at a moment: by a step that started then or before, or by a closure. Functions are closures,
and so are bound methods and the methods of classes. -/
inductive Holds (past : List Moment) (v : Moment) : FrameId → Prop
  | step {u : Moment} {f : FrameId} : u ∈ past ++ [v] → u.scope? = some f → Holds past v f
  | closure (c : ClosureId) : Holds past v (v.store.closure c).frame

end Session.Moment

open Session (Moment)

/-- Between two stores the moments lie in order, and the frames of their steps exist. -/
structure Passes (moments : List Moment) (s s' : Store) : Prop where
  ends : s.Becomes s'
  fromStart : ∀ v ∈ moments, s.Becomes v.store
  toEnd : ∀ v ∈ moments, v.store.Becomes s'
  order : moments.Pairwise fun u v => u.store.Becomes v.store
  scopes : ∀ v ∈ moments, ∀ f, v.scope? = some f → f < v.store.nextFrame

namespace Passes

variable {moments moments' : List Moment} {s s' s'' : Store}

theorem of_becomes (h : s.Becomes s') : Passes [] s s' := ⟨h, nofun, nofun, .nil, nofun⟩

theorem moment {v : Moment} (h : ∀ f, v.scope? = some f → f < v.store.nextFrame) : Passes [v] v.store v.store :=
  ⟨.refl, List.forall_mem_singleton.mpr .refl, List.forall_mem_singleton.mpr .refl, List.pairwise_singleton _ _,
    List.forall_mem_singleton.mpr h⟩

theorem trans (h : Passes moments s s') (h' : Passes moments' s' s'') : Passes (moments ++ moments') s s'' where
  ends := h.ends.trans h'.ends
  fromStart := List.forall_mem_append.mpr ⟨h.fromStart, fun v hv => h.ends.trans (h'.fromStart v hv)⟩
  toEnd := List.forall_mem_append.mpr ⟨fun v hv => (h.toEnd v hv).trans h'.ends, h'.toEnd⟩
  order := List.pairwise_append.mpr ⟨h.order, h'.order, fun u hu v hv => (h.toEnd u hu).trans (h'.fromStart v hv)⟩
  scopes := List.forall_mem_append.mpr ⟨h.scopes, h'.scopes⟩

theorem becoming (h : Passes moments s s') (h' : s'.Becomes s'') : Passes moments s s'' :=
  List.append_nil moments ▸ h.trans (.of_becomes h')

/-- Whatever is visited in a frame that exists. -/
theorem visit {f : FrameId} {m : Machine} (hf : f < m.store.nextFrame) (activity : Activity) (ha : activity.In f) :
    Passes [.ofVisit ⟨activity, m⟩] m.store m.store := by
  refine moment fun g hg => ?_
  cases activity with
  | execute | evaluate =>
    cases hg
    exact ha ▸ hf
  | invoke | bind => cases hg

end Passes

/-! ## Runs -/

/-- From a nested store and a frame in it, every computation passes nested stores only. -/
theorem passes_accruesIn : AccruesIn (fun _ => True) fun f _ visits m _ m' =>
    m.store.Nested → f < m.store.nextFrame → Passes (visits.map .ofVisit) m.store m'.store where
  -- one clause for each thing a computation does to the store
  refl _ _ _ _ := .of_becomes .refl
  fault _ _ _ _ _ _ := .of_becomes .refl
  trans h h' hs hf := by
    have hfirst := h hs hf
    rw [List.map_append]
    exact hfirst.trans (h' (hfirst.ends.nested hs) (hfirst.ends.lt_nextFrame hf))
  weaken _ h := h
  visit _ activity ha _ _ hf := .visit hf activity ha
  surface _ _ _ hstore _ _ := hstore ▸ .of_becomes .refl
  define f _ name v _ _ _ := .of_becomes (.single (.bind f name v))
  redefine _ _ _ _ _ _ _ := .of_becomes .refl
  closure _ _ hc _ _ hf := .of_becomes (.single (.closure (hc ▸ hf)))
  object _ _ info _ _ := .of_becomes (.single (.object ⟨info, []⟩))
  field _ _ o name v _ _ := .of_becomes (.single (.field o name v))
  methods f m _ methods _ _ _ hf :=
    (Passes.visit hf (.execute f (.classDecl _ methods _)) rfl).becoming (.withMethods m.store hf methods)
  bindMethod _ _ c v hs hf := (Passes.visit hf (.bind c v) trivial).becoming (.bound hs c v)
  part _ _ h := h
  block f _ m _ _ _ _ _ h hs hf :=
    have hchange := Store.Change.frame [] hf
    (Passes.of_becomes (.single hchange)).trans (h (hchange.nested hs) (by simp))
  invoke _ _ m _ _ c _ h hs _ :=
    have hchange := Store.Change.frame [] (hs.closures c)
    (Passes.of_becomes (.single hchange)).trans (h (hchange.nested hs) (by simp [Machine.called]))
  assign _ f name value line depth m _ v _ g _ _ h _ hs hf :=
    (Passes.visit hf (.evaluate f (.assign name value line depth)) rfl).trans
      ((h hs hf).becoming (.single (.bind g name v)))

namespace Session

/-! ## Sessions -/

/-- The moments of an event, in front of what it leaves. -/
def during (s : Session) : Event → List Moment
  | .run r => ⟨s.begun.machine, none⟩ :: (s.visits r).map .ofVisit
  | _ => []

/-- The moments of a session, in the order of time: before and behind every event, and on the way. -/
def moments (s : Session) : List Event → List Moment
  | [] => [⟨s.machine, none⟩]
  | event :: events => ⟨s.machine, none⟩ :: (s.during event ++ (s.meet event).moments events)

/-- What hosts lend and take back goes in and out of the global frame. -/
theorem becomes_begun (s : Session) : s.machine.store.Becomes s.begun.machine.store := by
  rw [begun_eq]
  exact (Store.Becomes.without s.machine.store s.lent).trans (Store.Becomes.lending _ s.toLend)

variable {s : Session} (hs : s.machine.store.Nested)
include hs

theorem executed_passes (r : Run) :
    Passes ((s.visits r).map .ofVisit) s.begun.machine.store (s.executed r).store := by
  have hbegun : s.begun.machine.store.Nested := s.becomes_begun.nested hs
  unfold executed visits
  cases checked? r.source with
  | none => exact .of_becomes .refl
  | some steps =>
    obtain ⟨-, -, hpasses⟩ := passes_accruesIn.program r.fuel (fun n _ => .true n) (s.parsed r.source).machine
      fun c => ⟨0, .true _⟩
    rw [Traced.program_erases] at hpasses
    exact hpasses hbegun hbegun.rooted

theorem meet_passes (event : Event) :
    Passes (s.during event) s.machine.store (s.meet event).machine.store := by
  cases event with
  | run r =>
    show Passes (_ :: _) _ (s.after r).machine.store
    rw [after_store]
    have hbegins : Passes [⟨s.begun.machine, none⟩] s.begun.machine.store s.begun.machine.store := .moment nofun
    exact ((Passes.of_becomes s.becomes_begun).trans hbegins).trans (executed_passes hs r)
  | attach | detach => exact .of_becomes .refl
  | reattach index =>
    rw [meet_reattach]
    split
    · exact .of_becomes .refl
    · exact .of_becomes .refl

theorem moments_inOrder (events : List Event) :
    Passes (s.moments events) s.machine.store (s.meetAll events).machine.store := by
  have hnow (s : Session) : Passes [⟨s.machine, none⟩] s.machine.store s.machine.store := .moment nofun
  induction events generalizing s with
  | nil => exact hnow s
  | cons event events ih =>
    have hevent := meet_passes hs event
    exact (hnow s).trans (hevent.trans (ih (hevent.ends.nested hs)))

omit hs

theorem nested_start (e : Surroundings) : (start e).machine.store.Nested :=
  (Store.Becomes.lending Store.initial natives).nested Store.nested_initial

/-- At every moment of a session, whatever happens in it: links lead from any frame that is held to the global one,
which has none, and each of them to a frame that was made before (frames are numbered as they are made); every frame of
an earlier moment still has its link; and the search for a name is over after finitely many links, wherever it
starts. -/
theorem scope_chains_end (e : Surroundings) (events : List Event) {past future : List Moment}
    {v : Moment} (h : (start e).moments events = past ++ v :: future) :
    v.store.parent? Store.root = none ∧
      (∀ f p, v.store.parent? f = some p → p < f) ∧
      (∀ f, Moment.Holds past v f → ∃ n, v.store.climb n f = some Store.root) ∧
      (∀ u ∈ past, ∀ f < u.store.nextFrame, v.store.parent? f = u.store.parent? f) ∧
      ∀ f name found, v.store.Search name (some f) found ↔ found = v.store.owner? f name := by
  have hstart := nested_start e
  have hpasses := moments_inOrder hstart events
  rw [h] at hpasses
  have hv : v ∈ past ++ v :: future := List.mem_append_right _ List.mem_cons_self
  have hnested : v.store.Nested := (hpasses.fromStart v hv).nested hstart
  have hearlier : ∀ u ∈ past, u.store.Becomes v.store := fun u hu =>
    (List.pairwise_append.mp hpasses.order).2.2 u hu v List.mem_cons_self
  refine ⟨congrArg List.head? hnested.outermost, fun f p => hnested.parent?_lt, fun f hf => ?_, fun u hu f hf => ?_,
    fun f name found => hnested.search_iff f name found⟩
  · cases hf with
    | closure c => exact hnested.climb_root _ (hnested.closures c)
    | @step u f hu hscope =>
      obtain hu | rfl := List.mem_append.mp hu |>.imp_right List.mem_singleton.mp
      · have hlt := hpasses.scopes u (List.mem_append_left _ hu) f hscope
        exact hnested.climb_root f ((hearlier u hu).lt_nextFrame hlt)
      · exact hnested.climb_root f (hpasses.scopes u hv f hscope)
  · exact (hearlier u hu).sameLinks.parent? hf

/-- A text that calls a method, in the body of which a step stands. -/
def printingMethod : String := "class A \x7b m() \x7b print nil; \x7d \x7d A().m();"

/-- That step holds the frame of a block, and three links lead from there to the global frame: over the frame of the
call and the frame of the receiver. -/
theorem method_chain_ends : ∃ past v future,
    (start {}).moments [.run ⟨30, printingMethod⟩] = past ++ v :: future ∧
      v.scope? = some 3 ∧ v.store.climb 2 3 = some 1 ∧ (∃ n, v.store.climb n 3 = some Store.root) ∧
      v.store.Search "this" (some 3) (some 1) := by
  have hfound : (((start {}).moments [.run ⟨30, printingMethod⟩])[11]?).map (fun v =>
      (v.scope?, v.store.climb 2 3, v.store.owner? 3 "this")) = some (some 3, some 1, some 1) := by cbv
  obtain ⟨v, hget, hv⟩ := Option.map_eq_some_iff.mp hfound
  obtain ⟨hscope, hrest⟩ := Prod.mk.inj hv
  obtain ⟨hclimb, howner⟩ := Prod.mk.inj hrest
  obtain ⟨hlt, hat⟩ := List.getElem?_eq_some_iff.mp hget
  have hsplit := List.take_append_drop 11 ((start {}).moments [.run ⟨30, printingMethod⟩])
  rw [List.drop_eq_getElem_cons hlt, hat] at hsplit
  obtain ⟨-, -, hends, -, hsearch⟩ := scope_chains_end {} [.run ⟨30, printingMethod⟩] hsplit.symm
  exact ⟨_, v, _, hsplit.symm, hscope, hclimb,
    hends 3 (.step (List.mem_append_right _ List.mem_cons_self) hscope), (hsearch 3 "this" _).mpr howner.symm⟩

end Session

end LoxLang
