import Mathlib
import LoxLang.Host.Samples
import LoxLang.Proofs.Changes
import LoxLang.Proofs.Faults
import LoxLang.Proofs.Invariants
import LoxLang.Proofs.Sessions

/-!
# What a run can raise

A run raises a diagnostic that stands in a step which it comes to, with which a host replies, or with which the log of
calls answers once it is closed. So if the trees that are executed hold no faults, what it raises comes from a host or
from the log, or stands in a function that the machine had before (`raising`, `Deed.raises`). Collecting, resolution
and execution therefore agree on whether a parsed program holds a fault (`walks_agree`).
-/

namespace LoxLang

open Exec

namespace Machine

/-- A host of the machine can reply to a call by raising the diagnostic. -/
def Replies (m : Machine) (d : Diagnostic) : Prop :=
  ∃ host ∈ m.hosts, ∃ call memory, (host.respond call memory).1 = .raised d

/-- The diagnostic stands in a function on the machine. -/
def Holds (m : Machine) (d : Diagnostic) : Prop := ∃ c, d ∈ (m.store.closure c).body.faults

/-- What stands in the functions on the machine, and what its hosts and its log can raise, is among these
diagnostics. -/
structure Within (S : Diagnostic → Prop) (m : Machine) : Prop where
  replies : ∀ d, m.Replies d → S d
  holds : ∀ c, ∀ d ∈ (m.store.closure c).body.faults, S d
  closes : m.log.CanClose → S logRefusal

namespace Within

variable {S : Diagnostic → Prop} {m m' : Machine}

theorem of_same (h : m.Within S) (hhosts : m'.hosts = m.hosts) (hclosures : m'.store.closures = m.store.closures)
    (hlog : m'.log.CanClose → m.log.CanClose) : m'.Within S where
  replies d hd := h.replies d (by rwa [Replies, hhosts] at hd)
  holds c d hd := h.holds c d (by rwa [Store.closure, hclosures] at hd)
  closes hc := h.closes (hlog hc)

theorem pushClosure (h : m.Within S) {c : Closure} (hc : ∀ d ∈ c.body.faults, S d) :
    Within S { m with store := m.store.pushClosure c } where
  replies := h.replies
  holds i d hd := by
    change d ∈ ((m.store.pushClosure c).closure i).body.faults at hd
    rw [Store.closure_pushClosure] at hd
    split at hd
    · exact hc d hd
    · exact h.holds i d hd
  closes := h.closes

end Within

end Machine

/-- The diagnostic that a computation raises. -/
def raised? {α : Type} : EStateM.Result Fault Machine α → Option Diagnostic
  | .error (.raised d) _ => some d
  | _ => none

/-- From machines within `S` the computation leads to such machines, and all that it raises is in `S`. -/
def Raises (S : Diagnostic → Prop) {α : Type} (x : Exec α) : Prop :=
  ∀ m : Machine, m.Within S → (machineLeft (x m)).Within S ∧ ∀ d, raised? (x m) = some d → S d

/-! ## The invariant -/

namespace Node

theorem faults_subset_of_mem {n : Node} {ns : List Node} (h : n ∈ ns) : n.faults ⊆ faultsOf ns := by
  induction ns with
  | nil => cases h
  | cons m ns ih =>
    rw [faultsOf]
    obtain rfl | h := List.mem_cons.mp h
    · exact List.subset_append_left _ _
    · exact List.subset_append_of_subset_right _ (ih h)

theorem faults_subset_of_child {n inner : Node} (hi : inner ∈ n.children) : inner.faults ⊆ n.faults := by
  cases n with
  | literal | var | this | error | absent | bare => cases hi
  | block | classDecl => exact faults_subset_of_mem hi
  | call =>
    obtain rfl | hi := List.mem_cons.mp hi
    · exact List.subset_append_left _ _
    · exact List.subset_append_of_subset_right _ (faults_subset_of_mem hi)
  | grouping | unary | assign | get | letDecl | print | function | returnStep =>
    obtain rfl := List.mem_singleton.mp hi
    exact List.Subset.refl _
  | binary | logical | whileLoop =>
    simp only [children, parts, List.mem_cons, List.not_mem_nil, or_false] at hi
    obtain rfl | rfl := hi
    · exact List.subset_append_left _ _
    · exact List.subset_append_right _ _
  | set =>
    simp only [children, parts, List.mem_cons, List.not_mem_nil, or_false] at hi
    obtain rfl | rfl := hi
    · exact List.subset_append_right _ _
    · exact List.subset_append_left _ _
  | ifElse =>
    simp only [children, parts, List.mem_cons, List.not_mem_nil, or_false] at hi
    obtain rfl | rfl | rfl := hi
    · exact List.subset_append_left _ _
    · exact List.subset_append_of_subset_right _ (List.subset_append_left _ _)
    · exact List.subset_append_of_subset_right _ (List.subset_append_right _ _)

end Node

/-- What is raised is in `S`, as long as what stands in the trees and on the machine, and what its hosts and its log can
raise, is. -/
def raising (S : Diagnostic → Prop) : Invariant where
  machine := Machine.Within S
  fault _ fault := ∀ d, fault = .raised d → S d
  node n := ∀ d ∈ n.faults, S d
  line _ := True

theorem raises_iff {S : Diagnostic → Prop} {α : Type} {x : Exec α} : Raises S x ↔ (raising S).Keeps x := by
  refine forall_congr' fun m => imp_congr_right fun _ => ?_
  cases x m with
  | ok a m' => exact and_iff_left fun d hd => by cases hd
  | error fault m' =>
    have hraised : ∀ d, raised? (.error fault m' : EStateM.Result Fault Machine α) = some d ↔ fault = .raised d :=
      fun d => by cases fault <;> simp [raised?]
    simp only [hraised]
    rfl

namespace Raises

variable {S : Diagnostic → Prop}

theorem acceptReply (name : String) (line : Line) {reply : HostReply} (h : ∀ d, reply = .raised d → S d) :
    (raising S).Keeps (acceptReply name line reply) := by
  have hfails : ∀ (line : Line) (cause : RuntimeCause), (raising S).Keeps (failAt line cause : Exec Value) := by
    refine fun line cause => .throw fun m d hd => ?_
    split at hd <;> cases hd
  cases reply with
  | value v => exact .pure v
  | failure text => exact hfails line _
  | overflow => exact .throw fun _ => nofun
  | raised d =>
    show (raising S).Keeps (if d.phase = .runtime then _ else _ : Exec Value)
    split
    · exact hfails _ _
    · exact .throw fun _ d' hd => by cases hd; exact h d rfl

/-- What a host raises is among what it can raise, and it can raise no more after a call. -/
theorem hostCall (name : String) (index : Nat) (call : HostCall) (line : Line) :
    (raising S).Keeps (do let reply ← askHost index call; Exec.acceptReply name line reply) := by
  intro m hm
  rw [bind_apply]
  unfold askHost
  cases hhost : m.hosts[index]? with
  | none => exact hm
  | some host =>
    have hmem : host ∈ m.hosts := Array.mem_of_getElem? hhost
    refine acceptReply name line (fun d hd => hm.replies d ⟨host, hmem, call, host.memory, hd⟩) _
      ⟨fun d hd => ?_, hm.holds, hm.closes⟩
    obtain ⟨other, hother, hraises⟩ := hd
    rw [Array.set!_eq_setIfInBounds] at hother
    obtain hother | rfl := Array.mem_or_eq_of_mem_setIfInBounds hother
    · exact hm.replies d ⟨other, hother, hraises⟩
    · exact hm.replies d ⟨host, hmem, hraises⟩

end Raises

theorem raising_lawful (S : Diagnostic → Prop) : (raising S).Lawful where
  same h hclosures _ hhosts hlog := h.of_same hhosts hclosures fun hc => hlog ▸ hc
  body h := h.holds
  pushClosure h := h.pushClosure
  logged a h := h.of_same rfl rfl (canClose_of_logged _)
  entered h _ := h.of_same rfl rfl (canClose_of_logged _)
  left h := h.of_same rfl rfl id
  runtime _ _ _ := nofun
  refused _ := nofun
  overflow _ := nofun
  unlogged _ h hrefuses _ hd := by
    cases hd
    exact h.closes (DebugLog.canClose_of_refusesNext hrefuses)
  internal _ hf d hd := by
    rw [hd] at hf
    exact hf.elim
  unread {d} _ hn hphase _ hd := by
    cases hd
    exact hn d (by rw [Node.faults, if_pos hphase]; exact List.mem_singleton_self d)
  host index call name _ _ := Raises.hostCall name index call _
  child hn hi := fun d hd => hn d (Node.faults_subset_of_child hi hd)
  ownLine _ _ := trivial

/-! ## The walks over a parsed program -/

/-- Something done with steps: they are executed in a frame, or a value is called. -/
inductive Deed
  | execute (fuel : Nat) (frame : FrameId)
  | call (fuel : Nat) (name : String) (callee : Value) (arguments : List Value) (line : Line)

namespace Deed

def perform (steps : List Node) : Deed → Exec Unit
  | execute fuel frame => do
    let _ ← (Evaluator.ofFuel fuel).executeAll frame steps
    pure ()
  | call fuel name callee arguments line => do
    let _ ← (Evaluator.ofFuel fuel).call name callee arguments line
    pure ()

/-- The machine after deeds, each of which follows whether or not the one before it failed. -/
def after (steps : List Node) (m : Machine) (deeds : List Deed) : Machine :=
  deeds.foldl (fun m deed => machineLeft (deed.perform steps m)) m

variable {S : Diagnostic → Prop} {steps : List Node} (h : ∀ d ∈ Node.faultsOf steps, S d)
include h

theorem raises (deed : Deed) : Raises S (deed.perform steps) := by
  rw [raises_iff]
  have hsteps : ∀ n ∈ steps, (raising S).node n := fun n hn d hd => h d (Node.faults_subset_of_mem hn hd)
  have hkept := (raising_lawful S).ofFuel
  cases deed with
  | execute fuel frame => exact .bind ((hkept fuel).executeAll frame hsteps) fun _ => .pure ()
  | call fuel name callee arguments line =>
    exact .bind ((hkept fuel).call (raising_lawful S) trivial name callee arguments) fun _ => .pure ()

theorem within_after {m : Machine} (hm : m.Within S) (deeds : List Deed) : (after steps m deeds).Within S := by
  induction deeds generalizing m with
  | nil => exact hm
  | cons deed deeds ih => exact ih (raises h deed m hm).1

end Deed

/-- Collecting, resolution and execution agree on the faults of a parsed program. If it has some, resolution fails, and
if with a fault then with the first one that is collected. If it has none, resolution does not meet one, and nothing
that is done with the steps raises one, whatever depths they have, and whatever was done before: what is raised comes
from a host, or stands in a function that the machine had at the start, or is the answer of a log of calls that can
close. -/
theorem walks_agree (tokens : List Token) :
    (∀ first others, Node.diagnosticsOf (parse tokens) = first :: others →
      ∃ fault, resolve (parse tokens) = .error fault ∧ ∀ d, fault = .unread d → d = first) ∧
    (Node.diagnosticsOf (parse tokens) = [] →
      (∀ d, resolve (parse tokens) ≠ .error (.unread d)) ∧
      (∀ resolved, resolve (parse tokens) = .ok resolved → Node.AllWithDepths resolved (parse tokens)) ∧
      ∀ steps, Node.AllWithDepths steps (parse tokens) →
        ∀ (m : Machine) (before : List Deed) (deed : Deed) (d : Diagnostic),
        raised? (deed.perform steps (Deed.after steps m before)) = some d →
          m.Replies d ∨ m.Holds d ∨ m.log.CanClose ∧ d = logRefusal) := by
  have hmeets := resolve_meets (parse tokens)
  rw [faults_of_parse] at hmeets
  refine ⟨fun first others hd => ?_,
    fun hd => ⟨fun d hr => ?_, fun resolved hr => ?_, fun steps hs m before deed d hx => ?_⟩⟩
  · cases hr : resolve (parse tokens) with
    | ok resolved =>
      rw [hr, hd] at hmeets
      cases hmeets.1
    | error fault =>
      refine ⟨fault, rfl, fun d hfault => ?_⟩
      rw [hr, hfault, hd] at hmeets
      exact (Option.some.inj hmeets).symm
  · rw [hr, hd] at hmeets
    cases hmeets
  · rw [hr] at hmeets
    exact hmeets.2
  · have hnone : ∀ d ∈ Node.faultsOf steps, m.Replies d ∨ m.Holds d ∨ m.log.CanClose ∧ d = logRefusal := by
      rw [← hs.faultsOf_eq, faults_of_parse, hd]
      nofun
    have hm : m.Within fun d => m.Replies d ∨ m.Holds d ∨ m.log.CanClose ∧ d = logRefusal :=
      ⟨fun _ => .inl, fun c _ hmem => .inr (.inl ⟨c, hmem⟩), fun hc => .inr (.inr ⟨hc, rfl⟩)⟩
    exact (Deed.raises hnone deed _ (Deed.within_after hnone hm before)).2 d hx

/-- A class, an instance of it, and a call of its method. -/
def methodText : String := "class Box \x7b open() \x7b return true; \x7d \x7d\nlet box = Box();\nbox.open();"

/-- Two steps that cannot be read. -/
def unreadText : String := "let ;\nprint ;"

/-- Executed in a new machine, and with its method called afterwards, the first text raises nothing; the second one is
rejected at its first fault. -/
theorem methodText_raises_nothing :
    (∃ resolved, resolve (parse (Scan.of methodText).tokens) = .ok resolved ∧
      ∀ d, raised? ((Deed.call 20 "open" (.function "open" 1) [] 9).perform resolved
        (Deed.after resolved (Machine.initial .none) [.execute 20 Store.root])) ≠ some d) ∧
    ∃ fault, resolve (parse (Scan.of unreadText).tokens) = .error fault ∧
      ∀ d, fault = .unread d → d = ⟨.parse, 1, "Expected identifier following \"let\", found \";\""⟩ := by
  have hnone : Node.diagnosticsOf (parse (Scan.of methodText).tokens) = [] := by decide +kernel
  have hsome : Node.diagnosticsOf (parse (Scan.of unreadText).tokens) =
      [⟨.parse, 1, "Expected identifier following \"let\", found \";\""⟩,
        ⟨.parse, 2, "Unrecognized token: \";\""⟩] := by decide +kernel
  have hresolves : ∃ resolved, resolve (parse (Scan.of methodText).tokens) = .ok resolved ∧ resolved.length = 3 :=
    exists_ok_of_any (by decide +kernel)
  obtain ⟨resolved, hr, -⟩ := hresolves
  obtain ⟨-, hdepths, hraises⟩ := (walks_agree (Scan.of methodText).tokens).2 hnone
  refine ⟨⟨resolved, hr, fun d hd => ?_⟩, (walks_agree (Scan.of unreadText).tokens).1 _ _ hsome⟩
  rcases hraises resolved (hdepths resolved hr) _ _ _ d hd with ⟨host, hhost, -⟩ | ⟨c, hc⟩ | ⟨⟨hon, -⟩, -⟩
  · exact absurd hhost (Array.not_mem_empty host)
  · rw [Store.closure, Machine.initial, Machine.inside, Store.initial, Array.getD_eq_getD_getElem?] at hc
    cases hc
  · cases hon

/-- A text that calls a host's function. -/
def hostText : String := "parse_fail();"

/-- The text holds no faults, but the host raises a parse diagnostic, which is passed on. -/
theorem host_raises_parse_diagnostic :
    Node.diagnosticsOf (parse (Scan.of hostText).tokens) = [] ∧
    raised? (Exec.program 20 (parse (Scan.of hostText).tokens)
      ((Session.start {}).setHost (some Host.failing)).begun.machine) =
        some ⟨.parse, 1, "not a runtime error"⟩ := by
  have hsteps : parse (Scan.of hostText).tokens = [.call (.var "parse_fail" 1 none) [] 1] := by cbv
  rw [hsteps]
  exact ⟨rfl, by cbv⟩

end LoxLang
