import LoxLang.Syntax
import LoxLang.Table

/-!
# The store

Frames, closures and objects, each named by its index. Nothing is ever taken out: a frame outlives the block that made
it, since closures may keep it. A frame knows the frames around it, the nearest first, and this never changes; what
changes is the bindings of frames and the fields of objects.
-/

namespace LoxLang

/-- Where a frame stands in the store. -/
abbrev FrameId := Nat

structure Frame where
  parents : List FrameId
  bindings : Table Value
deriving Inhabited

/-- A function with the frame it was declared in. -/
structure Closure where
  name : String
  params : List String
  body : Node
  frame : FrameId
  /-- An initializer answers with the instance it initializes. -/
  isInitializer : Bool
deriving Inhabited

/-- An instance: its class and its own fields. -/
structure Object where
  info : ClassInfo
  fields : Table Value

instance : Inhabited Object := ⟨⟨⟨"", []⟩, []⟩⟩

structure Store where
  frames : Array Frame
  closures : Array Closure
  objects : Array Object

namespace Store

/-- A store with an empty global frame. -/
def initial : Store := ⟨#[⟨[], []⟩], #[], #[]⟩

/-- The global frame. -/
def root : FrameId := 0

/-! ## Frames -/

def frame (s : Store) (f : FrameId) : Frame := s.frames.getD f default

/-- A frame and the frames around it, the nearest first. -/
def chain (s : Store) (f : FrameId) : List FrameId := f :: (s.frame f).parents

def binds (s : Store) (name : String) (f : FrameId) : Bool := (s.frame f).bindings.contains name

/-- The nearest frame around and including `f` that binds the name. -/
def owner? (s : Store) (f : FrameId) (name : String) : Option FrameId := (s.chain f).find? (s.binds name)

/-- What a frame itself binds the name to. -/
def own? (s : Store) (f : FrameId) (name : String) : Option Value := (s.frame f).bindings.get? name

/-- What the name means in a frame. -/
def lookup? (s : Store) (f : FrameId) (name : String) : Option Value :=
  (s.owner? f name).bind fun g => s.own? g name

/-- The frame `depth` frames outwards. -/
def ancestor? (s : Store) (f : FrameId) (depth : Nat) : Option FrameId := (s.chain f)[depth]?

/-- Bind a name in a frame, or bind it anew. -/
def bind (s : Store) (f : FrameId) (name : String) (v : Value) : Store :=
  { s with frames := s.frames.modify f fun frame => { frame with bindings := frame.bindings.set name v } }

/-- Take a name out of a frame. -/
def unbind (s : Store) (f : FrameId) (name : String) : Store :=
  { s with frames := s.frames.modify f fun frame => { frame with bindings := frame.bindings.erase name } }

/-- The index that the next frame gets. -/
def nextFrame (s : Store) : FrameId := s.frames.size

/-- Add a frame with these frames around it. -/
def pushFrame (s : Store) (parents : List FrameId) (bindings : Table Value) : Store :=
  { s with frames := s.frames.push ⟨parents, bindings⟩ }

/-- A frame in debugging output; the frame around it is only hinted at. -/
def frameText (s : Store) (f : FrameId) : String :=
  "<Scope bindings=[" ++ ", ".intercalate (s.frame f).bindings.keys ++ "]"
    ++ (if (s.frame f).parents.isEmpty then "" else ", parent=#ID") ++ ">"

/-! ## Closures and objects -/

def closure (s : Store) (c : ClosureId) : Closure := s.closures.getD c default

def nextClosure (s : Store) : ClosureId := s.closures.size

def pushClosure (s : Store) (c : Closure) : Store := { s with closures := s.closures.push c }

def object (s : Store) (o : ObjectId) : Object := s.objects.getD o default

def nextObject (s : Store) : ObjectId := s.objects.size

def pushObject (s : Store) (o : Object) : Store := { s with objects := s.objects.push o }

def setField (s : Store) (o : ObjectId) (name : String) (v : Value) : Store :=
  { s with objects := s.objects.modify o fun object => { object with fields := object.fields.set name v } }

/-! ## Calls -/

/-- The number of arguments of a class is that of its initializer. -/
def initializer? (info : ClassInfo) : Option ClosureId := info.method? "init"

/-- How many arguments a callable value takes; other values take none. -/
def arity (s : Store) : Value → Nat
  | .function _ c => (s.closure c).params.length
  | .native _ n _ => n
  | .classRef info => ((initializer? info).map fun c => (s.closure c).params.length).getD 0
  | _ => 0

end Store

end LoxLang
