import Guion.Value.Conform

namespace Guion

/-- A declared variable. Until a value is stored it is not initialized and holds `null`. -/
structure Variable where
  type : TypeName
  value : Value := .null
  initialized : Bool := false
deriving DecidableEq

abbrev Frame := List (Name × Variable)

/-- The global frame and the frames of the open scopes, innermost first. -/
structure Store where
  globals : Frame := []
  frames : List Frame := []
deriving DecidableEq

namespace Frame

def get? (frame : Frame) (name : Name) : Option Variable :=
  (frame.find? (·.1.agrees name)).map Prod.snd

def set (name : Name) (var : Variable) : Frame → Frame
  | [] => []
  | (key, old) :: rest =>
    if key.agrees name then (key, var) :: rest else (key, old) :: set name var rest

end Frame

namespace Store

def openScope (s : Store) : Store :=
  { s with frames := [] :: s.frames }

def closeScope (s : Store) : Store :=
  { s with frames := s.frames.tail }

def current (s : Store) : Frame :=
  s.frames.head?.getD s.globals

def insert (s : Store) (name : Name) (var : Variable) : Store :=
  match s.frames with
  | [] => { s with globals := s.globals ++ [(name, var)] }
  | frame :: rest => { s with frames := (frame ++ [(name, var)]) :: rest }

/-- The variable a name stands for: that of the innermost frame that declares it. -/
def find? (s : Store) (name : Name) : Option Variable :=
  (s.frames.findSome? (·.get? name)).or (s.globals.get? name)

def setIn (name : Name) (var : Variable) (globals : Frame) : List Frame → Store
  | [] => ⟨globals.set name var, []⟩
  | frame :: rest =>
    if (frame.get? name).isSome then ⟨globals, frame.set name var :: rest⟩
    else
      let s := setIn name var globals rest
      ⟨s.globals, frame :: s.frames⟩

def set (s : Store) (name : Name) (var : Variable) : Store :=
  setIn name var s.globals s.frames

def checkName (name : Name) : Except Failure Unit :=
  if name.isUsable then .ok () else Stuck.raise .malformed

def lookup (s : Store) (name : Name) : Except Failure Variable := do
  checkName name
  match s.find? name with
  | some var => .ok var
  | none => Fault.raise (.variableMissing name)

def declared (s : Store) (name : Name) (type : TypeName) (value : Option Value) :
    Except Failure Variable := do
  checkName name
  if (s.current.get? name).isSome then Fault.raise (.variableExists name)
  else
    match value with
    | none => .ok { type }
    | some v => do
      let w ← Value.conform type v (.declaration name)
      .ok ⟨type, w, true⟩

def declare (s : Store) (name : Name) (type : TypeName) (value : Option Value) :
    Except Failure Variable × Store :=
  match s.declared name type value with
  | .ok var => (.ok var, s.insert name var)
  | .error e => (.error e, s)

def assigned (s : Store) (name : Name) (value : Value) : Except Failure Variable := do
  let var ← s.lookup name
  let w ← Value.conform var.type value (.assignment name)
  .ok ⟨var.type, w, true⟩

def assign (s : Store) (name : Name) (value : Value) : Except Failure Value × Store :=
  match s.assigned name value with
  | .ok var => (.ok var.value, s.set name var)
  | .error e => (.error e, s)

end Store

end Guion
