import Guion.Console
import Guion.Store
import Guion.Trace

namespace Guion

structure Function where
  name : Name
  params : List Param
  body : Stmt

/-- The stack that a run begins on: its size in frames, and how many of them are in use. -/
structure Stack where
  size : Int := 1000
  used : Nat := 0
deriving DecidableEq

/-- The state of a run. `calls` counts the calls in progress and `limit` bounds them. -/
structure Machine where
  store : Store := {}
  functions : List Function := []
  calls : Nat := 0
  limit : Int := 1000
  stack : Stack := {}
  console : Console
  trace : Trace := {}

def Machine.function? (m : Machine) (name : Name) : Option Function :=
  m.functions.find? (·.name.agrees name)

/-- A computation on a machine. The machine is kept when the computation fails. -/
def Exec (α : Type) : Type :=
  Machine → Except Failure α × Machine

namespace Exec

@[always_inline]
instance : Monad Exec where
  pure a := fun m => (.ok a, m)
  bind x f := fun m =>
    match x m with
    | (.ok a, m) => f a m
    | (.error e, m) => (.error e, m)

variable {α : Type}

def fail (e : Failure) : Exec α :=
  fun m => (.error e, m)

def fault (cause : Fault) : Exec α :=
  fail (.fault cause none)

def ofExcept : Except Failure α → Exec α
  | .ok a => pure a
  | .error e => fail e

def onStore (operation : Store → Except Failure α × Store) : Exec α :=
  fun m =>
    let (r, store) := operation m.store
    (r, { m with store })

def note (event : Event) : Exec Unit :=
  fun m =>
    if m.trace.refuses event then (.error .unwritten, m)
    else (.ok (), { m with trace := m.trace.note event })

def readLine : Exec String :=
  fun m =>
    let (line, console) := m.console.readLine
    (.ok line, { m with console })

def print (v : Value) : Exec Unit :=
  fun m =>
    match m.console.writeData? v.content with
    | some console => (.ok (), { m with console })
    | none => (.error (.stuck .malformed), m)

def lookup (name : Name) : Exec Variable :=
  fun m => (m.store.lookup name, m)

def declare (name : Name) (type : TypeName) (value : Option Value) : Exec Variable :=
  onStore fun s => s.declare name type value

def assign (name : Name) (value : Value) : Exec Value :=
  onStore fun s => s.assign name value

def inScope (x : Exec α) : Exec α :=
  fun m =>
    let (r, m) := x { m with store := m.store.openScope }
    (r, { m with store := m.store.closeScope })

def inCall (x : Exec α) : Exec α :=
  fun m =>
    let (r, m) := x { m with calls := m.calls + 1 }
    (r, { m with calls := m.calls - 1 })

/-- Give a fault without a place the place of the construct it passes through. -/
def located (pos : Pos) (x : Exec α) : Exec α :=
  fun m =>
    match x m with
    | (.error (.fault cause none), m) => (.error (.fault cause pos.place?), m)
    | r => r

def function (name : Name) : Exec Function := do
  ofExcept (Store.checkName name)
  fun m =>
    match m.function? name with
    | some f => (.ok f, m)
    | none => (.error (.fault (.functionMissing name) none), m)

def checkFree (name : Name) : Exec Unit := do
  ofExcept (Store.checkName name)
  fun m =>
    match m.function? name with
    | some _ => (.error (.fault (.functionExists name) none), m)
    | none => (.ok (), m)

def register (f : Function) : Exec Unit :=
  fun m => (.ok (), { m with functions := m.functions ++ [f] })

def checkDepth (name : Name) : Exec Unit :=
  fun m =>
    if m.limit ≤ m.calls then (.error (.fault (.tooDeep name m.limit) none), m) else (.ok (), m)

end Exec

end Guion
