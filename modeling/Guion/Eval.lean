import Guion.Machine
import Guion.Value.Apply

namespace Guion

inductive Task where
  | eval (e : Expr)
  | exec (s : Stmt)

def Task.pos : Task → Pos
  | .eval e => e.pos
  | .exec s => s.pos

/-- The frames that a part leaves to the parts inside it, of those left to itself, unless these are
too few for it. -/
abbrev Frames : Type := Task → Nat → Option Nat

def Frames.boundless : Frames :=
  fun _ room => some room

/-- The meanings of expressions and statements, as far as they are known. -/
structure Evaluator where
  eval : Expr → Exec Value
  exec : Stmt → Exec Signal

namespace Exec

def literal : Literal → Exec Value
  | .integer n => ofExcept (Value.ofLiteral n)
  | .decimal x => pure (.decimal x)
  | .text s => pure (.cadena s)
  | .truth b => pure (.booleano b)
  | .foreign content => pure (.foreign content)

def fetch (name : Name) : Exec Value := do
  let var ← lookup name
  if var.initialized then pure var.value else fault (.uninitialized name)

/-- The second operand counts only where the first leaves the result open. -/
def logical (op : LogicalOp) (left right : Exec Value) : Exec Value := do
  match op, ← left with
  | .or, .booleano true => pure (.booleano true)
  | .and, .booleano false => pure (.booleano false)
  | op, .booleano _ => do
    match ← right with
    | .booleano b => pure (.booleano b)
    | _ => fault (.logicalOperand op)
  | op, _ => fault (.logicalOperand op)

def all (eval : Expr → Exec Value) : List Expr → Exec (List Value)
  | [] => pure []
  | e :: es => do
    let v ← eval e
    let vs ← all eval es
    pure (v :: vs)

def conformAll (function : Name) : Nat → List Param → List Value → Except Failure (List Value)
  | index, p :: ps, v :: vs => do
    let w ← Value.conform p.type v (.argument index function)
    let ws ← conformAll function (index + 1) ps vs
    pure (w :: ws)
  | _, _, _ => pure []

def bindAll : List Param → List Value → Exec Unit
  | p :: ps, v :: vs => do
    let _ ← declare p.name p.type (some v)
    bindAll ps vs
  | _, _ => pure ()

/-- Report a call. Arguments without a text cannot be reported. -/
def noteCall (name : Name) (values : List Value) : Exec Unit := do
  if values.any Value.isForeign then fail (.stuck .malformed)
  note (.called name values)

def enter (exec : Stmt → Exec Signal) (f : Function) (values : List Value) : Exec Value := do
  checkDepth f.name
  noteCall f.name values
  let signal ← inCall (inScope do
    bindAll f.params values
    exec f.body)
  note (.returned f.name signal.result)
  pure signal.result

def call (ev : Evaluator) (name : Name) (arguments : List Expr) : Exec Value := do
  let f ← function name
  let given ← all ev.eval arguments
  if given.length = f.params.length then
    let values ← ofExcept (conformAll f.name 1 f.params given)
    enter ev.exec f values
  else fault (.arity f.name f.params.length given.length)

/-- One step into an expression. -/
def evalStep (ev : Evaluator) : Expr → Exec Value
  | .literal _ value => literal value
  | .name _ name => fetch name
  | .assign _ name value => do
    let v ← ev.eval value
    assign name v
  | .logical _ op left right => logical op (ev.eval left) (ev.eval right)
  | .binary _ op left right => do
    let a ← ev.eval left
    let b ← ev.eval right
    ofExcept (Value.binary op a b)
  | .unary _ op operand => do
    let v ← ev.eval operand
    ofExcept (Value.unary op v)
  | .call _ function arguments => call ev function arguments
  | .read _ => do
    let line ← readLine
    pure (.cadena line)
  | .stuck why => fail (.stuck why)

def sequence (exec : Stmt → Exec Signal) : List Stmt → Exec Signal
  | [] => pure .normal
  | s :: rest => do
    match ← exec s with
    | .normal => sequence exec rest
    | signal => pure signal

/-- Whether a loop goes on. A condition that is no truth value ends it. -/
def condition (loop : Loop) (pos : Pos) (test : Exec Value) : Exec Bool := do
  match ← test with
  | .booleano b => pure b
  | v => do
    note (.loopEnded loop pos.line v)
    pure false

def iterate (test : Exec Bool) (body : Exec Signal) (next : Exec Unit) : Nat → Exec Signal
  | 0 => fail .exhausted
  | fuel + 1 => do
    if ← test then
      match ← body with
      | .broken => pure .normal
      | .returned v => pure (.returned v)
      | _ => do
        next
        iterate test body next fuel
    else pure .normal

def branch (ev : Evaluator) (test : Expr) (yes : Stmt) (no : Option Stmt) : Exec Signal := do
  match ← ev.eval test with
  | .booleano b => do
    note (.branched b)
    if b then ev.exec yes
    else match no with
      | some s => ev.exec s
      | none => pure .normal
  | v => fault (.condition v)

def declareVariable (ev : Evaluator) (type : TypeName) (name : Name) (initial : Option Expr) :
    Exec Signal := do
  let value ← match initial with
    | some e => some <$> ev.eval e
    | none => pure none
  let var ← declare name type value
  note (.declared type name var.value)
  pure .normal

def define (name : Name) (params : List Param) (body : Stmt) : Exec Signal := do
  checkFree name
  register ⟨name, params, body⟩
  if !params.all (·.type.isText) then fail (.stuck .malformed)
  note (.defined name (params.map (·.type)))
  pure .normal

/-- One step into a statement. Loops may go round `fuel` times. -/
def execStep (fuel : Nat) (ev : Evaluator) : Stmt → Exec Signal
  | .declare _ type name initial => declareVariable ev type name initial
  | .function _ name params body => define name params body
  | .unusable _ name why => do
    checkFree name
    fail (.stuck why)
  | .block _ body => inScope (sequence ev.exec body)
  | .branch _ test yes no => branch ev test yes no
  | .whileLoop _ test body =>
    iterate (condition .whileLoop test.pos (ev.eval test)) (ev.exec body) (pure ()) fuel
  | .forLoop _ initial test update body => inScope do
    let _ ← ev.exec initial
    iterate (condition .forLoop test.pos (ev.eval test)) (ev.exec body)
      (do let _ ← ev.eval update; pure ()) fuel
  | .returns _ value => do
    match value with
    | some e => do
      let v ← ev.eval e
      pure (.returned (some v))
    | none => pure (.returned none)
  | .print _ value => do
    let v ← ev.eval value
    print v
    pure .normal
  | .breaks _ => pure .broken
  | .continues _ => pure .continued
  | .expr _ value => do
    let _ ← ev.eval value
    pure .normal
  | .stuck why => fail (.stuck why)

def onFrames (left : Option Nat) (x : Nat → Exec α) : Exec α :=
  match left with
  | some room => x room
  | none => fail .overrun

end Exec

mutual

/-- Evaluate an expression on a stack with `room` frames left, going at most `fuel` constructs and
calls deep. -/
def evalOn (frames : Frames) : Nat → Nat → Expr → Exec Value
  | 0, _, _ => Exec.fail .exhausted
  | fuel + 1, room, e =>
    Exec.onFrames (frames (.eval e) room) fun left =>
      Exec.located e.pos (Exec.evalStep ⟨evalOn frames fuel left, execOn frames fuel left⟩ e)

/-- Execute a statement on a stack with `room` frames left, going at most `fuel` constructs, calls
and rounds deep. -/
def execOn (frames : Frames) : Nat → Nat → Stmt → Exec Signal
  | 0, _, _ => Exec.fail .exhausted
  | fuel + 1, room, s =>
    Exec.onFrames (frames (.exec s) room) fun left =>
      Exec.located s.pos (Exec.execStep fuel ⟨evalOn frames fuel left, execOn frames fuel left⟩ s)

end

def eval (fuel : Nat) (e : Expr) : Exec Value :=
  evalOn .boundless fuel 0 e

def exec (fuel : Nat) (s : Stmt) : Exec Signal :=
  execOn .boundless fuel 0 s

theorem eval_succ (fuel : Nat) (e : Expr) :
    eval (fuel + 1) e = Exec.located e.pos (Exec.evalStep ⟨eval fuel, exec fuel⟩ e) := rfl

def runBody (exec : Stmt → Exec Signal) : List Stmt → Exec Unit
  | [] => pure ()
  | s :: rest => do
    match ← exec s with
    | .normal => runBody exec rest
    | signal => Exec.note (.stopped signal s.pos.line)

/-- Run top-level statements to the end of the program, and close the trace however they end. -/
def runTraced (exec : Stmt → Exec Signal) (body : List Stmt) : Exec Unit :=
  fun m =>
    let (r, m) := (do
      runBody exec body
      Exec.note .finished : Exec Unit) m
    (r, { m with trace := m.trace.close })

/-- The frames that a machine asks for: those of its stack, and thirty for each nested call. -/
def Machine.stackFrames (m : Machine) : Int :=
  m.stack.size + 30 * m.limit

/-- Refuse a stack with more frames than 31 bits can count, one without frames, and one whose frames
are all in use. -/
def Exec.checkStack : Exec Unit :=
  fun m =>
    if m.stackFrames < -2147483648 ∨ 2147483647 < m.stackFrames then (.error (.stuck .hugeStack), m)
    else if m.stackFrames < 1 then (.error (.stuck .noStack), m)
    else if m.stackFrames ≤ m.stack.used then (.error (.stuck .deepStack), m)
    else (.ok (), m)

def runWith (exec : Stmt → Exec Signal) (program : Program) : Exec Unit := do
  Exec.note (.started program.body.length)
  Exec.checkStack
  runTraced exec program.body

def run (fuel : Nat) (program : Program) : Exec Unit :=
  runWith (exec fuel) program

/-- Take an overrun for a fault at `pos`, whichever construct inside it was the one without room. -/
def Exec.caught {α : Type} (pos : Pos) (x : Exec α) : Exec α :=
  fun m =>
    match x m with
    | (.error .overrun, m) => (.error (.fault .stackExhausted pos.given?), m)
    | r => r

def Machine.room (m : Machine) : Nat :=
  (m.stackFrames - m.stack.used).toNat

/-- Run a program on the stack of the machine. A top-level statement that overruns it is a fault. -/
def runOn (frames : Frames) (fuel : Nat) (program : Program) : Exec Unit :=
  fun m => runWith (fun s => Exec.caught s.pos (execOn frames fuel m.room s)) program m

def ampleFuel : Nat := 1000000000000000000

end Guion
