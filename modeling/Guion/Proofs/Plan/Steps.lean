import Guion.Proofs.Plan

namespace Guion.Plan

variable {α : Type}

def fault (cause : Fault) : Plan α := fail (.fault cause none)

def ofExcept : Except Failure α → Plan α
  | .ok a => pure a
  | .error e => fail e

def perform (operation : Move α) : Plan α := move operation pure

def value (e : Expr) : Plan Value := ask (.eval e) pure

def signal (s : Stmt) : Plan Signal := ask (.exec s) pure

def inside (bracket : Bracket) (inner : Plan α) : Plan α := within bracket inner pure

def literal : Literal → Plan Value
  | .integer n => ofExcept (Value.ofLiteral n)
  | .decimal x => pure (.decimal x)
  | .text s => pure (.cadena s)
  | .truth b => pure (.booleano b)
  | .foreign content => pure (.foreign content)

def fetch (name : Name) : Plan Value := do
  let var ← perform (.lookup name)
  if var.initialized then pure var.value else fault (.uninitialized name)

def second (op : LogicalOp) (right : Expr) : Plan Value := do
  match ← value right with
  | .booleano b => pure (.booleano b)
  | _ => fault (.logicalOperand op)

def logical (op : LogicalOp) (left right : Expr) : Plan Value := do
  match op, ← value left with
  | .or, .booleano true => pure (.booleano true)
  | .and, .booleano false => pure (.booleano false)
  | op, .booleano _ => second op right
  | op, _ => fault (.logicalOperand op)

def values : List Expr → Plan (List Value)
  | [] => pure []
  | e :: es => do
    let v ← value e
    let vs ← values es
    pure (v :: vs)

def bindAll : List Param → List Value → Plan Unit
  | p :: ps, v :: vs => do
    let _ ← perform (.declare p.name p.type (some v))
    bindAll ps vs
  | _, _ => pure ()

def noteCall (name : Name) (values : List Value) : Plan Unit := do
  if values.any Value.isForeign then fail (.stuck .malformed)
  perform (.note (.called name values))

def body (f : Function) (values : List Value) : Plan Signal := do
  bindAll f.params values
  signal f.body

def enter (f : Function) (values : List Value) : Plan Value := do
  perform (.checkDepth f.name)
  noteCall f.name values
  let signal ← inside .call (inside .scope (body f values))
  perform (.note (.returned f.name signal.result))
  pure signal.result

def call (name : Name) (arguments : List Expr) : Plan Value := do
  let f ← perform (.function name)
  let given ← values arguments
  if given.length = f.params.length then
    let values ← ofExcept (Exec.conformAll f.name 1 f.params given)
    enter f values
  else fault (.arity f.name f.params.length given.length)

def eval : Expr → Plan Value
  | .literal _ value => literal value
  | .name _ name => fetch name
  | .assign _ name e => do
    let v ← value e
    perform (.assign name v)
  | .logical _ op left right => logical op left right
  | .binary _ op left right => do
    let a ← value left
    let b ← value right
    ofExcept (Value.binary op a b)
  | .unary _ op operand => do
    let v ← value operand
    ofExcept (Value.unary op v)
  | .call _ function arguments => call function arguments
  | .read _ => do
    let line ← perform .readLine
    pure (.cadena line)
  | .stuck why => fail (.stuck why)

def sequence : List Stmt → Plan Signal
  | [] => pure .normal
  | s :: rest => do
    match ← signal s with
    | .normal => sequence rest
    | signal => pure signal

def condition (loop : Loop) (test : Expr) : Plan Bool := do
  match ← value test with
  | .booleano b => pure b
  | v => do
    perform (.note (.loopEnded loop test.pos.line v))
    pure false

def iterate (test : Plan Bool) (body : Stmt) (next : Plan Unit) : Nat → Plan Signal
  | 0 => fail .exhausted
  | rounds + 1 => do
    if ← test then
      match ← signal body with
      | .broken => pure .normal
      | .returned v => pure (.returned v)
      | _ => do
        next
        iterate test body next rounds
    else pure .normal

def branch (test : Expr) (yes : Stmt) (no : Option Stmt) : Plan Signal := do
  match ← value test with
  | .booleano b => do
    perform (.note (.branched b))
    if b then signal yes
    else match no with
      | some s => signal s
      | none => pure .normal
  | v => fault (.condition v)

def initial : Option Expr → Plan (Option Value)
  | some e => do
    let v ← value e
    pure (some v)
  | none => pure none

def declareVariable (type : TypeName) (name : Name) (first : Option Expr) : Plan Signal := do
  let value ← initial first
  let var ← perform (.declare name type value)
  perform (.note (.declared type name var.value))
  pure .normal

def define (name : Name) (params : List Param) (body : Stmt) : Plan Signal := do
  perform (.register ⟨name, params, body⟩)
  if !params.all (·.type.isText) then fail (.stuck .malformed)
  perform (.note (.defined name (params.map (·.type))))
  pure .normal

def forLoop (first : Stmt) (test update : Expr) (body : Stmt) (rounds : Nat) : Plan Signal := do
  let _ ← signal first
  iterate (condition .forLoop test) body (do let _ ← value update; pure ()) rounds

def exec (rounds : Nat) : Stmt → Plan Signal
  | .declare _ type name first => declareVariable type name first
  | .function _ name params body => define name params body
  | .unusable _ name why => do
    perform (.checkFree name)
    fail (.stuck why)
  | .block _ body => inside .scope (sequence body)
  | .branch _ test yes no => branch test yes no
  | .whileLoop _ test body => iterate (condition .whileLoop test) body (pure ()) rounds
  | .forLoop _ first test update body => inside .scope (forLoop first test update body rounds)
  | .returns _ result => do
    let v ← initial result
    pure (.returned v)
  | .print _ e => do
    let v ← value e
    perform (.print v)
    pure .normal
  | .breaks _ => pure .broken
  | .continues _ => pure .continued
  | .expr _ e => do
    let _ ← value e
    pure .normal
  | .stuck why => fail (.stuck why)

def statements : List Stmt → Plan Unit
  | [] => pure ()
  | s :: rest => do
    match ← signal s with
    | .normal => statements rest
    | signal => perform (.note (.stopped signal s.pos.line))

def traced (body : List Stmt) : Plan Unit := do
  statements body
  perform (.note .finished)

def program (p : Program) : Plan Unit := do
  perform (.note (.started p.body.length))
  perform .checkStack
  inside .tracing (traced p.body)

section Run

variable (ev : Evaluator)

@[simp]
theorem run_pure (a : α) : (pure a : Plan α).run ev = pure a := rfl

@[simp]
theorem run_fail (e : Failure) : (fail e : Plan α).run ev = Exec.fail e := rfl

@[simp]
theorem run_ofExcept (r : Except Failure α) : (ofExcept r).run ev = Exec.ofExcept r := by
  cases r <;> rfl

@[simp]
theorem run_perform (operation : Move α) : (perform operation).run ev = operation.run := by
  exact bind_pure operation.run

@[simp]
theorem run_value (e : Expr) : (value e).run ev = ev.eval e := by
  exact bind_pure (ev.eval e)

@[simp]
theorem run_signal (s : Stmt) : (signal s).run ev = ev.exec s := by
  exact bind_pure (ev.exec s)

@[simp]
theorem run_inside (bracket : Bracket) (inner : Plan α) :
    (inside bracket inner).run ev = bracket.around (inner.run ev) := by
  exact bind_pure (bracket.around (inner.run ev))

theorem around_scope (x : Exec α) : Bracket.scope.around x = Exec.inScope x := rfl

theorem around_call (x : Exec α) : Bracket.call.around x = Exec.inCall x := rfl

theorem run_literal (l : Literal) : (literal l).run ev = Exec.literal l := by
  cases l <;> simp [literal, Exec.literal]

theorem run_fetch (name : Name) : (fetch name).run ev = Exec.fetch name := by
  simp only [fetch, Exec.fetch, run_bind, run_perform]
  congr 1
  funext var
  split <;> rfl

theorem run_second (op : LogicalOp) (right : Expr) :
    (second op right).run ev = (do
      match ← ev.eval right with
      | .booleano b => pure (.booleano b)
      | _ => Exec.fault (.logicalOperand op)) := by
  simp only [second, run_bind, run_value]
  congr 1
  funext v
  cases v <;> rfl

theorem run_logical (op : LogicalOp) (left right : Expr) :
    (logical op left right).run ev = Exec.logical op (ev.eval left) (ev.eval right) := by
  simp only [logical, Exec.logical, run_bind, run_value]
  congr 1
  funext v
  cases v with
  | booleano b =>
    cases op with
    | or =>
      cases b with
      | false => exact run_second ev .or right
      | true => rfl
    | and =>
      cases b with
      | false => rfl
      | true => exact run_second ev .and right
    | other symbol => exact run_second ev (.other symbol) right
  | entero | largo | decimal | cadena | null | loose | foreign => cases op <;> rfl

theorem run_values (es : List Expr) : (values es).run ev = Exec.all ev.eval es := by
  induction es with
  | nil => rfl
  | cons e es ih => simp only [values, Exec.all, run_bind, run_value, ih, run_pure]

theorem run_bindAll (params : List Param) (vs : List Value) :
    (bindAll params vs).run ev = Exec.bindAll params vs := by
  induction params generalizing vs with
  | nil => rfl
  | cons p ps ih =>
    cases vs with
    | nil => rfl
    | cons v vs => simp only [bindAll, Exec.bindAll, run_bind, run_perform, ih, Move.run]

theorem run_noteCall (name : Name) (vs : List Value) :
    (noteCall name vs).run ev = Exec.noteCall name vs := by
  simp only [noteCall, Exec.noteCall]
  split
  · rfl
  · exact run_perform ev (.note (.called name vs))

theorem run_enter (f : Function) (vs : List Value) :
    (enter f vs).run ev = Exec.enter ev.exec f vs := by
  simp only [enter, Exec.enter, body, run_bind, run_perform, run_noteCall, run_inside, around_scope,
    around_call, run_bindAll, run_signal, run_pure, Move.run]

theorem run_call (name : Name) (arguments : List Expr) :
    (call name arguments).run ev = Exec.call ev name arguments := by
  simp only [call, Exec.call, run_bind, run_perform, run_values, Move.run]
  congr 1
  funext f
  congr 1
  funext given
  split
  · simp only [run_bind, run_ofExcept, run_enter]
  · rfl

theorem run_eval (e : Expr) : (eval e).run ev = Exec.evalStep ev e := by
  cases e with
  | literal pos l => exact run_literal ev l
  | name pos name => exact run_fetch ev name
  | assign pos name e => simp only [eval, Exec.evalStep, run_bind, run_value, run_perform, Move.run]
  | logical pos op left right => exact run_logical ev op left right
  | binary pos op left right =>
    simp only [eval, Exec.evalStep, run_bind, run_value, run_ofExcept]
  | unary pos op operand => simp only [eval, Exec.evalStep, run_bind, run_value, run_ofExcept]
  | call pos name arguments => exact run_call ev name arguments
  | read pos => simp only [eval, Exec.evalStep, run_bind, run_perform, run_pure, Move.run]
  | stuck why => rfl

theorem run_sequence (body : List Stmt) : (sequence body).run ev = Exec.sequence ev.exec body := by
  induction body with
  | nil => rfl
  | cons s rest ih =>
    simp only [sequence, Exec.sequence, run_bind, run_signal]
    congr 1
    funext signal
    cases signal with
    | normal => exact ih
    | broken | continued | returned => rfl

theorem run_condition (loop : Loop) (test : Expr) :
    (condition loop test).run ev = Exec.condition loop test.pos (ev.eval test) := by
  simp only [condition, Exec.condition, run_bind, run_value]
  congr 1
  funext v
  cases v with
  | booleano b => rfl
  | entero | largo | decimal | cadena | null | loose | foreign =>
    simp only [run_bind, run_perform, run_pure, Move.run]

theorem run_iterate (test : Plan Bool) (body : Stmt) (next : Plan Unit) (rounds : Nat) :
    (iterate test body next rounds).run ev =
      Exec.iterate (test.run ev) (ev.exec body) (next.run ev) rounds := by
  induction rounds with
  | zero => rfl
  | succ rounds ih =>
    simp only [iterate, Exec.iterate, run_bind]
    congr 1
    funext b
    split
    · simp only [run_bind, run_signal]
      congr 1
      funext signal
      cases signal with
      | normal | continued => simp only [run_bind, ih]
      | broken | returned => rfl
    · rfl

theorem run_branch (test : Expr) (yes : Stmt) (no : Option Stmt) :
    (branch test yes no).run ev = Exec.branch ev test yes no := by
  simp only [branch, Exec.branch, run_bind, run_value]
  congr 1
  funext v
  cases v with
  | booleano b =>
    simp only [run_bind, run_perform, Move.run]
    congr 1
    funext _
    cases b with
    | true => exact run_signal ev yes
    | false =>
      cases no with
      | none => rfl
      | some s => exact run_signal ev s
  | entero | largo | decimal | cadena | null | loose | foreign => rfl

theorem run_declareVariable (type : TypeName) (name : Name) (first : Option Expr) :
    (declareVariable type name first).run ev = Exec.declareVariable ev type name first := by
  cases first with
  | none => simp only [declareVariable, Exec.declareVariable, initial, run_bind, run_perform,
      run_pure, Move.run]
  | some e => simp only [declareVariable, Exec.declareVariable, initial, run_bind, run_value,
      run_perform, run_pure, map_eq_pure_bind, Move.run]

theorem run_define (name : Name) (params : List Param) (body : Stmt) :
    (define name params body).run ev = Exec.define name params body := by
  simp only [define, Exec.define, run_bind, run_perform, Move.run, bind_assoc]
  congr 1
  funext _
  congr 1
  funext _
  split
  · rfl
  · simp only [run_bind, run_perform, run_pure, Move.run]

theorem run_exec (rounds : Nat) (s : Stmt) :
    (exec rounds s).run ev = Exec.execStep rounds ev s := by
  cases s with
  | declare pos type name first => exact run_declareVariable ev type name first
  | function pos name params body => exact run_define ev name params body
  | unusable pos name why =>
    simp only [exec, Exec.execStep, run_bind, run_perform, run_fail, Move.run]
  | block pos body => simp only [exec, Exec.execStep, run_inside, run_sequence, around_scope]
  | branch pos test yes no => exact run_branch ev test yes no
  | whileLoop pos test body =>
    simp only [exec, Exec.execStep, run_iterate, run_condition, run_pure]
  | forLoop pos first test update body =>
    simp only [exec, Exec.execStep, forLoop, run_inside, run_bind, run_signal, run_iterate,
      run_condition, run_value, run_pure, around_scope]
  | returns pos result =>
    cases result with
    | none => rfl
    | some e => simp only [exec, Exec.execStep, initial, run_bind, run_value, run_pure, bind_assoc,
        pure_bind]
  | print pos e =>
    simp only [exec, Exec.execStep, run_bind, run_value, run_perform, run_pure, Move.run]
  | breaks pos => rfl
  | continues pos => rfl
  | expr pos e => simp only [exec, Exec.execStep, run_bind, run_value, run_pure]
  | stuck why => rfl

theorem run_statements (body : List Stmt) :
    (statements body).run ev = runBody ev.exec body := by
  induction body with
  | nil => rfl
  | cons s rest ih =>
    simp only [statements, runBody, run_bind, run_signal]
    congr 1
    funext signal
    cases signal with
    | normal => exact ih
    | broken | continued | returned => exact run_perform _ _

theorem run_traced (body : List Stmt) :
    Bracket.tracing.around ((traced body).run ev) = runTraced ev.exec body := by
  simp only [traced, run_bind, run_statements, run_perform]
  rfl

/-- A run carries out the plan of its program, whatever executes the statements. -/
theorem run_runWith (p : Program) : (program p).run ev = runWith ev.exec p := by
  simp only [program, runWith, run_bind, run_perform, run_inside, run_traced, Move.run]

end Run

theorem run_program (fuel : Nat) (p : Program) :
    (program p).run (.upTo fuel) = Guion.run fuel p :=
  run_runWith (.upTo fuel) p

end Guion.Plan

namespace Guion.Task

def plan (rounds : Nat) : (t : Task) → Plan t.Answer
  | eval e => Plan.eval e
  | exec s => Plan.exec rounds s

/-- A task with depth to spare carries out its plan, and gives a fault without a place its own. -/
theorem run_succ (fuel : Nat) (t : Task) :
    t.run (fuel + 1) = Exec.located t.pos ((t.plan fuel).run (.upTo fuel)) := by
  cases t with
  | eval e => exact congrArg (Exec.located e.pos) (Plan.run_eval (.upTo fuel) e).symm
  | exec s => exact congrArg (Exec.located s.pos) (Plan.run_exec (.upTo fuel) fuel s).symm

end Guion.Task
