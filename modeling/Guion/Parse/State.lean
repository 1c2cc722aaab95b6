import Guion.Token

namespace Guion.Parse

structure Operand where
  start : Mark
  expr : Expr

inductive Connective where
  | logical (op : LogicalOp)
  | binary (op : BinaryOp)
deriving DecidableEq, Repr

/-- What waits for the operand that is being read, innermost first. -/
inductive Pending where
  | right (op : Connective) (left : Operand)
  | unary (op : UnaryOp) (start : Mark)
  | assign (name : String) (start : Mark)
  | group (start : Mark)
  | call (function : String) (start : Mark) (before : List Expr)

inductive Owner where
  | body
  | head (start : Mark)
deriving DecidableEq, Repr

inductive Hole where
  | statement
  | printed (start : Mark)
  | returned (start : Mark)
  | initial (owner : Owner) (start : Mark) (kind : Kind) (name : String)
  | branchTest (start : Mark)
  | whileTest (start : Mark)
  | forTest (start : Mark) (initial : Stmt)
  | forUpdate (start : Mark) (initial : Stmt) (test : Expr)

/-- The unfinished statements around the one that is being read, innermost first. Statements of a
block are kept latest first. -/
inductive Enclosing where
  | block (start : Mark) (before : List Stmt)
  | function (start : Mark) (name : String) (params : List Param)
  | yes (start : Mark) (test : Expr)
  | no (start : Mark) (test : Expr) (yes : Stmt)
  | whileBody (start : Mark) (test : Expr)
  | forBody (start : Mark) (initial : Stmt) (test update : Expr)

inductive Boundary where
  | start
  | opened
  | declaration
  | statement
deriving DecidableEq, Repr

inductive Head where
  | si
  | mientras
  | para
deriving DecidableEq, Repr

inductive Want where
  | operand
  | firstArgument
  | afterDeclaration
deriving DecidableEq, Repr

/-- The form of an operand that was read. A bare name may turn out to be called or, at the start
of an expression, assigned. -/
inductive Form where
  | name (name : String) (assignable : Bool)
  | closed
deriving DecidableEq, Repr

inductive Focus where
  | ready (after : Boundary)
  | orElse (finished : Stmt)
  | statement
  | typed (owner : Owner) (start : Mark) (kind : Kind)
  | named (owner : Owner) (start : Mark) (kind : Kind) (name : String)
  | head (head : Head) (start : Mark)
  | forHead (start : Mark)
  | jump (jump : Stmt)
  | returning (start : Mark)
  | firstName (start : Mark) (name : String)
  | firstOpen (start : Mark) (name : String)
  | firstEmpty (start : Mark) (name : String)
  | param (start : Mark) (name : String) (before : List Param)
  | paramType (start : Mark) (name : String) (before : List Param) (place : Mark) (kind : Kind)
  | paramName (start : Mark) (name : String) (before : List Param)
  | functionHead (start : Mark) (name : String) (params : List Param)
  | want (want : Want) (hole : Hole) (pending : List Pending)
  | reader (opened : Bool) (start : Mark) (hole : Hole) (pending : List Pending)
  | operand (form : Form) (operand : Operand) (hole : Hole) (pending : List Pending)

/-- A text read so far: the finished top-level statements, latest first, the unfinished ones and
what comes next. -/
structure State where
  before : List Stmt := []
  around : List Enclosing := []
  focus : Focus := .ready .start

end Guion.Parse
