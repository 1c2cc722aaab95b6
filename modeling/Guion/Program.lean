import Guion.Failure

namespace Guion

/-- The literals of a program. One that was stored may give an integer as another number, and a
text as other data. -/
inductive Literal where
  | integer (n : Number)
  | decimal (x : Float)
  | text (s : String)
  | truth (b : Bool)
  | foreign (content : Tree)
deriving DecidableEq

/-- Expressions. `stuck` stands where a stored program has something that cannot be evaluated. -/
inductive Expr where
  | literal (pos : Pos) (value : Literal)
  | name (pos : Pos) (name : Name)
  | assign (pos : Pos) (name : Name) (value : Expr)
  | logical (pos : Pos) (op : LogicalOp) (left right : Expr)
  | binary (pos : Pos) (op : BinaryOp) (left right : Expr)
  | unary (pos : Pos) (op : UnaryOp) (operand : Expr)
  | call (pos : Pos) (function : Name) (arguments : List Expr)
  | read (pos : Pos)
  | stuck (why : Stuck)

structure Param where
  pos : Pos
  type : TypeName
  name : Name
deriving DecidableEq

/-- Declarations and statements. `unusable` declares a function whose parameters cannot be told, and
`stuck` stands for what cannot be executed. Only a stored program has them. -/
inductive Stmt where
  | declare (pos : Pos) (type : TypeName) (name : Name) (initial : Option Expr)
  | function (pos : Pos) (name : Name) (params : List Param) (body : Stmt)
  | unusable (pos : Pos) (name : Name) (why : Stuck)
  | block (pos : Pos) (body : List Stmt)
  | branch (pos : Pos) (condition : Expr) (yes : Stmt) (no : Option Stmt)
  | whileLoop (pos : Pos) (condition : Expr) (body : Stmt)
  | forLoop (pos : Pos) (initial : Stmt) (condition update : Expr) (body : Stmt)
  | returns (pos : Pos) (value : Option Expr)
  | print (pos : Pos) (value : Expr)
  | breaks (pos : Pos)
  | continues (pos : Pos)
  | expr (pos : Pos) (value : Expr)
  | stuck (why : Stuck)

structure Program where
  pos : Pos
  body : List Stmt

def Expr.pos : Expr → Pos
  | literal pos _ => pos
  | name pos _ => pos
  | assign pos _ _ => pos
  | logical pos _ _ _ => pos
  | binary pos _ _ _ => pos
  | unary pos _ _ => pos
  | call pos _ _ => pos
  | read pos => pos
  | stuck _ => .none

def Stmt.pos : Stmt → Pos
  | declare pos _ _ _ => pos
  | function pos _ _ _ => pos
  | unusable pos _ _ => pos
  | block pos _ => pos
  | branch pos _ _ _ => pos
  | whileLoop pos _ _ => pos
  | forLoop pos _ _ _ _ => pos
  | returns pos _ => pos
  | print pos _ => pos
  | breaks pos => pos
  | continues pos => pos
  | expr pos _ => pos
  | stuck _ => .none

end Guion
