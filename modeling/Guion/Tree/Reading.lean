import Guion.Double.Read
import Guion.Program
import Guion.Text.Digit

namespace Guion.Tree

def integerOf (value : Tree) : Except Stuck Literal :=
  match value.number? with
  | some n => .ok (.integer n)
  | none => .error .malformed

def decimalOf (value : Tree) : Except Stuck Literal :=
  match value, value.number? with
  | text s, _ =>
    match Double.read? (Text.plainNumeral s.toList) with
    | some x => .ok (.decimal x)
    | none => .error .badNumeral
  | _, some n => if n.isSized then .ok (.decimal n.toFloat) else .error .hugeNumeral
  | _, none => .error .malformed

def literalOf (value : Tree) : Tree → Except Stuck Literal
  | text "entero" => integerOf value
  | text "decimal" => decimalOf value
  | text "cadena" =>
    match value with
    | text s => .ok (.text s)
    | content => .ok (.foreign content)
  | text "booleano" => .ok (.truth value.isTrue)
  | type => .error (.unknownLiteral type.display)

mutual

def expr : Tree → Expr
  | node .literal line column [value, type] =>
    match literalOf value type with
    | .ok l => .literal ⟨line, column⟩ l
    | .error why => .stuck why
  | node .ident line column [name] => .name ⟨line, column⟩ (.ofTree name)
  | node .assign line column [name, value] => .assign ⟨line, column⟩ (.ofTree name) value.expr
  | node .logicalOp line column [op, left, right] =>
    .logical ⟨line, column⟩ (.ofSymbol op.display) left.expr right.expr
  | node .binaryOp line column [op, left, right] =>
    .binary ⟨line, column⟩ (.ofSymbol op.display) left.expr right.expr
  | node .unaryOp line column [op, operand] =>
    .unary ⟨line, column⟩ (.ofSymbol op.display) operand.expr
  | node .call line column [name, args] => .call ⟨line, column⟩ (.ofTree name) args.arguments
  | node .readExpr line column [] => .read ⟨line, column⟩
  | t => .stuck (.notExpression t.kindName)

def arguments : Tree → List Expr
  | list items => exprs items
  | text s => s.toList.map fun _ => .stuck (.notExpression "str")
  | _ => [.stuck .malformed]

def exprs : List Tree → List Expr
  | [] => []
  | t :: ts => t.expr :: exprs ts

end

def optional (f : Tree → α) : Tree → Option α
  | null => none
  | t => some (f t)

def param? : Tree → Option Param
  | node .funcParam line column [type, name] =>
    some ⟨⟨line, column⟩, .ofTree type, .ofTree name⟩
  | node .varDecl line column [type, name, _] =>
    some ⟨⟨line, column⟩, .ofTree type, .ofTree name⟩
  | _ => none

def params : Tree → Except Stuck (List Param)
  | list items =>
    match items.mapM param? with
    | some params => .ok params
    | none => .error .missingPart
  | text "" => .ok []
  | text _ => .error .missingPart
  | _ => .error .malformed

mutual

def stmt : Tree → Stmt
  | node .varDecl line column [type, name, initial] =>
    .declare ⟨line, column⟩ (.ofTree type) (.ofTree name) (optional expr initial)
  | node .funcDecl line column [name, ps, body] =>
    match params ps with
    | .ok ps => .function ⟨line, column⟩ (.ofTree name) ps body.stmt
    | .error why => .unusable ⟨line, column⟩ (.ofTree name) why
  | node .block line column [statements] => .block ⟨line, column⟩ statements.statements
  | node .ifStmt line column [condition, yes, no] =>
    .branch ⟨line, column⟩ condition.expr yes.stmt no.alternative
  | node .whileStmt line column [condition, body] =>
    .whileLoop ⟨line, column⟩ condition.expr body.stmt
  | node .forStmt line column [initial, condition, update, body] =>
    .forLoop ⟨line, column⟩ initial.stmt condition.expr update.expr body.stmt
  | node .returnStmt line column [value] => .returns ⟨line, column⟩ (optional expr value)
  | node .printStmt line column [value] => .print ⟨line, column⟩ value.expr
  | node .breakStmt line column [] => .breaks ⟨line, column⟩
  | node .continueStmt line column [] => .continues ⟨line, column⟩
  | node .exprStmt line column [value] => .expr ⟨line, column⟩ value.expr
  | t => .stuck (.notStatement t.kindName)

def alternative : Tree → Option Stmt
  | null => none
  | t => some t.stmt

def statements : Tree → List Stmt
  | list items => stmts items
  | text s => s.toList.map fun _ => .stuck (.notStatement "str")
  | _ => [.stuck .malformed]

def stmts : List Tree → List Stmt
  | [] => []
  | t :: ts => t.stmt :: stmts ts

end

def body? : Tree → Option Tree
  | node kind _ _ fields => ((kind.fields.map Prod.fst).zip fields).lookup "body"
  | _ => none

def isProgram : Tree → Bool
  | node .program _ _ _ => true
  | _ => false

def posOf : Tree → Pos
  | node _ line column _ => ⟨line, column⟩
  | _ => .none

/-- The program of a tree that has a body. The body may turn out not to be one. -/
def program? (t : Tree) : Option (Except Stuck Program) :=
  t.body?.map fun
    | list items => .ok ⟨t.posOf, stmts items⟩
    | text s => .ok ⟨t.posOf, (text s).statements⟩
    | _ => .error .malformed

end Guion.Tree
