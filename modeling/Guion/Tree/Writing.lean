import Guion.Program
import Guion.Tree

namespace Guion.Tree

def placed (pos : Pos) (kind : NodeKind) (fields : List Tree) : Tree :=
  .node kind pos.line pos.column fields

def ofLiteral (pos : Pos) : Literal → Tree
  | .integer n => placed pos .literal [ofNumber n, .text "entero"]
  | .decimal x => placed pos .literal [.float x, .text "decimal"]
  | .text s => placed pos .literal [.text s, .text "cadena"]
  | .truth b => placed pos .literal [.bool b, .text "booleano"]
  | .foreign content => placed pos .literal [content, .text "cadena"]

mutual

/-- Store an expression. What cannot be evaluated has no stored form of its own. -/
def ofExpr : Expr → Tree
  | .literal pos value => ofLiteral pos value
  | .name pos name => placed pos .ident [name.toTree]
  | .assign pos name value => placed pos .assign [name.toTree, ofExpr value]
  | .logical pos op left right =>
    placed pos .logicalOp [.text op.symbol, ofExpr left, ofExpr right]
  | .binary pos op left right => placed pos .binaryOp [.text op.symbol, ofExpr left, ofExpr right]
  | .unary pos op operand => placed pos .unaryOp [.text op.symbol, ofExpr operand]
  | .call pos function arguments =>
    placed pos .call [function.toTree, .list (ofExprs arguments)]
  | .read pos => placed pos .readExpr []
  | .stuck _ => .null

def ofExprs : List Expr → List Tree
  | [] => []
  | e :: es => ofExpr e :: ofExprs es

end

def ofOptional (e : Option Expr) : Tree :=
  match e with
  | some e => ofExpr e
  | none => .null

def ofParam (p : Param) : Tree :=
  placed p.pos .funcParam [p.type.toTree, p.name.toTree]

mutual

def ofStmt : Stmt → Tree
  | .declare pos type name initial =>
    placed pos .varDecl [type.toTree, name.toTree, ofOptional initial]
  | .function pos name params body =>
    placed pos .funcDecl [name.toTree, .list (params.map ofParam), ofStmt body]
  | .unusable _ _ _ => .null
  | .block pos body => placed pos .block [.list (ofStmts body)]
  | .branch pos condition yes no =>
    placed pos .ifStmt [ofExpr condition, ofStmt yes, ofAlternative no]
  | .whileLoop pos condition body => placed pos .whileStmt [ofExpr condition, ofStmt body]
  | .forLoop pos initial condition update body =>
    placed pos .forStmt [ofStmt initial, ofExpr condition, ofExpr update, ofStmt body]
  | .returns pos value => placed pos .returnStmt [ofOptional value]
  | .print pos value => placed pos .printStmt [ofExpr value]
  | .breaks pos => placed pos .breakStmt []
  | .continues pos => placed pos .continueStmt []
  | .expr pos value => placed pos .exprStmt [ofExpr value]
  | .stuck _ => .null

def ofAlternative : Option Stmt → Tree
  | some s => ofStmt s
  | none => .null

def ofStmts : List Stmt → List Tree
  | [] => []
  | s :: ss => ofStmt s :: ofStmts ss

end

def ofProgram (p : Program) : Tree :=
  placed p.pos .program [.list (ofStmts p.body)]

end Guion.Tree
