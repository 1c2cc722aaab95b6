import Guion.Proofs.Digits
import Guion.Proofs.Grammar.Lexemes
import Guion.Proofs.Grammar.Pending

namespace Guion

open Grammar (Layer)
open Parse (Connective)

section Erase

/-! Trees without their positions. -/

mutual

def Expr.erase : Expr → Expr
  | .literal _ l => .literal .none l
  | .name _ s => .name .none s
  | .assign _ s e => .assign .none s e.erase
  | .logical _ op left right => .logical .none op left.erase right.erase
  | .binary _ op left right => .binary .none op left.erase right.erase
  | .unary _ op e => .unary .none op e.erase
  | .call _ function arguments => .call .none function (Expr.eraseAll arguments)
  | .read _ => .read .none
  | .stuck why => .stuck why

def Expr.eraseAll : List Expr → List Expr
  | [] => []
  | e :: es => e.erase :: Expr.eraseAll es

end

def Param.erase (p : Param) : Param := { p with pos := .none }

mutual

def Stmt.erase : Stmt → Stmt
  | .declare _ type name initial => .declare .none type name (initial.map Expr.erase)
  | .function _ name params body => .function .none name (params.map Param.erase) body.erase
  | .unusable _ name why => .unusable .none name why
  | .block _ body => .block .none (Stmt.eraseAll body)
  | .branch _ test yes none => .branch .none test.erase yes.erase none
  | .branch _ test yes (some no) => .branch .none test.erase yes.erase (some no.erase)
  | .whileLoop _ test body => .whileLoop .none test.erase body.erase
  | .forLoop _ initial test update body =>
    .forLoop .none initial.erase test.erase update.erase body.erase
  | .returns _ value => .returns .none (value.map Expr.erase)
  | .print _ e => .print .none e.erase
  | .breaks _ => .breaks .none
  | .continues _ => .continues .none
  | .expr _ e => .expr .none e.erase
  | .stuck why => .stuck why

def Stmt.eraseAll : List Stmt → List Stmt
  | [] => []
  | s :: ss => s.erase :: Stmt.eraseAll ss

end

def Program.erase (p : Program) : Program := ⟨.none, Stmt.eraseAll p.body⟩

end Erase

/-- What is left open about a part of a program that is written: how many redundant brackets stand
around it and, for a decimal literal, its digits. -/
structure Writing where
  brackets : Nat
  whole : List Char
  fraction : List Char

/-- A writing for every part of a tree, found by the way that leads to the part. -/
abbrev Style := List Nat → Writing

def Style.inside (style : Style) (i : Nat) : Style := fun path => style (i :: path)

namespace Lexeme

def ofKeyword (k : Keyword) : Lexeme := ⟨.keyword k, k.chars⟩

def ofSymbol (s : Symbol) : Lexeme := ⟨.symbol s, s.chars⟩

def ofName : Name → Lexeme
  | .text s => ⟨.name, s.toList⟩
  | .other _ => ⟨.name, []⟩

def ofType : TypeName → Lexeme
  | .known kind => ofKeyword (.type kind)
  | .unknown _ => ⟨.name, []⟩

def ofLiteral (writing : Writing) : Literal → Lexeme
  | .integer n => ⟨.integer, Nat.toDigits 10 ((n.integer?.getD 0).toNat)⟩
  | .decimal _ => ⟨.decimal, writing.whole ++ '.' :: writing.fraction⟩
  | .text s => ⟨.text, '"' :: (s.toList ++ ['"'])⟩
  | .truth true => ofKeyword .verdadero
  | .truth false => ofKeyword .falso
  | .foreign _ => ⟨.text, []⟩

def ofLogical : LogicalOp → Lexeme
  | .or => ofKeyword .o
  | .and => ofKeyword .y
  | .other symbol => ⟨.name, symbol.toList⟩

def ofBinary : BinaryOp → Lexeme
  | .equal => ofSymbol .equal
  | .notEqual => ofSymbol .notEqual
  | .less => ofSymbol .less
  | .lessEqual => ofSymbol .lessEqual
  | .greater => ofSymbol .greater
  | .greaterEqual => ofSymbol .greaterEqual
  | .add => ofSymbol .plus
  | .sub => ofSymbol .minus
  | .mul => ofSymbol .star
  | .div => ofSymbol .slash
  | .mod => ofSymbol .percent
  | .pow => ofSymbol .caret
  | .other symbol => ⟨.name, symbol.toList⟩

def ofUnary : UnaryOp → Lexeme
  | .not => ofKeyword .no
  | .minus => ofSymbol .minus
  | .plus => ofSymbol .plus
  | .other symbol => ⟨.name, symbol.toList⟩

def bracketed : Nat → List Lexeme → List Lexeme
  | 0, ls => ls
  | n + 1, ls => ofSymbol .parenOpen :: (bracketed n ls ++ [ofSymbol .parenClose])

end Lexeme

def Grammar.Layer.above (layer : Layer) : Layer := layer.next?.getD .primary

def Expr.layer : Expr → Layer
  | .assign _ _ _ => .assignment
  | .logical _ op _ _ => .ofConnective (.logical op)
  | .binary _ op _ _ => .ofConnective (.binary op)
  | .unary _ _ _ => .unary
  | _ => .primary

/-- Write an expression where one of a layer is due: in brackets if its own layer is lower, and in
as many more as the style says. -/
def Style.enclose (style : Style) (layer : Layer) (e : Expr) (ls : List Lexeme) : List Lexeme :=
  Lexeme.bracketed ((style []).brackets + if layer.rank ≤ e.layer.rank then 0 else 1) ls

mutual

/-- An expression as lexemes. -/
def Expr.lexemes (style : Style) : Expr → List Lexeme
  | .literal _ l => [.ofLiteral (style []) l]
  | .name _ s => [.ofName s]
  | .assign _ s e =>
    .ofName s :: .ofSymbol .assign ::
      (style.inside 0).enclose .assignment e (e.lexemes (style.inside 0))
  | .logical _ op left right =>
    (style.inside 0).enclose (Layer.ofConnective (.logical op)).left left
        (left.lexemes (style.inside 0)) ++
      .ofLogical op :: (style.inside 1).enclose (Layer.ofConnective (.logical op)).above right
        (right.lexemes (style.inside 1))
  | .binary _ op left right =>
    (style.inside 0).enclose (Layer.ofConnective (.binary op)).left left
        (left.lexemes (style.inside 0)) ++
      .ofBinary op :: (style.inside 1).enclose (Layer.ofConnective (.binary op)).above right
        (right.lexemes (style.inside 1))
  | .unary _ op e => .ofUnary op :: (style.inside 0).enclose .unary e (e.lexemes (style.inside 0))
  | .call _ function [] => [.ofName function, .ofSymbol .parenOpen, .ofSymbol .parenClose]
  | .call _ function (e :: es) =>
    .ofName function :: .ofSymbol .parenOpen ::
      ((style.inside 0).enclose .assignment e (e.lexemes (style.inside 0)) ++
        (Expr.laterLexemes (style.inside 1) es ++ [.ofSymbol .parenClose]))
  | .read _ => [.ofKeyword .leer, .ofSymbol .parenOpen, .ofSymbol .parenClose]
  | .stuck _ => []

def Expr.laterLexemes (style : Style) : List Expr → List Lexeme
  | [] => []
  | e :: es =>
    .ofSymbol .comma :: ((style.inside 0).enclose .assignment e (e.lexemes (style.inside 0)) ++
      Expr.laterLexemes (style.inside 1) es)

end

/-- An expression as lexemes where any expression may stand. -/
def Expr.whole (style : Style) (e : Expr) : List Lexeme :=
  style.enclose .assignment e (e.lexemes style)

def Param.lexemes (p : Param) : List Lexeme := [.ofType p.type, .ofName p.name]

def Param.laterLexemes : List Param → List Lexeme
  | [] => []
  | p :: ps => .ofSymbol .comma :: (p.lexemes ++ laterLexemes ps)

def Param.allLexemes : List Param → List Lexeme
  | [] => []
  | p :: ps => p.lexemes ++ laterLexemes ps

mutual

/-- A declaration or statement as lexemes. -/
def Stmt.lexemes (style : Style) : Stmt → List Lexeme
  | .declare _ type name none => [.ofType type, .ofName name, .ofSymbol .semicolon]
  | .declare _ type name (some e) =>
    .ofType type :: .ofName name :: .ofSymbol .assign ::
      (e.whole (style.inside 0) ++ [.ofSymbol .semicolon])
  | .function _ name params body =>
    .ofName name :: .ofSymbol .parenOpen ::
      (Param.allLexemes params ++ .ofSymbol .parenClose :: body.lexemes (style.inside 0))
  | .unusable _ _ _ => []
  | .block _ body =>
    .ofSymbol .braceOpen :: (Stmt.allLexemes (style.inside 0) body ++ [.ofSymbol .braceClose])
  | .branch _ test yes none =>
    .ofKeyword .si :: .ofSymbol .parenOpen ::
      (test.whole (style.inside 0) ++ .ofSymbol .parenClose :: yes.lexemes (style.inside 1))
  | .branch _ test yes (some no) =>
    .ofKeyword .si :: .ofSymbol .parenOpen ::
      (test.whole (style.inside 0) ++ .ofSymbol .parenClose ::
        (yes.lexemes (style.inside 1) ++ .ofKeyword .sino :: no.lexemes (style.inside 2)))
  | .whileLoop _ test body =>
    .ofKeyword .mientras :: .ofSymbol .parenOpen ::
      (test.whole (style.inside 0) ++ .ofSymbol .parenClose :: body.lexemes (style.inside 1))
  | .forLoop _ initial test update body =>
    .ofKeyword .para :: .ofSymbol .parenOpen ::
      (initial.lexemes (style.inside 0) ++
        (test.whole (style.inside 1) ++ .ofSymbol .semicolon ::
          (update.whole (style.inside 2) ++ .ofSymbol .parenClose ::
            body.lexemes (style.inside 3))))
  | .returns _ none => [.ofKeyword .retornar, .ofSymbol .semicolon]
  | .returns _ (some e) =>
    .ofKeyword .retornar :: (e.whole (style.inside 0) ++ [.ofSymbol .semicolon])
  | .print _ e => .ofKeyword .imprimir :: (e.whole (style.inside 0) ++ [.ofSymbol .semicolon])
  | .breaks _ => [.ofKeyword .romper, .ofSymbol .semicolon]
  | .continues _ => [.ofKeyword .continuar, .ofSymbol .semicolon]
  | .expr _ e => e.whole (style.inside 0) ++ [.ofSymbol .semicolon]
  | .stuck _ => []

def Stmt.allLexemes (style : Style) : List Stmt → List Lexeme
  | [] => []
  | s :: ss => s.lexemes (style.inside 0) ++ Stmt.allLexemes (style.inside 1) ss

end

/-- A program as lexemes. -/
def Program.lexemes (style : Style) (p : Program) : List Lexeme := Stmt.allLexemes style p.body

section Writable

/-! The trees that can be written. -/

/-- A name that is no keyword. -/
def Name.Writable (name : Name) : Prop := (Lexeme.ofName name).Proper

/-- Integers have no sign and no more digits than are read, decimal literals stand for their own
digits, and texts contain nothing that ends them. -/
def Literal.Writable (writing : Writing) : Literal → Prop
  | .integer n => ∃ k : Nat, n = .int k ∧ k < 10 ^ Double.digitLimit
  | .decimal x => Terminal.integer.Matches writing.whole ∧
      Terminal.integer.Matches writing.fraction ∧
      Double.ofDigits writing.whole writing.fraction 0 = x
  | .text s => ∀ c ∈ s.toList, c ≠ '"' ∧ c ≠ '\n'
  | .truth _ => True
  | .foreign _ => False

mutual

def Expr.Writable (style : Style) : Expr → Prop
  | .literal _ l => l.Writable (style [])
  | .name _ s => s.Writable
  | .assign _ s e => s.Writable ∧ e.Writable (style.inside 0)
  | .logical _ op left right =>
    op.Known ∧ left.Writable (style.inside 0) ∧ right.Writable (style.inside 1)
  | .binary _ op left right =>
    op.Known ∧ left.Writable (style.inside 0) ∧ right.Writable (style.inside 1)
  | .unary _ op e => op.Known ∧ e.Writable (style.inside 0)
  | .call _ function arguments => function.Writable ∧ Expr.AllWritable style arguments
  | .read _ => True
  | .stuck _ => False

def Expr.AllWritable (style : Style) : List Expr → Prop
  | [] => True
  | e :: es => e.Writable (style.inside 0) ∧ Expr.AllWritable (style.inside 1) es

end

def TypeName.Writable (type : TypeName) : Prop := ∃ kind, type = .known kind

def Param.Writable (p : Param) : Prop := p.type.Writable ∧ p.name.Writable

def Stmt.IsBlock : Stmt → Prop
  | .block _ _ => True
  | _ => False

def Stmt.IsBinding : Stmt → Prop
  | .declare _ _ _ _ => True
  | _ => False

mutual

/-- Branches and the bodies of loops are statements, and no branch before a `sino` ends in a `si`
that would take it. -/
def Stmt.Writable (style : Style) : Stmt → Prop
  | .declare _ type name initial =>
    type.Writable ∧ name.Writable ∧ ∀ e, initial = some e → e.Writable (style.inside 0)
  | .function _ name params body =>
    name.Writable ∧ (∀ p ∈ params, p.Writable) ∧ body.IsBlock ∧ body.Writable (style.inside 0)
  | .unusable _ _ _ => False
  | .block _ body => Stmt.AllWritable (style.inside 0) body
  | .branch _ test yes none =>
    test.Writable (style.inside 0) ∧ yes.IsPlain ∧ yes.Writable (style.inside 1)
  | .branch _ test yes (some no) =>
    test.Writable (style.inside 0) ∧ yes.IsPlain ∧ yes.Writable (style.inside 1) ∧
      yes.endsOpen = false ∧ no.IsPlain ∧ no.Writable (style.inside 2)
  | .whileLoop _ test body =>
    test.Writable (style.inside 0) ∧ body.IsPlain ∧ body.Writable (style.inside 1)
  | .forLoop _ initial test update body =>
    initial.IsBinding ∧ initial.Writable (style.inside 0) ∧ test.Writable (style.inside 1) ∧
      update.Writable (style.inside 2) ∧ body.IsPlain ∧ body.Writable (style.inside 3)
  | .returns _ value => ∀ e, value = some e → e.Writable (style.inside 0)
  | .print _ e => e.Writable (style.inside 0)
  | .breaks _ => True
  | .continues _ => True
  | .expr _ e => e.Writable (style.inside 0)
  | .stuck _ => False

def Stmt.AllWritable (style : Style) : List Stmt → Prop
  | [] => True
  | s :: ss => s.Writable (style.inside 0) ∧ Stmt.AllWritable (style.inside 1) ss

end

def Program.Writable (style : Style) (p : Program) : Prop := Stmt.AllWritable style p.body

end Writable

end Guion
