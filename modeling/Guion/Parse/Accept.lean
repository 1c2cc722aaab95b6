import Guion.Parse.State

namespace Guion.Parse

def startsExpr : Terminal → Bool
  | .name => true
  | .integer => true
  | .decimal => true
  | .text => true
  | .symbol .parenOpen => true
  | .symbol .plus => true
  | .symbol .minus => true
  | .keyword .no => true
  | .keyword .verdadero => true
  | .keyword .falso => true
  | .keyword .leer => true
  | _ => false

def startsStmt : Terminal → Bool
  | .symbol .braceOpen => true
  | .keyword .si => true
  | .keyword .mientras => true
  | .keyword .para => true
  | .keyword .retornar => true
  | .keyword .imprimir => true
  | .keyword .romper => true
  | .keyword .continuar => true
  | t => startsExpr t

def isType : Terminal → Bool
  | .keyword (.type _) => true
  | _ => false

def startsDecl (t : Terminal) : Bool :=
  isType t || startsStmt t

def continues : Terminal → Bool
  | .keyword .o => true
  | .keyword .y => true
  | .symbol .equal => true
  | .symbol .notEqual => true
  | .symbol .less => true
  | .symbol .lessEqual => true
  | .symbol .greater => true
  | .symbol .greaterEqual => true
  | .symbol .plus => true
  | .symbol .minus => true
  | .symbol .star => true
  | .symbol .slash => true
  | .symbol .percent => true
  | .symbol .caret => true
  | .symbol .semicolon => true
  | _ => false

def follows (t : Terminal) : Bool :=
  t == .symbol .parenClose || t == .symbol .comma || continues t

/-- The tokens that the scanner looks for. A token that it finds may still have no place. -/
def Focus.accepts : Focus → Terminal → Bool
  | .ready .start, t => startsDecl t
  | .ready .opened, t => startsDecl t || t == .symbol .braceClose
  | .ready .declaration, t => startsDecl t || t == .symbol .braceClose
  | .ready .statement, t =>
    startsDecl t || t == .symbol .braceClose || t == .keyword .sino
  | .orElse _, t => startsDecl t || t == .symbol .braceClose || t == .keyword .sino
  | .statement, t => startsStmt t
  | .typed .., t => t == .name
  | .named .., t => t == .symbol .assign || t == .symbol .semicolon
  | .head .., t => t == .symbol .parenOpen
  | .forHead _, t => isType t
  | .jump _, t => t == .symbol .semicolon
  | .returning _, t => startsExpr t || t == .symbol .semicolon
  | .firstName .., t => continues t || t == .symbol .parenOpen || t == .symbol .assign
  | .firstOpen .., t => startsExpr t || t == .symbol .parenClose || isType t
  | .firstEmpty .., t => continues t || t == .symbol .braceOpen
  | .param .., t => isType t
  | .paramType .., t => t == .name
  | .paramName .., t => t == .symbol .parenClose || t == .symbol .comma
  | .functionHead .., t => t == .symbol .braceOpen
  | .want .operand _ _, t => startsExpr t
  | .want .firstArgument _ _, t => startsExpr t || t == .symbol .parenClose
  | .want .afterDeclaration _ _, t => startsDecl t || t == .symbol .braceClose
  | .reader false _ _ _, t => t == .symbol .parenOpen
  | .reader true _ _ _, t => t == .symbol .parenClose
  | .operand (.name _ true) _ _ _, t =>
    follows t || t == .symbol .parenOpen || t == .symbol .assign
  | .operand (.name _ false) _ _ _, t => follows t || t == .symbol .parenOpen
  | .operand .closed _ _ _, t => follows t

end Guion.Parse
