namespace Guion

inductive LogicalOp where
  | or
  | and
  | other (symbol : String)
deriving DecidableEq, Repr

inductive BinaryOp where
  | equal
  | notEqual
  | less
  | lessEqual
  | greater
  | greaterEqual
  | add
  | sub
  | mul
  | div
  | mod
  | pow
  | other (symbol : String)
deriving DecidableEq, Repr

inductive UnaryOp where
  | not
  | minus
  | plus
  | other (symbol : String)
deriving DecidableEq, Repr

namespace LogicalOp

def symbol : LogicalOp → String
  | or => "o"
  | and => "y"
  | other symbol => symbol

def ofSymbol : String → LogicalOp
  | "o" => or
  | "y" => and
  | symbol => other symbol

end LogicalOp

namespace BinaryOp

def symbol : BinaryOp → String
  | equal => "=="
  | notEqual => "!="
  | less => "<"
  | lessEqual => "<="
  | greater => ">"
  | greaterEqual => ">="
  | add => "+"
  | sub => "-"
  | mul => "*"
  | div => "/"
  | mod => "%"
  | pow => "^"
  | other symbol => symbol

def ofSymbol : String → BinaryOp
  | "==" => equal
  | "!=" => notEqual
  | "<" => less
  | "<=" => lessEqual
  | ">" => greater
  | ">=" => greaterEqual
  | "+" => add
  | "-" => sub
  | "*" => mul
  | "/" => div
  | "%" => mod
  | "^" => pow
  | symbol => other symbol

end BinaryOp

namespace UnaryOp

def symbol : UnaryOp → String
  | not => "no"
  | minus => "-"
  | plus => "+"
  | other symbol => symbol

def ofSymbol : String → UnaryOp
  | "no" => not
  | "-" => minus
  | "+" => plus
  | symbol => other symbol

end UnaryOp

end Guion
