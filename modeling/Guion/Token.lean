import Guion.Program

namespace Guion

inductive Keyword where
  | type (kind : Kind)
  | si
  | sino
  | mientras
  | para
  | retornar
  | imprimir
  | romper
  | continuar
  | o
  | y
  | no
  | verdadero
  | falso
  | leer
deriving DecidableEq, Repr

inductive Symbol where
  | parenOpen
  | parenClose
  | braceOpen
  | braceClose
  | comma
  | semicolon
  | assign
  | equal
  | notEqual
  | less
  | lessEqual
  | greater
  | greaterEqual
  | plus
  | minus
  | star
  | slash
  | percent
  | caret
deriving DecidableEq, Repr

inductive Terminal where
  | name
  | integer
  | decimal
  | text
  | keyword (keyword : Keyword)
  | symbol (symbol : Symbol)
deriving DecidableEq, Repr

/-- A place in a text. Lines and columns count from one. -/
structure Mark where
  line : Nat := 1
  column : Nat := 1
deriving DecidableEq, Repr

structure Token where
  terminal : Terminal
  text : List Char
  mark : Mark
deriving DecidableEq, Repr

namespace Keyword

/-- Longer words come first. -/
def all : List Keyword :=
  [.verdadero, .continuar, .type .booleano, .mientras, .retornar, .imprimir, .type .decimal,
    .type .entero, .type .cadena, .romper, .type .largo, .falso, .sino, .para, .leer, .si, .no, .o,
    .y]

def text : Keyword → String
  | type kind => kind.name
  | si => "si"
  | sino => "sino"
  | mientras => "mientras"
  | para => "para"
  | retornar => "retornar"
  | imprimir => "imprimir"
  | romper => "romper"
  | continuar => "continuar"
  | o => "o"
  | y => "y"
  | no => "no"
  | verdadero => "verdadero"
  | falso => "falso"
  | leer => "leer"

def chars (k : Keyword) : List Char := k.text.toList

end Keyword

namespace Symbol

def all : List Symbol :=
  [.equal, .notEqual, .lessEqual, .greaterEqual, .parenOpen, .parenClose, .braceOpen, .braceClose,
    .comma, .semicolon, .assign, .less, .greater, .plus, .minus, .star, .slash, .percent, .caret]

def chars : Symbol → List Char
  | parenOpen => ['(']
  | parenClose => [')']
  | braceOpen => ['\x7b']
  | braceClose => ['\x7d']
  | comma => [',']
  | semicolon => [';']
  | assign => ['=']
  | equal => ['=', '=']
  | notEqual => ['!', '=']
  | less => ['<']
  | lessEqual => ['<', '=']
  | greater => ['>']
  | greaterEqual => ['>', '=']
  | plus => ['+']
  | minus => ['-']
  | star => ['*']
  | slash => ['/']
  | percent => ['%']
  | caret => ['^']

end Symbol

namespace Mark

def pos (m : Mark) : Pos := ⟨.int m.line, .int m.column⟩

def next (m : Mark) (c : Char) : Mark :=
  if c = '\n' then ⟨m.line + 1, 1⟩ else ⟨m.line, m.column + 1⟩

def advance (m : Mark) (cs : List Char) : Mark :=
  cs.foldl next m

end Mark

end Guion
