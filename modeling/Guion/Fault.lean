import Guion.Operator
import Guion.Value

namespace Guion

inductive Slot where
  | declaration (name : Name)
  | assignment (name : Name)
  | argument (index : Nat) (function : Name)
  | described (text : String)
deriving DecidableEq

/-- The mistakes of a program that stop its run. -/
inductive Fault where
  | variableExists (name : Name)
  | functionExists (name : Name)
  | variableMissing (name : Name)
  | functionMissing (name : Name)
  | uninitialized (name : Name)
  | literalTooLarge (n : Number)
  | largoTooLarge (n : Number)
  | decimalTooLarge (x : Float) (width : Width)
  | powerTooLarge (x y : Number) (width : Width)
  | mismatch (slot : Slot) (expected : TypeName) (found : Value)
  | logicalOperand (op : LogicalOp)
  | notOperand
  | unaryOperand (op : UnaryOp)
  | unaryUnknown (op : UnaryOp)
  | binaryOperands (op : BinaryOp) (left right : Value)
  | binaryUnknown (op : BinaryOp)
  | condition (found : Value)
  | arity (function : Name) (expected given : Nat)
  | divisionByZero
  | moduloByZero
  | tooDeep (function : Name) (limit : Int)
  | stackExhausted
deriving DecidableEq

namespace Fault

inductive Family where
  | duplicate
  | undeclared
  | uninitialized
  | typeMismatch
  | operatorType
  | arity
  | divisionByZero
  | recursionDepth
deriving DecidableEq, Repr

def family : Fault → Family
  | variableExists _ => .duplicate
  | functionExists _ => .duplicate
  | variableMissing _ => .undeclared
  | functionMissing _ => .undeclared
  | uninitialized _ => .uninitialized
  | literalTooLarge _ => .typeMismatch
  | largoTooLarge _ => .typeMismatch
  | decimalTooLarge _ _ => .typeMismatch
  | powerTooLarge _ _ _ => .typeMismatch
  | mismatch _ _ _ => .typeMismatch
  | logicalOperand _ => .operatorType
  | notOperand => .operatorType
  | unaryOperand _ => .operatorType
  | unaryUnknown _ => .operatorType
  | binaryOperands _ _ _ => .operatorType
  | binaryUnknown _ => .operatorType
  | condition _ => .operatorType
  | arity _ _ _ => .arity
  | divisionByZero => .divisionByZero
  | moduloByZero => .divisionByZero
  | tooDeep _ _ => .recursionDepth
  | stackExhausted => .recursionDepth

end Fault

def Slot.text : Slot → String
  | .declaration name => s!"variable '{name.display}'"
  | .assignment name => s!"asignación a '{name.display}'"
  | .argument index function => s!"argumento {index} de función '{function.display}'"
  | .described text => text

def Fault.message : Fault → String
  | .variableExists name => s!"Variable '{name.display}' ya está declarada"
  | .functionExists name => s!"Función '{name.display}' ya está declarada"
  | .variableMissing name => s!"Variable '{name.display}' no está declarada"
  | .functionMissing name => s!"Función '{name.display}' no está declarada"
  | .uninitialized name => s!"Variable '{name.display}' no está inicializada"
  | .literalTooLarge n => s!"Literal entero fuera del rango de largo: {n.text}"
  | .largoTooLarge n => s!"Valor largo fuera del rango de entero: {n.text}"
  | .decimalTooLarge x width =>
    s!"Valor decimal {Double.text x} fuera del rango de {width.name}"
  | .powerTooLarge x y width => s!"Resultado de {x.text} ^ {y.text} fuera del rango de {width.name}"
  | .mismatch slot expected found =>
    s!"Tipo incompatible para {slot.text}. Esperado: {expected.name}, recibido: {found.kindName}"
  | .logicalOperand op => s!"Operador '{op.symbol}' requiere operandos booleanos"
  | .notOperand => "Operador 'no' requiere operando booleano"
  | .unaryOperand op => s!"Operador '{op.symbol}' requiere operando numérico"
  | .unaryUnknown op => s!"Operador unario desconocido: {op.symbol}"
  | .binaryOperands op left right =>
    s!"Operador '{op.symbol}' no aplicable a {left.kindName} y {right.kindName}"
  | .binaryUnknown op => s!"Operador desconocido: {op.symbol}"
  | .condition found =>
    s!"La condición del 'si' debe ser booleana, se obtuvo {found.kindName}"
  | .arity function expected given =>
    s!"Número incorrecto de argumentos para función '{function.display}': " ++
      s!"se esperaban {expected}, se recibieron {given}"
  | .divisionByZero => "División por cero"
  | .moduloByZero => "División por cero en módulo"
  | .tooDeep function limit =>
    s!"Profundidad de recursión excedida en función '{function.display}' " ++
      s!"(máximo {limit} llamadas anidadas)"
  | .stackExhausted => "Profundidad de recursión excedida"

end Guion
