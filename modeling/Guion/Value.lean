import Guion.Name
import Guion.Number

namespace Guion

inductive Kind where
  | entero
  | largo
  | decimal
  | booleano
  | cadena
deriving DecidableEq, Repr

/-- A type name as a program writes it. One outside the five types names no value. -/
inductive TypeName where
  | known (kind : Kind)
  | unknown (data : Tree)
deriving DecidableEq

/-- The values of the language. `null` stands for the absence of one. The last two come only from
literals of stored programs: `loose` is a value of an integer type whose content is a truth value or
a double, and `foreign` one of type `cadena` whose content is no text. -/
inductive Value where
  | entero (n : Int)
  | largo (n : Int)
  | decimal (x : Float)
  | booleano (b : Bool)
  | cadena (s : String)
  | null
  | loose (width : Width) (content : Number)
  | foreign (content : Tree)
deriving DecidableEq

namespace Width

def value : Width → Int → Value
  | entero => .entero
  | largo => .largo

def holding (w : Width) : Number → Value
  | .int n => w.value n
  | content => .loose w content

end Width

namespace Kind

def all : List Kind :=
  [entero, largo, decimal, booleano, cadena]

def name : Kind → String
  | entero => "entero"
  | largo => "largo"
  | decimal => "decimal"
  | booleano => "booleano"
  | cadena => "cadena"

def ofWidth : Width → Kind
  | .entero => entero
  | .largo => largo

end Kind

namespace TypeName

def toTree : TypeName → Tree
  | known kind => .text kind.name
  | unknown data => data

def name (type : TypeName) : String :=
  type.toTree.display

def ofName (name : String) : TypeName :=
  match Kind.all.find? (·.name == name) with
  | some kind => known kind
  | none => unknown (.text name)

def ofTree : Tree → TypeName
  | .text name => ofName name
  | data => unknown data

def isText : TypeName → Bool
  | known _ => true
  | unknown (.text _) => true
  | unknown _ => false

end TypeName

namespace Value

def kind? : Value → Option Kind
  | entero _ => some .entero
  | largo _ => some .largo
  | decimal _ => some .decimal
  | booleano _ => some .booleano
  | cadena _ => some .cadena
  | null => none
  | loose w _ => some (.ofWidth w)
  | foreign _ => some .cadena

def kindName (v : Value) : String :=
  match v.kind? with
  | some kind => kind.name
  | none => "null"

def text : Value → String
  | entero n => toString n
  | largo n => toString n
  | decimal x => Double.text x
  | booleano b => if b then "verdadero" else "falso"
  | cadena s => s
  | null => "null"
  | loose _ content => content.text
  | foreign content => content.display

def content : Value → Tree
  | foreign content => content
  | v => .text v.text

def ofContent : Tree → Value
  | .text s => cadena s
  | content => foreign content

def isForeign : Value → Bool
  | foreign _ => true
  | _ => false

def number? : Value → Option Number
  | entero n => some (.int n)
  | largo n => some (.int n)
  | loose _ content => some content
  | _ => none

def toFloat? : Value → Option Float
  | decimal x => some x
  | v => v.number?.map Number.toFloat

def isNumeric (v : Value) : Bool :=
  v.toFloat?.isSome

def isSized (v : Value) : Bool :=
  v.number?.all Number.isSized

/-- Integer values lie in the range of their type. -/
def InRange : Value → Prop
  | entero n => Width.Holds .entero n
  | largo n => Width.Holds .largo n
  | loose _ _ => False
  | _ => True

end Value

end Guion
