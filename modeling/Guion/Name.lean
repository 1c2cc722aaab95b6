import Guion.Tree.Display
import Guion.Tree.Equality

namespace Guion

/-- The name of a variable or function. In a program that was read from text it is a text; one that
was stored may have other data in its place. -/
inductive Name where
  | text (s : String)
  | other (data : Tree)
deriving DecidableEq

instance : Coe String Name := ⟨.text⟩

namespace Name

def ofTree : Tree → Name
  | .text s => text s
  | t => other t

def toTree : Name → Tree
  | text s => .text s
  | other t => t

def display (name : Name) : String :=
  name.toTree.display

def isUsable : Name → Bool
  | text _ => true
  | other t => t.isPlain

def agrees : Name → Name → Bool
  | text s, text t => s == t
  | other s, other t => s.equals t
  | _, _ => false

end Name

end Guion
