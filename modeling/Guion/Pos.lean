import Guion.Tree.Display
import Guion.Tree.Equality

namespace Guion

/-- Where a construct begins. A program that was stored may have any data in place of numbers. -/
structure Pos where
  line : Tree
  column : Tree
deriving DecidableEq

namespace Pos

def none : Pos := ⟨.int 0, .int 0⟩

/-- The place that a position names. A line that counts as false, such as zero, names none. -/
def place? (pos : Pos) : Option Pos :=
  if pos.line.isTrue then some pos else Option.none

/-- What a position gives of a place, the line and the column each by itself. -/
def given? (pos : Pos) : Option Pos :=
  match pos.line.isTrue, pos.column.isTrue with
  | true, true => some pos
  | true, false => some ⟨pos.line, .null⟩
  | false, true => some ⟨.null, pos.column⟩
  | false, false => Option.none

def report (place : Option Pos) (message : String) : String :=
  match place with
  | some ⟨.null, _⟩ => message
  | some pos => s!"línea {pos.line.display}, columna {pos.column.display}: {message}"
  | Option.none => message

end Pos

end Guion
