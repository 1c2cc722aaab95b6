import Guion.Text.Hidden
import Guion.Tree

namespace Guion.Tree

mutual

def shown : Tree → String
  | null => "None"
  | bool b => if b then "True" else "False"
  | int n => toString n
  | float x => Double.shown x
  | text s => Text.shown s
  | list items => "[" ++ ", ".intercalate (shownAll items) ++ "]"
  | node kind line column fields =>
    kind.name ++ "(" ++
      ", ".intercalate
        (("line=" ++ line.shown) :: ("column=" ++ column.shown) ::
          List.zipWith (fun field part => field.1 ++ "=" ++ part) kind.fields (shownAll fields)) ++
      ")"

def shownAll : List Tree → List String
  | [] => []
  | t :: ts => t.shown :: shownAll ts

end

/-- A tree inside other text: a text stands for itself. -/
def display : Tree → String
  | text s => s
  | t => t.shown

end Guion.Tree
