import Guion.Json
import Guion.Tree.Display

namespace Guion

inductive DecodeFault where
  | unknownKind (shown : String)
  | compoundKind
  | wrongFields
deriving DecidableEq, Repr

def DecodeFault.message? : DecodeFault → Option String
  | .unknownKind shown => some ("ast_from_obj: unknown node type " ++ shown)
  | _ => none

namespace Tree

def kindOf (fields : List (String × Json)) : Except DecodeFault NodeKind :=
  match Json.field? "type" fields with
  | none => .error (.unknownKind "None")
  | some (.text name) =>
    match NodeKind.ofName? name with
    | some kind => .ok kind
    | none => .error (.unknownKind (Text.shown name))
  | some .null => .error (.unknownKind "None")
  | some (.bool b) => .error (.unknownKind (if b then "True" else "False"))
  | some (.int n) => .error (.unknownKind (toString n))
  | some (.float x) => .error (.unknownKind (Double.shown x))
  | some (.list _) => .error .compoundKind
  | some (.object _) => .error .compoundKind

def arrange (parts : List (String × Tree)) : List (String × Bool) → Except DecodeFault (List Tree)
  | [] => .ok []
  | (name, optional) :: rest =>
    match parts.lookup name with
    | some part => do
      let others ← arrange parts rest
      .ok (part :: others)
    | none =>
      if optional then do
        let others ← arrange parts rest
        .ok (.null :: others)
      else .error .wrongFields

def isField (kind : NodeKind) (name : String) : Bool :=
  name == "line" || name == "column" || (kind.fields.lookup name).isSome

/-- Build a node. Every part must be a field of the kind, and every field that cannot be left out
must be there. -/
def assemble (kind : NodeKind) (parts : List (String × Tree)) : Except DecodeFault Tree := do
  if parts.all fun (name, _) => isField kind name then
    let fields ← arrange parts kind.fields
    .ok (.node kind ((parts.lookup "line").getD (.int 0)) ((parts.lookup "column").getD (.int 0)) fields)
  else .error .wrongFields

mutual

/-- Read a stored program out of structured data. Decoding takes no stack: data nested to any depth
is read. -/
def ofJson : Json → Except DecodeFault Tree
  | .null => .ok .null
  | .bool b => .ok (.bool b)
  | .int n => .ok (.int n)
  | .float x => .ok (.float x)
  | .text s => .ok (.text s)
  | .list items => do
    let trees ← ofItems items
    .ok (.list trees)
  | .object fields => do
    let kind ← kindOf fields
    let parts ← ofFields fields
    assemble kind parts

def ofItems : List Json → Except DecodeFault (List Tree)
  | [] => .ok []
  | item :: items => do
    let tree ← ofJson item
    let trees ← ofItems items
    .ok (tree :: trees)

def ofFields : List (String × Json) → Except DecodeFault (List (String × Tree))
  | [] => .ok []
  | (name, value) :: fields =>
    if name = "type" then ofFields fields
    else do
      let tree ← ofJson value
      let trees ← ofFields fields
      .ok ((name, tree) :: trees)

end

mutual

def toJson : Tree → Json
  | .null => .null
  | .bool b => .bool b
  | .int n => .int n
  | .float x => .float x
  | .text s => .text s
  | .list items => .list (toItems items)
  | .node kind line column fields =>
    .object (("type", .text kind.name) :: ("line", line.toJson) :: ("column", column.toJson) ::
      (kind.fields.map Prod.fst).zip (toItems fields))

def toItems : List Tree → List Json
  | [] => []
  | tree :: trees => tree.toJson :: toItems trees

end

end Tree

end Guion
