import Guion.Store

namespace Guion.Store

/-- The operations on a store. `inScope` performs others in a scope of its own. -/
inductive Action where
  | declare (name : Name) (type : TypeName) (value : Option Value)
  | lookup (name : Name)
  | assign (name : Name) (value : Value)
  | openScope
  | closeScope
  | inScope (actions : List Action)

inductive Reply where
  | var (name : Name) (var : Variable)
  | value (value : Value)
  | done
  | inner (replies : List Reply)

mutual

/-- Perform an operation. A scope is closed however its operations end, and ends with the first of
them that fails. -/
def perform (s : Store) : Action → Except Failure Reply × Store
  | .declare name type value =>
    match s.declare name type value with
    | (.ok var, s) => (.ok (.var name var), s)
    | (.error cause, s) => (.error cause, s)
  | .lookup name =>
    match s.lookup name with
    | .ok var => (.ok (.var name var), s)
    | .error cause => (.error cause, s)
  | .assign name value =>
    match s.assign name value with
    | (.ok value, s) => (.ok (.value value), s)
    | (.error cause, s) => (.error cause, s)
  | .openScope => (.ok .done, s.openScope)
  | .closeScope => (.ok .done, s.closeScope)
  | .inScope actions =>
    match performAll s.openScope actions with
    | (.ok replies, s) => (.ok (.inner replies), s.closeScope)
    | (.error cause, s) => (.error cause, s.closeScope)

def performAll (s : Store) : List Action → Except Failure (List Reply) × Store
  | [] => (.ok [], s)
  | action :: rest =>
    match s.perform action with
    | (.error cause, s) => (.error cause, s)
    | (.ok reply, s) =>
      match performAll s rest with
      | (.ok replies, s) => (.ok (reply :: replies), s)
      | (.error cause, s) => (.error cause, s)

end

end Guion.Store
