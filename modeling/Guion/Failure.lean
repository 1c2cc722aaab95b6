import Guion.Fault
import Guion.Pos

namespace Guion

/-- Why a construct that no program text can contain, or an operation outside its domain, leaves
the evaluator without a next step. -/
inductive Stuck where
  | notStatement (kind : String)
  | notExpression (kind : String)
  | unknownLiteral (name : String)
  | remainderOfInfinity
  | malformed
  | missingPart
  | badNumeral
  | hugeNumeral
  | noStack
  | hugeStack
  | deepStack
deriving DecidableEq, Repr

/-- How a computation ends without a value. It has `exhausted` the steps that it is given, has
`overrun` the stack, or leaves a message `unwritten` that cannot be written. -/
inductive Failure where
  | fault (cause : Fault) (place : Option Pos)
  | stuck (why : Stuck)
  | exhausted
  | overrun
  | unwritten
deriving DecidableEq

def Fault.raise {α : Type} (cause : Fault) : Except Failure α :=
  .error (.fault cause none)

def Stuck.raise {α : Type} (why : Stuck) : Except Failure α :=
  .error (.stuck why)

def Stuck.message? : Stuck → Option String
  | .notStatement kind => some ("execute: unexpected node type " ++ kind)
  | .notExpression kind => some ("evaluate: unexpected node type " ++ kind)
  | .unknownLiteral name => some ("unknown literal type " ++ name)
  | .remainderOfInfinity => some "math domain error"
  | _ => none

def Fault.report (cause : Fault) (place : Option Pos) : String :=
  Pos.report place cause.message

end Guion
