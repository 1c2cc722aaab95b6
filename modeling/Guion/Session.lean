import Guion.Eval
import Guion.Parse

namespace Guion

/-- What can be asked of a machine, one request after the other. -/
inductive Request where
  | run (program : Program)
  | evaluate (e : Expr)
  | execute (body : List Stmt)

inductive Answer where
  | ran (result : Except Failure Unit)
  | evaluated (result : Except Failure Value)
  | executed (signals : List Signal) (failure : Option Failure)

namespace Machine

def start (console : Console) (verbosity limit : Int) (stack : Stack := {})
    (lacking : List Char := []) : Machine :=
  { console, limit, stack, trace := { verbosity, lacking } }

def executeAll (exec : Stmt → Exec Signal) :
    List Stmt → Machine → (List Signal × Option Failure) × Machine
  | [], m => (([], none), m)
  | s :: rest, m =>
    match exec s m with
    | (.error e, m) => (([], some e), m)
    | (.ok signal, m) =>
      let ((signals, failure), m) := executeAll exec rest m
      ((signal :: signals, failure), m)

/-- Serve one request as told. The machine goes on to the next one also after a failure. -/
def serveWith (run : Program → Exec Unit) (ev : Evaluator) (m : Machine) :
    Request → Answer × Machine
  | .run program =>
    let (r, m) := run program m
    (.ran r, m)
  | .evaluate e =>
    let (r, m) := ev.eval e m
    (.evaluated r, m)
  | .execute body =>
    let ((signals, failure), m) := executeAll ev.exec body m
    (.executed signals failure, m)

def serve (fuel : Nat) (m : Machine) (r : Request) : Answer × Machine :=
  serveWith (Guion.run fuel) ⟨eval fuel, exec fuel⟩ m r

/-- Serve one request on the stack of the machine. Only a run asks for more than it has. -/
def serveOn (frames : Frames) (fuel : Nat) (m : Machine) (r : Request) : Answer × Machine :=
  let room := (m.stack.size - m.stack.used).toNat
  serveWith (runOn frames fuel) ⟨evalOn frames fuel room, execOn frames fuel room⟩ m r

end Machine

end Guion
