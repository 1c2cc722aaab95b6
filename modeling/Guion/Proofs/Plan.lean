import Guion.Session

namespace Guion

namespace Task

def Answer : Task → Type
  | eval _ => Value
  | exec _ => Signal

def run (fuel : Nat) : (t : Task) → Exec t.Answer
  | eval e => Guion.eval fuel e
  | exec s => Guion.exec fuel s

end Task

namespace Evaluator

/-- The meanings of all parts of a program, up to a depth. -/
def upTo (fuel : Nat) : Evaluator := ⟨Guion.eval fuel, Guion.exec fuel⟩

def answer (ev : Evaluator) : (t : Task) → Exec t.Answer
  | .eval e => ev.eval e
  | .exec s => ev.exec s

theorem answer_upTo (fuel : Nat) (t : Task) : (upTo fuel).answer t = t.run fuel := by
  cases t <;> rfl

end Evaluator

/-- The operations on a machine that nothing interrupts. A function is registered where its name is
free. -/
inductive Move : Type → Type where
  | lookup (name : Name) : Move Variable
  | declare (name : Name) (type : TypeName) (value : Option Value) : Move Variable
  | assign (name : Name) (value : Value) : Move Value
  | readLine : Move String
  | print (v : Value) : Move Unit
  | note (event : Event) : Move Unit
  | function (name : Name) : Move Function
  | checkFree (name : Name) : Move Unit
  | register (f : Function) : Move Unit
  | checkDepth (name : Name) : Move Unit
  | checkStack : Move Unit

/-- What is undone after a computation, however it ends. -/
inductive Bracket where
  | scope
  | call
  | tracing

/-- What one step does, as data: its operations on the machine and the tasks that it hands to the
evaluator, in their order, each with what the step makes of the answer. -/
inductive Plan : Type → Type 1 where
  | done {α : Type} (a : α) : Plan α
  | fail {α : Type} (e : Failure) : Plan α
  | move {α β : Type} (operation : Move β) (next : β → Plan α) : Plan α
  | ask {α : Type} (t : Task) (next : t.Answer → Plan α) : Plan α
  | within {α β : Type} (bracket : Bracket) (inner : Plan β) (next : β → Plan α) : Plan α

namespace Move

variable {α : Type}

def run : Move α → Exec α
  | lookup name => Exec.lookup name
  | declare name type value => Exec.declare name type value
  | assign name value => Exec.assign name value
  | readLine => Exec.readLine
  | print v => Exec.print v
  | note event => Exec.note event
  | function name => Exec.function name
  | checkFree name => Exec.checkFree name
  | register f => do
    Exec.checkFree f.name
    Exec.register f
  | checkDepth name => Exec.checkDepth name
  | checkStack => Exec.checkStack

end Move

namespace Bracket

def enter : Bracket → Machine → Machine
  | scope, m => { m with store := m.store.openScope }
  | call, m => { m with calls := m.calls + 1 }
  | tracing, m => m

def leave : Bracket → Machine → Machine
  | scope, m => { m with store := m.store.closeScope }
  | call, m => { m with calls := m.calls - 1 }
  | tracing, m => { m with trace := m.trace.close }

def around {α : Type} (b : Bracket) (x : Exec α) : Exec α :=
  fun m =>
    let (r, m) := x (b.enter m)
    (r, b.leave m)

end Bracket

instance : LawfulMonad Exec := LawfulMonad.mk' Exec
  (by
    intro α x
    funext m
    change (match x m with | (.ok a, m) => (.ok a, m) | (.error e, m) => (.error e, m)) = x m
    rcases x m with ⟨_ | _, _⟩ <;> rfl)
  (fun _ _ => rfl)
  (by
    intro α β γ x f g
    funext m
    change (match (match x m with | (.ok a, m) => f a m | (.error e, m) => (.error e, m)) with
        | (.ok b, m) => g b m
        | (.error e, m) => (.error e, m)) =
      (match x m with
        | (.ok a, m) => (match f a m with | (.ok b, m) => g b m | (.error e, m) => (.error e, m))
        | (.error e, m) => (.error e, m))
    rcases x m with ⟨_ | _, _⟩ <;> rfl)

namespace Exec

variable {α β : Type}

theorem bind_ok {x : Exec α} {f : α → Exec β} {m m' : Machine} {a : α} (h : x m = (.ok a, m')) :
    (x >>= f) m = f a m' := by
  simp only [bind, h]

theorem bind_error {x : Exec α} {f : α → Exec β} {m m' : Machine} {e : Failure}
    (h : x m = (.error e, m')) : (x >>= f) m = (.error e, m') := by
  simp only [bind, h]

theorem eq_of_fst {x : Exec α} {m : Machine} {r : Except Failure α} (h : (x m).1 = r) :
    x m = (r, (x m).2) :=
  Prod.ext h rfl

theorem bind_eq_ok {x : Exec α} {f : α → Exec β} {m n : Machine} {b : β} :
    (x >>= f) m = (.ok b, n) ↔ ∃ a q, x m = (.ok a, q) ∧ f a q = (.ok b, n) := by
  rcases h : x m with ⟨e | a, q⟩
  · simp [bind_error h]
  · simp [bind_ok h, and_assoc]

theorem note_plain {event : Event} (h : event.quoted = []) (m : Machine) :
    note event m = (.ok (), { m with trace := m.trace.note event }) := by
  simp [note, m.trace.refuses_plain h]

theorem note_cases (event : Event) (m : Machine) :
    (m.trace.refuses event = true ∧ note event m = (.error .unwritten, m)) ∨
      (m.trace.refuses event = false ∧
        note event m = (.ok (), { m with trace := m.trace.note event })) := by
  unfold note
  split
  · exact .inl ⟨by assumption, rfl⟩
  · rename_i h
    exact .inr ⟨by simpa using h, rfl⟩

end Exec

def Failure.locate (pos : Pos) : Failure → Failure
  | fault cause none => fault cause pos.place?
  | e => e

namespace Exec

variable {α : Type} {pos : Pos} {x : Exec α} {m : Machine}

theorem located_apply :
    located pos x m = ((x m).1.mapError (Failure.locate pos), (x m).2) := by
  rcases h : x m with ⟨e | a, n⟩
  · rcases e with ⟨cause, _ | place⟩ | _ | _ | _ | _ <;> simp only [located, h] <;> rfl
  · simp only [located, h]
    rfl

theorem located_ok {a : α} : (located pos x m).1 = .ok a ↔ (x m).1 = .ok a := by
  rw [located_apply]
  cases (x m).1 with
  | ok b => rfl
  | error f => exact iff_of_false (fun h => nomatch h) fun h => nomatch h

theorem located_error {e : Failure} :
    (located pos x m).1 = .error e ↔ ∃ f, (x m).1 = .error f ∧ f.locate pos = e := by
  rw [located_apply]
  cases (x m).1 with
  | ok b => exact iff_of_false (fun h => nomatch h) fun ⟨_, h, _⟩ => nomatch h
  | error f =>
    constructor
    · intro h
      exact ⟨f, rfl, Except.error.inj h⟩
    · rintro ⟨g, hg, rfl⟩
      cases hg
      rfl

end Exec

namespace Plan

variable {α β : Type}

def bind : Plan α → (α → Plan β) → Plan β
  | done a, f => f a
  | fail e, _ => fail e
  | move operation next, f => move operation fun b => (next b).bind f
  | ask t next, f => ask t fun a => (next a).bind f
  | within bracket inner next, f => within bracket inner fun b => (next b).bind f

instance : Monad Plan where
  pure := done
  bind := bind

/-- Carry out a plan, with the tasks answered by an evaluator. -/
def run (ev : Evaluator) : {α : Type} → Plan α → Exec α
  | _, done a => pure a
  | _, fail e => Exec.fail e
  | _, move operation next => operation.run >>= fun b => (next b).run ev
  | _, ask t next => ev.answer t >>= fun a => (next a).run ev
  | _, within bracket inner next => bracket.around (inner.run ev) >>= fun b => (next b).run ev

theorem run_bind (ev : Evaluator) (p : Plan α) (f : α → Plan β) :
    (p >>= f).run ev = p.run ev >>= fun a => (f a).run ev := by
  change (p.bind f).run ev = _
  induction p with
  | done a => simp only [bind, run, pure_bind]
  | fail e => rfl
  | move operation next ih => simp only [bind, run, ih, bind_assoc]
  | ask t next ih => simp only [bind, run, ih, bind_assoc]
  | within bracket inner next _ ih => simp only [bind, run, ih, bind_assoc]

end Plan

end Guion
