import Guion.Proofs.Plan.Steps

namespace Guion

namespace Plan

variable {ev : Evaluator}

/-- Carried out on `m`, the plan hands the task `u` to the evaluator when the machine is `m'`. -/
def Asks (ev : Evaluator) : {α : Type} → Plan α → Machine → Task → Machine → Prop
  | _, done _, _, _, _ => False
  | _, fail _, _, _, _ => False
  | _, move operation next, m, u, m' =>
    ∃ b n, operation.run m = (.ok b, n) ∧ (next b).Asks ev n u m'
  | _, ask t next, m, u, m' =>
    (u = t ∧ m' = m) ∨ ∃ a n, ev.answer t m = (.ok a, n) ∧ (next a).Asks ev n u m'
  | _, within bracket inner next, m, u, m' =>
    inner.Asks ev (bracket.enter m) u m' ∨
      ∃ b n, bracket.around (inner.run ev) m = (.ok b, n) ∧ (next b).Asks ev n u m'

def Visits (ev : Evaluator) : {α : Type} → Plan α → Machine → Machine → Prop
  | _, done _, m, q => q = m
  | _, fail _, m, q => q = m
  | _, move operation next, m, q =>
    q = m ∨ q = (operation.run m).2 ∨
      ∃ b n, operation.run m = (.ok b, n) ∧ (next b).Visits ev n q
  | _, ask t next, m, q =>
    q = m ∨ q = (ev.answer t m).2 ∨ ∃ a n, ev.answer t m = (.ok a, n) ∧ (next a).Visits ev n q
  | _, within bracket inner next, m, q =>
    q = m ∨ inner.Visits ev (bracket.enter m) q ∨ q = (bracket.around (inner.run ev) m).2 ∨
      ∃ b n, bracket.around (inner.run ev) m = (.ok b, n) ∧ (next b).Visits ev n q

def Raises (ev : Evaluator) : {α : Type} → Plan α → Machine → Failure → Prop
  | _, done _, _, _ => False
  | _, fail e, _, f => f = e
  | _, move operation next, m, f =>
    (operation.run m).1 = .error f ∨
      ∃ b n, operation.run m = (.ok b, n) ∧ (next b).Raises ev n f
  | _, ask t next, m, f => ∃ a n, ev.answer t m = (.ok a, n) ∧ (next a).Raises ev n f
  | _, within bracket inner next, m, f =>
    inner.Raises ev (bracket.enter m) f ∨
      ∃ b n, bracket.around (inner.run ev) m = (.ok b, n) ∧ (next b).Raises ev n f

theorem around_error {α : Type} {bracket : Bracket} {x : Exec α} {m : Machine} {f : Failure} :
    (bracket.around x m).1 = .error f ↔ (x (bracket.enter m)).1 = .error f := Iff.rfl

theorem bind_error_iff {α β : Type} {x : Exec α} {k : α → Exec β} {m : Machine} {f : Failure} :
    ((x >>= k) m).1 = .error f ↔
      (x m).1 = .error f ∨ ∃ a n, x m = (.ok a, n) ∧ (k a n).1 = .error f := by
  rcases h : x m with ⟨e | a, n⟩
  · rw [Exec.bind_error h]
    simp
  · rw [Exec.bind_ok h]
    constructor
    · intro hk
      exact .inr ⟨a, n, rfl, hk⟩
    · rintro (hx | ⟨a', n', hx, hk⟩)
      · cases hx
      · cases hx
        exact hk

theorem asks_bind {α β : Type} {p : Plan α} {f : α → Plan β} {m n : Machine} {u : Task} :
    (p >>= f).Asks ev m u n ↔
      p.Asks ev m u n ∨ ∃ a q, p.run ev m = (.ok a, q) ∧ (f a).Asks ev q u n := by
  change (p.bind f).Asks ev m u n ↔ _
  induction p generalizing m with
  | done a => simp [bind, run, Asks, pure, and_assoc]
  | fail e => simp [bind, run, Asks, Exec.fail]
  | move operation next ih =>
    simp only [bind, run, Asks, ih, Exec.bind_eq_ok]
    grind
  | ask t next ih =>
    simp only [bind, run, Asks, ih, Exec.bind_eq_ok]
    grind
  | within bracket inner next _ ih =>
    simp only [bind, run, Asks, ih, Exec.bind_eq_ok]
    grind

theorem not_asks_perform {α : Type} {operation : Move α} {m n : Machine} {u : Task} :
    ¬ (perform operation).Asks ev m u n := by
  rintro ⟨_, _, _, h⟩
  exact h

theorem asks_value {e : Expr} {m n : Machine} {u : Task} :
    (value e).Asks ev m u n ↔ u = .eval e ∧ n = m := by
  constructor
  · rintro (h | ⟨_, _, _, h⟩)
    · exact h
    · exact h.elim
  · exact .inl

theorem asks_signal {s : Stmt} {m n : Machine} {u : Task} :
    (signal s).Asks ev m u n ↔ u = .exec s ∧ n = m := by
  constructor
  · rintro (h | ⟨_, _, _, h⟩)
    · exact h
    · exact h.elim
  · exact .inl

/-- Carried out on `m`, the first plan comes to a point where the second one is what is left to be
carried out, on `q`. -/
structure Leaves (ev : Evaluator) {α : Type} (p : Plan α) (m : Machine) (left : Plan α)
    (q : Machine) : Prop where
  run : p.run ev m = left.run ev q
  asks : ∀ u n, left.Asks ev q u n → p.Asks ev m u n

namespace Leaves

variable {α β : Type} {m q : Machine}

theorem trans {l : Machine} {p p' p'' : Plan α} (h : Leaves ev p l p' m)
    (h' : Leaves ev p' m p'' q) : Leaves ev p l p'' q :=
  ⟨h.run.trans h'.run, fun u n hu => h.asks u n (h'.asks u n hu)⟩

theorem of_bind {p : Plan α} {a : α} (h : p.run ev m = (.ok a, q)) (f : α → Plan β) :
    Leaves ev (p >>= f) m (f a) q where
  run := by rw [run_bind, Exec.bind_ok h]
  asks u n hu := asks_bind.mpr (.inr ⟨a, q, h, hu⟩)

end Leaves

/-- A plan fails as one of its tasks does or by itself. -/
theorem run_error_iff {α : Type} (p : Plan α) (m : Machine) (f : Failure) :
    (p.run ev m).1 = .error f ↔
      (∃ u m', p.Asks ev m u m' ∧ (ev.answer u m').1 = .error f) ∨ p.Raises ev m f := by
  induction p generalizing m with
  | done a => simp [run, Asks, Raises, pure]
  | fail e => simp [run, Asks, Raises, Exec.fail, eq_comm]
  | move operation next ih =>
    simp only [run, bind_error_iff, ih, Asks, Raises]
    grind
  | ask t next ih =>
    simp only [run, bind_error_iff, ih, Asks, Raises]
    grind
  | within bracket inner next ihi ih =>
    simp only [run, bind_error_iff, around_error, ihi, ih, Asks, Raises]
    grind

end Plan

namespace Task

/-- Run to the depth `fuel` on `m`, the task comes to hand the task `u` to the evaluator when the
machine is `m'` and the depth left is `k`. Every task reaches itself. -/
inductive Reaches : Nat → Task → Machine → Nat → Task → Machine → Prop where
  | here (fuel : Nat) (t : Task) (m : Machine) : Reaches fuel t m fuel t m
  | inside {fuel k : Nat} {t u v : Task} {m n m' : Machine} :
    (t.plan fuel).Asks (.upTo fuel) m u n → Reaches fuel u n k v m' → Reaches (fuel + 1) t m k v m'

def Visits : Nat → Task → Machine → Machine → Prop
  | 0, _, m, q => q = m
  | fuel + 1, t, m, q => q = (t.run (fuel + 1) m).2 ∨ (t.plan fuel).Visits (.upTo fuel) m q

end Task

namespace Request

def Turn (fuel : Nat) : List Stmt → Machine → Task → Machine → Prop
  | [], _, _, _ => False
  | s :: rest, m, u, m' =>
    (u = .exec s ∧ m' = m) ∨ ∃ signal n, exec fuel s m = (.ok signal, n) ∧ Turn fuel rest n u m'

def Starts (fuel : Nat) : Request → Machine → Task → Machine → Prop
  | run p, m, u, m' => (Plan.program p).Asks (.upTo fuel) m u m'
  | evaluate e, m, u, m' => u = .eval e ∧ m' = m
  | execute body, m, u, m' => Turn fuel body m u m'

/-- Served on `m`, the request comes to hand on the task `u` when the machine is `m'` and the depth
left is `k`, at any nesting of constructs and calls. -/
def Reaches (fuel : Nat) (r : Request) (m : Machine) (k : Nat) (u : Task) (m' : Machine) : Prop :=
  ∃ t n, r.Starts fuel m t n ∧ t.Reaches fuel n k u m'

def Visits (fuel : Nat) (r : Request) (m q : Machine) : Prop :=
  q = m ∨ q = (m.serve fuel r).2 ∨
    match r with
    | run p => (Plan.program p).Visits (.upTo fuel) m q
    | _ => False

/-- The machines of all points of the service of a request. -/
def Passes (fuel : Nat) (r : Request) (m q : Machine) : Prop :=
  r.Visits fuel m q ∨ ∃ k u m', r.Reaches fuel m k u m' ∧ u.Visits k m' q

end Request

end Guion
