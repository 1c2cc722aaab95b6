import Guion.Proofs.Depth
import Guion.Proofs.Grammar.Placed
import Guion.Proofs.Sound.Session

namespace Guion

namespace Plan

variable {α β : Type} {ev : Evaluator} {m : Machine}

theorem raises_bind {p : Plan α} {f : α → Plan β} {e : Failure} (h : (p >>= f).Raises ev m e) :
    p.Raises ev m e ∨ ∃ a n, (f a).Raises ev n e := by
  change (p.bind f).Raises ev m e at h
  induction p generalizing m with
  | done a => exact .inr ⟨a, m, h⟩
  | fail e => exact .inl h
  | move operation next ih =>
    obtain h | ⟨b, n, hr, h⟩ := h
    · exact .inl (.inl h)
    · obtain h | h := ih b h
      · exact .inl (.inr ⟨b, n, hr, h⟩)
      · exact .inr h
  | ask t next ih =>
    obtain ⟨a, n, hr, h⟩ := h
    obtain h | h := ih a h
    · exact .inl ⟨a, n, hr, h⟩
    · exact .inr h
  | within bracket inner next _ ih =>
    obtain h | ⟨b, n, hr, h⟩ := h
    · exact .inl (.inl h)
    · obtain h | h := ih b h
      · exact .inl (.inr ⟨b, n, hr, h⟩)
      · exact .inr h

theorem perform_raises {operation : Move α} {e : Failure}
    (h : (perform operation).Raises ev m e) : e.Immediate := by
  obtain h | ⟨b, n, _, h⟩ := h
  · exact operation.run_immediate h
  · exact h.elim

theorem bindAll_raises {params : List Param} {vs : List Value} {e : Failure}
    (h : (bindAll params vs).Raises ev m e) : e.Immediate := by
  induction params generalizing vs m with
  | nil => exact h.elim
  | cons p ps ih =>
    cases vs with
    | nil => exact h.elim
    | cons v vs =>
      obtain h | ⟨_, n, h⟩ := raises_bind h
      · exact perform_raises h
      · exact ih h

theorem noteCall_raises {name : Name} {vs : List Value} {e : Failure}
    (h : (noteCall name vs).Raises ev m e) : e.Immediate := by
  unfold noteCall at h
  split at h
  · cases h
    exact .inl trivial
  · exact perform_raises h

theorem enter_raises {f : Function} {vs : List Value} {e : Failure}
    (h : (enter f vs).Raises ev m e) : e.Immediate := by
  obtain h | ⟨_, _, h⟩ := raises_bind h
  · exact perform_raises h
  · obtain h | ⟨_, _, h⟩ := raises_bind h
    · exact noteCall_raises h
    · obtain h | ⟨_, _, h⟩ := raises_bind h
      · obtain (h | ⟨_, _, _, h⟩) | ⟨_, _, _, h⟩ := h
        · obtain h | ⟨_, _, h⟩ := raises_bind h
          · exact bindAll_raises h
          · obtain ⟨_, _, _, h⟩ := h
            exact h.elim
        · exact h.elim
        · exact h.elim
      · obtain h | ⟨_, _, h⟩ := raises_bind h
        · exact perform_raises h
        · exact h.elim

theorem Shape.raises {tasks : Task → Prop} {failures : Failure → Prop} {p : Plan α}
    (hp : p.Shape tasks (fun _ => True) failures) {e : Failure} (h : p.Raises ev m e) :
    e.Immediate ∨ failures e := by
  induction hp generalizing m with
  | done a => exact h.elim
  | fail he => exact .inr (h ▸ he)
  | move _ _ ih =>
    obtain h | ⟨b, n, _, h⟩ := h
    · exact .inl (Move.run_immediate _ h)
    · exact ih b (finds_any _ b) h
  | ask _ _ ih =>
    obtain ⟨a, n, _, h⟩ := h
    exact ih a h
  | within _ _ _ ihi ih =>
    obtain h | ⟨b, n, _, h⟩ := h
    · exact ihi h
    · exact ih b h
  | enter _ _ ih =>
    obtain h | ⟨v, n, h⟩ := raises_bind h
    · exact .inl (enter_raises h)
    · exact ih v h

theorem not_raises_note {event : Event} {cause : Fault} {place : Option Pos} :
    ¬ (perform (.note event)).Raises ev m (.fault cause place) := by
  rintro (h | ⟨_, _, _, h⟩)
  · simp only [Move.run, Exec.note] at h
    split at h <;> cases h
  · exact h

theorem not_raises_checkStack {cause : Fault} {place : Option Pos} :
    ¬ (perform .checkStack).Raises ev m (.fault cause place) := by
  rintro (h | ⟨_, _, _, h⟩)
  · simp only [Move.run, Exec.checkStack] at h
    split at h
    · cases h
    · split at h
      · cases h
      · split at h <;> cases h
  · exact h

theorem not_raises_statements {body : List Stmt} {cause : Fault} {place : Option Pos} :
    ¬ (statements body).Raises ev m (.fault cause place) := by
  induction body generalizing m with
  | nil => exact id
  | cons s rest ih =>
    intro h
    obtain ⟨_, _, _, h⟩ | ⟨signal, n, h⟩ := raises_bind h
    · exact h
    · cases signal with
      | normal => exact ih h
      | broken | continued | returned v => exact not_raises_note h

theorem asks_unique {p : Plan α} {t u : Task} {n n' : Machine} {e f : Failure}
    (ht : p.Asks ev m t n) (he : (ev.answer t n).1 = .error e) (hu : p.Asks ev m u n')
    (hf : (ev.answer u n').1 = .error f) : t = u ∧ n = n' := by
  induction p generalizing m with
  | done a => exact ht.elim
  | fail e => exact ht.elim
  | move operation next ih =>
    obtain ⟨b, q, hr, ht⟩ := ht
    obtain ⟨b', q', hr', hu⟩ := hu
    cases hr.symm.trans hr'
    exact ih b ht hu
  | ask v next ih =>
    obtain ⟨rfl, rfl⟩ | ⟨a, q, hr, ht⟩ := ht <;> obtain ⟨rfl, rfl⟩ | ⟨a', q', hr', hu⟩ := hu
    · exact ⟨rfl, rfl⟩
    · rw [hr'] at he
      cases he
    · rw [hr] at hf
      cases hf
    · cases hr.symm.trans hr'
      exact ih a ht hu
  | within bracket inner next ihi ih =>
    -- a task that fails inside the bracket leaves nothing for what follows
    have hcut {v : Task} {q : Machine} {g : Failure} (hv : inner.Asks ev (bracket.enter m) v q)
        (hg : (ev.answer v q).1 = .error g) : (bracket.around (inner.run ev) m).1 = .error g :=
      around_error.mpr ((run_error_iff inner _ g).mpr (.inl ⟨v, q, hv, hg⟩))
    obtain ht | ⟨b, q, hr, ht⟩ := ht <;> obtain hu | ⟨b', q', hr', hu⟩ := hu
    · exact ihi ht hu
    · have h := hcut ht he
      rw [hr'] at h
      cases h
    · have h := hcut hu hf
      rw [hr] at h
      cases h
    · cases hr.symm.trans hr'
      exact ih b ht hu

theorem not_raises_of_asks {p : Plan α} {t : Task} {n : Machine} {e f : Failure}
    (ht : p.Asks ev m t n) (he : (ev.answer t n).1 = .error e) : ¬ p.Raises ev m f := by
  induction p generalizing m with
  | done a => exact id
  | fail e => exact ht.elim
  | move operation next ih =>
    obtain ⟨b, q, hr, ht⟩ := ht
    rintro (h | ⟨b', q', hr', h⟩)
    · rw [hr] at h
      cases h
    · cases hr.symm.trans hr'
      exact ih b ht h
  | ask v next ih =>
    rintro ⟨a', q', hr', h⟩
    obtain ⟨rfl, rfl⟩ | ⟨a, q, hr, ht⟩ := ht
    · rw [hr'] at he
      cases he
    · cases hr.symm.trans hr'
      exact ih a' ht h
  | within bracket inner next ihi ih =>
    rintro (h | ⟨b', q', hr', h⟩) <;> obtain ht | ⟨b, q, hr, ht⟩ := ht
    · exact ihi ht h
    · have h' := around_error.mpr ((run_error_iff inner (bracket.enter m) f).mpr (.inr h))
      rw [hr] at h'
      cases h'
    · have h' := around_error.mpr
        ((run_error_iff inner (bracket.enter m) e).mpr (.inl ⟨t, n, ht, he⟩))
      rw [hr'] at h'
      cases h'
    · cases hr.symm.trans hr'
      exact ih b' ht h

end Plan

theorem Failure.locate_eq_fault {pos : Pos} {f : Failure} {cause : Fault} {place : Option Pos} :
    f.locate pos = .fault cause place ↔
      ∃ before, f = .fault cause before ∧ place = before.or pos.place? := by
  rcases f with ⟨c, _ | before⟩ | _ | _ | _ | _ <;> simp [locate, eq_comm]

namespace Task

/-- Run to the depth `fuel` on `m`, the task comes to a fault. The chain has the task whose own step
raised it first, then each time the task that had handed on the one before, up to the task itself.
-/
inductive Fails : Nat → Task → Machine → Fault → List Task → Prop where
  | here {fuel : Nat} {t : Task} {m : Machine} {cause : Fault} :
    (t.plan fuel).Raises (.upTo fuel) m (.fault cause none) → Fails (fuel + 1) t m cause [t]
  | inside {fuel : Nat} {t u : Task} {m n : Machine} {cause : Fault} {chain : List Task} :
    (t.plan fuel).Asks (.upTo fuel) m u n → Fails fuel u n cause chain →
      Fails (fuel + 1) t m cause (chain ++ [t])

/-- The first place along a chain. -/
def place? (chain : List Task) : Option Pos := chain.findSome? (·.pos.place?)

variable {fuel : Nat} {t : Task} {m : Machine} {cause : Fault} {place : Option Pos}

theorem plan_raises {ev : Evaluator} {e : Failure} (h : (t.plan fuel).Raises ev m e) :
    e.Immediate ∨ e = .exhausted := by
  have hshape := t.plan_shape fuel (fun _ => True) fun _ _ => trivial
  obtain h | h | ⟨_, h⟩ := hshape.raises h
  · exact .inl h
  · exact .inl (.inl h)
  · exact .inr h

theorem plan_raises_fault {ev : Evaluator} (h : (t.plan fuel).Raises ev m (.fault cause place)) :
    place = none ∧ cause.isOwn = true := by
  obtain (h | h) | h := plan_raises h
  · exact h
  · cases h
  · cases h

theorem run_fault_iff : (t.run fuel m).1 = .error (.fault cause place) ↔
    ∃ chain, t.Fails fuel m cause chain ∧ place = place? chain := by
  induction fuel generalizing t m place with
  | zero =>
    rw [run_zero]
    constructor
    · intro h
      cases h
    · rintro ⟨chain, h, _⟩
      cases h
  | succ fuel ih =>
    rw [run_succ, Exec.located_error]
    constructor
    · rintro ⟨f, hf, hl⟩
      obtain ⟨before, rfl, rfl⟩ := Failure.locate_eq_fault.mp hl
      obtain ⟨u, n, hask, hu⟩ | hraise := (Plan.run_error_iff _ _ _).mp hf
      -- the place of a fault from inside is kept, if it has one
      · rw [Evaluator.answer_upTo] at hu
        obtain ⟨chain, hchain, rfl⟩ := ih.mp hu
        refine ⟨chain ++ [t], .inside hask hchain, ?_⟩
        simp [place?, List.findSome?_append]
      -- a fault of the own step has no place yet
      · obtain ⟨rfl, _⟩ := plan_raises_fault hraise
        exact ⟨[t], .here hraise, by simp [place?]⟩
    · rintro ⟨chain, hfails, rfl⟩
      cases hfails with
      | here hraise =>
        refine ⟨_, (Plan.run_error_iff _ _ _).mpr (.inr hraise), ?_⟩
        exact Failure.locate_eq_fault.mpr ⟨none, rfl, by simp [place?]⟩
      | @inside _ _ u _ n _ chain hask hu =>
        have hrun := ih.mpr ⟨chain, hu, rfl⟩
        rw [← Evaluator.answer_upTo] at hrun
        refine ⟨_, (Plan.run_error_iff _ _ _).mpr (.inl ⟨u, n, hask, hrun⟩), ?_⟩
        exact Failure.locate_eq_fault.mpr
          ⟨place? chain, rfl, by simp [place?, List.findSome?_append]⟩

theorem Fails.answer {chain : List Task} (h : t.Fails fuel m cause chain) :
    ((Evaluator.upTo fuel).answer t m).1 = .error (.fault cause (place? chain)) := by
  rw [Evaluator.answer_upTo]
  exact run_fault_iff.mpr ⟨chain, h, rfl⟩

theorem Fails.unique {other : Fault} {chain chain' : List Task} (h : t.Fails fuel m cause chain)
    (h' : t.Fails fuel m other chain') : chain = chain' := by
  induction h generalizing chain' with
  | here hraise =>
    cases h' with
    | here _ => rfl
    | inside hask hu => exact absurd hraise (Plan.not_raises_of_asks hask hu.answer)
  | inside hask hu ih =>
    cases h' with
    | here hraise => exact absurd hraise (Plan.not_raises_of_asks hask hu.answer)
    | inside hask' hu' =>
      obtain ⟨rfl, rfl⟩ := Plan.asks_unique hask hu.answer hask' hu'.answer
      rw [ih hu']

theorem place?_eq_none_iff {chain : List Task} :
    place? chain = none ↔ ∀ t ∈ chain, t.pos.line.isTrue = false := by
  simp [place?, Pos.place?]

theorem Fails.isOwn {chain : List Task} (h : t.Fails fuel m cause chain) : cause.isOwn = true := by
  induction h with
  | here hraise => exact (plan_raises_fault hraise).2
  | inside _ _ ih => exact ih

theorem Fails.ne_nil {chain : List Task} (h : t.Fails fuel m cause chain) : chain ≠ [] := by
  cases h with
  | here _ => simp
  | inside _ _ => simp

theorem Fails.within {C : Contract} (law : C.Kept) {chain : List Task}
    (h : t.Fails fuel m cause chain) (ht : C.task t) (hm : C.machine m) :
    ∀ u ∈ chain, C.task u := by
  induction h with
  | here _ => exact List.forall_mem_singleton.mpr ht
  | inside hask _ ih =>
    obtain ⟨hu, hn⟩ := Plan.asks_within law (answers_upTo law _) _ (law.plan _ _ ht) _ hm hask
    exact List.forall_mem_append.mpr ⟨ih hu hn, List.forall_mem_singleton.mpr ht⟩

theorem place?_innermost {u : Task} {rest : List Task} (hu : u.pos.IsPlace) :
    place? (u :: rest) = some u.pos := by
  have hplace : u.pos.place? = some u.pos := if_pos hu
  simp [place?, hplace]

end Task

/-- Run on `m`, the program comes to a fault along a chain of tasks, from the innermost one to a
statement of the program. -/
def Program.Fails (fuel : Nat) (p : Program) (m : Machine) (cause : Fault) (chain : List Task) :
    Prop :=
  ∃ t n, (Plan.program p).Asks (.upTo fuel) m t n ∧ t.Fails fuel n cause chain

namespace Program

variable {fuel : Nat} {p : Program} {m : Machine} {cause : Fault} {place : Option Pos}
  {chain : List Task}

theorem not_raises_fault {ev : Evaluator} :
    ¬ (Plan.program p).Raises ev m (.fault cause place) := by
  intro h
  obtain h | ⟨_, n, h⟩ := Plan.raises_bind h
  · exact Plan.not_raises_note h
  · obtain h | ⟨_, n, h⟩ := Plan.raises_bind h
    · exact Plan.not_raises_checkStack h
    · obtain h | ⟨_, _, _, h⟩ := h
      · obtain h | ⟨_, n, h⟩ := Plan.raises_bind h
        · exact Plan.not_raises_statements h
        · exact Plan.not_raises_note h
      · exact h.elim

theorem run_fault_iff : (run fuel p m).1 = .error (.fault cause place) ↔
    ∃ chain, p.Fails fuel m cause chain ∧ place = Task.place? chain := by
  rw [← Plan.run_program, Plan.run_error_iff]
  constructor
  · rintro (⟨t, n, hask, ht⟩ | hraise)
    · rw [Evaluator.answer_upTo] at ht
      obtain ⟨chain, hchain, rfl⟩ := Task.run_fault_iff.mp ht
      exact ⟨chain, ⟨t, n, hask, hchain⟩, rfl⟩
    · exact absurd hraise not_raises_fault
  · rintro ⟨chain, ⟨t, n, hask, ht⟩, rfl⟩
    exact .inl ⟨t, n, hask, ht.answer⟩

theorem Fails.unique {other : Fault} {chain' : List Task} (h : p.Fails fuel m cause chain)
    (h' : p.Fails fuel m other chain') : chain = chain' := by
  obtain ⟨t, n, hask, ht⟩ := h
  obtain ⟨t', n', hask', ht'⟩ := h'
  obtain ⟨rfl, rfl⟩ := Plan.asks_unique hask ht.answer hask' ht'.answer
  exact ht.unique ht'

theorem Fails.ne_nil (h : p.Fails fuel m cause chain) : chain ≠ [] := by
  obtain ⟨t, n, _, ht⟩ := h
  exact ht.ne_nil

theorem Fails.within {C : Contract} (law : C.Kept) (h : p.Fails fuel m cause chain)
    (hp : (Plan.program p).Meets C fun _ => True) (hm : C.machine m) : ∀ u ∈ chain, C.task u := by
  obtain ⟨t, n, hask, ht⟩ := h
  obtain ⟨htask, hn⟩ := Plan.asks_within law (Task.answers_upTo law fuel) _ hp m hm hask
  exact ht.within law htask hn

end Program

abbrev placed : Contract := inherited (Task.At Pos.IsPlace)

theorem Request.IsParsed.placed {r : Request} (h : r.IsParsed) : r.Within placed := by
  cases r with
  | run p =>
    obtain ⟨source, hp⟩ := h
    exact Plan.program_inherited (parse_placed hp)
  | evaluate e =>
    obtain ⟨source, p, hp, hc⟩ := h
    exact Task.Throughout.contains (parse_placed hp) hc
  | execute body =>
    intro s hs
    obtain ⟨source, p, hp, hc⟩ := h s hs
    exact Task.Throughout.contains (parse_placed hp) hc

theorem Machine.Reachable.placed {m : Machine} (h : m.Reachable) : Guion.placed.machine m :=
  h.within (inherited_kept _) (fun _ _ _ _ _ _ hf => nomatch hf) fun _ hr => hr.placed

/-- A fault comes from the own step of one task, the innermost of a chain of tasks each of which
was handed on by the next, and its place is the first one that the chain has, going outwards. In a
session of programs that were read every task has a place, so it is that of the innermost one. -/
theorem run_located {fuel : Nat} {p : Program} {m : Machine} {cause : Fault}
    {place : Option Pos} (h : (run fuel p m).1 = .error (.fault cause place)) :
    ∃ first rest, p.Fails fuel m cause (first :: rest) ∧
      (∀ other chain, p.Fails fuel m other chain → chain = first :: rest) ∧
      place = (first :: rest).findSome? (·.pos.place?) ∧
      (place = none ↔ ∀ t ∈ first :: rest, t.pos.line.isTrue = false) ∧
      (m.Reachable → (∃ source, parse source = .ok p) → place = some first.pos) := by
  obtain ⟨chain, hfails, rfl⟩ := Program.run_fault_iff.mp h
  obtain ⟨first, rest, rfl⟩ := List.exists_cons_of_ne_nil hfails.ne_nil
  refine ⟨first, rest, hfails, ?_, rfl, Task.place?_eq_none_iff, ?_⟩
  · intro other chain hother
    exact hother.unique hfails
  · intro hm hp
    have hparsed : (Request.run p).Within placed := Request.IsParsed.placed (r := .run p) hp
    have hchain := hfails.within (inherited_kept _) hparsed hm.placed
    exact Task.place?_innermost (hchain first List.mem_cons_self).self

end Guion
