import Guion.Proofs.Location
import Guion.Proofs.Plan.Stack

namespace Guion

namespace Plan

variable {ev : Evaluator} {m n : Machine} {t : Task}

theorem statements_asks {body : List Stmt} (h : (statements body).Asks ev m t n) :
    ∃ s ∈ body, t = .exec s := by
  induction body generalizing m with
  | nil => exact h.elim
  | cons s rest ih =>
    obtain h | ⟨signal, q, _, h⟩ := asks_bind.mp h
    · exact ⟨s, List.mem_cons_self, (asks_signal.mp h).1⟩
    · cases signal with
      | normal =>
        obtain ⟨s', hs', rfl⟩ := ih h
        exact ⟨s', List.mem_cons_of_mem s hs', rfl⟩
      | broken | continued | returned v => exact (not_asks_perform h).elim

theorem program_asks {p : Program} (h : (program p).Asks ev m t n) :
    ∃ s ∈ p.body, t = .exec s := by
  obtain h | ⟨_, _, _, h⟩ := asks_bind.mp h
  · exact (not_asks_perform h).elim
  · obtain h | ⟨_, _, _, h⟩ := asks_bind.mp h
    · exact (not_asks_perform h).elim
    · obtain h | ⟨_, _, _, h⟩ := h
      · obtain h | ⟨_, _, _, h⟩ := asks_bind.mp h
        · exact statements_asks h
        · exact (not_asks_perform h).elim
      · exact h.elim

end Plan

namespace Task

variable {frames : Frames} {fuel room : Nat} {t : Task} {m : Machine} {chain : List Task}

/-- Run to the depth `fuel` on `m` with `room` frames left, the task overruns the stack. The chain
has the task that finds no room first, then each time the task that had handed on the one before, up
to the task itself. -/
inductive Overruns (frames : Frames) : Nat → Nat → Task → Machine → List Task → Prop where
  | here {fuel room : Nat} {t : Task} {m : Machine} :
    frames t room = none → Overruns frames (fuel + 1) room t m [t]
  | inside {fuel room left : Nat} {t u : Task} {m n : Machine} {chain : List Task} :
    frames t room = some left → (t.plan fuel).Asks (.onStack frames fuel left) m u n →
      Overruns frames fuel left u n chain → Overruns frames (fuel + 1) room t m (chain ++ [t])

/-- A task gives an overrun just where it overruns the stack. -/
theorem runOn_overrun_iff :
    (t.runOn frames fuel room m).1 = .error .overrun ↔
      ∃ chain, t.Overruns frames fuel room m chain := by
  induction fuel generalizing room t m with
  | zero =>
    rw [runOn_zero]
    constructor
    · intro h
      cases h
    · rintro ⟨chain, h⟩
      cases h
  | succ fuel ih =>
    rw [runOn_succ]
    cases hroom : frames t room with
    | none => exact iff_of_true rfl ⟨[t], .here hroom⟩
    | some left =>
      rw [Exec.onFrames, Exec.located_error]
      constructor
      · rintro ⟨f, hf, hl⟩
        -- a failure passes a construct as it is, unless it is a fault without a place
        obtain rfl : f = .overrun := by
          rcases f with ⟨_, _ | _⟩ | _ | _ | _ | _ <;> simp_all [Failure.locate]
        obtain ⟨u, n, hask, hu⟩ | hraise := (Plan.run_error_iff _ _ _).mp hf
        · rw [Evaluator.answer_onStack] at hu
          obtain ⟨chain, hchain⟩ := ih.mp hu
          exact ⟨chain ++ [t], .inside hroom hask hchain⟩
        · obtain (h | h) | h := plan_raises hraise
          · exact h.elim
          · cases h
          · cases h
      · rintro ⟨chain, h⟩
        cases h with
        | here hnone => cases hroom.symm.trans hnone
        | inside hsome hask hu =>
          cases hroom.symm.trans hsome
          have hanswer := ih.mpr ⟨_, hu⟩
          rw [← Evaluator.answer_onStack] at hanswer
          exact ⟨.overrun, (Plan.run_error_iff _ _ _).mpr (.inl ⟨_, _, hask, hanswer⟩), rfl⟩

theorem Overruns.answer (h : t.Overruns frames fuel room m chain) :
    ((Evaluator.onStack frames fuel room).answer t m).1 = .error .overrun := by
  rw [Evaluator.answer_onStack]
  exact runOn_overrun_iff.mpr ⟨chain, h⟩

theorem Overruns.unique {chain' : List Task} (h : t.Overruns frames fuel room m chain)
    (h' : t.Overruns frames fuel room m chain') : chain = chain' := by
  induction h generalizing chain' with
  | here hnone =>
    cases h' with
    | here _ => rfl
    | inside hsome _ _ => cases hnone.symm.trans hsome
  | inside hsome hask hu ih =>
    cases h' with
    | here hnone => cases hnone.symm.trans hsome
    | inside hsome' hask' hu' =>
      cases hsome.symm.trans hsome'
      obtain ⟨rfl, rfl⟩ := Plan.asks_unique hask hu.answer hask' hu'.answer
      rw [ih hu']

theorem runOn_ne_stackExhausted (place : Option Pos) :
    (t.runOn frames fuel room m).1 ≠ .error (.fault .stackExhausted place) := by
  intro h
  obtain heq | ⟨e, rfl, he⟩ := t.runOn_agrees frames fuel room m
  · rw [heq] at h
    obtain ⟨chain, hchain, _⟩ := run_fault_iff.mp h
    cases hchain.isOwn
  · rw [he] at h
    cases h

theorem catching_stackExhausted_iff {place : Option Pos} :
    ((Evaluator.onStack frames fuel room).catching.answer t m).1 =
        .error (.fault .stackExhausted place) ↔
      ∃ chain, t.Overruns frames fuel room m chain ∧ place = t.pos.given? := by
  rw [Evaluator.answer_catching, Evaluator.answer_onStack]
  obtain ⟨hover, hcaught⟩ | ⟨hheld, hcaught⟩ :=
    Exec.caught_cases t.pos (t.runOn frames fuel room) m <;> rw [hcaught]
  · obtain ⟨chain, hchain⟩ := runOn_overrun_iff.mp hover
    constructor
    · intro h
      cases h
      exact ⟨chain, hchain, rfl⟩
    · rintro ⟨_, _, rfl⟩
      rfl
  · refine iff_of_false (runOn_ne_stackExhausted place) ?_
    rintro ⟨chain, hchain, _⟩
    exact hheld (runOn_overrun_iff.mpr ⟨chain, hchain⟩)

end Task

namespace Program

variable {frames : Frames} {fuel : Nat} {p : Program} {m : Machine} {s : Stmt} {chain : List Task}

/-- Run on the stack of `m`, the program overruns it in its top-level statement `s`, along a chain
of tasks from the one that finds no room to that statement. -/
def Overruns (frames : Frames) (fuel : Nat) (p : Program) (m : Machine) (s : Stmt)
    (chain : List Task) : Prop :=
  ∃ n, (Plan.program p).Asks (Evaluator.onStack frames fuel m.room).catching m (.exec s) n ∧
    (Task.exec s).Overruns frames fuel m.room n chain

/-- A run gives the fault of an exhausted stack just where a top-level statement overruns the stack,
and it gives the place of that statement. -/
theorem runOn_stackExhausted_iff {place : Option Pos} :
    (runOn frames fuel p m).1 = .error (.fault .stackExhausted place) ↔
      ∃ s chain, p.Overruns frames fuel m s chain ∧ place = s.pos.given? := by
  rw [runOn_eq, Plan.run_error_iff]
  constructor
  · rintro (⟨t, n, hask, ht⟩ | hraise)
    · obtain ⟨s, _, rfl⟩ := Plan.program_asks hask
      obtain ⟨chain, hchain, rfl⟩ := Task.catching_stackExhausted_iff.mp ht
      exact ⟨s, chain, ⟨n, hask, hchain⟩, rfl⟩
    · exact absurd hraise not_raises_fault
  · rintro ⟨s, chain, ⟨n, hask, hchain⟩, rfl⟩
    exact .inl ⟨.exec s, n, hask, Task.catching_stackExhausted_iff.mpr ⟨chain, hchain, rfl⟩⟩

theorem Overruns.mem (h : p.Overruns frames fuel m s chain) : s ∈ p.body := by
  obtain ⟨n, hask, _⟩ := h
  obtain ⟨s', hs', heq⟩ := Plan.program_asks hask
  cases heq
  exact hs'

theorem Overruns.unique {s' : Stmt} {chain' : List Task} (h : p.Overruns frames fuel m s chain)
    (h' : p.Overruns frames fuel m s' chain') : s = s' ∧ chain = chain' := by
  obtain ⟨n, hask, hchain⟩ := h
  obtain ⟨n', hask', hchain'⟩ := h'
  have hfails := Task.catching_stackExhausted_iff.mpr ⟨chain, hchain, rfl⟩
  have hfails' := Task.catching_stackExhausted_iff.mpr ⟨chain', hchain', rfl⟩
  obtain ⟨heq, rfl⟩ := Plan.asks_unique hask hfails hask' hfails'
  cases heq
  exact ⟨rfl, hchain.unique hchain'⟩

end Program

/-- A fault of a program comes from the own step of one task, the innermost of a chain of tasks each
of which was handed on by the next, and its place is the first one that the chain has, going
outwards. In a session of programs that were read every task has a place, so it is that of the
innermost one. Only for an exhausted stack the place is that of the top-level statement which
overran it, whichever task inside it found no room. -/
theorem fault_located {frames : Frames} {fuel : Nat} {p : Program} {m : Machine} {cause : Fault}
    {place : Option Pos} (h : (runOn frames fuel p m).1 = .error (.fault cause place)) :
    (cause ≠ .stackExhausted ∧ ∃ first rest, p.Fails fuel m cause (first :: rest) ∧
      (∀ other chain, p.Fails fuel m other chain → chain = first :: rest) ∧
      place = (first :: rest).findSome? (·.pos.place?) ∧
      (place = none ↔ ∀ t ∈ first :: rest, t.pos.line.isTrue = false) ∧
      (m.Reachable → (∃ source, parse source = .ok p) → place = some first.pos)) ∨
    (cause = .stackExhausted ∧ ∃ s chain, p.Overruns frames fuel m s chain ∧
      (∀ s' chain', p.Overruns frames fuel m s' chain' → s' = s ∧ chain' = chain) ∧
      s ∈ p.body ∧ place = s.pos.given? ∧
      ((∃ source, parse source = .ok p) → place = some s.pos)) := by
  obtain heq | ⟨_, ⟨place', rfl⟩, hfail⟩ := runOn_agrees frames fuel p m
  · rw [heq] at h
    refine .inl ⟨?_, run_located h⟩
    rintro rfl
    obtain ⟨chain, ⟨t, n, _, hchain⟩, _⟩ := Program.run_fault_iff.mp h
    cases hchain.isOwn
  · cases h.symm.trans hfail
    obtain ⟨s, chain, hover, rfl⟩ := Program.runOn_stackExhausted_iff.mp h
    refine .inr ⟨rfl, s, chain, hover, fun s' chain' h' => h'.unique hover, hover.mem, rfl, ?_⟩
    rintro ⟨source, hp⟩
    exact (parse_marked hp s hover.mem).self.given?

/-- The fault of a function that an earlier text declared is placed in that text. -/
theorem fault_located_session :
    ∃ m p, m.Reachable ∧ (∃ source, parse source = .ok p) ∧
      let frames : Frames := fun _ room => if 2 ≤ room then some (room - 2) else none
      (runOn frames 9 p m).1 = .error (.fault .divisionByZero (some (Mark.pos ⟨2, 12⟩))) ∧
      ∃ first rest, p.Fails 9 m .divisionByZero (first :: rest) ∧
        (∀ other chain, p.Fails 9 m other chain → chain = first :: rest) ∧
        first.pos = Mark.pos ⟨2, 12⟩ := by
  let frames : Frames := fun _ room => if 2 ≤ room then some (room - 2) else none
  let declares : Program := ⟨Mark.pos ⟨1, 1⟩,
    [.function (Mark.pos ⟨1, 1⟩) "f" [] (.block (Mark.pos ⟨1, 5⟩)
      [.returns (Mark.pos ⟨2, 3⟩) (some (.binary (Mark.pos ⟨2, 12⟩) .div
        (.literal (Mark.pos ⟨2, 12⟩) (.integer (.int 1)))
        (.literal (Mark.pos ⟨2, 16⟩) (.integer (.int 0)))))])]⟩
  let calls : Program := ⟨Mark.pos ⟨1, 1⟩,
    [.print (Mark.pos ⟨1, 1⟩) (.call (Mark.pos ⟨1, 10⟩) "f" [])]⟩
  let m : Machine := ((Machine.start (.stream "") 0 9).serveOn frames 9 (.run declares)).2
  have hdeclares : parse "f() \x7b\n  retornar 1 / 0; \x7d" = .ok declares := by rfl
  have hcalls : parse "imprimir f();" = .ok calls := by rfl
  have hm : m.Reachable := .serveOn frames 9 (.start _ _ _) ⟨_, hdeclares⟩
  have hrun : (runOn frames 9 calls m).1 =
      .error (.fault .divisionByZero (some (Mark.pos ⟨2, 12⟩))) := by rfl
  refine ⟨m, calls, hm, ⟨_, hcalls⟩, hrun, ?_⟩
  obtain ⟨_, first, rest, hfails, hunique, _, _, hplace⟩ | ⟨h, _⟩ := fault_located hrun
  · exact ⟨first, rest, hfails, hunique, (Option.some.inj (hplace hm ⟨_, hcalls⟩)).symm⟩
  · cases h

/-- The literal finds no room, and the fault is placed at the statement around it. -/
theorem overrun_not_innermost :
    let frames : Frames := fun _ room => if 2 ≤ room then some (room - 2) else none
    let m := Machine.start (.stream "") 0 0 { used := 997 }
    let s : Stmt := .print (Mark.pos ⟨1, 1⟩) (.literal (Mark.pos ⟨1, 10⟩) (.integer (.int 1)))
    let p : Program := ⟨Mark.pos ⟨1, 1⟩, [s]⟩
    parse "imprimir 1;" = .ok p ∧ m.Reachable ∧
      (runOn frames 9 p m).1 = .error (.fault .stackExhausted (some (Mark.pos ⟨1, 1⟩))) ∧
      ∀ s' first rest, p.Overruns frames 9 m s' (first :: rest) →
        first.pos = Mark.pos ⟨1, 10⟩ := by
  intro frames m s p
  let one : Expr := .literal (Mark.pos ⟨1, 10⟩) (.integer (.int 1))
  have hasks (ev : Evaluator) (n : Machine) : ((Task.exec s).plan 8).Asks ev n (.eval one) n :=
    .inl ⟨rfl, rfl⟩
  have hover : p.Overruns frames 9 m s [.eval one, .exec s] :=
    ⟨_, ⟨(), _, rfl, (), _, rfl, .inl (.inl ⟨rfl, rfl⟩)⟩, .inside rfl (hasks _ _) (.here rfl)⟩
  refine ⟨by rfl, .start _ _ _ _, by rfl, ?_⟩
  intro s' first rest h
  obtain ⟨_, hchain⟩ := h.unique hover
  cases hchain
  rfl

end Guion
