import Guion.Proofs.Plan.Contract

namespace Guion

namespace Task

/-- Run a task on a stack with `room` frames left. -/
def runOn (frames : Frames) (fuel room : Nat) : (t : Task) → Exec t.Answer
  | eval e => evalOn frames fuel room e
  | exec s => execOn frames fuel room s

end Task

namespace Evaluator

def onStack (frames : Frames) (fuel room : Nat) : Evaluator :=
  ⟨evalOn frames fuel room, execOn frames fuel room⟩

def catching (ev : Evaluator) : Evaluator :=
  ⟨fun e => Exec.caught e.pos (ev.eval e), fun s => Exec.caught s.pos (ev.exec s)⟩

theorem answer_onStack (frames : Frames) (fuel room : Nat) (t : Task) :
    (onStack frames fuel room).answer t = t.runOn frames fuel room := by
  cases t <;> rfl

theorem answer_catching (ev : Evaluator) (t : Task) :
    ev.catching.answer t = Exec.caught t.pos (ev.answer t) := by
  cases t <;> rfl

end Evaluator

theorem runOn_eq (frames : Frames) (fuel : Nat) (p : Program) (m : Machine) :
    runOn frames fuel p m =
      (Plan.program p).run (Evaluator.onStack frames fuel m.room).catching m := by
  rw [Plan.run_runWith]
  rfl

theorem Exec.caught_cases {α : Type} (pos : Pos) (x : Exec α) (m : Machine) :
    ((x m).1 = .error .overrun ∧
        caught pos x m = (.error (.fault .stackExhausted pos.given?), (x m).2)) ∨
      ((x m).1 ≠ .error .overrun ∧ caught pos x m = x m) := by
  rcases h : x m with ⟨e | a, n⟩
  · cases e with
    | overrun => exact .inl ⟨rfl, by simp only [caught, h]⟩
    | fault | stuck | exhausted | unwritten =>
      exact .inr ⟨(nomatch ·), by simp only [caught, h]⟩
  · exact .inr ⟨(nomatch ·), by simp only [caught, h]⟩

namespace Task

variable {C : Contract} {frames : Frames}

theorem runOn_zero (room : Nat) (t : Task) : t.runOn frames 0 room = Exec.fail .exhausted := by
  cases t <;> rfl

theorem runOn_succ (fuel room : Nat) (t : Task) :
    t.runOn frames (fuel + 1) room = Exec.onFrames (frames t room) fun left =>
      Exec.located t.pos ((t.plan fuel).run (.onStack frames fuel left)) := by
  cases t with
  | eval e =>
    exact congrArg (Exec.onFrames _) (funext fun left =>
      congrArg (Exec.located e.pos) (Plan.run_eval (.onStack frames fuel left) e).symm)
  | exec s =>
    exact congrArg (Exec.onFrames _) (funext fun left =>
      congrArg (Exec.located s.pos) (Plan.run_exec (.onStack frames fuel left) fuel s).symm)

/-- On a stack, too, tasks run within a contract that every step keeps, if it allows overruns. -/
theorem runOn_fulfils (law : C.Kept) (ho : C.failure .overrun) (fuel room : Nat) (t : Task)
    (m : Machine) (ht : C.task t) (hm : C.machine m) :
    Exec.Fulfils C (t.runOn frames fuel room) m (C.answer t) := by
  induction fuel generalizing room t m with
  | zero =>
    rw [runOn_zero]
    exact .fail law.exhausted hm
  | succ fuel ih =>
    rw [runOn_succ]
    cases frames t room with
    | none => exact .fail ho hm
    | some left =>
      have hev : Plan.Answers C (.onStack frames fuel left) := by
        intro u n hu hn
        rw [Evaluator.answer_onStack]
        exact ih left u n hu hn
      exact (Plan.run_fulfils law hev _ (law.plan fuel t ht) m hm).located law

theorem answers_onStack (law : C.Kept) (ho : C.failure .overrun) (fuel room : Nat) :
    Plan.Answers C (.onStack frames fuel room) := by
  intro t m ht hm
  rw [Evaluator.answer_onStack]
  exact runOn_fulfils law ho fuel room t m ht hm

theorem answers_catching {ev : Evaluator} (hev : Plan.Answers C ev)
    (hfault : ∀ place, C.failure (.fault .stackExhausted place)) :
    Plan.Answers C ev.catching := by
  intro t m ht hm
  have h := hev t m ht hm
  rw [Evaluator.answer_catching]
  obtain ⟨_, hcaught⟩ | ⟨_, hcaught⟩ := Exec.caught_cases t.pos (ev.answer t) m
  · refine ⟨?_, fun a ha => ?_, fun e he => ?_⟩ <;> rw [hcaught] at *
    · exact h.machine
    · cases ha
    · cases he
      exact hfault _
  · refine ⟨?_, ?_, ?_⟩ <;> rw [hcaught]
    · exact h.machine
    · exact h.result
    · exact h.failure

end Task

namespace Exec

variable {α β : Type} {odd : Failure → Prop} {x x' : Exec α}

/-- The first computation does what the second one does, unless it fails oddly. -/
def AgreesUnless (odd : Failure → Prop) (x x' : Exec α) : Prop :=
  ∀ m, x m = x' m ∨ ∃ e, odd e ∧ (x m).1 = .error e

namespace AgreesUnless

theorem refl (x : Exec α) : AgreesUnless odd x x := fun _ => .inl rfl

theorem bind {f f' : α → Exec β} (hx : AgreesUnless odd x x')
    (hf : ∀ a, AgreesUnless odd (f a) (f' a)) : AgreesUnless odd (x >>= f) (x' >>= f') := by
  intro m
  obtain heq | ⟨e, he, hfail⟩ := hx m
  · rcases hr : x m with ⟨e | a, n⟩ <;> have hr' := heq.symm.trans hr
    · rw [bind_error hr, bind_error hr']
      exact .inl rfl
    · rw [bind_ok hr, bind_ok hr']
      exact hf a n
  · exact .inr ⟨e, he, by rw [bind_error (eq_of_fst hfail)]⟩

theorem around (b : Bracket) (hx : AgreesUnless odd x x') :
    AgreesUnless odd (b.around x) (b.around x') := by
  intro m
  obtain heq | ⟨e, he, hfail⟩ := hx (b.enter m)
  · exact .inl (by simp only [Bracket.around, heq])
  · exact .inr ⟨e, he, hfail⟩

theorem located (hodd : ∀ e pos, odd e → odd (e.locate pos)) (pos : Pos)
    (hx : AgreesUnless odd x x') : AgreesUnless odd (located pos x) (located pos x') := by
  intro m
  obtain heq | ⟨e, he, hfail⟩ := hx m
  · exact .inl (by rw [located_apply, located_apply, heq])
  · exact .inr ⟨e.locate pos, hodd e pos he, located_error.mpr ⟨e, hfail, rfl⟩⟩

end AgreesUnless

end Exec

theorem Plan.run_agrees {odd : Failure → Prop} {ev ev' : Evaluator}
    (hev : ∀ t, Exec.AgreesUnless odd (ev.answer t) (ev'.answer t)) {α : Type} (p : Plan α) :
    Exec.AgreesUnless odd (p.run ev) (p.run ev') := by
  induction p with
  | done a => exact .refl _
  | fail e => exact .refl _
  | move operation next ih => exact .bind (.refl _) ih
  | ask t next ih => exact (hev t).bind ih
  | within bracket inner next ihi ih => exact (ihi.around bracket).bind ih

/-- On a stack a task does what it does where the stack holds everything, unless it overruns it. -/
theorem Task.runOn_agrees (frames : Frames) (fuel room : Nat) (t : Task) :
    Exec.AgreesUnless (· = .overrun) (t.runOn frames fuel room) (t.run fuel) := by
  induction fuel generalizing room t with
  | zero =>
    have hzero : t.run 0 = t.runOn frames 0 room := by cases t <;> rfl
    rw [hzero]
    exact .refl _
  | succ fuel ih =>
    rw [runOn_succ, run_succ]
    cases frames t room with
    | none => exact fun m => .inr ⟨.overrun, rfl, rfl⟩
    | some left =>
      refine .located (fun e pos he => by rw [he]; rfl) t.pos (Plan.run_agrees (fun u => ?_) _)
      rw [Evaluator.answer_onStack, Evaluator.answer_upTo]
      exact ih left u

/-- A run on a stack is the run where the stack holds everything, unless it comes to the fault of an
exhausted stack. -/
theorem runOn_agrees (frames : Frames) (fuel : Nat) (p : Program) :
    Exec.AgreesUnless (fun e => ∃ place, e = .fault .stackExhausted place) (runOn frames fuel p)
      (run fuel p) := by
  intro m
  rw [runOn_eq, ← Plan.run_program]
  refine Plan.run_agrees (fun t n => ?_) _ m
  rw [Evaluator.answer_catching, Evaluator.answer_onStack, Evaluator.answer_upTo]
  obtain ⟨_, hcaught⟩ | ⟨hheld, hcaught⟩ :=
    Exec.caught_cases t.pos (t.runOn frames fuel m.room) n <;> rw [hcaught]
  · exact .inr ⟨_, ⟨_, rfl⟩, rfl⟩
  · -- the task holds on the stack, so it does what it always does
    refine (t.runOn_agrees frames fuel m.room n).imp_right ?_
    rintro ⟨e, rfl, hfail⟩
    exact absurd hfail hheld

def Contract.lenient (C : Contract) : Contract :=
  { C with failure := fun _ => True }

variable {C : Contract}

theorem Plan.Meets.lenient {α : Type} {p : Plan α} {good : α → Prop} (hp : p.Meets C good) :
    p.Meets C.lenient good := by
  induction p with
  | done a => exact hp
  | fail e => trivial
  | move operation next ih => exact ⟨hp.1, fun b hb => ih b (hp.2 b hb)⟩
  | ask t next ih => exact ⟨hp.1, fun a ha => ih a (hp.2 a ha)⟩
  | within bracket inner next ihi ih =>
    obtain ⟨mid, hi, hn⟩ := hp
    exact ⟨mid, ihi hi, fun b hb => ih b (hn b hb)⟩

theorem Contract.Kept.lenient (law : C.Kept) : C.lenient.Kept where
  move operation m h hm :=
    have hmove := law.move operation m h hm
    ⟨hmove.machine, hmove.result, fun _ _ => trivial⟩
  enter := law.enter
  leave := law.leave
  plan fuel t ht := (law.plan fuel t ht).lenient
  exhausted := trivial
  located _ _ _ := trivial

namespace Request

theorem Within.lenient {r : Request} (hr : r.Within C) : r.Within C.lenient := by
  cases r with
  | run p => exact Plan.Meets.lenient hr
  | evaluate e => exact hr
  | execute body => exact hr

theorem Within.serveOn (law : C.Kept) {frames : Frames} {fuel : Nat} {r : Request} {m : Machine}
    (hr : r.Within C) (hm : C.machine m) : C.machine (m.serveOn frames fuel r).2 := by
  have hev (room : Nat) : Plan.Answers C.lenient (.onStack frames fuel room) :=
    Task.answers_onStack law.lenient trivial fuel room
  have hserve := hr.lenient.serveWith law.lenient
    (Task.answers_catching (hev m.room) fun _ => trivial)
    (hev (m.stack.size - m.stack.used).toNat) hm
  cases r <;> exact hserve.1

end Request

end Guion
