import Guion.Proofs.Plan.Course

namespace Guion

/-- What is to hold of machines, operations, tasks, answers and failures throughout a run. -/
structure Contract where
  machine : Machine → Prop
  requires : {α : Type} → Move α → Prop
  ensures : {α : Type} → Move α → α → Prop
  task : Task → Prop
  answer : (t : Task) → t.Answer → Prop
  failure : Failure → Prop

structure Exec.Fulfils {α : Type} (C : Contract) (x : Exec α) (m : Machine) (good : α → Prop) :
    Prop where
  machine : C.machine (x m).2
  result : ∀ a, (x m).1 = .ok a → good a
  failure : ∀ e, (x m).1 = .error e → C.failure e

namespace Plan

variable {α β : Type} {C : Contract}

/-- The operations, tasks and failures of a plan are within the contract as long as those before
them were, and then its result is as asked. -/
def Meets (C : Contract) : {α : Type} → Plan α → (α → Prop) → Prop
  | _, done a, good => good a
  | _, fail e, _ => C.failure e
  | _, move operation next, good =>
    C.requires operation ∧ ∀ b, C.ensures operation b → (next b).Meets C good
  | _, ask t next, good => C.task t ∧ ∀ a, C.answer t a → (next a).Meets C good
  | _, within _ inner next, good =>
    ∃ mid, inner.Meets C mid ∧ ∀ b, mid b → (next b).Meets C good

theorem Meets.bind {p : Plan α} {f : α → Plan β} {mid : α → Prop} {good : β → Prop}
    (hp : p.Meets C mid) (hf : ∀ a, mid a → (f a).Meets C good) : (p >>= f).Meets C good := by
  change (p.bind f).Meets C good
  induction p with
  | done a => exact hf a hp
  | fail e => exact hp
  | move operation next ih => exact ⟨hp.1, fun b hb => ih b (hp.2 b hb) hf⟩
  | ask t next ih => exact ⟨hp.1, fun a ha => ih a (hp.2 a ha) hf⟩
  | within bracket inner next _ ih =>
    obtain ⟨between, hi, hn⟩ := hp
    exact ⟨between, hi, fun b hb => ih b (hn b hb) hf⟩

theorem Meets.imp {p : Plan α} {good goal : α → Prop} (hp : p.Meets C good)
    (h : ∀ a, good a → goal a) : p.Meets C goal := by
  induction p with
  | done a => exact h a hp
  | fail e => exact hp
  | move operation next ih => exact ⟨hp.1, fun b hb => ih b (hp.2 b hb) h⟩
  | ask t next ih => exact ⟨hp.1, fun a ha => ih a (hp.2 a ha) h⟩
  | within bracket inner next _ ih =>
    obtain ⟨between, hi, hn⟩ := hp
    exact ⟨between, hi, fun b hb => ih b (hn b hb) h⟩

theorem Meets.ofExcept {r : Except Failure α} {good : α → Prop}
    (hok : ∀ a, r = .ok a → good a) (herror : ∀ e, r = .error e → C.failure e) :
    (ofExcept r).Meets C good := by
  cases r with
  | ok a => exact hok a rfl
  | error e => exact herror e rfl

theorem Meets.perform {operation : Move α} (h : C.requires operation) :
    (perform operation).Meets C (C.ensures operation) :=
  ⟨h, fun _ hb => hb⟩

theorem Meets.value {e : Expr} (h : C.task (.eval e)) :
    (value e).Meets C (C.answer (.eval e)) :=
  ⟨h, fun _ ha => ha⟩

theorem Meets.signal {s : Stmt} (h : C.task (.exec s)) :
    (signal s).Meets C (C.answer (.exec s)) :=
  ⟨h, fun _ ha => ha⟩

theorem Meets.inside {bracket : Bracket} {inner : Plan α} {good : α → Prop}
    (h : inner.Meets C good) : (inside bracket inner).Meets C good :=
  ⟨good, h, fun _ hb => hb⟩

end Plan

/-- A contract that operations and brackets keep, and that every step keeps as far as its tasks
do. -/
structure Contract.Kept (C : Contract) : Prop where
  move : ∀ {α : Type} (operation : Move α) (m : Machine), C.requires operation → C.machine m →
    Exec.Fulfils C operation.run m (C.ensures operation)
  enter : ∀ (b : Bracket) (m : Machine), C.machine m → C.machine (b.enter m)
  leave : ∀ (b : Bracket) (m : Machine), C.machine m → C.machine (b.leave m)
  plan : ∀ (fuel : Nat) (t : Task), C.task t → (t.plan fuel).Meets C (C.answer t)
  exhausted : C.failure .exhausted
  located : ∀ (cause : Fault) (place : Option Pos), C.failure (.fault cause none) →
    C.failure (.fault cause place)

namespace Exec.Fulfils

variable {α β : Type} {C : Contract} {x : Exec α} {m : Machine} {good : α → Prop}

theorem bind {f : α → Exec β} {goal : β → Prop} (hx : Fulfils C x m good)
    (hf : ∀ a n, good a → C.machine n → Fulfils C (f a) n goal) : Fulfils C (x >>= f) m goal := by
  rcases h : x m with ⟨e | a, n⟩
  · have hb : (x >>= f) m = (.error e, n) := Exec.bind_error h
    have he : C.failure e := hx.failure e (by rw [h])
    have hn : C.machine n := by simpa [h] using hx.machine
    exact ⟨by rw [hb]; exact hn, by simp [hb], by simpa [hb] using he⟩
  · have hb : (x >>= f) m = f a n := Exec.bind_ok h
    have hn : C.machine n := by simpa [h] using hx.machine
    obtain ⟨hm, hr, he⟩ := hf a n (hx.result a (by rw [h])) hn
    exact ⟨by rw [hb]; exact hm, by rw [hb]; exact hr, by rw [hb]; exact he⟩

theorem fail {e : Failure} (he : C.failure e) (hm : C.machine m) :
    Fulfils C (Exec.fail e) m good := by
  refine ⟨hm, fun a ha => (nomatch ha), fun f hf => ?_⟩
  cases hf
  exact he

theorem of_ok {a : α} {n : Machine} (hx : Fulfils C x m good) (h : x m = (.ok a, n)) :
    good a ∧ C.machine n := by
  obtain ⟨hm, hr, _⟩ := hx
  rw [h] at hm hr
  exact ⟨hr a rfl, hm⟩

theorem around (law : C.Kept) {b : Bracket} (hx : Fulfils C x (b.enter m) good) :
    Fulfils C (b.around x) m good :=
  ⟨law.leave b _ hx.machine, hx.result, hx.failure⟩

theorem located (law : C.Kept) {pos : Pos} (hx : Fulfils C x m good) :
    Fulfils C (Exec.located pos x) m good := by
  refine ⟨by rw [Exec.located_apply]; exact hx.machine, ?_, ?_⟩
  · intro a ha
    exact hx.result a (Exec.located_ok.mp ha)
  · intro e he
    obtain ⟨f, hf, rfl⟩ := Exec.located_error.mp he
    have hfail := hx.failure f hf
    cases f with
    | fault cause place =>
      cases place with
      | none => exact law.located cause _ hfail
      | some place => exact hfail
    | stuck | exhausted | overrun | unwritten => exact hfail

end Exec.Fulfils

namespace Plan

variable {α : Type} {C : Contract} {ev : Evaluator}

def Answers (C : Contract) (ev : Evaluator) : Prop :=
  ∀ t m, C.task t → C.machine m → Exec.Fulfils C (ev.answer t) m (C.answer t)

theorem run_fulfils (law : C.Kept) (hev : Answers C ev) (p : Plan α) {good : α → Prop}
    (hp : p.Meets C good) (m : Machine) (hm : C.machine m) : Exec.Fulfils C (p.run ev) m good := by
  induction p generalizing m with
  | done a =>
    refine ⟨hm, fun b hb => ?_, fun e he => nomatch he⟩
    cases hb
    exact hp
  | fail e => exact .fail hp hm
  | move operation next ih =>
    exact (law.move operation m hp.1 hm).bind fun b n hb hn => ih b (hp.2 b hb) n hn
  | ask t next ih => exact (hev t m hp.1 hm).bind fun a n ha hn => ih a (hp.2 a ha) n hn
  | within bracket inner next ihi ih =>
    obtain ⟨mid, hi, hn⟩ := hp
    have hinner := ihi hi (bracket.enter m) (law.enter bracket m hm)
    exact (hinner.around law).bind fun b n hb hm' => ih b (hn b hb) n hm'

theorem asks_within (law : C.Kept) (hev : Answers C ev) (p : Plan α) {good : α → Prop}
    (hp : p.Meets C good) (m : Machine) (hm : C.machine m) {u : Task} {m' : Machine}
    (h : p.Asks ev m u m') : C.task u ∧ C.machine m' := by
  induction p generalizing m with
  | done a => exact h.elim
  | fail e => exact h.elim
  | move operation next ih =>
    obtain ⟨b, n, hr, h⟩ := h
    obtain ⟨hb, hn⟩ := (law.move operation m hp.1 hm).of_ok hr
    exact ih b (hp.2 b hb) n hn h
  | ask t next ih =>
    obtain ⟨rfl, rfl⟩ | ⟨a, n, hr, h⟩ := h
    · exact ⟨hp.1, hm⟩
    · obtain ⟨ha, hn⟩ := (hev t m hp.1 hm).of_ok hr
      exact ih a (hp.2 a ha) n hn h
  | within bracket inner next ihi ih =>
    obtain ⟨mid, hi, hnext⟩ := hp
    have hin := law.enter bracket m hm
    obtain h | ⟨b, n, hr, h⟩ := h
    · exact ihi hi (bracket.enter m) hin h
    · obtain ⟨hb, hn⟩ := ((run_fulfils law hev inner hi _ hin).around law).of_ok hr
      exact ih b (hnext b hb) n hn h

theorem visits_within (law : C.Kept) (hev : Answers C ev) (p : Plan α) {good : α → Prop}
    (hp : p.Meets C good) (m : Machine) (hm : C.machine m) {q : Machine}
    (h : p.Visits ev m q) : C.machine q := by
  induction p generalizing m with
  | done a => exact h ▸ hm
  | fail e => exact h ▸ hm
  | move operation next ih =>
    have hmove := law.move operation m hp.1 hm
    obtain rfl | rfl | ⟨b, n, hr, h⟩ := h
    · exact hm
    · exact hmove.machine
    · obtain ⟨hb, hn⟩ := hmove.of_ok hr
      exact ih b (hp.2 b hb) n hn h
  | ask t next ih =>
    have hask := hev t m hp.1 hm
    obtain rfl | rfl | ⟨a, n, hr, h⟩ := h
    · exact hm
    · exact hask.machine
    · obtain ⟨ha, hn⟩ := hask.of_ok hr
      exact ih a (hp.2 a ha) n hn h
  | within bracket inner next ihi ih =>
    obtain ⟨mid, hi, hnext⟩ := hp
    have hin := law.enter bracket m hm
    have hbracket := (run_fulfils law hev inner hi _ hin).around law
    obtain rfl | h | rfl | ⟨b, n, hr, h⟩ := h
    · exact hm
    · exact ihi hi (bracket.enter m) hin h
    · exact hbracket.machine
    · obtain ⟨hb, hn⟩ := hbracket.of_ok hr
      exact ih b (hnext b hb) n hn h

end Plan

namespace Task

variable {C : Contract}

/-- Tasks run within a contract that every step keeps. -/
theorem run_fulfils (law : C.Kept) (fuel : Nat) (t : Task) (m : Machine) (ht : C.task t)
    (hm : C.machine m) : Exec.Fulfils C (t.run fuel) m (C.answer t) := by
  induction fuel generalizing t m with
  | zero =>
    have h : t.run 0 = Exec.fail .exhausted := by cases t <;> rfl
    rw [h]
    exact .fail law.exhausted hm
  | succ fuel ih =>
    rw [run_succ]
    have hev : Plan.Answers C (.upTo fuel) := by
      intro u n hu hn
      rw [Evaluator.answer_upTo]
      exact ih u n hu hn
    exact (Plan.run_fulfils law hev _ (law.plan fuel t ht) m hm).located law

theorem answers_upTo (law : C.Kept) (fuel : Nat) : Plan.Answers C (.upTo fuel) := by
  intro t m ht hm
  rw [Evaluator.answer_upTo]
  exact run_fulfils law fuel t m ht hm

/-- Every task that is reached in the run of one is within the contract, and so is the machine that
it is handed on with. -/
theorem reaches_within (law : C.Kept) {fuel k : Nat} {t u : Task} {m m' : Machine}
    (ht : C.task t) (hm : C.machine m) (h : t.Reaches fuel m k u m') :
    C.task u ∧ C.machine m' := by
  induction h with
  | here => exact ⟨ht, hm⟩
  | inside hask _ ih =>
    obtain ⟨hu, hn⟩ := Plan.asks_within law (answers_upTo law _) _ (law.plan _ _ ht) _ hm hask
    exact ih hu hn

theorem visits_within (law : C.Kept) {fuel : Nat} {t : Task} {m q : Machine} (ht : C.task t)
    (hm : C.machine m) (h : t.Visits fuel m q) : C.machine q := by
  cases fuel with
  | zero => exact h ▸ hm
  | succ fuel =>
    obtain rfl | h := h
    · exact (run_fulfils law (fuel + 1) t m ht hm).machine
    · exact Plan.visits_within law (answers_upTo law fuel) _ (law.plan fuel t ht) m hm h

end Task

def Answer.failure? : Answer → Option Failure
  | ran (.error e) => some e
  | evaluated (.error e) => some e
  | executed _ failure => failure
  | _ => none

theorem Answer.failure?_ran {r : Except Failure Unit} {e : Failure} :
    (ran r).failure? = some e ↔ r = .error e := by
  cases r <;> simp [failure?]

theorem Answer.failure?_evaluated {r : Except Failure Value} {e : Failure} :
    (evaluated r).failure? = some e ↔ r = .error e := by
  cases r <;> simp [failure?]

namespace Request

variable {C : Contract} {fuel : Nat} {m : Machine}

/-- What a request hands on is within the contract. -/
def Within (C : Contract) : Request → Prop
  | run p => (Plan.program p).Meets C fun _ => True
  | evaluate e => C.task (.eval e)
  | execute body => ∀ s ∈ body, C.task (.exec s)

theorem executeAll_within {ev : Evaluator} (hev : Plan.Answers C ev) {body : List Stmt}
    (hb : ∀ s ∈ body, C.task (.exec s)) (hm : C.machine m) :
    C.machine (m.executeAll ev.exec body).2 ∧
      ∀ e, (m.executeAll ev.exec body).1.2 = some e → C.failure e := by
  induction body generalizing m with
  | nil => exact ⟨hm, fun _ he => nomatch he⟩
  | cons s rest ih =>
    obtain ⟨hs, hrest⟩ := List.forall_mem_cons.mp hb
    obtain ⟨hn, _, hfailure⟩ := hev (.exec s) m hs hm
    change C.machine (ev.exec s m).2 at hn
    change ∀ e, (ev.exec s m).1 = .error e → C.failure e at hfailure
    rcases he : ev.exec s m with ⟨e | signal, n⟩ <;> rw [he] at hn hfailure <;>
      simp only [Machine.executeAll, he]
    · exact ⟨hn, fun f hf => hfailure f (congrArg Except.error (Option.some.inj hf))⟩
    · exact ih hrest hn

/-- The machine that a request leaves is within the contract, and so is the failure that it comes
to, where the evaluators of programs and of their parts answer within it. -/
theorem Within.serveWith (law : C.Kept) {ev ev' : Evaluator} (hev : Plan.Answers C ev)
    (hev' : Plan.Answers C ev') {r : Request} (hr : r.Within C) (hm : C.machine m) :
    C.machine (m.serveWith (runWith ev.exec) ev' r).2 ∧
      ∀ e, (m.serveWith (runWith ev.exec) ev' r).1.failure? = some e → C.failure e := by
  cases r with
  | run p =>
    have h := Plan.run_fulfils law hev _ hr m hm
    rw [Plan.run_runWith] at h
    exact ⟨h.machine, fun e he => h.failure e (Answer.failure?_ran.mp he)⟩
  | evaluate e =>
    have h := hev' (.eval e) m hr hm
    exact ⟨h.machine, fun f hf => h.failure f (Answer.failure?_evaluated.mp hf)⟩
  | execute body => exact executeAll_within hev' hr hm

theorem Within.serve (law : C.Kept) {r : Request} (hr : r.Within C) (hm : C.machine m) :
    C.machine (m.serve fuel r).2 ∧ ∀ e, (m.serve fuel r).1.failure? = some e → C.failure e :=
  hr.serveWith law (Task.answers_upTo law fuel) (Task.answers_upTo law fuel) hm

end Request

end Guion
