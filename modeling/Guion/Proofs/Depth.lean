import Guion.Proofs.Plan.Shape

namespace Guion

namespace Plan

variable {α β : Type}

/-- The second plan is the first one, except that it may go on where the first is cut short. -/
inductive Refines : {α : Type} → Plan α → Plan α → Prop where
  | done {α : Type} (a : α) : Refines (.done a) (.done a)
  | fail {α : Type} (e : Failure) : Refines (.fail e : Plan α) (.fail e)
  | longer {α : Type} (q : Plan α) : Refines (.fail .exhausted) q
  | move {α β : Type} (operation : Move β) {next next' : β → Plan α} :
    (∀ b, Refines (next b) (next' b)) → Refines (.move operation next) (.move operation next')
  | ask {α : Type} (t : Task) {next next' : t.Answer → Plan α} :
    (∀ a, Refines (next a) (next' a)) → Refines (.ask t next) (.ask t next')
  | within {α β : Type} (bracket : Bracket) {inner inner' : Plan β} {next next' : β → Plan α} :
    Refines inner inner' → (∀ b, Refines (next b) (next' b)) →
    Refines (.within bracket inner next) (.within bracket inner' next')

namespace Refines

theorem refl (p : Plan α) : p.Refines p := by
  induction p with
  | done a => exact .done a
  | fail e => exact .fail e
  | move operation next ih => exact .move operation ih
  | ask t next ih => exact .ask t ih
  | within bracket inner next ihi ih => exact .within bracket ihi ih

theorem bind {p q : Plan α} {f g : α → Plan β} (hp : p.Refines q)
    (hf : ∀ a, (f a).Refines (g a)) : (p >>= f).Refines (q >>= g) := by
  induction hp with
  | done a => exact hf a
  | fail e => exact .fail e
  | longer q => exact .longer _
  | move operation _ ih => exact .move operation fun b => ih b hf
  | ask t _ ih => exact .ask t fun a => ih a hf
  | within bracket hi _ _ ih => exact .within bracket hi fun b => ih b hf

end Refines

theorem iterate_refines (test : Plan Bool) (body : Stmt) (next : Plan Unit) (rounds : Nat) :
    (iterate test body next rounds).Refines (iterate test body next (rounds + 1)) := by
  induction rounds with
  | zero => exact .longer _
  | succ rounds ih =>
    refine (Refines.refl test).bind fun b => ?_
    cases b with
    | false => exact .refl _
    | true =>
      refine (Refines.refl (signal body)).bind fun signal => ?_
      cases signal with
      | broken | returned v => exact .refl _
      | normal | continued => exact (Refines.refl next).bind fun _ => ih

theorem exec_refines (rounds : Nat) (s : Stmt) : (exec rounds s).Refines (exec (rounds + 1) s) := by
  cases s with
  | whileLoop pos test body => exact iterate_refines _ _ _ rounds
  | forLoop pos first test update body =>
    refine .within .scope ?_ fun _ => .refl _
    exact (Refines.refl (signal first)).bind fun _ => iterate_refines _ _ _ rounds
  | _ => exact .refl _

/-- The second evaluator gives every answer that the first one gives uncut. -/
def Prolongs (ev ev' : Evaluator) : Prop :=
  ∀ t m, (ev.answer t m).1 ≠ .error .exhausted → ev'.answer t m = ev.answer t m

theorem Refines.run {ev ev' : Evaluator} {p q : Plan α} (h : p.Refines q) (hev : Prolongs ev ev')
    (m : Machine) (hm : (p.run ev m).1 ≠ .error .exhausted) : q.run ev' m = p.run ev m := by
  induction h generalizing m with
  | done a => rfl
  | fail e => rfl
  | longer q => exact absurd rfl hm
  | move operation _ ih =>
    simp only [Plan.run] at hm ⊢
    rcases hr : operation.run m with ⟨e | b, n⟩
    · rw [Exec.bind_error hr, Exec.bind_error hr]
    · rw [Exec.bind_ok hr] at hm
      rw [Exec.bind_ok hr, Exec.bind_ok hr]
      exact ih b n hm
  | ask t _ ih =>
    simp only [Plan.run] at hm ⊢
    rcases hr : ev.answer t m with ⟨e | a, n⟩
    · rw [Exec.bind_error hr] at hm
      -- a task that was cut short would cut the plan short
      have hcut : e ≠ .exhausted := fun he => hm (congrArg Except.error he)
      have hr' : ev'.answer t m = (.error e, n) := by rw [hev t m (by simp [hr, hcut]), hr]
      rw [Exec.bind_error hr, Exec.bind_error hr']
    · rw [Exec.bind_ok hr] at hm
      have hr' : ev'.answer t m = (.ok a, n) := by rw [hev t m (by simp [hr]), hr]
      rw [Exec.bind_ok hr, Exec.bind_ok hr']
      exact ih a n hm
  | within bracket _ _ ihi ih =>
    rename_i inner inner' next next' _ _
    simp only [Plan.run] at hm ⊢
    have hinner : (inner.run ev (bracket.enter m)).1 ≠ .error .exhausted := by
      intro hcut
      exact hm (bind_error_iff.mpr (.inl (around_error.mpr hcut)))
    have hsame : bracket.around (inner'.run ev') m = bracket.around (inner.run ev) m := by
      simp only [Bracket.around, ihi (bracket.enter m) hinner]
    rcases hr : bracket.around (inner.run ev) m with ⟨e | b, n⟩
    · rw [Exec.bind_error hr, Exec.bind_error (hsame.trans hr)]
    · rw [Exec.bind_ok hr] at hm
      rw [Exec.bind_ok hr, Exec.bind_ok (hsame.trans hr)]
      exact ih b n hm

end Plan

namespace Task

theorem plan_refines (rounds : Nat) (t : Task) :
    (t.plan rounds).Refines (t.plan (rounds + 1)) := by
  cases t with
  | eval e => exact .refl _
  | exec s => exact Plan.exec_refines rounds s

theorem run_exhausted_iff (fuel : Nat) (t : Task) (m : Machine) :
    (t.run (fuel + 1) m).1 = .error .exhausted ↔
      ((t.plan fuel).run (.upTo fuel) m).1 = .error .exhausted := by
  rw [run_succ, Exec.located_error]
  constructor
  · rintro ⟨f, hf, hl⟩
    rcases f with ⟨cause, _ | place⟩ | _ | _ | _ | _ <;> cases hl
    exact hf
  · intro h
    exact ⟨_, h, rfl⟩

theorem run_zero (t : Task) (m : Machine) : t.run 0 m = (.error .exhausted, m) := by
  cases t <;> rfl

theorem run_more (fuel : Nat) (t : Task) (m : Machine)
    (h : (t.run fuel m).1 ≠ .error .exhausted) : t.run (fuel + 1) m = t.run fuel m := by
  induction fuel generalizing t m with
  | zero =>
    rw [run_zero] at h
    exact absurd rfl h
  | succ fuel ih =>
    rw [Ne, run_exhausted_iff] at h
    have hev : Plan.Prolongs (.upTo fuel) (.upTo (fuel + 1)) := by
      intro u n hu
      rw [Evaluator.answer_upTo] at hu ⊢
      rw [Evaluator.answer_upTo]
      exact ih u n hu
    rw [run_succ, run_succ, Exec.located_apply, Exec.located_apply,
      (plan_refines fuel t).run hev m h]

theorem run_deeper {fuel depth : Nat} (hd : fuel ≤ depth) {t : Task} {m : Machine}
    (h : (t.run fuel m).1 ≠ .error .exhausted) : t.run depth m = t.run fuel m := by
  induction hd with
  | refl => rfl
  | step _ ih =>
    rw [← ih] at h
    rw [run_more _ t m h, ih]

end Task

theorem run_more (fuel : Nat) (p : Program) (m : Machine)
    (h : (run fuel p m).1 ≠ .error .exhausted) : run (fuel + 1) p m = run fuel p m := by
  rw [← Plan.run_program] at h ⊢
  rw [← Plan.run_program]
  refine (Plan.Refines.refl (Plan.program p)).run (fun t n ht => ?_) m h
  rw [Evaluator.answer_upTo] at ht ⊢
  rw [Evaluator.answer_upTo]
  exact t.run_more fuel n ht

/-- More depth than a run takes makes no difference to it. -/
theorem run_deeper {fuel depth : Nat} (hd : fuel ≤ depth) {p : Program} {m : Machine}
    (h : (run fuel p m).1 ≠ .error .exhausted) : run depth p m = run fuel p m := by
  induction hd with
  | refl => rfl
  | step _ ih =>
    rw [← ih] at h
    rw [run_more _ p m h, ih]

end Guion
