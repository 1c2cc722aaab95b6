import Guion.Proofs.Depth
import Guion.Proofs.Discipline
import Guion.Proofs.Plan.Table

namespace Guion

structure Machine.Level (m n : Machine) : Prop extends m.SameSettings n where
  calls : n.calls = m.calls

theorem Machine.Level.refl (m : Machine) : m.Level m := ⟨.refl m, rfl⟩

theorem Machine.Level.trans {l m n : Machine} (hlm : l.Level m) (hmn : m.Level n) : l.Level n :=
  ⟨hlm.toSameSettings.trans hmn.toSameSettings, hmn.calls.trans hlm.calls⟩

theorem Move.run_level {α : Type} (operation : Move α) (m : Machine) :
    m.Level (operation.run m).2 :=
  ⟨(operation.run_same m).1, (operation.run_grown m).calls⟩

theorem Bracket.leave_level {m n : Machine} (b : Bracket) (h : (b.enter m).Level n) :
    m.Level (b.leave n) := by
  cases b with
  | scope => exact ⟨⟨h.limit, h.stack, h.verbosity, h.lacking⟩, h.calls⟩
  | call =>
    have hcalls : n.calls = m.calls + 1 := h.calls
    exact ⟨⟨h.limit, h.stack, h.verbosity, h.lacking⟩, by simp [leave, hcalls]⟩
  | tracing => exact ⟨⟨h.limit, h.stack, h.verbosity, h.lacking⟩, h.calls⟩

theorem Plan.run_level {ev : Evaluator}
    (hev : ∀ (t : Task) (m : Machine), m.Level (ev.answer t m).2)
    {α : Type} (p : Plan α) (m : Machine) : m.Level (p.run ev m).2 := by
  have htrans : ∀ l m n : Machine, l.Level m → m.Level n → l.Level n := fun _ _ _ h h' => h.trans h'
  induction p generalizing m with
  | done a => exact .refl m
  | fail e => exact .refl m
  | move operation next ih => exact Exec.bind_related htrans (operation.run_level m) ih
  | ask t next ih => exact Exec.bind_related htrans (hev t m) ih
  | within bracket inner next ihi ih =>
    exact Exec.bind_related htrans (bracket.leave_level (ihi (bracket.enter m))) ih

theorem Task.run_level (fuel : Nat) (t : Task) (m : Machine) : m.Level (t.run fuel m).2 := by
  induction fuel generalizing t m with
  | zero =>
    rw [run_zero]
    exact .refl m
  | succ fuel ih =>
    rw [run_snd_succ]
    refine Plan.run_level (fun u n => ?_) (t.plan fuel) m
    rw [Evaluator.answer_upTo]
    exact ih u n

def Bracket.opens : Bracket → Nat
  | call => 1
  | _ => 0

namespace Plan

variable {α β : Type}

def after (r : Except Failure β × Machine) (next : β → Machine → List (Nat × Machine)) :
    List (Nat × Machine) :=
  match r with
  | (.ok b, n) => next b n
  | (.error _, n) => [(0, n)]

/-- The moments of a plan that is carried out on a machine: each machine that it passes through with
the number of calls open by then. `course` tells the moments of the tasks that it hands on. -/
def moments (ev : Evaluator) (course : Task → Machine → List (Nat × Machine)) :
    {α : Type} → Plan α → Machine → List (Nat × Machine)
  | _, done _, m => [(0, m)]
  | _, fail _, m => [(0, m)]
  | _, move operation next, m =>
    (0, m) :: after (operation.run m) fun b n => (next b).moments ev course n
  | _, ask t next, m =>
    course t m ++ after (ev.answer t m) fun a n => (next a).moments ev course n
  | _, within bracket inner next, m =>
    (0, m) ::
      (inner.moments ev course (bracket.enter m)).map (fun x => (x.1 + bracket.opens, x.2)) ++
      after (bracket.around (inner.run ev) m) fun b n => (next b).moments ev course n

end Plan

/-- The moments of a task, those of the tasks inside it and of the functions that it calls
included. -/
def Task.moments : Nat → Task → Machine → List (Nat × Machine)
  | 0, _, m => [(0, m)]
  | fuel + 1, t, m => (t.plan fuel).moments (.upTo fuel) (moments fuel) m

def Program.moments (fuel : Nat) (p : Program) (m : Machine) : List (Nat × Machine) :=
  (Plan.program p).moments (.upTo fuel) (Task.moments fuel) m

/-- A moment of a computation on `m` whose machine counts the calls open by then, and no more than
the limit allows where there are any. -/
structure Counted (limit : Int) (m : Machine) (x : Nat × Machine) : Prop where
  calls : x.2.calls = m.calls + x.1
  bound : x.1 ≠ 0 → x.2.calls ≤ limit

namespace Counted

variable {limit : Int} {m n : Machine} {x : Nat × Machine}

theorem here (h : m.Level n) : Counted limit m (0, n) := ⟨h.calls, fun hx => absurd rfl hx⟩

theorem later (h : m.Level n) (hx : Counted limit n x) : Counted limit m x :=
  ⟨hx.calls.trans (congrArg (· + x.1) h.calls), hx.bound⟩

theorem called (hroom : m.calls < limit) (hx : Counted limit (Bracket.call.enter m) x) :
    Counted limit m (x.1 + 1, x.2) := by
  have hcalls : x.2.calls = m.calls + 1 + x.1 := hx.calls
  refine ⟨by simp only [hcalls]; omega, fun _ => ?_⟩
  by_cases h : x.1 = 0
  · rw [h] at hcalls
    simp only [hcalls]
    omega
  · exact hx.bound h

end Counted

namespace Plan

variable {α β : Type} {limit : Int} {ev : Evaluator}
  {course : Task → Machine → List (Nat × Machine)} {m : Machine}

theorem counted_after {r : Except Failure β × Machine}
    {next : β → Machine → List (Nat × Machine)} (hr : m.Level r.2)
    (h : ∀ b n, r = (.ok b, n) → ∀ x ∈ next b n, Counted limit n x) :
    ∀ x ∈ after r next, Counted limit m x := by
  obtain ⟨e | b, n⟩ := r
  · exact List.forall_mem_singleton.mpr (.here hr)
  · intro x hx
    exact (h b n rfl x hx).later hr

theorem mem_after {r : Except Failure β × Machine}
    {next next' : β → Machine → List (Nat × Machine)} {rest : β → Machine → Prop}
    {x : Nat × Machine} (h : ∀ b n, x ∈ next' b n → x ∈ next b n ∨ rest b n)
    (hx : x ∈ after r next') : x ∈ after r next ∨ ∃ b n, r = (.ok b, n) ∧ rest b n := by
  obtain ⟨e | b, n⟩ := r
  · exact .inl hx
  · obtain hx | hx := h b n hx
    · exact .inl hx
    · exact .inr ⟨b, n, rfl, hx⟩

theorem moments_bind {p : Plan α} {f : α → Plan β} {x : Nat × Machine}
    (h : x ∈ (p >>= f).moments ev course m) :
    x ∈ p.moments ev course m ∨
      ∃ a n, p.run ev m = (.ok a, n) ∧ x ∈ (f a).moments ev course n := by
  change x ∈ (p.bind f).moments ev course m at h
  induction p generalizing m with
  | done a => exact .inr ⟨a, m, rfl, h⟩
  | fail e => exact .inl h
  | move operation next ih =>
    obtain rfl | h := List.mem_cons.mp h
    · exact .inl List.mem_cons_self
    · obtain h | ⟨b, n, hr, a, q, hq, h⟩ := mem_after (fun b n => ih b (m := n)) h
      · exact .inl (List.mem_cons_of_mem _ h)
      · exact .inr ⟨a, q, (Exec.bind_ok hr).trans hq, h⟩
  | ask t next ih =>
    obtain h | h := List.mem_append.mp h
    · exact .inl (List.mem_append_left _ h)
    · obtain h | ⟨b, n, hr, a, q, hq, h⟩ := mem_after (fun b n => ih b (m := n)) h
      · exact .inl (List.mem_append_right _ h)
      · exact .inr ⟨a, q, (Exec.bind_ok hr).trans hq, h⟩
  | within bracket inner next _ ih =>
    obtain h | h := List.mem_append.mp h
    · exact .inl (List.mem_append_left _ h)
    · obtain h | ⟨b, n, hr, a, q, hq, h⟩ := mem_after (fun b n => ih b (m := n)) h
      · exact .inl (List.mem_append_right _ h)
      · exact .inr ⟨a, q, (Exec.bind_ok hr).trans hq, h⟩

section Counted

variable (hev : ∀ (t : Task) (n : Machine), n.Level (ev.answer t n).2)

include hev

theorem counted_bind {p : Plan α} {f : α → Plan β}
    (hp : ∀ x ∈ p.moments ev course m, Counted limit m x)
    (hf : ∀ a n, p.run ev m = (.ok a, n) → ∀ x ∈ (f a).moments ev course n, Counted limit n x) :
    ∀ x ∈ (p >>= f).moments ev course m, Counted limit m x := by
  intro x hx
  obtain hx | ⟨a, n, hr, hx⟩ := moments_bind hx
  · exact hp x hx
  · have hlevel : m.Level n := by simpa [hr] using p.run_level hev m
    exact (hf a n hr x hx).later hlevel

omit hev in
theorem counted_perform (operation : Move α) :
    ∀ x ∈ (perform operation).moments ev course m, Counted limit m x := by
  refine List.forall_mem_cons.mpr ⟨.here (.refl m), counted_after (operation.run_level m) ?_⟩
  intro b n _
  exact List.forall_mem_singleton.mpr (.here (.refl n))

omit hev in
theorem counted_pure (a : α) : ∀ x ∈ (pure a : Plan α).moments ev course m, Counted limit m x :=
  List.forall_mem_singleton.mpr (.here (.refl m))

theorem counted_bindAll (params : List Param) (vs : List Value) :
    ∀ x ∈ (bindAll params vs).moments ev course m, Counted limit m x := by
  induction params generalizing vs m with
  | nil => exact counted_pure ()
  | cons p ps ih =>
    cases vs with
    | nil => exact counted_pure ()
    | cons v vs => exact counted_bind hev (counted_perform _) fun _ _ _ => ih vs

omit hev in
theorem counted_noteCall (name : Name) (vs : List Value) :
    ∀ x ∈ (noteCall name vs).moments ev course m, Counted limit m x := by
  unfold noteCall
  split
  · exact List.forall_mem_singleton.mpr (.here (.refl m))
  · exact counted_perform _

theorem counted_around {bracket : Bracket} {inner : Plan β} {next : β → Plan α}
    (hinner : ∀ x ∈ inner.moments ev course (bracket.enter m),
      Counted limit m (x.1 + bracket.opens, x.2))
    (hnext : ∀ b n, m.Level n → ∀ x ∈ (next b).moments ev course n, Counted limit n x) :
    ∀ x ∈ (within bracket inner next).moments ev course m, Counted limit m x := by
  have hlevel : m.Level (bracket.around (inner.run ev) m).2 :=
    bracket.leave_level (inner.run_level hev _)
  refine List.forall_mem_append.mpr ⟨List.forall_mem_cons.mpr ⟨.here (.refl m), ?_⟩, ?_⟩
  · intro x hx
    obtain ⟨y, hy, rfl⟩ := List.mem_map.mp hx
    exact hinner y hy
  · refine counted_after hlevel fun b n hr => hnext b n ?_
    simpa [hr] using hlevel

theorem counted_inside {bracket : Bracket} {inner : Plan α}
    (hinner : ∀ x ∈ inner.moments ev course (bracket.enter m),
      Counted limit m (x.1 + bracket.opens, x.2)) :
    ∀ x ∈ (inside bracket inner).moments ev course m, Counted limit m x :=
  counted_around hev hinner fun b _ _ => counted_pure b

theorem counted_enter {f : Function} (vs : List Value) (hm : m.limit = limit)
    (hbody : ∀ n : Machine, n.limit = limit → ∀ x ∈ course (.exec f.body) n, Counted limit n x) :
    ∀ x ∈ (enter f vs).moments ev course m, Counted limit m x := by
  refine counted_bind hev (counted_perform _) fun _ m₁ h₁ => ?_
  obtain ⟨rfl, hroom⟩ : m₁ = m ∧ m.calls < limit := by
    rw [run_perform, Move.run, Exec.checkDepth] at h₁
    split at h₁
    · cases h₁
    · cases h₁
      exact ⟨rfl, by omega⟩
  refine counted_bind hev (counted_noteCall _ _) fun _ m₂ h₂ => ?_
  have hlevel : m₁.Level m₂ := by simpa [h₂] using (noteCall f.name vs).run_level hev m₁
  have hroom₂ : m₂.calls < limit := by rw [hlevel.calls]; exact hroom
  have hinner : ∀ n : Machine, n.limit = limit →
      ∀ x ∈ (body f vs).moments ev course n, Counted limit n x := by
    intro n hn
    refine counted_bind hev (counted_bindAll hev _ _) fun _ n' hr => ?_
    have hn' : n.Level n' := by simpa [hr] using (bindAll f.params vs).run_level hev n
    refine List.forall_mem_append.mpr ⟨hbody n' (hn'.limit.trans hn), ?_⟩
    exact counted_after (hev _ _) fun _ q _ => counted_pure _
  have hcall : ∀ x ∈ (inside .call (inside .scope (body f vs))).moments ev course m₂,
      Counted limit m₂ x := by
    refine counted_inside hev fun x hx => .called hroom₂ ?_
    refine counted_inside (m := Bracket.call.enter m₂) hev (fun y hy => ?_) x hx
    have hcounted :=
      hinner (Bracket.scope.enter (Bracket.call.enter m₂)) (hlevel.limit.trans hm) y hy
    exact ⟨hcounted.calls, hcounted.bound⟩
  refine counted_bind hev hcall fun signal m₃ _ => ?_
  exact counted_bind hev (counted_perform _) fun _ _ _ => counted_pure _

theorem Shape.counted {tasks : Task → Prop} {failures : Failure → Prop} {p : Plan α}
    (hp : p.Shape tasks (fun _ => True) failures)
    (hcourse : ∀ (t : Task) (n : Machine), n.limit = limit → ∀ x ∈ course t n, Counted limit n x)
    (hm : m.limit = limit) : ∀ x ∈ p.moments ev course m, Counted limit m x := by
  induction hp generalizing m with
  | done a => exact counted_pure a
  | fail _ => exact List.forall_mem_singleton.mpr (.here (.refl m))
  | @move _ _ operation _ _ _ ih =>
    have hlevel := operation.run_level m
    refine List.forall_mem_cons.mpr ⟨.here (.refl m), counted_after hlevel fun b n hr => ?_⟩
    rw [hr] at hlevel
    exact ih b (finds_any operation b) (hlevel.limit.trans hm)
  | @ask _ t _ _ _ ih =>
    refine List.forall_mem_append.mpr ⟨hcourse t m hm, counted_after (hev t m) fun a n hr => ?_⟩
    have hlevel : m.Level n := by simpa [hr] using hev t m
    exact ih a (hlevel.limit.trans hm)
  | @within _ _ bracket inner _ hb _ _ ihi ih =>
    refine counted_around hev (fun x hx => ?_) fun b n hn => ih b (hn.limit.trans hm)
    cases bracket with
    | scope =>
      have hcounted := ihi (m := Bracket.scope.enter m) hm x hx
      exact ⟨hcounted.calls, hcounted.bound⟩
    | tracing => exact ihi hm x hx
    | call => exact absurd rfl hb
  | @enter _ f vs next _ _ ih =>
    refine counted_bind hev (counted_enter hev vs hm fun n => hcourse _ n) fun v n hr => ?_
    have hlevel : m.Level n := by simpa [hr] using (Plan.enter f vs).run_level hev m
    exact ih v (hlevel.limit.trans hm)

end Counted

end Plan

theorem Task.answer_level (fuel : Nat) (t : Task) (m : Machine) :
    m.Level ((Evaluator.upTo fuel).answer t m).2 := by
  rw [Evaluator.answer_upTo]
  exact t.run_level fuel m

theorem Task.moments_counted (fuel : Nat) (t : Task) (m : Machine) :
    ∀ x ∈ t.moments fuel m, Counted m.limit m x := by
  induction fuel generalizing t m with
  | zero => exact List.forall_mem_singleton.mpr (.here (.refl m))
  | succ fuel ih =>
    have hshape := t.plan_shape fuel (fun _ => True) fun _ _ => trivial
    refine hshape.counted (answer_level fuel) (fun u n hn => ?_) rfl
    rw [← hn]
    exact ih u n

theorem Program.moments_counted (fuel : Nat) (p : Program) (m : Machine) :
    ∀ x ∈ p.moments fuel m, Counted m.limit m x := by
  have hshape : (Plan.program p).Shape (fun _ => True) (fun _ => True) fun _ => True :=
    Plan.shape_program fun _ _ => trivial
  refine hshape.counted (Task.answer_level fuel) (fun t n hn => ?_) rfl
  rw [← hn]
  exact t.moments_counted fuel n

end Guion
