import Guion.Proofs.Plan.Parts

namespace Guion

/-- A trace that takes every event: it can write all texts, or does not report what quotes any. -/
def Trace.Takes (t : Trace) : Prop :=
  t.lacking = [] ∨ t.verbosity < 2

theorem Event.level_of_quoted {event : Event} (h : event.quoted ≠ []) : 2 ≤ event.level := by
  cases event with
  | started | stopped | finished | loopEnded | branched => exact absurd rfl h
  | declared | defined | called | returned => simp [level]

theorem Trace.Takes.refuses {t : Trace} (h : t.Takes) (event : Event) :
    t.refuses event = false := by
  obtain h | h := h
  · simp [Trace.refuses, h]
  · by_cases hq : event.quoted = []
    · exact t.refuses_plain hq
    · have hlevel := Event.level_of_quoted hq
      have hlow : ¬ event.level ≤ t.verbosity := by omega
      simp [Trace.refuses, hlow]

/-- Where the trace takes every event it goes on to, and nothing is left unwritten. -/
def reporting : Contract where
  machine m := m.trace.Takes
  requires _ := True
  ensures _ _ := True
  task _ := True
  answer _ _ := True
  failure e := e ≠ .unwritten

theorem reporting_admits : reporting.Admits fun _ => True where
  move _ _ := trivial
  finds operation b _ := Plan.finds_any operation b
  body _ _ := trivial
  fresh e he := by
    rintro rfl
    exact he

theorem reporting_kept : reporting.Kept where
  move operation m _ hm := by
    have hsame := (operation.run_same m).1
    refine ⟨?_, fun _ _ => trivial, fun e he => ?_⟩
    · change (operation.run m).2.trace.lacking = [] ∨ (operation.run m).2.trace.verbosity < 2
      rw [hsame.verbosity, hsame.lacking]
      exact hm
    · rintro rfl
      obtain h | ⟨_, event, h⟩ := operation.run_error he
      · exact h
      · rw [Trace.Takes.refuses hm event] at h
        cases h
  enter b _ hm := by cases b <;> exact hm
  leave b _ hm := by cases b <;> exact hm
  plan fuel t _ := by
    have hshape := t.plan_shape fuel (fun _ => True) fun _ _ => trivial
    refine hshape.meets reporting_admits (fun _ _ => trivial) ?_
    rintro e (he | ⟨_, rfl⟩)
    · exact reporting_admits.fresh e he
    · exact (nomatch ·)
  exhausted := (nomatch ·)
  located _ _ _ := (nomatch ·)

theorem program_reporting (p : Program) : (Plan.program p).Meets reporting fun _ => True := by
  have hshape : (Plan.program p).Shape (fun _ => True) (fun _ => True) fun _ => False :=
    Plan.shape_program fun _ _ => trivial
  exact hshape.meets reporting_admits (fun _ _ => trivial) fun _ he => he.elim

theorem Request.within_reporting (r : Request) : r.Within reporting := by
  cases r with
  | run p => exact program_reporting p
  | evaluate e => trivial
  | execute body => exact fun _ _ => trivial

theorem run_written {fuel : Nat} {p : Program} {m : Machine} (hm : m.trace.Takes) :
    (run fuel p m).1 ≠ .error .unwritten := by
  intro h
  rw [← Plan.run_program] at h
  have hrun := Plan.run_fulfils reporting_kept (Task.answers_upTo reporting_kept fuel) _
    (program_reporting p) m hm
  exact hrun.failure _ h rfl

end Guion
