import Guion.Proofs.Discipline.Machine
import Guion.Proofs.Plan.Shape

namespace Guion

def Machine.Knows (functions : Function → Prop) (m : Machine) : Prop :=
  ∀ f ∈ m.functions, functions f

/-- What no run changes is the same: the limit on calls, the stack, and what the trace takes. -/
structure Machine.SameSettings (m n : Machine) : Prop where
  limit : n.limit = m.limit
  stack : n.stack = m.stack
  verbosity : n.trace.verbosity = m.trace.verbosity
  lacking : n.trace.lacking = m.trace.lacking

theorem Machine.SameSettings.refl (m : Machine) : m.SameSettings m := ⟨rfl, rfl, rfl, rfl⟩

theorem Machine.SameSettings.trans {l m n : Machine} (hlm : l.SameSettings m)
    (hmn : m.SameSettings n) : l.SameSettings n :=
  ⟨hmn.limit.trans hlm.limit, hmn.stack.trans hlm.stack, hmn.verbosity.trans hlm.verbosity,
    hmn.lacking.trans hlm.lacking⟩

namespace Move

variable {functions : Function → Prop} {α : Type}

/-- Only the registration of a function changes the table, and nothing changes the settings. -/
theorem run_same (operation : Move α) (m : Machine) :
    m.SameSettings (operation.run m).2 ∧
      (operation.isRegister = false → (operation.run m).2.functions = m.functions) := by
  cases operation with
  | lookup name => exact ⟨.refl m, fun _ => rfl⟩
  | declare name type value => exact ⟨⟨rfl, rfl, rfl, rfl⟩, fun _ => rfl⟩
  | assign name v => exact ⟨⟨rfl, rfl, rfl, rfl⟩, fun _ => rfl⟩
  | readLine => exact ⟨⟨rfl, rfl, rfl, rfl⟩, fun _ => rfl⟩
  | print v =>
    simp only [run, Exec.print]
    split <;> exact ⟨⟨rfl, rfl, rfl, rfl⟩, fun _ => rfl⟩
  | note event =>
    simp only [run, Exec.note]
    split
    · exact ⟨.refl m, fun _ => rfl⟩
    · exact ⟨⟨rfl, rfl, m.trace.note_verbosity event, m.trace.note_lacking event⟩, fun _ => rfl⟩
  | function name =>
    rw [run, Exec.function_snd]
    exact ⟨.refl m, fun _ => rfl⟩
  | checkFree name =>
    rw [run, (Exec.checkFree_cases name m).1]
    exact ⟨.refl m, fun _ => rfl⟩
  | register f =>
    refine ⟨?_, by rintro ⟨⟩⟩
    have hsame := (Exec.checkFree_cases f.name m).1
    rcases h : Exec.checkFree f.name m with ⟨e | u, n⟩ <;> rw [h] at hsame <;>
      subst hsame
    · rw [run, Exec.bind_error h]
      exact .refl n
    · rw [run, Exec.bind_ok h]
      exact ⟨rfl, rfl, rfl, rfl⟩
  | checkDepth name =>
    simp only [run, Exec.checkDepth]
    split <;> exact ⟨.refl m, fun _ => rfl⟩
  | checkStack =>
    simp only [run, Exec.checkStack]
    split
    · exact ⟨.refl m, fun _ => rfl⟩
    · split
      · exact ⟨.refl m, fun _ => rfl⟩
      · split <;> exact ⟨.refl m, fun _ => rfl⟩

theorem register_knows {f : Function} {m : Machine} (hf : functions f) (hm : m.Knows functions) :
    ((register f).run m).2.Knows functions := by
  have hsame := (Exec.checkFree_cases f.name m).1
  rcases h : Exec.checkFree f.name m with ⟨e | u, n⟩ <;> rw [h] at hsame <;> subst hsame
  · rw [run, Exec.bind_error h]
    exact hm
  · rw [run, Exec.bind_ok h]
    exact List.forall_mem_append.mpr ⟨hm, List.forall_mem_singleton.mpr hf⟩

theorem run_knows (operation : Move α) (h : operation.Adds functions) {m : Machine}
    (hm : m.Knows functions) : (operation.run m).2.Knows functions := by
  cases hr : operation.isRegister with
  | false =>
    intro f hf
    rw [(run_same operation m).2 hr] at hf
    exact hm f hf
  | true =>
    cases operation with
    | register f => exact register_knows h hm
    | _ => cases hr

theorem run_finds (operation : Move α) {m : Machine} (hm : m.Knows functions) {b : α}
    (h : (operation.run m).1 = .ok b) : operation.Finds functions b := by
  cases operation with
  | function name => exact hm b (List.mem_of_find?_eq_some (Exec.function_found h))
  | _ => trivial

end Move

end Guion
