import Guion.Proofs.Discipline.Store
import Guion.Proofs.Plan.Steps
import Guion.Proofs.Written

namespace Guion

inductive Extends : List Function → List Function → Prop where
  | refl (table : List Function) : Extends table table
  | add {old new : List Function} {f : Function} :
    Extends old new → (∀ g ∈ new, g.name.agrees f.name = false) → Extends old (new ++ [f])

namespace Extends

theorem trans {a b c : List Function} (hab : Extends a b) (hbc : Extends b c) : Extends a c := by
  induction hbc with
  | refl => exact hab
  | add _ hfree ih => exact .add ih hfree

end Extends

namespace Machine

/-- The open frames and the calls in progress are the same, the frames hold the same names, and
functions were at most added. -/
structure Kept (old new : Machine) : Prop where
  store : old.store.Kept new.store
  calls : new.calls = old.calls
  functions : Extends old.functions new.functions

/-- The same with perhaps further names in the current frame. -/
structure Grown (old new : Machine) : Prop where
  store : old.store.Grown new.store
  calls : new.calls = old.calls
  functions : Extends old.functions new.functions

theorem Kept.refl (m : Machine) : m.Kept m := ⟨.refl m.store, rfl, .refl m.functions⟩

theorem Kept.trans {l m n : Machine} (hlm : l.Kept m) (hmn : m.Kept n) : l.Kept n :=
  ⟨hlm.store.trans hmn.store, hmn.calls.trans hlm.calls, hlm.functions.trans hmn.functions⟩

theorem Kept.grown {m n : Machine} (h : m.Kept n) : m.Grown n :=
  ⟨h.store.grown, h.calls, h.functions⟩

theorem Grown.trans {l m n : Machine} (hlm : l.Grown m) (hmn : m.Grown n) : l.Grown n :=
  ⟨hlm.store.trans hmn.store, hmn.calls.trans hlm.calls, hlm.functions.trans hmn.functions⟩

end Machine

namespace Bracket

variable {m n : Machine}

theorem scope_kept (h : (scope.enter m).Grown n) : m.Kept (scope.leave n) :=
  ⟨h.store.closeScope, h.calls, h.functions⟩

theorem leave_kept (b : Bracket) (h : (b.enter m).Kept n) : m.Kept (b.leave n) := by
  cases b with
  | scope => exact scope_kept h.grown
  | call =>
    refine ⟨h.store, ?_, h.functions⟩
    simp only [leave, h.calls, enter, Nat.add_sub_cancel]
  | tracing => exact ⟨h.store, h.calls, h.functions⟩

theorem leave_grown (b : Bracket) (h : (b.enter m).Grown n) : m.Grown (b.leave n) := by
  cases b with
  | scope => exact (scope_kept h).grown
  | call =>
    refine ⟨h.store, ?_, h.functions⟩
    simp only [leave, h.calls, enter, Nat.add_sub_cancel]
  | tracing => exact ⟨h.store, h.calls, h.functions⟩

end Bracket

namespace Exec

variable {α : Type}

theorem function_snd (name : Name) (m : Machine) : (function name m).2 = m := by
  rcases h : Store.checkName name with e | u
  · simp only [function, bind, h, ofExcept, fail]
  · simp only [function, bind, h, ofExcept, pure]
    split <;> rfl

theorem function_found {name : Name} {m : Machine} {f : Function}
    (h : (function name m).1 = .ok f) : m.function? name = some f := by
  rw [function] at h
  rcases hn : Store.checkName name with e | u <;>
    simp only [hn, ofExcept, fail, bind, pure] at h
  · cases h
  · cases hf : m.function? name with
    | none => simp [hf] at h
    | some g =>
      simp only [hf, Except.ok.injEq] at h
      rw [h]

theorem checkFree_cases (name : Name) (m : Machine) :
    (checkFree name m).2 = m ∧
      ((checkFree name m).1 = .ok () → ∀ g ∈ m.functions, g.name.agrees name = false) := by
  rcases h : Store.checkName name with e | u
  · simp only [checkFree, bind, h, ofExcept, fail]
    exact ⟨trivial, fun h => nomatch h⟩
  · simp only [checkFree, bind, h, ofExcept, pure]
    split
    · exact ⟨rfl, fun h => nomatch h⟩
    · rename_i hnone
      refine ⟨rfl, fun _ g hg => ?_⟩
      simpa using List.find?_eq_none.mp hnone g hg

end Exec

namespace Move

variable {α : Type}

def isDeclare : Move α → Bool
  | declare _ _ _ => true
  | _ => false

theorem register_kept (f : Function) (m : Machine) : m.Kept ((register f).run m).2 := by
  obtain ⟨hsame, hfree⟩ := Exec.checkFree_cases f.name m
  rcases h : Exec.checkFree f.name m with ⟨e | u, n⟩ <;> rw [h] at hsame hfree
  · have hrun : (register f).run m = (.error e, n) := Exec.bind_error h
    rw [hrun]
    exact hsame ▸ .refl m
  · have hrun : (register f).run m = (.ok (), { n with functions := n.functions ++ [f] }) :=
      Exec.bind_ok h
    obtain rfl : n = m := hsame
    rw [hrun]
    exact ⟨.refl n.store, rfl, .add (.refl n.functions) (hfree rfl)⟩

theorem run_kept (operation : Move α) (h : operation.isDeclare = false) (m : Machine) :
    m.Kept (operation.run m).2 := by
  cases operation with
  | lookup name => exact .refl m
  | declare name type value => cases h
  | assign name v => exact ⟨Store.assign_kept m.store name v, rfl, .refl _⟩
  | readLine => exact ⟨.refl _, rfl, .refl _⟩
  | print v =>
    simp only [run, Exec.print]
    split
    · exact ⟨.refl _, rfl, .refl _⟩
    · exact .refl m
  | note event =>
    obtain ⟨_, h⟩ | ⟨_, h⟩ := Exec.note_cases event m
    · rw [run, h]
      exact .refl m
    · rw [run, h]
      exact ⟨.refl _, rfl, .refl _⟩
  | function name =>
    rw [run, Exec.function_snd]
    exact .refl m
  | checkFree name =>
    rw [run, (Exec.checkFree_cases name m).1]
    exact .refl m
  | register f => exact register_kept f m
  | checkDepth name =>
    simp only [run, Exec.checkDepth]
    split <;> exact .refl m
  | checkStack =>
    simp only [run, Exec.checkStack]
    split
    · exact .refl m
    · split
      · exact .refl m
      · split <;> exact .refl m

theorem run_grown (operation : Move α) (m : Machine) : m.Grown (operation.run m).2 := by
  cases h : operation.isDeclare with
  | false => exact (run_kept operation h m).grown
  | true =>
    cases operation with
    | declare name type value => exact ⟨Store.declare_grown m.store name type value, rfl, .refl _⟩
    | lookup | assign | readLine | print | note | function | checkFree | register | checkDepth
    | checkStack => cases h

end Move

end Guion
