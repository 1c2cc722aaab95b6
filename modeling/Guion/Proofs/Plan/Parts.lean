import Guion.Proofs.Plan.Table

namespace Guion

inductive Task.Throughout (property : Task → Prop) : Task → Prop where
  | intro {t : Task} : property t → (∀ u ∈ t.parts, Throughout property u) → Throughout property t

namespace Task.Throughout

variable {property : Task → Prop} {t u : Task}

theorem self (h : t.Throughout property) : property t := by
  cases h with
  | intro ht _ => exact ht

theorem part (h : t.Throughout property) (hu : u ∈ t.parts) : u.Throughout property := by
  cases h with
  | intro _ hparts => exact hparts u hu

end Task.Throughout

def Function.Throughout (property : Task → Prop) (f : Function) : Prop :=
  (Task.exec f.body).Throughout property

/-- What holds throughout the task at hand and the functions known holds throughout everything that
is come to: a step goes to parts of its task and to bodies of functions only. -/
def inherited (property : Task → Prop) : Contract where
  machine := Machine.Knows (Function.Throughout property)
  requires := Move.Adds (Function.Throughout property)
  ensures := Move.Finds (Function.Throughout property)
  task := Task.Throughout property
  answer _ _ := True
  failure _ := True

theorem inherited_admits (property : Task → Prop) :
    (inherited property).Admits (Function.Throughout property) where
  move _ h := h
  finds _ _ h := h
  body _ h := h
  fresh _ _ := trivial

namespace Bracket

variable {functions : Function → Prop} {m : Machine}

theorem enter_knows (b : Bracket) (h : m.Knows functions) : (b.enter m).Knows functions := by
  cases b <;> exact h

theorem leave_knows (b : Bracket) (h : m.Knows functions) : (b.leave m).Knows functions := by
  cases b <;> exact h

end Bracket

theorem inherited_kept (property : Task → Prop) : (inherited property).Kept where
  move operation _ h hm :=
    ⟨operation.run_knows h hm, fun _ hb => operation.run_finds hm hb, fun _ _ => trivial⟩
  enter b _ hm := b.enter_knows hm
  leave b _ hm := b.leave_knows hm
  plan fuel t ht := by
    have hshape := t.plan_shape fuel (Function.Throughout property)
      fun f hf => ht.part hf.part
    exact hshape.meets (inherited_admits property) (fun u hu => ht.part hu) fun _ _ => trivial
  exhausted := trivial
  located _ _ _ := trivial

theorem Plan.program_inherited {property : Task → Prop} {p : Program}
    (hp : ∀ s ∈ p.body, (Task.exec s).Throughout property) :
    (Plan.program p).Meets (Guion.inherited property) fun _ => True := by
  have hshape : (Plan.program p).Shape (Task.Throughout property) (Function.Throughout property)
      fun _ => True := Plan.shape_program hp
  exact hshape.meets (inherited_admits property) (fun _ ht => ht) fun _ _ => trivial

end Guion
