import Guion.Proofs.Plan
import Guion.Proofs.Regular

namespace Guion

/-- The mistakes that operations come to. The stack is exhausted by what holds them. -/
def Fault.isOwn : Fault → Bool
  | stackExhausted => false
  | _ => true

/-- The failures of an operation itself: no construct has given them a place, and none was cut
short. -/
def Failure.Fresh : Failure → Prop
  | fault cause place => place = none ∧ cause.isOwn = true
  | stuck _ => True
  | _ => False

/-- The failures of an operation on a machine: besides the fresh ones, that of a report. -/
def Failure.Immediate (e : Failure) : Prop :=
  e.Fresh ∨ e = .unwritten

section

variable {α β : Type}

abbrev FailsFresh (r : Except Failure α) : Prop := Yields (fun _ => True) Failure.Fresh r

theorem FailsFresh.bind {x : Except Failure α} {f : α → Except Failure β} (hx : FailsFresh x)
    (hf : ∀ a, FailsFresh (f a)) : FailsFresh (x >>= f) :=
  Yields.bind hx fun a _ => hf a

theorem FailsFresh.map {x : Except Failure α} {f : α → β} (hx : FailsFresh x) :
    FailsFresh (f <$> x) :=
  Yields.map hx fun _ _ => trivial

theorem FailsFresh.error {x : Except Failure α} (hx : FailsFresh x) {e : Failure}
    (h : x = .error e) : e.Fresh := by
  subst h
  exact hx

end

theorem Tree.sum_fresh (s t : Tree) : FailsFresh (s.sum t) := by
  unfold Tree.sum
  split
  · trivial
  · trivial
  · split
    · apply FailsFresh.map
      unfold sumOf
      split <;> trivial
    · trivial

namespace Value

theorem ofLiteral_fresh (n : Number) : FailsFresh (ofLiteral n) := by
  unfold ofLiteral
  split
  · trivial
  · split
    · trivial
    · exact ⟨rfl, rfl⟩

theorem truncate_fresh (w : Width) (x : Float) : FailsFresh (truncate w x) := by
  unfold truncate
  split
  · split
    · trivial
    · exact ⟨rfl, rfl⟩
  · exact ⟨rfl, rfl⟩

theorem convert_fresh (target : Kind) (v : Value) (n : Number) :
    FailsFresh (convert target v n) := by
  unfold convert
  split
  · split
    · trivial
    · split
      · trivial
      · exact ⟨rfl, rfl⟩
  · trivial
  · split <;> trivial
  · trivial

theorem coerce_fresh (target : TypeName) (v : Value) : FailsFresh (coerce target v) := by
  unfold coerce
  split
  · exact (truncate_fresh _ _).map
  · exact (truncate_fresh _ _).map
  · split
    · exact convert_fresh _ _ _
    · trivial
  · trivial

theorem conform_fresh (target : TypeName) (v : Value) (slot : Slot) :
    FailsFresh (conform target v slot) := by
  refine (coerce_fresh target v).bind fun w => ?_
  split
  · trivial
  · exact ⟨rfl, rfl⟩

theorem integerOp_fresh (op : BinaryOp) (w : Width) (x y : Int) :
    FailsFresh (integerOp op w x y) := by
  unfold integerOp
  split
  · trivial
  · trivial
  · trivial
  · split
    · exact ⟨rfl, rfl⟩
    · trivial
  · split
    · exact ⟨rfl, rfl⟩
    · trivial
  · split
    · trivial
    · exact ⟨rfl, rfl⟩
  · exact ⟨rfl, rfl⟩

theorem looseOp_fresh (op : BinaryOp) (w : Width) (x y : Number) :
    FailsFresh (looseOp op w x y) := by
  unfold looseOp
  split
  · trivial
  · trivial
  · trivial
  · split
    · exact ⟨rfl, rfl⟩
    · trivial
  · split
    · exact ⟨rfl, rfl⟩
    · trivial
  · split
    · trivial
    · exact ⟨rfl, rfl⟩
  · exact ⟨rfl, rfl⟩

theorem decimalOp_fresh (op : BinaryOp) (x y : Float) : FailsFresh (decimalOp op x y) := by
  unfold decimalOp
  split
  · trivial
  · trivial
  · trivial
  · split
    · exact ⟨rfl, rfl⟩
    · trivial
  · split
    · exact ⟨rfl, rfl⟩
    · split <;> trivial
  · trivial
  · exact ⟨rfl, rfl⟩

theorem arithmetic_fresh (op : BinaryOp) (a b : Value) : FailsFresh (arithmetic op a b) := by
  unfold arithmetic
  split
  · exact (integerOp_fresh _ _ _ _).map
  · split
    · exact (looseOp_fresh _ _ _ _).map
    · split
      · exact (decimalOp_fresh _ _ _).map
      · exact ⟨rfl, rfl⟩

theorem binary_fresh (op : BinaryOp) (a b : Value) : FailsFresh (binary op a b) := by
  unfold binary
  split
  · trivial
  · split
    · trivial
    · trivial
    · split
      · split
        · trivial
        · exact ⟨rfl, rfl⟩
      · split
        · unfold join
          split
          · exact (Tree.sum_fresh _ _).map
          · trivial
        · exact arithmetic_fresh _ _ _

theorem unary_fresh (op : UnaryOp) (v : Value) : FailsFresh (unary op v) := by
  unfold unary
  split
  · trivial
  · exact ⟨rfl, rfl⟩
  · split
    · trivial
    · exact ⟨rfl, rfl⟩
  · trivial
  · trivial
  · trivial
  · trivial
  · exact ⟨rfl, rfl⟩
  · split <;> exact ⟨rfl, rfl⟩

end Value

namespace Store

theorem checkName_fresh (name : Name) : FailsFresh (checkName name) := by
  unfold checkName
  split <;> trivial

theorem lookup_fresh (s : Store) (name : Name) : FailsFresh (s.lookup name) := by
  refine (checkName_fresh name).bind fun _ => ?_
  split
  · trivial
  · exact ⟨rfl, rfl⟩

theorem declared_fresh (s : Store) (name : Name) (type : TypeName) (value : Option Value) :
    FailsFresh (s.declared name type value) := by
  refine (checkName_fresh name).bind fun _ => ?_
  split
  · exact ⟨rfl, rfl⟩
  · split
    · trivial
    · exact (Value.conform_fresh _ _ _).bind fun _ => trivial

theorem declare_fresh (s : Store) (name : Name) (type : TypeName) (value : Option Value) :
    FailsFresh (s.declare name type value).1 := by
  have h := declared_fresh s name type value
  unfold declare
  split
  · trivial
  · exact h.error (by assumption)

theorem assigned_fresh (s : Store) (name : Name) (value : Value) :
    FailsFresh (s.assigned name value) :=
  (lookup_fresh s name).bind fun _ => (Value.conform_fresh _ _ _).bind fun _ => trivial

theorem assign_fresh (s : Store) (name : Name) (value : Value) :
    FailsFresh (s.assign name value).1 := by
  have h := assigned_fresh s name value
  unfold assign
  split
  · trivial
  · exact h.error (by assumption)

end Store

theorem Exec.conformAll_fresh (function : Name) (index : Nat) (params : List Param)
    (values : List Value) : FailsFresh (conformAll function index params values) := by
  induction params generalizing index values with
  | nil => exact trivial
  | cons p ps ih =>
    cases values with
    | nil => exact trivial
    | cons v vs =>
      refine (Value.conform_fresh _ _ _).bind fun w => ?_
      exact (ih (index + 1) vs).bind fun _ => trivial

namespace Exec

variable {α β : Type}

theorem bind_fresh {x : Exec α} {f : α → Exec β} {m : Machine} (hx : FailsFresh (x m).1)
    (hf : ∀ a n, FailsFresh (f a n).1) : FailsFresh ((x >>= f) m).1 := by
  rcases h : x m with ⟨e | a, n⟩
  · rw [h] at hx
    rw [bind_error h]
    exact hx
  · rw [bind_ok h]
    exact hf a n

theorem ofExcept_fst (r : Except Failure α) (m : Machine) : (ofExcept r m).1 = r := by
  cases r <;> rfl

theorem function_fresh (name : Name) (m : Machine) : FailsFresh (function name m).1 := by
  apply bind_fresh
  · rw [ofExcept_fst]
    exact Store.checkName_fresh name
  · intro _ n
    split
    · trivial
    · exact ⟨rfl, rfl⟩

theorem checkFree_fresh (name : Name) (m : Machine) : FailsFresh (checkFree name m).1 := by
  apply bind_fresh
  · rw [ofExcept_fst]
    exact Store.checkName_fresh name
  · intro _ n
    split
    · exact ⟨rfl, rfl⟩
    · trivial

end Exec

theorem Move.run_error {α : Type} (operation : Move α) {m : Machine} {e : Failure}
    (h : (operation.run m).1 = .error e) :
    e.Fresh ∨ e = .unwritten ∧ ∃ event, m.trace.refuses event = true := by
  cases operation with
  | lookup name => exact .inl ((Store.lookup_fresh m.store name).error h)
  | declare name type value => exact .inl ((Store.declare_fresh m.store name type value).error h)
  | assign name value => exact .inl ((Store.assign_fresh m.store name value).error h)
  | readLine => cases h
  | print v =>
    simp only [run, Exec.print] at h
    split at h <;> cases h
    exact .inl trivial
  | note event =>
    obtain ⟨hrefuses, hrun⟩ | ⟨_, hrun⟩ := Exec.note_cases event m <;> rw [run, hrun] at h <;>
      cases h
    exact .inr ⟨rfl, event, hrefuses⟩
  | function name => exact .inl ((Exec.function_fresh name m).error h)
  | checkFree name => exact .inl ((Exec.checkFree_fresh name m).error h)
  | register f =>
    have hfresh : FailsFresh ((register f).run m).1 :=
      Exec.bind_fresh (Exec.checkFree_fresh f.name m) fun _ _ => trivial
    exact .inl (hfresh.error h)
  | checkDepth name =>
    simp only [run, Exec.checkDepth] at h
    split at h <;> cases h
    exact .inl ⟨rfl, rfl⟩
  | checkStack =>
    simp only [run, Exec.checkStack] at h
    split at h
    · cases h
      exact .inl trivial
    · split at h
      · cases h
        exact .inl trivial
      · split at h <;> cases h
        exact .inl trivial

theorem Move.run_immediate {α : Type} (operation : Move α) {m : Machine} {e : Failure}
    (h : (operation.run m).1 = .error e) : e.Immediate :=
  (operation.run_error h).imp_right And.left

end Guion
