import Guion.Proofs.Plan.Table

namespace Guion

namespace Task

/-- The names that a task looks up, stores or declares variables under by itself. Those of a
function's parameters are declared when it is called. -/
def names : Task → List Name
  | eval (.name _ name) => [name]
  | eval (.assign _ name _) => [name]
  | exec (.declare _ _ name _) => [name]
  | exec (.function _ _ params _) => params.map Param.name
  | _ => []

def isRead : Task → Bool
  | eval (.read _) => true
  | _ => false

end Task

def Move.Of (t : Task) : {α : Type} → Move α → Prop
  | _, lookup name => name ∈ t.names
  | _, declare name _ _ => name ∈ t.names
  | _, assign name _ => name ∈ t.names
  | _, readLine => t.isRead = true
  | _, register f => t.Defines f
  | _, _ => True

structure Contract.Open (C : Contract) : Prop where
  answer : ∀ t a, C.answer t a
  failure : ∀ e, C.failure e
  params : ∀ {name f}, C.ensures (.function name) f → ∀ p ∈ f.params, ∀ v : Value,
    C.requires (.declare p.name p.type (some v))
  body : ∀ {name f}, C.ensures (.function name) f → C.task (.exec f.body)

structure Contract.Allows (C : Contract) (t : Task) : Prop where
  move : ∀ {α : Type} (operation : Move α), operation.Of t → C.requires operation
  part : ∀ u ∈ t.parts, C.task u

namespace Plan

variable {C : Contract} {α : Type}

abbrev Allowed (C : Contract) (p : Plan α) : Prop := p.Meets C fun _ => True

theorem allowed_perform {operation : Move α} (h : C.requires operation) :
    (perform operation).Allowed C :=
  (Meets.perform h).imp fun _ _ => trivial

theorem allowed_value {e : Expr} (h : C.task (.eval e)) : (value e).Allowed C :=
  (Meets.value h).imp fun _ _ => trivial

theorem allowed_signal {s : Stmt} (h : C.task (.exec s)) : (signal s).Allowed C :=
  (Meets.signal h).imp fun _ _ => trivial

theorem allowed_values {es : List Expr} (h : ∀ e ∈ es, C.task (.eval e)) :
    (values es).Allowed C := by
  induction es with
  | nil => trivial
  | cons e es ih =>
    obtain ⟨he, hes⟩ := List.forall_mem_cons.mp h
    exact (allowed_value he).bind fun _ _ => (ih hes).bind fun _ _ => trivial

theorem allowed_sequence {body : List Stmt} (h : ∀ s ∈ body, C.task (.exec s)) :
    (sequence body).Allowed C := by
  induction body with
  | nil => trivial
  | cons s rest ih =>
    obtain ⟨hs, hrest⟩ := List.forall_mem_cons.mp h
    refine (allowed_signal hs).bind fun signal _ => ?_
    split
    · exact ih hrest
    · trivial

theorem allowed_initial {first : Option Expr} (h : ∀ u ∈ first.toList.map Task.eval, C.task u) :
    (initial first).Allowed C := by
  cases first with
  | none => trivial
  | some e => exact (allowed_value (List.forall_mem_singleton.mp h)).bind fun _ _ => trivial

theorem allowed_bindAll {params : List Param} (vs : List Value)
    (h : ∀ p ∈ params, ∀ v : Value, C.requires (.declare p.name p.type (some v))) :
    (bindAll params vs).Allowed C := by
  induction params generalizing vs with
  | nil => trivial
  | cons p ps ih =>
    obtain ⟨hp, hps⟩ := List.forall_mem_cons.mp h
    cases vs with
    | nil => trivial
    | cons v vs => exact (allowed_perform (hp v)).bind fun _ _ => ih vs hps

theorem allowed_note {t : Task} (h : C.Allows t) (event : Event) :
    (perform (.note event)).Allowed C :=
  allowed_perform (h.move _ trivial)

theorem allowed_condition {t : Task} (h : C.Allows t) (loop : Loop) {test : Expr}
    (ht : C.task (.eval test)) : (condition loop test).Allowed C := by
  refine (allowed_value ht).bind fun v _ => ?_
  split
  · trivial
  · exact (allowed_note h _).bind fun _ _ => trivial

theorem allowed_statements {body : List Stmt} (hnote : ∀ event, C.requires (.note event))
    (h : ∀ s ∈ body, C.task (.exec s)) : (statements body).Allowed C := by
  induction body with
  | nil => trivial
  | cons s rest ih =>
    obtain ⟨hs, hrest⟩ := List.forall_mem_cons.mp h
    refine (allowed_signal hs).bind fun signal _ => ?_
    split
    · exact ih hrest
    · exact allowed_perform (hnote _)

theorem allowed_program {p : Program} (hnote : ∀ event, C.requires (.note event))
    (hstack : C.requires .checkStack) (h : ∀ s ∈ p.body, C.task (.exec s)) :
    (program p).Allowed C := by
  refine (allowed_perform (hnote _)).bind fun _ _ => (allowed_perform hstack).bind fun _ _ => ?_
  exact Meets.inside ((allowed_statements hnote h).bind fun _ _ => allowed_perform (hnote _))

section Open

variable (law : C.Open)

include law

theorem allowed_ofExcept (r : Except Failure α) : (ofExcept r).Allowed C :=
  .ofExcept (fun _ _ => trivial) fun e _ => law.failure e

theorem allowed_enter {t : Task} (h : C.Allows t) {name : Name} {f : Function}
    (hf : C.ensures (.function name) f) (vs : List Value) : (enter f vs).Allowed C := by
  have hnote : (noteCall f.name vs).Allowed C := by
    unfold noteCall
    split
    · exact law.failure _
    · exact allowed_note h _
  have hbody : (body f vs).Allowed C :=
    (allowed_bindAll vs (law.params hf)).bind fun _ _ => allowed_signal (law.body hf)
  have hdepth := h.move (.checkDepth f.name) trivial
  refine (allowed_perform hdepth).bind fun _ _ => hnote.bind fun _ _ => ?_
  refine (Meets.inside (Meets.inside hbody)).bind fun _ _ => ?_
  exact (allowed_note h _).bind fun _ _ => trivial

theorem allowed_iterate {test : Plan Bool} {body : Stmt} {next : Plan Unit}
    (ht : test.Allowed C) (hb : C.task (.exec body)) (hn : next.Allowed C) (rounds : Nat) :
    (iterate test body next rounds).Allowed C := by
  induction rounds with
  | zero => exact law.failure _
  | succ rounds ih =>
    refine ht.bind fun b _ => ?_
    split
    · refine (allowed_signal hb).bind fun signal _ => ?_
      split
      · trivial
      · trivial
      · exact hn.bind fun _ _ => ih
    · trivial

theorem allowed_logical (op : LogicalOp) {left right : Expr} (hl : C.task (.eval left))
    (hr : C.task (.eval right)) : (logical op left right).Allowed C := by
  refine (allowed_value hl).bind fun v _ => ?_
  split
  · trivial
  · trivial
  · refine (allowed_value hr).bind fun w _ => ?_
    split
    · trivial
    · exact law.failure _
  · exact law.failure _

theorem allowed_eval {e : Expr} (h : C.Allows (.eval e)) : (eval e).Allowed C := by
  cases e with
  | literal pos l =>
    cases l with
    | integer n => exact allowed_ofExcept law _
    | decimal | text | truth | foreign => trivial
  | name pos name =>
    have hname := h.move (.lookup name) (List.mem_singleton_self name)
    refine (allowed_perform hname).bind fun var _ => ?_
    split
    · trivial
    · exact law.failure _
  | assign pos name e =>
    refine (allowed_value (h.part _ List.mem_cons_self)).bind fun v _ => ?_
    exact allowed_perform (h.move (.assign name v) (List.mem_singleton_self name))
  | logical pos op left right =>
    obtain ⟨hl, hr⟩ := List.forall_mem_cons.mp h.part
    exact allowed_logical law op hl (List.forall_mem_singleton.mp hr)
  | binary pos op left right =>
    obtain ⟨hl, hr⟩ := List.forall_mem_cons.mp h.part
    refine (allowed_value hl).bind fun a _ => ?_
    refine (allowed_value (List.forall_mem_singleton.mp hr)).bind fun b _ => ?_
    exact allowed_ofExcept law _
  | unary pos op e =>
    refine (allowed_value (h.part _ List.mem_cons_self)).bind fun v _ => ?_
    exact allowed_ofExcept law _
  | call pos name arguments =>
    refine (Meets.perform (h.move (.function name) trivial)).bind fun f hf => ?_
    have hgiven := allowed_values fun e he => h.part _ (List.mem_map_of_mem he)
    refine hgiven.bind fun given _ => ?_
    split
    · exact (allowed_ofExcept law _).bind fun vs _ => allowed_enter law h hf vs
    · exact law.failure _
  | read pos => exact (allowed_perform (h.move .readLine rfl)).bind fun _ _ => trivial
  | stuck why => exact law.failure _

theorem allowed_exec (rounds : Nat) {s : Stmt} (h : C.Allows (.exec s)) :
    (exec rounds s).Allowed C := by
  cases s with
  | declare pos type name first =>
    refine (allowed_initial h.part).bind fun value _ => ?_
    have hname := h.move (.declare name type value) (List.mem_singleton_self name)
    refine (allowed_perform hname).bind fun var _ => ?_
    exact (allowed_note h _).bind fun _ _ => trivial
  | function pos name params body =>
    have hregister := h.move (.register ⟨name, params, body⟩) ⟨pos, rfl⟩
    refine (allowed_perform hregister).bind fun _ _ => ?_
    change Allowed C (if _ then _ else _)
    split
    · exact law.failure _
    · exact (allowed_note h _).bind fun _ _ => trivial
  | unusable pos name why =>
    exact (allowed_perform (h.move (.checkFree name) trivial)).bind fun _ _ => law.failure _
  | block pos body =>
    exact Meets.inside (allowed_sequence fun s hs => h.part _ (List.mem_map_of_mem hs))
  | branch pos test yes no =>
    obtain ⟨ht, hparts⟩ := List.forall_mem_cons.mp h.part
    obtain ⟨hy, hn⟩ := List.forall_mem_cons.mp hparts
    refine (allowed_value ht).bind fun v _ => ?_
    split
    · refine (allowed_note h _).bind fun _ _ => ?_
      split
      · exact allowed_signal hy
      · split
        · exact allowed_signal (hn _ (List.mem_map_of_mem (Option.mem_toList.mpr rfl)))
        · trivial
    · exact law.failure _
  | whileLoop pos test body =>
    obtain ⟨ht, hb⟩ := List.forall_mem_cons.mp h.part
    have hnext : (pure () : Plan Unit).Allowed C := trivial
    exact allowed_iterate law (allowed_condition h _ ht) (List.forall_mem_singleton.mp hb)
      hnext rounds
  | forLoop pos first test update body =>
    obtain ⟨hi, hparts⟩ := List.forall_mem_cons.mp h.part
    obtain ⟨ht, hparts⟩ := List.forall_mem_cons.mp hparts
    obtain ⟨hu, hb⟩ := List.forall_mem_cons.mp hparts
    refine Meets.inside ((allowed_signal hi).bind fun _ _ => ?_)
    have hnext : (do let _ ← value update; pure () : Plan Unit).Allowed C :=
      (allowed_value hu).bind fun _ _ => trivial
    exact allowed_iterate law (allowed_condition h _ ht) (List.forall_mem_singleton.mp hb)
      hnext rounds
  | returns pos result => exact (allowed_initial h.part).bind fun _ _ => trivial
  | print pos e =>
    refine (allowed_value (h.part _ List.mem_cons_self)).bind fun v _ => ?_
    exact (allowed_perform (h.move (.print v) trivial)).bind fun _ _ => trivial
  | breaks pos => trivial
  | continues pos => trivial
  | expr pos e => exact (allowed_value (h.part _ List.mem_cons_self)).bind fun _ _ => trivial
  | stuck why => exact law.failure _

end Open

end Plan

/-- A step stays within a contract that allows its operations and the tasks that it hands on. -/
theorem Task.plan_allowed {C : Contract} (law : C.Open) (rounds : Nat) {t : Task}
    (h : C.Allows t) : (t.plan rounds).Allowed C := by
  cases t with
  | eval e => exact Plan.allowed_eval law h
  | exec s => exact Plan.allowed_exec law rounds h

structure Machine.KeepsCalls (change : Machine → Machine) : Prop where
  functions : ∀ m, (change m).functions = m.functions
  calls : ∀ m, (change m).calls = m.calls
  limit : ∀ m, (change m).limit = m.limit
  stack : ∀ m, (change m).stack = m.stack
  trace : ∀ m, (change m).trace = m.trace
  reported : ∀ m trace, change { m with trace } = { change m with trace }

/-- The computation does the same with and without a change of the machine. -/
def Exec.Commutes {α : Type} (change : Machine → Machine) (x : Exec α) : Prop :=
  ∀ m, x (change m) = ((x m).1, change (x m).2)

namespace Exec.Commutes

variable {α β : Type} {change : Machine → Machine}

theorem ofExcept (r : Except Failure α) : Commutes change (Exec.ofExcept r) := by
  intro m
  cases r <;> rfl

theorem bind {x : Exec α} {f : α → Exec β} (hx : Commutes change x)
    (hf : ∀ a, Commutes change (f a)) : Commutes change (x >>= f) := by
  intro m
  have hsame := hx m
  rcases hr : x m with ⟨e | a, n⟩ <;> rw [hr] at hsame
  · rw [Exec.bind_error hsame, Exec.bind_error hr]
  · rw [Exec.bind_ok hsame, Exec.bind_ok hr]
    exact hf a n

section KeepsCalls

variable (h : Machine.KeepsCalls change)

include h

theorem note (event : Event) : Commutes change (Exec.note event) := by
  intro m
  have hrefuses : (change m).trace.refuses event = m.trace.refuses event := by rw [h.trace]
  have hnote : { change m with trace := (change m).trace.note event } =
      change { m with trace := m.trace.note event } := by
    rw [h.trace]
    exact (h.reported m _).symm
  obtain ⟨hm, hrun⟩ | ⟨hm, hrun⟩ := note_cases event m <;>
    obtain ⟨hm', hrun'⟩ | ⟨hm', hrun'⟩ := note_cases event (change m) <;> rw [hrun, hrun']
  · cases hm.symm.trans (hrefuses.symm.trans hm')
  · cases hm.symm.trans (hrefuses.symm.trans hm')
  · rw [hnote]

theorem function (name : Name) : Commutes change (Exec.function name) := by
  refine (ofExcept _).bind fun _ m => ?_
  simp only [Machine.function?, h.functions]
  split <;> rfl

theorem checkFree (name : Name) : Commutes change (Exec.checkFree name) := by
  refine (ofExcept _).bind fun _ m => ?_
  simp only [Machine.function?, h.functions]
  split <;> rfl

theorem checkDepth (name : Name) : Commutes change (Exec.checkDepth name) := by
  intro m
  simp only [Exec.checkDepth, h.limit, h.calls]
  split <;> rfl

theorem checkStack : Commutes change Exec.checkStack := by
  intro m
  have hsame : (change m).stackFrames = m.stackFrames := by
    simp only [Machine.stackFrames, h.limit, h.stack]
  simp only [Exec.checkStack, hsame, h.stack]
  split_ifs <;> rfl

end KeepsCalls

end Exec.Commutes

end Guion
