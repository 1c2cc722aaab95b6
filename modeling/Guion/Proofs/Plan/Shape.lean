import Guion.Proofs.Fresh
import Guion.Proofs.Plan.Contract
import Guion.Proofs.Written

namespace Guion

namespace Move

def Adds (functions : Function → Prop) : {α : Type} → Move α → Prop
  | _, register f => functions f
  | _, _ => True

def Finds (functions : Function → Prop) : {α : Type} → Move α → α → Prop
  | _, function _, f => functions f
  | _, _, _ => True

def isRegister {α : Type} : Move α → Bool
  | register _ => true
  | _ => false

theorem adds_of_not_register {functions : Function → Prop} {α : Type} (operation : Move α)
    (h : operation.isRegister = false) : operation.Adds functions := by
  cases operation with
  | register f => cases h
  | _ => trivial

end Move

namespace Task

def isLoop : Task → Bool
  | exec (.whileLoop _ _ _) => true
  | exec (.forLoop _ _ _ _ _) => true
  | _ => false

def Defines (t : Task) (f : Function) : Prop :=
  ∃ pos, t = exec (.function pos f.name f.params f.body)

/-- The failures of a step itself. Only a loop is cut short. -/
def OwnFailure (t : Task) (e : Failure) : Prop :=
  e.Fresh ∨ t.isLoop ∧ e = .exhausted

theorem Defines.part {t : Task} {f : Function} (h : t.Defines f) : exec f.body ∈ t.parts := by
  obtain ⟨pos, rfl⟩ := h
  exact List.mem_cons_self

end Task

namespace Plan

variable {α β γ : Type}

theorem bind_assoc (p : Plan α) (f : α → Plan β) (g : β → Plan γ) :
    p >>= f >>= g = p >>= fun a => f a >>= g := by
  change (p.bind f).bind g = p.bind fun a => (f a).bind g
  induction p with
  | done a => rfl
  | fail e => rfl
  | move operation next ih => simp only [bind, ih]
  | ask t next ih => simp only [bind, ih]
  | within bracket inner next _ ih => simp only [bind, ih]

theorem bind_done (p : Plan α) : (p >>= fun a => done a) = p := by
  change p.bind done = p
  induction p with
  | done a => rfl
  | fail e => rfl
  | move operation next ih => simp only [bind, ih]
  | ask t next ih => simp only [bind, ih]
  | within bracket inner next _ ih => simp only [bind, ih]

theorem finds_any (operation : Move α) (b : α) : operation.Finds (fun _ => True) b := by
  cases operation <;> trivial

/-- What a step may do, whatever comes back to it: the tasks that it hands on, the functions that it
registers or calls, and its own failures. A call goes through `enter` and nothing else does. -/
inductive Shape (tasks : Task → Prop) (functions : Function → Prop) (failures : Failure → Prop) :
    {α : Type} → Plan α → Prop where
  | done {α : Type} (a : α) : Shape tasks functions failures (.done a)
  | fail {α : Type} {e : Failure} : failures e → Shape tasks functions failures (.fail e : Plan α)
  | move {α β : Type} {operation : Move β} {next : β → Plan α} : operation.Adds functions →
    (∀ b, operation.Finds functions b → Shape tasks functions failures (next b)) →
    Shape tasks functions failures (.move operation next)
  | ask {α : Type} {t : Task} {next : t.Answer → Plan α} : tasks t →
    (∀ a, Shape tasks functions failures (next a)) → Shape tasks functions failures (.ask t next)
  | within {α β : Type} {bracket : Bracket} {inner : Plan β} {next : β → Plan α} :
    bracket ≠ .call → Shape tasks functions failures inner →
    (∀ b, Shape tasks functions failures (next b)) →
    Shape tasks functions failures (.within bracket inner next)
  | enter {α : Type} {f : Function} {vs : List Value} {next : Value → Plan α} : functions f →
    (∀ v, Shape tasks functions failures (next v)) →
    Shape tasks functions failures (Plan.enter f vs >>= next)

section Shape

variable {tasks : Task → Prop} {functions : Function → Prop} {failures : Failure → Prop}

theorem Shape.bind {p : Plan α} {f : α → Plan β} (hp : p.Shape tasks functions failures)
    (hf : ∀ a, (f a).Shape tasks functions failures) :
    (p >>= f).Shape tasks functions failures := by
  induction hp with
  | done a => exact hf a
  | fail he => exact .fail he
  | move hadd _ ih => exact .move hadd fun b hb => ih b hb hf
  | ask ht _ ih => exact .ask ht fun a => ih a hf
  | within hb hi _ _ ih => exact .within hb hi fun b => ih b hf
  | enter hfun _ ih =>
    rw [bind_assoc]
    exact .enter hfun fun v => ih v hf

theorem shape_perform {operation : Move α} (h : operation.isRegister = false) :
    (perform operation).Shape tasks functions failures :=
  .move (operation.adds_of_not_register h) fun b _ => .done b

theorem shape_function {name : Name} {next : Function → Plan α}
    (h : ∀ f, functions f → (next f).Shape tasks functions failures) :
    (perform (.function name) >>= next).Shape tasks functions failures :=
  .move trivial h

theorem shape_value {e : Expr} (h : tasks (.eval e)) :
    (value e).Shape tasks functions failures :=
  .ask h fun a => .done a

theorem shape_signal {s : Stmt} (h : tasks (.exec s)) :
    (signal s).Shape tasks functions failures :=
  .ask h fun a => .done a

theorem shape_ofExcept {r : Except Failure α} (hr : FailsFresh r)
    (h : ∀ e : Failure, e.Fresh → failures e) : (ofExcept r).Shape tasks functions failures := by
  cases r with
  | ok a => exact .done a
  | error e => exact .fail (h e hr)

theorem shape_values {es : List Expr} (h : ∀ e ∈ es, tasks (.eval e)) :
    (values es).Shape tasks functions failures := by
  induction es with
  | nil => exact .done []
  | cons e es ih =>
    obtain ⟨he, hes⟩ := List.forall_mem_cons.mp h
    exact (shape_value he).bind fun v => (ih hes).bind fun vs => .done (v :: vs)

variable (hfresh : ∀ e : Failure, e.Fresh → failures e)

include hfresh

theorem shape_call (name : Name) {arguments : List Expr}
    (h : ∀ e ∈ arguments, tasks (.eval e)) :
    (call name arguments).Shape tasks functions failures := by
  refine shape_function fun f hf => (shape_values h).bind fun given => ?_
  split
  · refine (shape_ofExcept (Exec.conformAll_fresh _ _ _ _) hfresh).bind fun vs => ?_
    rw [← bind_done (enter f vs)]
    exact .enter hf fun v => .done v
  · exact .fail (hfresh _ ⟨rfl, rfl⟩)

theorem shape_logical (op : LogicalOp) {left right : Expr} (hl : tasks (.eval left))
    (hr : tasks (.eval right)) : (logical op left right).Shape tasks functions failures := by
  refine (shape_value hl).bind fun v => ?_
  split
  · exact .done _
  · exact .done _
  · refine (shape_value hr).bind fun w => ?_
    split
    · exact .done _
    · exact .fail (hfresh _ ⟨rfl, rfl⟩)
  · exact .fail (hfresh _ ⟨rfl, rfl⟩)

theorem shape_eval {e : Expr} (h : ∀ u ∈ (Task.eval e).parts, tasks u) :
    (eval e).Shape tasks functions failures := by
  cases e with
  | literal pos l =>
    cases l with
    | integer n => exact shape_ofExcept (Value.ofLiteral_fresh n) hfresh
    | decimal | text | truth | foreign => exact .done _
  | name pos name =>
    refine (shape_perform rfl).bind fun var => ?_
    split
    · exact .done _
    · exact .fail (hfresh _ ⟨rfl, rfl⟩)
  | assign pos name e =>
    have he : tasks (.eval e) := h _ List.mem_cons_self
    exact (shape_value he).bind fun _ => shape_perform rfl
  | logical pos op left right =>
    obtain ⟨hl, hr⟩ := List.forall_mem_cons.mp h
    exact shape_logical hfresh op hl (List.forall_mem_singleton.mp hr)
  | binary pos op left right =>
    obtain ⟨hl, hr⟩ := List.forall_mem_cons.mp h
    refine (shape_value hl).bind fun a => ?_
    refine (shape_value (List.forall_mem_singleton.mp hr)).bind fun b => ?_
    exact shape_ofExcept (Value.binary_fresh op a b) hfresh
  | unary pos op e =>
    have he : tasks (.eval e) := h _ List.mem_cons_self
    exact (shape_value he).bind fun v => shape_ofExcept (Value.unary_fresh op v) hfresh
  | call pos name arguments =>
    exact shape_call hfresh name fun e he => h _ (List.mem_map_of_mem he)
  | read pos => exact (shape_perform rfl).bind fun _ => .done _
  | stuck why => exact .fail (hfresh _ trivial)

omit hfresh in
theorem shape_sequence {body : List Stmt} (h : ∀ s ∈ body, tasks (.exec s)) :
    (sequence body).Shape tasks functions failures := by
  induction body with
  | nil => exact .done _
  | cons s rest ih =>
    obtain ⟨hs, hrest⟩ := List.forall_mem_cons.mp h
    refine (shape_signal hs).bind fun signal => ?_
    split
    · exact ih hrest
    · exact .done _

omit hfresh in
theorem shape_condition (loop : Loop) {test : Expr} (h : tasks (.eval test)) :
    (condition loop test).Shape tasks functions failures := by
  refine (shape_value h).bind fun v => ?_
  split
  · exact .done _
  · exact (shape_perform rfl).bind fun _ => .done _

omit hfresh in
theorem shape_iterate {test : Plan Bool} {body : Stmt} {next : Plan Unit}
    (hexhausted : failures .exhausted) (ht : test.Shape tasks functions failures)
    (hb : tasks (.exec body)) (hn : next.Shape tasks functions failures) (rounds : Nat) :
    (iterate test body next rounds).Shape tasks functions failures := by
  induction rounds with
  | zero => exact .fail hexhausted
  | succ rounds ih =>
    refine ht.bind fun b => ?_
    split
    · refine (shape_signal hb).bind fun signal => ?_
      split
      · exact .done _
      · exact .done _
      · exact hn.bind fun _ => ih
    · exact .done _

theorem shape_branch {test : Expr} {yes : Stmt} {no : Option Stmt} (ht : tasks (.eval test))
    (hy : tasks (.exec yes)) (hn : ∀ s, no = some s → tasks (.exec s)) :
    (branch test yes no).Shape tasks functions failures := by
  refine (shape_value ht).bind fun v => ?_
  split
  · refine (shape_perform rfl).bind fun _ => ?_
    split
    · exact shape_signal hy
    · split
      · exact shape_signal (hn _ rfl)
      · exact .done _
  · exact .fail (hfresh _ ⟨rfl, rfl⟩)

omit hfresh in
theorem shape_initial {first : Option Expr} (h : ∀ u ∈ first.toList.map Task.eval, tasks u) :
    (initial first).Shape tasks functions failures := by
  cases first with
  | none => exact .done _
  | some e => exact (shape_value (List.forall_mem_singleton.mp h)).bind fun _ => .done _

theorem shape_define {name : Name} {params : List Param} {body : Stmt}
    (h : functions ⟨name, params, body⟩) :
    (define name params body).Shape tasks functions failures := by
  refine .move h fun _ _ => ?_
  change Shape tasks functions failures (if _ then _ else _)
  split
  · exact .fail (hfresh _ trivial)
  · exact (shape_perform rfl).bind fun _ => .done _

theorem shape_exec (rounds : Nat) {s : Stmt} (h : ∀ u ∈ (Task.exec s).parts, tasks u)
    (hfun : ∀ f, (Task.exec s).Defines f → functions f)
    (hloop : (Task.exec s).isLoop → failures .exhausted) :
    (exec rounds s).Shape tasks functions failures := by
  cases s with
  | declare pos type name first =>
    refine (shape_initial h).bind fun value => (shape_perform rfl).bind fun var => ?_
    exact (shape_perform rfl).bind fun _ => .done _
  | function pos name params body => exact shape_define hfresh (hfun _ ⟨pos, rfl⟩)
  | unusable pos name why => exact (shape_perform rfl).bind fun _ => .fail (hfresh _ trivial)
  | block pos body =>
    refine .within nofun (shape_sequence fun s hs => ?_) fun _ => .done _
    exact h _ (List.mem_map_of_mem hs)
  | branch pos test yes no =>
    obtain ⟨ht, h⟩ := List.forall_mem_cons.mp h
    obtain ⟨hy, hn⟩ := List.forall_mem_cons.mp h
    refine shape_branch hfresh ht hy fun s hs => hn _ ?_
    exact List.mem_map_of_mem (Option.mem_toList.mpr hs)
  | whileLoop pos test body =>
    obtain ⟨ht, hb⟩ := List.forall_mem_cons.mp h
    exact shape_iterate (hloop rfl) (shape_condition _ ht) (List.forall_mem_singleton.mp hb)
      (.done ()) rounds
  | forLoop pos first test update body =>
    obtain ⟨hi, h⟩ := List.forall_mem_cons.mp h
    obtain ⟨ht, h⟩ := List.forall_mem_cons.mp h
    obtain ⟨hu, hb⟩ := List.forall_mem_cons.mp h
    refine .within nofun ?_ fun _ => .done _
    refine (shape_signal hi).bind fun _ => ?_
    exact shape_iterate (hloop rfl) (shape_condition _ ht) (List.forall_mem_singleton.mp hb)
      ((shape_value hu).bind fun _ => .done ()) rounds
  | returns pos result => exact (shape_initial h).bind fun _ => .done _
  | print pos e =>
    have he : tasks (.eval e) := h _ List.mem_cons_self
    exact (shape_value he).bind fun _ => (shape_perform rfl).bind fun _ => .done _
  | breaks pos => exact .done _
  | continues pos => exact .done _
  | expr pos e =>
    have he : tasks (.eval e) := h _ List.mem_cons_self
    exact (shape_value he).bind fun _ => .done _
  | stuck why => exact .fail (hfresh _ trivial)

omit hfresh in
theorem shape_statements {body : List Stmt} (h : ∀ s ∈ body, tasks (.exec s)) :
    (statements body).Shape tasks functions failures := by
  induction body with
  | nil => exact .done _
  | cons s rest ih =>
    obtain ⟨hs, hrest⟩ := List.forall_mem_cons.mp h
    refine (shape_signal hs).bind fun signal => ?_
    split
    · exact ih hrest
    · exact shape_perform rfl

omit hfresh in
theorem shape_program {p : Program} (h : ∀ s ∈ p.body, tasks (.exec s)) :
    (program p).Shape tasks functions failures := by
  refine (shape_perform rfl).bind fun _ => (shape_perform rfl).bind fun _ => ?_
  refine .within nofun ?_ fun _ => .done _
  exact (shape_statements h).bind fun _ => shape_perform rfl

end Shape

end Plan

structure Contract.Admits (C : Contract) (functions : Function → Prop) : Prop where
  move : ∀ {α : Type} (operation : Move α), operation.Adds functions → C.requires operation
  finds : ∀ {α : Type} (operation : Move α) (b : α), C.ensures operation b →
    operation.Finds functions b
  body : ∀ f, functions f → C.task (.exec f.body)
  fresh : ∀ e : Failure, e.Fresh → C.failure e

namespace Plan

variable {α : Type} {C : Contract} {functions : Function → Prop}

theorem meets_perform (law : C.Admits functions) {operation : Move α}
    (h : operation.isRegister = false) : (perform operation).Meets C fun _ => True :=
  (Meets.perform (law.move operation (operation.adds_of_not_register h))).imp fun _ _ => trivial

theorem meets_bindAll (law : C.Admits functions) (params : List Param) (vs : List Value) :
    (bindAll params vs).Meets C fun _ => True := by
  induction params generalizing vs with
  | nil => trivial
  | cons p ps ih =>
    cases vs with
    | nil => trivial
    | cons v vs => exact (meets_perform law rfl).bind fun _ _ => ih vs

theorem meets_enter (law : C.Admits functions) {f : Function} (hf : functions f)
    (vs : List Value) : (enter f vs).Meets C fun _ => True := by
  have hnote : (noteCall f.name vs).Meets C fun _ => True := by
    unfold noteCall
    split
    · exact law.fresh _ trivial
    · exact meets_perform law rfl
  have hbody : (body f vs).Meets C fun _ => True :=
    (meets_bindAll law f.params vs).bind fun _ _ =>
      (Meets.signal (law.body f hf)).imp fun _ _ => trivial
  refine (meets_perform law rfl).bind fun _ _ => hnote.bind fun _ _ => ?_
  refine (Meets.inside (Meets.inside hbody)).bind fun _ _ => ?_
  exact (meets_perform law rfl).bind fun _ _ => trivial

/-- A plan stays within a contract that allows its shape. -/
theorem Shape.meets {tasks : Task → Prop} {failures : Failure → Prop} {p : Plan α}
    (hp : p.Shape tasks functions failures) (law : C.Admits functions)
    (ht : ∀ t, tasks t → C.task t) (hf : ∀ e, failures e → C.failure e) :
    p.Meets C fun _ => True := by
  induction hp with
  | done a => trivial
  | fail he => exact hf _ he
  | move hadd _ ih => exact ⟨law.move _ hadd, fun b hb => ih b (law.finds _ b hb)⟩
  | ask htask _ ih => exact ⟨ht _ htask, fun a _ => ih a⟩
  | within _ _ _ ihi ih => exact ⟨_, ihi, fun b _ => ih b⟩
  | enter hfun _ ih => exact (meets_enter law hfun _).bind fun v _ => ih v

end Plan

namespace Task

/-- A step hands on parts of its task, calls and registers functions as told, and fails as steps
do. -/
theorem plan_shape (t : Task) (rounds : Nat) (functions : Function → Prop)
    (h : ∀ f, t.Defines f → functions f) :
    (t.plan rounds).Shape (· ∈ t.parts) functions t.OwnFailure := by
  cases t with
  | eval e => exact Plan.shape_eval (fun _ he => .inl he) fun _ hu => hu
  | exec s =>
    exact Plan.shape_exec (fun _ he => .inl he) rounds (fun _ hu => hu) h fun hl => .inr ⟨hl, rfl⟩

end Task

end Guion
