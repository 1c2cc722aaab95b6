import Guion.Proofs.Discipline.Machine
import Guion.Proofs.Grammar.Parsing

namespace Guion

section Related

variable {α β : Type} {x : Exec α} {f : α → Exec β} {m : Machine}

theorem Exec.bind_related {R : Machine → Machine → Prop} (hR : ∀ l m n, R l m → R m n → R l n)
    (hx : R m (x m).2) (hf : ∀ (a : α) (n : Machine), R n (f a n).2) : R m ((x >>= f) m).2 := by
  rcases h : x m with ⟨e | a, n⟩ <;> rw [h] at hx
  · rw [Exec.bind_error h]
    exact hx
  · rw [Exec.bind_ok h]
    exact hR _ _ _ hx (hf a n)

theorem Exec.bind_grown (hx : m.Grown (x m).2) (hf : ∀ (a : α) (n : Machine), n.Grown (f a n).2) :
    m.Grown ((x >>= f) m).2 :=
  Exec.bind_related (fun _ _ _ h h' => h.trans h') hx hf

theorem Exec.bind_kept (hx : m.Kept (x m).2) (hf : ∀ (a : α) (n : Machine), n.Kept (f a n).2) :
    m.Kept ((x >>= f) m).2 :=
  Exec.bind_related (fun _ _ _ h h' => h.trans h') hx hf

end Related

def Stmt.isDeclare : Stmt → Bool
  | declare _ _ _ _ => true
  | _ => false

theorem Stmt.IsPlain.isDeclare {s : Stmt} (h : s.IsPlain) : s.isDeclare = false := by
  cases s with
  | declare => exact h.elim
  | _ => rfl

/-- Tasks that leave no name behind: expressions, and statements of a text that declare no
variable. -/
def Task.Silent : Task → Prop
  | eval _ => True
  | exec s => s.Written ∧ s.isDeclare = false

namespace Plan

variable {α β : Type} {ev : Evaluator}

/-- Outside the scopes that it opens, a plan adds no name and hands on silent tasks only. -/
def Silent : {α : Type} → Plan α → Prop
  | _, done _ => True
  | _, fail _ => True
  | _, move operation next => operation.isDeclare = false ∧ ∀ b, (next b).Silent
  | _, ask t next => t.Silent ∧ ∀ a, (next a).Silent
  | _, within .scope _ next => ∀ b, (next b).Silent
  | _, within _ inner next => inner.Silent ∧ ∀ b, (next b).Silent

theorem run_grown (hev : ∀ (t : Task) (m : Machine), m.Grown (ev.answer t m).2) (p : Plan α)
    (m : Machine) :
    m.Grown (p.run ev m).2 := by
  induction p generalizing m with
  | done a => exact (Machine.Kept.refl m).grown
  | fail e => exact (Machine.Kept.refl m).grown
  | move operation next ih => exact Exec.bind_grown (operation.run_grown m) ih
  | ask t next ih => exact Exec.bind_grown (hev t m) ih
  | within bracket inner next ihi ih =>
    exact Exec.bind_grown (bracket.leave_grown (ihi (bracket.enter m))) ih

theorem run_kept (hev : ∀ (t : Task) (m : Machine), m.Grown (ev.answer t m).2)
    (hsilent : ∀ (t : Task) (m : Machine), t.Silent → m.Kept (ev.answer t m).2) (p : Plan α)
    (hp : p.Silent)
    (m : Machine) : m.Kept (p.run ev m).2 := by
  induction p generalizing m with
  | done a => exact .refl m
  | fail e => exact .refl m
  | move operation next ih =>
    exact Exec.bind_kept (operation.run_kept hp.1 m) fun b n => ih b (hp.2 b) n
  | ask t next ih => exact Exec.bind_kept (hsilent t m hp.1) fun a n => ih a (hp.2 a) n
  | within bracket inner next ihi ih =>
    cases bracket with
    | scope =>
      -- what is declared inside is gone when the scope is closed
      have hinner := run_grown hev inner (Bracket.scope.enter m)
      exact Exec.bind_kept (Bracket.scope_kept hinner) fun b n => ih b (hp b) n
    | call =>
      have hinner := ihi hp.1 (Bracket.call.enter m)
      exact Exec.bind_kept (Bracket.leave_kept .call hinner) fun b n => ih b (hp.2 b) n
    | tracing =>
      have hinner := ihi hp.1 (Bracket.tracing.enter m)
      exact Exec.bind_kept (Bracket.leave_kept .tracing hinner) fun b n => ih b (hp.2 b) n

theorem Silent.bind {p : Plan α} {f : α → Plan β} (hp : p.Silent) (hf : ∀ a, (f a).Silent) :
    (p >>= f).Silent := by
  change (p.bind f).Silent
  induction p with
  | done a => exact hf a
  | fail e => trivial
  | move operation next ih => exact ⟨hp.1, fun b => ih b (hp.2 b) hf⟩
  | ask t next ih => exact ⟨hp.1, fun a => ih a (hp.2 a) hf⟩
  | within bracket inner next _ ih =>
    cases bracket with
    | scope => exact fun b => ih b (hp b) hf
    | call => exact ⟨hp.1, fun b => ih b (hp.2 b) hf⟩
    | tracing => exact ⟨hp.1, fun b => ih b (hp.2 b) hf⟩

theorem silent_ofExcept (r : Except Failure α) : (ofExcept r).Silent := by
  cases r <;> trivial

theorem silent_perform {operation : Move α} (h : operation.isDeclare = false) :
    (perform operation).Silent :=
  ⟨h, fun _ => trivial⟩

theorem silent_value (e : Expr) : (value e).Silent := ⟨trivial, fun _ => trivial⟩

theorem silent_signal {s : Stmt} (hs : s.Written) (hd : s.isDeclare = false) : (signal s).Silent :=
  ⟨⟨hs, hd⟩, fun _ => trivial⟩

theorem silent_values (es : List Expr) : (values es).Silent := by
  induction es with
  | nil => trivial
  | cons e es ih => exact (silent_value e).bind fun _ => ih.bind fun _ => trivial

theorem silent_second (op : LogicalOp) (right : Expr) : (second op right).Silent := by
  refine (silent_value right).bind fun v => ?_
  split <;> trivial

theorem silent_logical (op : LogicalOp) (left right : Expr) : (logical op left right).Silent := by
  refine (silent_value left).bind fun v => ?_
  split
  · trivial
  · trivial
  · exact silent_second op right
  · trivial

theorem silent_noteCall (name : Name) (vs : List Value) : (noteCall name vs).Silent := by
  unfold noteCall
  split
  · trivial
  · exact silent_perform rfl

theorem silent_enter (f : Function) (vs : List Value) : (enter f vs).Silent := by
  refine (silent_perform rfl).bind fun _ => (silent_noteCall f.name vs).bind fun _ => ?_
  -- the parameters are bound in the scope of the call
  have hcall : (inside .call (inside .scope (body f vs))).Silent :=
    ⟨fun _ => trivial, fun _ => trivial⟩
  exact hcall.bind fun _ => (silent_perform rfl).bind fun _ => trivial

theorem silent_call (name : Name) (arguments : List Expr) : (call name arguments).Silent := by
  refine (silent_perform rfl).bind fun f => (silent_values arguments).bind fun given => ?_
  split
  · exact (silent_ofExcept _).bind fun vs => silent_enter f vs
  · trivial

theorem silent_eval (e : Expr) : (eval e).Silent := by
  cases e with
  | literal pos l =>
    cases l with
    | integer n => exact silent_ofExcept _
    | decimal | text | truth | foreign => trivial
  | name pos name =>
    refine (silent_perform rfl).bind fun var => ?_
    split <;> trivial
  | assign pos name e => exact (silent_value e).bind fun _ => silent_perform rfl
  | logical pos op left right => exact silent_logical op left right
  | binary pos op left right =>
    exact (silent_value left).bind fun _ => (silent_value right).bind fun _ => silent_ofExcept _
  | unary pos op e => exact (silent_value e).bind fun _ => silent_ofExcept _
  | call pos name arguments => exact silent_call name arguments
  | read pos => exact (silent_perform rfl).bind fun _ => trivial
  | stuck why => trivial

theorem silent_condition (loop : Loop) (test : Expr) : (condition loop test).Silent := by
  refine (silent_value test).bind fun v => ?_
  split
  · trivial
  · exact (silent_perform rfl).bind fun _ => trivial

theorem silent_iterate {test : Plan Bool} {body : Stmt} {next : Plan Unit} (rounds : Nat)
    (ht : test.Silent) (hb : (signal body).Silent) (hn : next.Silent) :
    (iterate test body next rounds).Silent := by
  induction rounds with
  | zero => trivial
  | succ rounds ih =>
    refine ht.bind fun b => ?_
    split
    · refine hb.bind fun signal => ?_
      split
      · trivial
      · trivial
      · exact hn.bind fun _ => ih
    · trivial

theorem silent_branch {test : Expr} {yes : Stmt} {no : Option Stmt} (hy : (signal yes).Silent)
    (hn : ∀ s, no = some s → (signal s).Silent) : (branch test yes no).Silent := by
  refine (silent_value test).bind fun v => ?_
  split
  · refine (silent_perform rfl).bind fun _ => ?_
    split
    · exact hy
    · split
      · exact hn _ rfl
      · trivial
  · trivial

theorem silent_define (name : Name) (params : List Param) (body : Stmt) :
    (define name params body).Silent := by
  refine (silent_perform rfl).bind fun _ => ?_
  split
  · trivial
  · exact (silent_perform rfl).bind fun _ => trivial

theorem silent_initial (first : Option Expr) : (initial first).Silent := by
  cases first with
  | none => trivial
  | some e => exact (silent_value e).bind fun _ => trivial

theorem silent_exec (rounds : Nat) {s : Stmt} (hs : s.Written) (hd : s.isDeclare = false) :
    (exec rounds s).Silent := by
  cases hs with
  | declare => cases hd
  | function s hp hb => exact silent_define _ _ _
  | block hb => exact fun _ => trivial
  | branch ht hy hplain hn hno =>
    refine silent_branch (silent_signal hy hplain.isDeclare) fun s hs => ?_
    exact silent_signal (hn s hs) (hno s hs).1.isDeclare
  | whileLoop ht hb hplain =>
    exact silent_iterate rounds (silent_condition _ _) (silent_signal hb hplain.isDeclare) trivial
  | forLoop => exact fun _ => trivial
  | returns hv => exact (silent_initial _).bind fun _ => trivial
  | print he => exact (silent_value _).bind fun _ => (silent_perform rfl).bind fun _ => trivial
  | breaks => trivial
  | continues => trivial
  | expr he => exact (silent_value _).bind fun _ => trivial

end Plan

namespace Task

theorem run_snd_succ (fuel : Nat) (t : Task) (m : Machine) :
    (t.run (fuel + 1) m).2 = ((t.plan fuel).run (.upTo fuel) m).2 := by
  rw [run_succ, Exec.located_apply]

theorem run_grown (fuel : Nat) (t : Task) (m : Machine) : m.Grown (t.run fuel m).2 := by
  induction fuel generalizing t m with
  | zero => cases t <;> exact (Machine.Kept.refl m).grown
  | succ fuel ih =>
    rw [run_snd_succ]
    refine Plan.run_grown (fun u n => ?_) (t.plan fuel) m
    rw [Evaluator.answer_upTo]
    exact ih u n

theorem Silent.plan {t : Task} (ht : t.Silent) (fuel : Nat) : (t.plan fuel).Silent := by
  cases t with
  | eval e => exact Plan.silent_eval e
  | exec s => exact Plan.silent_exec fuel ht.1 ht.2

theorem run_kept (fuel : Nat) (t : Task) (ht : t.Silent) (m : Machine) :
    m.Kept (t.run fuel m).2 := by
  induction fuel generalizing t m with
  | zero => cases t <;> exact .refl m
  | succ fuel ih =>
    rw [run_snd_succ]
    refine Plan.run_kept (fun u n => ?_) (fun u n hu => ?_) (t.plan fuel) (ht.plan fuel) m
    · rw [Evaluator.answer_upTo]
      exact run_grown fuel u n
    · rw [Evaluator.answer_upTo]
      exact ih u hu n

end Task

theorem run_grown (fuel : Nat) (program : Program) (m : Machine) :
    m.Grown (run fuel program m).2 := by
  rw [← Plan.run_program]
  refine Plan.run_grown (fun t n => ?_) (Plan.program program) m
  rw [Evaluator.answer_upTo]
  exact t.run_grown fuel n

end Guion
