import Guion.Proofs.Plan
import Guion.Proofs.Regular

namespace Guion

/-- The literals that a text can contain. -/
inductive Literal.Written : Literal → Prop where
  | integer (n : Nat) : Written (.integer (.int n))
  | decimal (x : Float) : Written (.decimal x)
  | text (s : String) : Written (.text s)
  | truth (b : Bool) : Written (.truth b)

/-- The expressions that a text can contain. -/
inductive Expr.Written : Expr → Prop where
  | literal {pos : Pos} {l : Literal} : l.Written → Written (.literal pos l)
  | name {pos : Pos} (s : String) : Written (.name pos s)
  | assign {pos : Pos} (s : String) {e : Expr} : Written e → Written (.assign pos s e)
  | logical {pos : Pos} {op : LogicalOp} {left right : Expr} :
    op.Known → Written left → Written right → Written (.logical pos op left right)
  | binary {pos : Pos} {op : BinaryOp} {left right : Expr} :
    op.Known → Written left → Written right → Written (.binary pos op left right)
  | unary {pos : Pos} {op : UnaryOp} {e : Expr} :
    op.Known → Written e → Written (.unary pos op e)
  | call {pos : Pos} (s : String) {arguments : List Expr} :
    (∀ e ∈ arguments, Written e) → Written (.call pos s arguments)
  | read {pos : Pos} : Written (.read pos)

namespace Stmt

def IsPlain : Stmt → Prop
  | declare _ _ _ _ => False
  | function _ _ _ _ => False
  | unusable _ _ _ => False
  | _ => True

/-- Whether a statement ends in a `si` without `sino`, to which a `sino` after it would belong. -/
def endsOpen : Stmt → Bool
  | branch _ _ _ none => true
  | branch _ _ _ (some s) => s.endsOpen
  | whileLoop _ _ body => body.endsOpen
  | forLoop _ _ _ _ body => body.endsOpen
  | _ => false

end Stmt

def Param.Written (p : Param) : Prop :=
  (∃ kind, p.type = .known kind) ∧ ∃ s : String, p.name = s

/-- The declarations and statements that a text can contain. -/
inductive Stmt.Written : Stmt → Prop where
  | declare {pos : Pos} (kind : Kind) (s : String) {initial : Option Expr} :
    (∀ e, initial = some e → e.Written) → Written (.declare pos (.known kind) s initial)
  | function {pos place : Pos} (s : String) {params : List Param} {body : List Stmt} :
    (∀ p ∈ params, p.Written) → (∀ s ∈ body, Written s) →
      Written (.function pos s params (.block place body))
  | block {pos : Pos} {body : List Stmt} : (∀ s ∈ body, Written s) → Written (.block pos body)
  | branch {pos : Pos} {test : Expr} {yes : Stmt} {no : Option Stmt} :
    test.Written → Written yes → yes.IsPlain → (∀ s, no = some s → Written s) →
      (∀ s, no = some s → s.IsPlain ∧ yes.endsOpen = false) → Written (.branch pos test yes no)
  | whileLoop {pos : Pos} {test : Expr} {body : Stmt} :
    test.Written → Written body → body.IsPlain → Written (.whileLoop pos test body)
  | forLoop {pos place : Pos} {kind : Kind} {s : String} {initial : Option Expr}
    {test update : Expr} {body : Stmt} :
    Written (.declare place (.known kind) s initial) → test.Written → update.Written →
      Written body → body.IsPlain →
      Written (.forLoop pos (.declare place (.known kind) s initial) test update body)
  | returns {pos : Pos} {value : Option Expr} :
    (∀ e, value = some e → e.Written) → Written (.returns pos value)
  | print {pos : Pos} {e : Expr} : e.Written → Written (.print pos e)
  | breaks {pos : Pos} : Written (.breaks pos)
  | continues {pos : Pos} : Written (.continues pos)
  | expr {pos : Pos} {e : Expr} : e.Written → Written (.expr pos e)

def Function.Written (f : Function) : Prop :=
  (∀ p ∈ f.params, p.Written) ∧ f.body.Written

def Program.Written (p : Program) : Prop :=
  ∀ s ∈ p.body, s.Written

namespace Task

def Written : Task → Prop
  | eval e => e.Written
  | exec s => s.Written

def parts : Task → List Task
  | eval (.assign _ _ e) => [eval e]
  | eval (.logical _ _ left right) => [eval left, eval right]
  | eval (.binary _ _ left right) => [eval left, eval right]
  | eval (.unary _ _ e) => [eval e]
  | eval (.call _ _ arguments) => arguments.map eval
  | exec (.declare _ _ _ initial) => initial.toList.map eval
  | exec (.function _ _ _ body) => [exec body]
  | exec (.block _ body) => body.map exec
  | exec (.branch _ test yes no) => eval test :: exec yes :: no.toList.map exec
  | exec (.whileLoop _ test body) => [eval test, exec body]
  | exec (.forLoop _ initial test update body) => [exec initial, eval test, eval update, exec body]
  | exec (.returns _ value) => value.toList.map eval
  | exec (.print _ e) => [eval e]
  | exec (.expr _ e) => [eval e]
  | _ => []

theorem mem_optional {initial : Option Expr} {u : Task} :
    u ∈ initial.toList.map eval ↔ ∃ e, initial = some e ∧ u = eval e := by
  cases initial <;> simp

theorem Written.part {t u : Task} (ht : t.Written) (hu : u ∈ t.parts) : u.Written := by
  cases t with
  | eval e =>
    cases ht with
    | literal | name | read => cases hu
    | assign s he | unary hop he =>
      obtain rfl := List.mem_singleton.mp hu
      exact he
    | logical hop hl hr | binary hop hl hr =>
      simp only [parts, List.mem_cons, List.not_mem_nil, or_false] at hu
      obtain rfl | rfl := hu
      · exact hl
      · exact hr
    | call s ha =>
      obtain ⟨e, he, rfl⟩ := List.mem_map.mp hu
      exact ha e he
  | exec s =>
    cases ht with
    | breaks | continues => cases hu
    | declare kind s hi | returns hi =>
      obtain ⟨e, he, rfl⟩ := mem_optional.mp hu
      exact hi e he
    | function s hp hb =>
      obtain rfl := List.mem_singleton.mp hu
      exact .block hb
    | block hb =>
      obtain ⟨s, hs, rfl⟩ := List.mem_map.mp hu
      exact hb s hs
    | branch ht hy _ hn _ =>
      obtain rfl | hu := List.mem_cons.mp hu
      · exact ht
      · obtain rfl | hu := List.mem_cons.mp hu
        · exact hy
        · obtain ⟨s, hs, rfl⟩ := List.mem_map.mp hu
          exact hn s (Option.mem_toList.mp hs)
    | whileLoop ht hb _ =>
      simp only [parts, List.mem_cons, List.not_mem_nil, or_false] at hu
      obtain rfl | rfl := hu
      · exact ht
      · exact hb
    | forLoop hi ht hu' hb _ =>
      simp only [parts, List.mem_cons, List.not_mem_nil, or_false] at hu
      obtain rfl | rfl | rfl | rfl := hu
      · exact hi
      · exact ht
      · exact hu'
      · exact hb
    | print he | expr he =>
      obtain rfl := List.mem_singleton.mp hu
      exact he

end Task

/-- The parts of a program, at any depth. -/
inductive Program.Contains (p : Program) : Task → Prop where
  | top {s : Stmt} : s ∈ p.body → Contains p (.exec s)
  | part {t u : Task} : Contains p t → u ∈ t.parts → Contains p u

theorem Program.Written.contains {p : Program} (hp : p.Written) {t : Task} (ht : p.Contains t) :
    t.Written := by
  induction ht with
  | top hs => exact hp _ hs
  | part _ hu ih => exact ih.part hu

end Guion
