import Guion.Proofs.Grammar.Complete
import Guion.Proofs.Relocation

namespace Guion

namespace Parse

/-- A change of all places in a text, and of the positions that are made of them. -/
structure Relocation where
  mark : Mark → Mark
  pos : Pos → Pos
  pos_mark (m : Mark) : pos m.pos = (mark m).pos

def Relocation.erasing : Relocation where
  mark _ := ⟨0, 0⟩
  pos _ := .none
  pos_mark _ := rfl

def Relocation.down (lines : Nat) : Relocation where
  mark m := ⟨m.line + lines, m.column⟩
  pos := Pos.down lines
  pos_mark m := by simp [Pos.down, Mark.pos]

end Parse

def Token.moved (r : Parse.Relocation) (t : Token) : Token := { t with mark := r.mark t.mark }

namespace Parse

section

variable (r : Relocation)

def Operand.moved (e : Operand) : Operand := ⟨r.mark e.start, e.expr.moved r.pos⟩

def Pending.moved : Pending → Pending
  | .right op left => .right op (left.moved r)
  | .unary op start => .unary op (r.mark start)
  | .assign name start => .assign name (r.mark start)
  | .group start => .group (r.mark start)
  | .call function start before => .call function (r.mark start) (before.map (Expr.moved r.pos))

def Owner.moved : Owner → Owner
  | .body => .body
  | .head start => .head (r.mark start)

def Hole.moved : Hole → Hole
  | .statement => .statement
  | .printed start => .printed (r.mark start)
  | .returned start => .returned (r.mark start)
  | .initial owner start kind name => .initial (owner.moved r) (r.mark start) kind name
  | .branchTest start => .branchTest (r.mark start)
  | .whileTest start => .whileTest (r.mark start)
  | .forTest start first => .forTest (r.mark start) (first.moved r.pos)
  | .forUpdate start first test =>
    .forUpdate (r.mark start) (first.moved r.pos) (test.moved r.pos)

def Enclosing.moved : Enclosing → Enclosing
  | .block start before => .block (r.mark start) (before.map (Stmt.moved r.pos))
  | .function start name params =>
    .function (r.mark start) name (params.map (Param.moved r.pos))
  | .yes start test => .yes (r.mark start) (test.moved r.pos)
  | .no start test taken => .no (r.mark start) (test.moved r.pos) (taken.moved r.pos)
  | .whileBody start test => .whileBody (r.mark start) (test.moved r.pos)
  | .forBody start first test update =>
    .forBody (r.mark start) (first.moved r.pos) (test.moved r.pos) (update.moved r.pos)

def Focus.moved : Focus → Focus
  | .ready after => .ready after
  | .orElse finished => .orElse (finished.moved r.pos)
  | .statement => .statement
  | .typed owner start kind => .typed (owner.moved r) (r.mark start) kind
  | .named owner start kind name => .named (owner.moved r) (r.mark start) kind name
  | .head word start => .head word (r.mark start)
  | .forHead start => .forHead (r.mark start)
  | .jump s => .jump (s.moved r.pos)
  | .returning start => .returning (r.mark start)
  | .firstName start name => .firstName (r.mark start) name
  | .firstOpen start name => .firstOpen (r.mark start) name
  | .firstEmpty start name => .firstEmpty (r.mark start) name
  | .param start name before => .param (r.mark start) name (before.map (Param.moved r.pos))
  | .paramType start name before place kind =>
    .paramType (r.mark start) name (before.map (Param.moved r.pos)) (r.mark place) kind
  | .paramName start name before =>
    .paramName (r.mark start) name (before.map (Param.moved r.pos))
  | .functionHead start name params =>
    .functionHead (r.mark start) name (params.map (Param.moved r.pos))
  | .want w hole pending => .want w (hole.moved r) (pending.map (Pending.moved r))
  | .reader opened start hole pending =>
    .reader opened (r.mark start) (hole.moved r) (pending.map (Pending.moved r))
  | .operand form e hole pending =>
    .operand form (e.moved r) (hole.moved r) (pending.map (Pending.moved r))

/-- A state with its places changed, and with other finished statements below its own. -/
def State.moved (below : List Stmt) (st : State) : State where
  before := st.before.map (Stmt.moved r.pos) ++ below
  around := st.around.map (Enclosing.moved r)
  focus := st.focus.moved r

end

variable {r : Relocation}

attribute [simp] Relocation.pos_mark

@[simp]
theorem Focus.accepts_moved (focus : Focus) : (focus.moved r).accepts = focus.accepts := by
  funext t
  cases focus with
  | ready after => rfl
  | want w hole pending => cases w <;> rfl
  | reader opened => cases opened <;> rfl
  | operand form e hole pending =>
    cases form with
    | name name assignable => cases assignable <;> rfl
    | closed => rfl
  | _ => rfl

section Operands

@[simp]
theorem join_moved (op : Connective) (left right : Operand) :
    op.join (left.moved r) (right.moved r) = (op.join left right).moved r := by
  cases op <;> simp [Connective.join, Operand.moved, Expr.moved]

theorem reduce_moved (level : Nat) (pending : List Pending) (e : Operand) :
    reduce level (pending.map (Pending.moved r)) (e.moved r) =
      (reduce level pending e).map (List.map (Pending.moved r)) (Operand.moved r) := by
  fun_induction reduce level pending e with
  | case1 op left rest e hlevel ih =>
    simpa [reduce, Pending.moved, hlevel] using ih
  | case2 op left rest e hlevel => simp [reduce, Pending.moved, hlevel]
  | case3 op start rest e ih => simpa [reduce, Pending.moved, Operand.moved, Expr.moved] using ih
  | case4 rest e hright hunary =>
    cases rest with
    | nil => rfl
    | cons first rest => cases first <;> simp_all [reduce, Pending.moved]

theorem collapse_moved (pending : List Pending) (e : Operand) :
    collapse (pending.map (Pending.moved r)) (e.moved r) =
      (collapse pending e).map (List.map (Pending.moved r)) (Operand.moved r) := by
  fun_induction collapse pending e with
  | case1 op left rest e ih => simpa [collapse, Pending.moved] using ih
  | case2 op start rest e ih =>
    simpa [collapse, Pending.moved, Operand.moved, Expr.moved] using ih
  | case3 name start rest e ih =>
    simpa [collapse, Pending.moved, Operand.moved, Expr.moved] using ih
  | case4 rest e =>
    cases rest with
    | nil => rfl
    | cons first rest => cases first <;> simp_all [collapse, Pending.moved]

theorem connect?_of_ne_pow {op : Connective} (hop : op ≠ .binary .pow) (pending : List Pending)
    (e : Operand) :
    connect? op pending e =
      some (.right op (reduce op.level pending e).2 :: (reduce op.level pending e).1) := by
  unfold connect?
  split
  next => exact absurd rfl hop
  next => rfl

theorem connect?_moved (op : Connective) (pending : List Pending) (e : Operand) :
    connect? op (pending.map (Pending.moved r)) (e.moved r) =
      (connect? op pending e).map (List.map (Pending.moved r)) := by
  by_cases hop : op = .binary .pow
  · subst hop
    simp only [connect?, reduce_moved]
    obtain ⟨rest, e⟩ := reduce 7 pending e
    cases rest with
    | nil => rfl
    | cons first rest =>
      cases first with
      | right op left => cases op with
        | logical op => rfl
        | binary op => cases op <;> rfl
      | _ => rfl
  · simp [connect?_of_ne_pow hop, reduce_moved, Pending.moved]

@[simp]
theorem beginsExpr_moved (pending : List Pending) :
    beginsExpr (pending.map (Pending.moved r)) = beginsExpr pending := by
  cases pending with
  | nil => rfl
  | cons first rest => cases first <;> rfl

theorem operand?_moved (hole : Hole) (pending : List Pending) (t : Token) :
    operand? (hole.moved r) (pending.map (Pending.moved r)) (t.moved r) =
      (operand? hole pending t).map (Focus.moved r) := by
  have hliteral : literal? (t.moved r) = literal? t := rfl
  have hterminal : (t.moved r).terminal = t.terminal := rfl
  unfold operand?
  rw [hliteral, hterminal]
  split
  next => simp [Focus.moved, Operand.moved, Expr.moved, Token.moved]
  next =>
    split
    next => simp [Focus.moved, Pending.moved, Token.moved]
    next =>
      split <;> simp [Focus.moved, Pending.moved, Operand.moved, Expr.moved, Token.moved, textOf]

theorem statement?_moved (t : Token) :
    statement? (t.moved r) = (statement? t).map (Focus.moved r) := by
  have hterminal : (t.moved r).terminal = t.terminal := rfl
  unfold statement?
  rw [hterminal]
  split <;> simp [Focus.moved, Hole.moved, Stmt.moved, Token.moved]

end Operands

namespace State

variable {below : List Stmt}

theorem settle_moved (hold : Bool) (before : List Stmt) (s : Stmt) (around : List Enclosing) :
    settle hold (before.map (Stmt.moved r.pos) ++ below) (s.moved r.pos)
        (around.map (Enclosing.moved r)) =
      (settle hold before s around).moved r below := by
  induction around generalizing s with
  | nil => rfl
  | cons frame up ih =>
    cases frame with
    | block start done => rfl
    | yes start test =>
      cases hold with
      | true => rfl
      | false =>
        simpa [settle, Enclosing.moved, Stmt.moved] using ih (.branch start.pos test s none)
    | no start test taken =>
      simpa [settle, Enclosing.moved, Stmt.moved] using ih (.branch start.pos test taken (some s))
    | function start name params =>
      simpa [settle, Enclosing.moved, Stmt.moved] using ih (.function start.pos name params s)
    | whileBody start test =>
      simpa [settle, Enclosing.moved, Stmt.moved] using ih (.whileLoop start.pos test s)
    | forBody start first test update =>
      simpa [settle, Enclosing.moved, Stmt.moved] using ih (.forLoop start.pos first test update s)

variable (st : State) (hole : Hole) (pending : List Pending) (e : Operand) (t : Token)

theorem finish_moved (s : Stmt) :
    (st.moved r below).finish (s.moved r.pos) = (st.finish s).moved r below :=
  settle_moved true st.before s st.around

theorem declared_moved (owner : Owner) (s : Stmt) :
    (st.moved r below).declared (owner.moved r) (s.moved r.pos) =
      (st.declared owner s).moved r below := by
  cases owner with
  | head start => rfl
  | body =>
    have hsettle := @settle_moved r below true st.before s st.around
    simp only [declared, Owner.moved, State.moved] at hsettle ⊢
    rw [hsettle]
    rfl

theorem closeBlock?_moved :
    (st.moved r below).closeBlock? = st.closeBlock?.map (State.moved r below) := by
  obtain ⟨before, around, focus⟩ := st
  cases around with
  | nil => rfl
  | cons frame up =>
    cases frame with
    | block start done =>
      have hsettle :=
        @settle_moved r below true before (.block start.pos done.reverse) up
      simpa [closeBlock?, State.moved, Enclosing.moved, Stmt.moved] using hsettle
    | _ => rfl

theorem wanted?_moved :
    (st.moved r below).wanted? (hole.moved r) (pending.map (Pending.moved r)) (t.moved r) =
      (st.wanted? hole pending t).map (State.moved r below) := by
  simp only [wanted?, operand?_moved, Option.map_map]
  rfl

theorem inStatement?_moved :
    (st.moved r below).inStatement? (t.moved r) =
      (st.inStatement? t).map (State.moved r below) := by
  have hterminal : (t.moved r).terminal = t.terminal := rfl
  have hoperand := operand?_moved (r := r) .statement [] t
  unfold inStatement?
  rw [hterminal]
  split
  next => rfl
  next =>
    rw [statement?_moved, show operand? .statement [] (t.moved r) = _ from hoperand]
    cases statement? t <;> simp [State.moved, Function.comp_def]

theorem inBody?_moved :
    (st.moved r below).inBody? (t.moved r) = (st.inBody? t).map (State.moved r below) := by
  have hterminal : (t.moved r).terminal = t.terminal := rfl
  have htype : typeOf? (t.moved r) = typeOf? t := rfl
  unfold inBody?
  rw [hterminal, htype]
  split
  next => rfl
  next =>
    split
    next => rfl
    next =>
      split
      next => exact closeBlock?_moved st
      next => exact inStatement?_moved st t

theorem atSemicolon?_moved :
    (st.moved r below).atSemicolon? (hole.moved r) (e.moved r) =
      (st.atSemicolon? hole e).map (State.moved r below) := by
  cases hole with
  | initial owner start kind name =>
    have hdeclared := @declared_moved r below st owner
      (.declare start.pos (.known kind) name (some e.expr))
    simpa [atSemicolon?, Hole.moved, Operand.moved, Stmt.moved] using hdeclared
  | statement =>
    have hfinish := @finish_moved r below st (.expr e.start.pos e.expr)
    simpa [atSemicolon?, Hole.moved, Operand.moved, Stmt.moved] using hfinish
  | printed start =>
    have hfinish := @finish_moved r below st (.print start.pos e.expr)
    simpa [atSemicolon?, Hole.moved, Operand.moved, Stmt.moved] using hfinish
  | returned start =>
    have hfinish := @finish_moved r below st (.returns start.pos (some e.expr))
    simpa [atSemicolon?, Hole.moved, Operand.moved, Stmt.moved] using hfinish
  | _ => rfl

theorem atClose?_moved :
    (st.moved r below).atClose? (hole.moved r) (e.moved r) =
      (st.atClose? hole e).map (State.moved r below) := by
  cases hole <;> rfl

theorem close?_moved :
    (st.moved r below).close? (hole.moved r) (pending.map (Pending.moved r)) (e.moved r) =
      (st.close? hole pending e).map (State.moved r below) := by
  unfold close?
  rw [collapse_moved]
  obtain ⟨rest, e⟩ := collapse pending e
  cases rest with
  | nil => exact atClose?_moved st hole e
  | cons first rest =>
    cases first with
    | call name start before =>
      simp [Prod.map, Pending.moved, State.moved, Focus.moved, Operand.moved, Expr.moved]
    | _ => rfl

theorem nextArgument?_moved :
    (st.moved r below).nextArgument? (hole.moved r) (pending.map (Pending.moved r)) (e.moved r) =
      (st.nextArgument? hole pending e).map (State.moved r below) := by
  unfold nextArgument?
  rw [collapse_moved]
  obtain ⟨rest, e⟩ := collapse pending e
  cases rest with
  | nil => rfl
  | cons first rest => cases first <;> rfl

theorem endExpr?_moved :
    (st.moved r below).endExpr? (hole.moved r) (pending.map (Pending.moved r)) (e.moved r) =
      (st.endExpr? hole pending e).map (State.moved r below) := by
  unfold endExpr?
  rw [collapse_moved]
  obtain ⟨rest, e⟩ := collapse pending e
  cases rest with
  | nil => exact atSemicolon?_moved st hole e
  | cons first rest => rfl

theorem afterName?_moved (name : String) (assignable : Bool) :
    (st.moved r below).afterName? name assignable (e.moved r) (hole.moved r)
        (pending.map (Pending.moved r)) (t.moved r) =
      (st.afterName? name assignable e hole pending t).map (State.moved r below) := by
  have hterminal : (t.moved r).terminal = t.terminal := rfl
  unfold afterName?
  rw [hterminal]
  split
  next => rfl
  next => split <;> rfl

theorem afterOperand?_moved (form : Form) :
    (st.moved r below).afterOperand? form (e.moved r) (hole.moved r)
        (pending.map (Pending.moved r)) (t.moved r) =
      (st.afterOperand? form e hole pending t).map (State.moved r below) := by
  have hterminal : (t.moved r).terminal = t.terminal := rfl
  unfold afterOperand?
  rw [hterminal]
  split
  next op _ => simp [connect?_moved, State.moved, Focus.moved, Function.comp_def]
  next =>
    split
    next => exact close?_moved st hole pending e
    next =>
      split
      next => exact nextArgument?_moved st hole pending e
      next =>
        split
        next => exact endExpr?_moved st hole pending e
        next =>
          cases form with
          | name name assignable => exact afterName?_moved st hole pending e t name assignable
          | closed => rfl

theorem afterYes?_moved (yes : Stmt) :
    (st.moved r below).afterYes? (yes.moved r.pos) (t.moved r) =
      (st.afterYes? yes t).map (State.moved r below) := by
  have hterminal : (t.moved r).terminal = t.terminal := rfl
  unfold afterYes?
  rw [hterminal]
  split
  next =>
    obtain ⟨before, around, focus⟩ := st
    cases around with
    | nil => rfl
    | cons frame up => cases frame <;> rfl
  next =>
    rw [← inBody?_moved, ← settle_moved]
    rfl

theorem afterNamed?_moved (owner : Owner) (start : Mark) (kind : Kind) (name : String) :
    (st.moved r below).afterNamed? (owner.moved r) (r.mark start) kind name (t.moved r) =
      (st.afterNamed? owner start kind name t).map (State.moved r below) := by
  have hterminal : (t.moved r).terminal = t.terminal := rfl
  unfold afterNamed?
  rw [hterminal]
  split
  next => simp [← declared_moved, Stmt.moved]
  next => split <;> rfl

theorem afterFirstOpen?_moved (start : Mark) (name : String) :
    (st.moved r below).afterFirstOpen? (r.mark start) name (t.moved r) =
      (st.afterFirstOpen? start name t).map (State.moved r below) := by
  have hterminal : (t.moved r).terminal = t.terminal := rfl
  have htype : typeOf? (t.moved r) = typeOf? t := rfl
  unfold afterFirstOpen?
  rw [hterminal, htype]
  split
  next => rfl
  next =>
    split
    next => rfl
    next => exact wanted?_moved st .statement [.call name start []] t

theorem afterParam?_moved (start : Mark) (name : String) (before : List Param) :
    (st.moved r below).afterParam? (r.mark start) name (before.map (Param.moved r.pos))
        (t.moved r) =
      (st.afterParam? start name before t).map (State.moved r below) := by
  have hterminal : (t.moved r).terminal = t.terminal := rfl
  unfold afterParam?
  rw [hterminal]
  split
  next => rfl
  next => split <;> simp [State.moved, Focus.moved]

theorem firstArgument?_moved :
    (st.moved r below).firstArgument? (hole.moved r) (pending.map (Pending.moved r))
        (t.moved r) =
      (st.firstArgument? hole pending t).map (State.moved r below) := by
  cases pending with
  | nil => rfl
  | cons first rest =>
    cases first with
    | call name start before =>
      cases before with
      | nil =>
        have hterminal : (t.moved r).terminal = t.terminal := rfl
        simp only [firstArgument?, List.map_cons, Pending.moved, List.map_nil]
        rw [hterminal]
        split
        next => simp [State.moved, Focus.moved, Operand.moved, Expr.moved]
        next => exact wanted?_moved st hole (.call name start [] :: rest) t
      | cons => rfl
    | _ => rfl

theorem expect?_moved {other : State} (terminal : Terminal) (h : other = st.moved r below) :
    expect? terminal other (t.moved r) = (expect? terminal st t).map (State.moved r below) := by
  have hterminal : (t.moved r).terminal = t.terminal := rfl
  rw [h]
  unfold expect?
  rw [hterminal]
  split <;> rfl

theorem expectType?_moved {focus focus' : Kind → Focus}
    (h : ∀ kind, focus' kind = (focus kind).moved r) :
    (st.moved r below).expectType? (t.moved r) focus' =
      (st.expectType? t focus).map (State.moved r below) := by
  have htype : typeOf? (t.moved r) = typeOf? t := rfl
  simp [expectType?, htype, State.moved, h, Function.comp_def]

theorem next?_moved :
    (st.moved r below).next? (t.moved r) = (st.next? t).map (State.moved r below) := by
  have hterminal : (t.moved r).terminal = t.terminal := rfl
  obtain ⟨done, around, focus⟩ := st
  cases focus with
  | ready after => exact inBody?_moved _ t
  | orElse yes => exact afterYes?_moved _ t yes
  | statement => exact inStatement?_moved _ t
  | typed owner start kind =>
    exact expect?_moved ⟨done, around, .named owner start kind (textOf t)⟩ t _ rfl
  | named owner start kind name => exact afterNamed?_moved _ t owner start kind name
  | head word start =>
    refine expect?_moved ⟨done, around, opened start word⟩ t _ ?_
    cases word <;> rfl
  | forHead start => exact expectType?_moved _ t fun _ => rfl
  | jump s => exact expect?_moved _ t _ (finish_moved ⟨done, around, .jump s⟩ s)
  | returning start =>
    simp only [next?, Focus.moved, State.moved, hterminal, ← r.pos_mark]
    split
    next => exact congrArg some (finish_moved ⟨done, around, .returning start⟩ (.returns _ none))
    next => exact wanted?_moved ⟨done, around, .returning start⟩ (.returned start) [] t
  | firstName start name =>
    simp only [next?, Focus.moved, State.moved, hterminal, ← r.pos_mark]
    split
    next => rfl
    next =>
      exact afterOperand?_moved ⟨done, around, .firstName start name⟩ .statement []
        ⟨start, .name start.pos name⟩ t (.name name true)
  | firstOpen start name => exact afterFirstOpen?_moved _ t start name
  | firstEmpty start name =>
    simp only [next?, Focus.moved, State.moved, hterminal, ← r.pos_mark]
    split
    next => rfl
    next =>
      exact afterOperand?_moved ⟨done, around, .firstEmpty start name⟩ .statement []
        ⟨start, .call start.pos name []⟩ t .closed
  | param start name before => exact expectType?_moved _ t fun _ => rfl
  | paramType start name before place kind =>
    refine expect?_moved ⟨done, around, .paramName start name (_ :: before)⟩ t _ ?_
    simp [State.moved, Focus.moved, Param.moved]
    rfl
  | paramName start name before => exact afterParam?_moved _ t start name before
  | functionHead start name params =>
    exact expect?_moved
      (openFunction ⟨done, around, .functionHead start name params⟩ start name params t.mark)
      t _ rfl
  | want w hole pending =>
    cases w with
    | firstArgument => exact firstArgument?_moved _ hole pending t
    | _ => exact wanted?_moved _ hole pending t
  | reader isOpen start hole pending =>
    cases isOpen with
    | false => exact expect?_moved ⟨done, around, .reader true start hole pending⟩ t _ rfl
    | true =>
      refine expect?_moved
        ⟨done, around, .operand .closed ⟨start, .read start.pos⟩ hole pending⟩ t _ ?_
      simp [State.moved, Focus.moved, Operand.moved, Expr.moved]
  | operand form e hole pending => exact afterOperand?_moved _ hole pending e t form

theorem resolved_moved : (st.moved r below).resolved = st.resolved.moved r below := by
  obtain ⟨done, around, focus⟩ := st
  cases focus with
  | orElse yes => exact settle_moved false done yes around
  | _ => rfl

theorem program?_body :
    st.program?.map Program.body =
      match st.resolved.around, st.resolved.focus with
      | [], .ready _ => some st.resolved.before.reverse
      | _, _ => none := by
  change Option.map Program.body (match st.resolved.around, st.resolved.focus with
    | [], .ready _ => _
    | _, _ => none) = _
  split <;> rfl

theorem program?_moved :
    (st.moved r below).program?.map Program.body =
      st.program?.map fun p => below.reverse ++ p.body.map (Stmt.moved r.pos) := by
  have hcomp : (fun p : Program => below.reverse ++ p.body.map (Stmt.moved r.pos)) =
      (fun ss => below.reverse ++ ss.map (Stmt.moved r.pos)) ∘ Program.body := rfl
  rw [hcomp, ← Option.map_map, program?_body, program?_body, resolved_moved]
  obtain ⟨done, around, focus⟩ := st.resolved
  cases around with
  | cons frame up => rfl
  | nil => cases focus <;> simp [State.moved, Focus.moved]

end State

end Parse

end Guion
