import Guion.Proofs.Grammar.Placed
import Guion.Proofs.Tree.Durable
import Guion.Tree.Reading
import Guion.Tree.Writing

namespace Guion

open Double (digitLimit ReadsBack)

section Reading

theorem LogicalOp.Known.ofSymbol_symbol {op : LogicalOp} (h : op.Known) :
    LogicalOp.ofSymbol op.symbol = op := by
  cases op with
  | other symbol => exact absurd rfl (h symbol)
  | _ => rfl

theorem BinaryOp.Known.ofSymbol_symbol {op : BinaryOp} (h : op.Known) :
    BinaryOp.ofSymbol op.symbol = op := by
  cases op with
  | other symbol => exact absurd rfl (h symbol)
  | _ => rfl

theorem UnaryOp.Known.ofSymbol_symbol {op : UnaryOp} (h : op.Known) :
    UnaryOp.ofSymbol op.symbol = op := by
  cases op with
  | other symbol => exact absurd rfl (h symbol)
  | _ => rfl

theorem TypeName.ofTree_toTree_known (kind : Kind) :
    TypeName.ofTree (TypeName.known kind).toTree = .known kind := by
  cases kind <;> rfl

namespace Tree

theorem literalOf_written {l : Literal} (h : l.Written) (pos : Pos) :
    (ofLiteral pos l).expr = .literal pos l := by
  cases h with
  | integer n => rfl
  | decimal x => rfl
  | text s => rfl
  | truth b => rfl

theorem exprs_ofExprs {es : List Expr} (h : ∀ e ∈ es, (ofExpr e).expr = e) :
    exprs (ofExprs es) = es := by
  induction es with
  | nil => rfl
  | cons e es ih =>
    obtain ⟨he, hes⟩ := List.forall_mem_cons.mp h
    rw [ofExprs, exprs, he, ih hes]

theorem expr_ofExpr {e : Expr} (h : e.Written) : (ofExpr e).expr = e := by
  induction h with
  | literal hl => exact literalOf_written hl _
  | name s => rfl
  | assign s _ ih => simp only [ofExpr, placed, expr, ih, Name.toTree, Name.ofTree]
  | logical hop _ _ ihl ihr =>
    simp only [ofExpr, placed, expr, display, ihl, ihr, hop.ofSymbol_symbol]
  | binary hop _ _ ihl ihr =>
    simp only [ofExpr, placed, expr, display, ihl, ihr, hop.ofSymbol_symbol]
  | unary hop _ ih => simp only [ofExpr, placed, expr, display, ih, hop.ofSymbol_symbol]
  | call s _ ih =>
    simp only [ofExpr, placed, expr, arguments, exprs_ofExprs ih, Name.toTree, Name.ofTree]
  | read => rfl

theorem exists_ofExpr {e : Expr} (h : e.Written) :
    ∃ kind line column fields, ofExpr e = .node kind line column fields := by
  cases h with
  | literal hl => cases hl <;> exact ⟨_, _, _, _, rfl⟩
  | _ => exact ⟨_, _, _, _, rfl⟩

theorem optional_ofOptional {e : Option Expr} (h : ∀ d, e = some d → d.Written) :
    optional expr (ofOptional e) = e := by
  cases e with
  | none => rfl
  | some d =>
    have hd := h d rfl
    obtain ⟨kind, line, column, fields, hnode⟩ := exists_ofExpr hd
    have hread := expr_ofExpr hd
    rw [ofOptional, hnode] at *
    exact congrArg some hread

theorem param?_ofParam {p : Param} (h : p.Written) : param? (ofParam p) = some p := by
  obtain ⟨pos, type, name⟩ := p
  obtain ⟨⟨kind, rfl⟩, s, rfl⟩ := h
  simp only [ofParam, placed, param?, TypeName.ofTree_toTree_known, Name.toTree, Name.ofTree]

theorem params_ofParams {ps : List Param} (h : ∀ p ∈ ps, p.Written) :
    params (.list (ps.map ofParam)) = .ok ps := by
  have hmap : (ps.map ofParam).mapM param? = some ps := by
    induction ps with
    | nil => rfl
    | cons p ps ih =>
      obtain ⟨hp, hps⟩ := List.forall_mem_cons.mp h
      rw [List.map_cons, List.mapM_cons, param?_ofParam hp, ih hps]
      rfl
  rw [params, hmap]

theorem stmts_ofStmts {ss : List Stmt} (h : ∀ s ∈ ss, (ofStmt s).stmt = s) :
    stmts (ofStmts ss) = ss := by
  induction ss with
  | nil => rw [ofStmts, stmts]
  | cons s ss ih =>
    obtain ⟨hs, hss⟩ := List.forall_mem_cons.mp h
    rw [ofStmts, stmts, hs, ih hss]

theorem exists_ofStmt {s : Stmt} (h : s.Written) :
    ∃ kind line column fields, ofStmt s = .node kind line column fields := by
  cases h <;> exact ⟨_, _, _, _, rfl⟩

theorem alternative_ofAlternative {s : Option Stmt} (hs : ∀ t, s = some t → t.Written)
    (h : ∀ t, s = some t → (ofStmt t).stmt = t) : (ofAlternative s).alternative = s := by
  cases s with
  | none => rw [ofAlternative, alternative]
  | some t =>
    obtain ⟨kind, line, column, fields, hnode⟩ := exists_ofStmt (hs t rfl)
    have hread := h t rfl
    rw [hnode] at hread
    rw [ofAlternative, hnode, alternative, hread]
    rintro ⟨⟩

theorem stmt_ofStmt {s : Stmt} (h : s.Written) : (ofStmt s).stmt = s := by
  induction h with
  | declare kind s hi =>
    simp only [ofStmt, placed, stmt, TypeName.ofTree_toTree_known, Name.toTree, Name.ofTree,
      optional_ofOptional hi]
  | function s hps _ ih =>
    simp only [ofStmt, placed, stmt, params_ofParams hps, Name.toTree, Name.ofTree, statements,
      stmts_ofStmts ih]
  | block _ ih => simp only [ofStmt, placed, stmt, statements, stmts_ofStmts ih]
  | branch he _ _ hno _ ihyes ihno =>
    simp only [ofStmt, placed, stmt, expr_ofExpr he, ihyes, alternative_ofAlternative hno ihno]
  | whileLoop he _ _ ih => simp only [ofStmt, placed, stmt, expr_ofExpr he, ih]
  | forLoop _ ht hu _ _ ihi ihb =>
    rw [ofStmt, placed, stmt, ihi, expr_ofExpr ht, expr_ofExpr hu, ihb]
  | returns hv => simp only [ofStmt, placed, stmt, optional_ofOptional hv]
  | print he => simp only [ofStmt, placed, stmt, expr_ofExpr he]
  | breaks => simp only [ofStmt, placed, stmt]
  | continues => simp only [ofStmt, placed, stmt]
  | expr he => simp only [ofStmt, placed, stmt, expr_ofExpr he]

/-- A written program is read back from its tree. -/
theorem program?_ofProgram {p : Program} (h : p.Written) :
    (ofProgram p).program? = some (.ok p) := by
  have hbody : stmts (ofStmts p.body) = p.body := stmts_ofStmts fun s hs => stmt_ofStmt (h s hs)
  have hfound : (ofProgram p).body? = some (.list (ofStmts p.body)) := rfl
  rw [program?, hfound]
  simp only [Option.map_some, hbody]
  rfl

end Tree

end Reading

section Writing

def Pos.Durable (pos : Pos) : Prop :=
  pos.line.Durable ∧ pos.column.Durable

def Literal.Short : Literal → Prop
  | .integer (.int n) => (Nat.toDigits 10 n.natAbs).length ≤ digitLimit
  | _ => True

def Literal.Durable (l : Literal) : Prop :=
  l.Short ∧ ∀ x, l = .decimal x → ReadsBack x

/-- Programs all of whose positions and literals are read as they are stored. -/
def Program.Durable (p : Program) : Prop :=
  p.pos.Durable ∧ ∀ t, p.Contains t → t.Fits Pos.Durable Literal.Durable

namespace Tree

theorem durable_placed {pos : Pos} {kind : NodeKind} {ts : List Tree} (hpos : pos.Durable)
    (hlength : ts.length = kind.fields.length) (hts : ∀ t ∈ ts, t.Durable) :
    (placed pos kind ts).Durable :=
  .node hlength hpos.1 hpos.2 hts

theorem durable_ofLiteral {pos : Pos} {l : Literal} (hl : l.Written) (hpos : pos.Durable)
    (h : l.Durable) : (ofLiteral pos l).Durable := by
  cases hl with
  | integer n => exact durable_placed hpos rfl (by simpa using ⟨.int h.1, .text _⟩)
  | decimal x => exact durable_placed hpos rfl (by simpa using ⟨.float (h.2 x rfl), .text _⟩)
  | text s => exact durable_placed hpos rfl (by simpa using ⟨.text _, .text _⟩)
  | truth b => exact durable_placed hpos rfl (by simpa using ⟨.bool _, .text _⟩)

theorem ofExprs_eq (es : List Expr) : ofExprs es = es.map ofExpr := by
  induction es with
  | nil => rfl
  | cons e es ih => rw [ofExprs, ih, List.map_cons]

theorem ofStmts_eq (ss : List Stmt) : ofStmts ss = ss.map ofStmt := by
  induction ss with
  | nil => rw [ofStmts, List.map_nil]
  | cons s ss ih => rw [ofStmts, ih, List.map_cons]

section Parts

variable {p : Program} (hp : ∀ t, p.Contains t → t.Fits Pos.Durable Literal.Durable)

include hp

theorem durable_ofExpr {e : Expr} (he : e.Written) (hc : p.Contains (.eval e)) :
    (ofExpr e).Durable := by
  induction he with
  | literal hl =>
    obtain ⟨hpos, hdurable⟩ := hp _ hc
    exact durable_ofLiteral hl hpos hdurable
  | name s => exact durable_placed (hp _ hc) rfl (by simpa using .text s)
  | assign s _ ih =>
    have hvalue := ih (hc.part (by simp [Task.parts]))
    exact durable_placed (hp _ hc) rfl (by simpa using ⟨.text s, hvalue⟩)
  | logical _ _ _ ihl ihr | binary _ _ _ ihl ihr =>
    have hleft := ihl (hc.part (by simp [Task.parts]))
    have hright := ihr (hc.part (by simp [Task.parts]))
    exact durable_placed (hp _ hc) rfl (by simpa using ⟨.text _, hleft, hright⟩)
  | unary _ _ ih =>
    have hoperand := ih (hc.part (by simp [Task.parts]))
    exact durable_placed (hp _ hc) rfl (by simpa using ⟨.text _, hoperand⟩)
  | @call pos s arguments _ ih =>
    have harguments : ∀ t ∈ ofExprs arguments, t.Durable := by
      rw [ofExprs_eq]
      refine List.forall_mem_map.mpr fun e he => ih e he ?_
      exact hc.part (List.mem_map_of_mem he)
    exact durable_placed (hp _ hc) rfl (by simpa using ⟨.text s, .list harguments⟩)
  | read => exact durable_placed (hp _ hc) rfl (by simp)

theorem durable_ofOptional {e : Option Expr} (he : ∀ d, e = some d → d.Written)
    (hc : ∀ d, e = some d → p.Contains (.eval d)) : (ofOptional e).Durable := by
  cases e with
  | none => exact .null
  | some d => exact durable_ofExpr hp (he d rfl) (hc d rfl)

theorem durable_block {pos : Pos} {body : List Stmt}
    (h : ∀ s ∈ body, p.Contains (.exec s) → (ofStmt s).Durable)
    (hc : p.Contains (.exec (.block pos body))) : (ofStmt (.block pos body)).Durable := by
  have hbody : ∀ t ∈ ofStmts body, t.Durable := by
    rw [ofStmts_eq]
    refine List.forall_mem_map.mpr fun s hs => h s hs ?_
    exact hc.part (List.mem_map_of_mem hs)
  rw [ofStmt]
  exact durable_placed (hp _ hc) rfl (by simpa using .list hbody)

omit hp in
theorem durable_ofParam {q : Param} (hq : q.Written) (hpos : q.pos.Durable) :
    (ofParam q).Durable := by
  obtain ⟨pos, type, name⟩ := q
  obtain ⟨⟨kind, rfl⟩, s, rfl⟩ := hq
  exact durable_placed hpos rfl (by simpa using ⟨.text _, .text s⟩)

theorem durable_ofStmt {s : Stmt} (hs : s.Written) (hc : p.Contains (.exec s)) :
    (ofStmt s).Durable := by
  induction hs with
  | declare kind s hi =>
    have hinitial := durable_ofOptional hp hi fun d hd => hc.part (by simp [Task.parts, hd])
    rw [ofStmt]
    exact durable_placed (hp _ hc) rfl (by simpa using ⟨.text _, .text s, hinitial⟩)
  | @function pos place s params body hps _ ih =>
    obtain ⟨hpos, hplaces⟩ := hp _ hc
    have hparams : ∀ t ∈ params.map ofParam, t.Durable :=
      List.forall_mem_map.mpr fun q hq => durable_ofParam (hps q hq) (hplaces q hq)
    have hblock : p.Contains (.exec (.block place body)) := hc.part (by simp [Task.parts])
    have hbody := durable_block hp ih hblock
    rw [ofStmt]
    exact durable_placed hpos rfl (by simpa using ⟨.text s, .list hparams, hbody⟩)
  | block _ ih => exact durable_block hp ih hc
  | @branch pos test yes no he _ _ _ _ ihyes ihno =>
    have htest := durable_ofExpr hp he (hc.part (by simp [Task.parts]))
    have hyes := ihyes (hc.part (by simp [Task.parts]))
    have hno : (ofAlternative no).Durable := by
      cases no with
      | none =>
        rw [ofAlternative]
        exact .null
      | some s =>
        rw [ofAlternative]
        exact ihno s rfl (hc.part (by simp [Task.parts]))
    rw [ofStmt]
    exact durable_placed (hp _ hc) rfl (by simpa using ⟨htest, hyes, hno⟩)
  | whileLoop he _ _ ih =>
    have htest := durable_ofExpr hp he (hc.part (by simp [Task.parts]))
    have hbody := ih (hc.part (by simp [Task.parts]))
    rw [ofStmt]
    exact durable_placed (hp _ hc) rfl (by simpa using ⟨htest, hbody⟩)
  | forLoop _ ht hu _ _ ihi ihb =>
    have hinitial := ihi (hc.part (by simp [Task.parts]))
    have htest := durable_ofExpr hp ht (hc.part (by simp [Task.parts]))
    have hupdate := durable_ofExpr hp hu (hc.part (by simp [Task.parts]))
    have hbody := ihb (hc.part (by simp [Task.parts]))
    rw [ofStmt]
    exact durable_placed (hp _ hc) rfl (by simpa using ⟨hinitial, htest, hupdate, hbody⟩)
  | returns hv =>
    have hvalue := durable_ofOptional hp hv fun d hd => hc.part (by simp [Task.parts, hd])
    rw [ofStmt]
    exact durable_placed (hp _ hc) rfl (by simpa using hvalue)
  | print he | expr he =>
    have hvalue := durable_ofExpr hp he (hc.part (by simp [Task.parts]))
    rw [ofStmt]
    exact durable_placed (hp _ hc) rfl (by simpa using hvalue)
  | breaks | continues =>
    rw [ofStmt]
    exact durable_placed (hp _ hc) rfl (by simp)

end Parts

theorem durable_ofProgram {p : Program} (hp : p.Written) (h : p.Durable) :
    (ofProgram p).Durable := by
  have hbody : ∀ t ∈ ofStmts p.body, t.Durable := by
    rw [ofStmts_eq]
    exact List.forall_mem_map.mpr fun s hs => durable_ofStmt h.2 (hp s hs) (.top hs)
  exact durable_placed h.1 rfl (by simpa using .list hbody)

end Tree

end Writing

end Guion
