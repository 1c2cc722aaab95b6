import Guion.Proofs.Grammar.Steps
import Guion.Proofs.Grammar.Written

namespace Guion

namespace Grammar

open Parse (Connective)

theorem Layer.ofTerminal?_of_mem {layer : Layer} {t : Terminal} {op : Connective}
    (h : (t, op) ∈ layer.operators) : Connective.ofTerminal? t = some op := by
  cases layer <;> simp [operators] at h <;> grind [Connective.ofTerminal?]

theorem Layer.rank_le_left (layer : Layer) : layer.rank ≤ layer.left.rank := by
  cases layer <;> decide

theorem Layer.rank_of_next? {layer above : Layer} (h : layer.next? = some above) :
    above.rank = layer.rank + 1 := by
  cases layer <;> cases h <;> rfl

theorem ofTerminal?_of_mem_signs {t : Terminal} {op : UnaryOp} (h : (t, op) ∈ signs) :
    Parse.UnaryOp.ofTerminal? t = some op := by
  simp only [signs, List.mem_cons, Prod.mk.injEq, List.not_mem_nil, or_false] at h
  obtain ⟨rfl, rfl⟩ | ⟨rfl, rfl⟩ | ⟨rfl, rfl⟩ := h <;> rfl

theorem Term.Derives.exists_begins {term : Term} {ts : List Token} (h : term.Derives ts) :
    ∃ mark, Begins ts mark := by
  cases ts with
  | nil => exact absurd rfl h.ne_nil
  | cons t ts => exact ⟨t.mark, rfl⟩

theorem Begins.of_append {ts us : List Token} {mark : Mark} (hne : ts ≠ [])
    (h : Begins (ts ++ us) mark) : Begins ts mark := by
  cases ts with
  | nil => exact absurd rfl hne
  | cons t ts => exact h

end Grammar

namespace Parse

open Grammar

theorem literal?_of_denotes {t : Token} {l : Literal} (h : Denotes t l) : literal? t = some l := by
  obtain ⟨terminal, text, mark⟩ := t
  cases h with
  | integer ht =>
    subst ht
    rfl
  | decimal ht hx hw =>
    subst ht hx
    exact literal?_decimal hw
  | text ht hx =>
    subst ht hx
    simp [literal?]
  | verdadero ht =>
    subst ht
    rfl
  | falso ht =>
    subst ht
    rfl

namespace State

variable {st mid last : State} {t : Token} {ts us : List Token}

abbrev on (st : State) (focus : Focus) : State := { st with focus }

/-- Reading the tokens one after the other leads from one state to another. -/
def Reads (st : State) (ts : List Token) (last : State) : Prop :=
  ts.foldlM next? st = some last

theorem reads_nil (st : State) : st.Reads [] st := rfl

theorem reads_cons :
    st.Reads (t :: ts) last ↔ ∃ mid, st.next? t = some mid ∧ mid.Reads ts last := by
  rw [Reads, List.foldlM_cons]
  exact Option.bind_eq_some_iff

theorem Reads.cons (h : st.next? t = some mid) (hs : mid.Reads ts last) :
    st.Reads (t :: ts) last :=
  reads_cons.mpr ⟨mid, h, hs⟩

theorem Reads.one (h : st.next? t = some last) : st.Reads [t] last := .cons h (reads_nil last)

theorem Reads.append (h : st.Reads ts mid) (hs : mid.Reads us last) : st.Reads (ts ++ us) last := by
  induction ts generalizing st with
  | nil =>
    cases h
    exact hs
  | cons t ts ih =>
    obtain ⟨next, hn, h⟩ := reads_cons.mp h
    exact .cons hn (ih h)

theorem Reads.rest (h : st.Reads ts mid) (hs : st.Reads (ts ++ us) last) : mid.Reads us last := by
  rw [Reads, List.foldlM_append, h] at hs
  exact hs

theorem Reads.snoc (h : st.Reads ts mid) (hn : mid.next? t = some last) :
    st.Reads (ts ++ [t]) last :=
  h.append (.one hn)

theorem Reads.append_cons (h : st.Reads (ts ++ [t]) mid) (hs : mid.Reads us last) :
    st.Reads (ts ++ t :: us) last := by
  rw [List.append_cons]
  exact h.append hs

def Takes (st : State) (hole : Hole) (pending : List Pending) : Prop :=
  ∀ t : Token, startsExpr t.terminal → st.next? t = st.wanted? hole pending t

variable {hole : Hole} {pending : List Pending}

theorem takes_operand : (st.on (.want .operand hole pending)).Takes hole pending :=
  fun _ _ => rfl

theorem takes_afterDeclaration :
    (st.on (.want .afterDeclaration hole pending)).Takes hole pending :=
  fun _ _ => rfl

theorem takes_firstArgument {name : String} {start : Mark} :
    (st.on (.want .firstArgument hole (.call name start [] :: pending))).Takes hole
      (.call name start [] :: pending) := by
  intro t ht
  have hne : t.terminal ≠ .symbol .parenClose := fun h => by simp [h, startsExpr] at ht
  simp [next?, firstArgument?, hne, wanted?]

theorem takes_returning {start : Mark} :
    (st.on (.returning start)).Takes (.returned start) [] := by
  intro t ht
  have hne : t.terminal ≠ .symbol .semicolon := fun h => by simp [h, startsExpr] at ht
  simp [next?, hne, wanted?]

theorem takes_statement : (st.on .statement).Takes .statement [] := by
  intro t ht
  have hne : t.terminal ≠ .symbol .braceOpen := fun h => by simp [h, startsExpr] at ht
  have hs : statement? t = none := by
    unfold statement?
    split <;> simp_all [startsExpr]
  simp [next?, inStatement?, hne, hs, wanted?]

end State

/-- With what is pending, one operand does for another one in all that can follow an expression
that binds as tightly as `rank`. -/
structure Serves (rank : Nat) (pending' : List Pending) (e' : Operand) (pending : List Pending)
    (e : Operand) : Prop where
  collapse : collapse pending' e' = collapse pending e
  reduce : ∀ level, 1 ≤ level → level ≤ rank → reduce level pending' e' = reduce level pending e

theorem Serves.refl (rank : Nat) (pending : List Pending) (e : Operand) :
    Serves rank pending e pending e :=
  ⟨rfl, fun _ _ _ => rfl⟩

theorem Serves.mono {rank other : Nat} {pending pending' : List Pending} {e e' : Operand}
    (h : Serves rank pending' e' pending e) (hr : other ≤ rank) :
    Serves other pending' e' pending e :=
  ⟨h.collapse, fun level hl hle => h.reduce level hl (Nat.le_trans hle hr)⟩

theorem reduce_eq_self {level : Nat} {pending : List Pending} {e : Operand}
    (h : need pending ≤ level) (hl : level < 8) : reduce level pending e = (pending, e) := by
  cases pending with
  | nil => rfl
  | cons p rest =>
    cases p with
    | right op left =>
      have hne : ¬ level ≤ op.level := by
        simp only [need] at h
        omega
      simp [reduce, hne]
    | unary op start =>
      simp only [need] at h
      omega
    | _ => rfl

theorem beginsExpr_of_need {pending : List Pending} (h : need pending ≤ 0) :
    beginsExpr pending = true := by
  cases pending with
  | nil => rfl
  | cons p rest =>
    cases p with
    | right op left => simp [need] at h
    | unary op start => simp [need] at h
    | _ => rfl

theorem join_eq (op : Connective) (mark : Mark) (left : Expr) (right : Operand) :
    op.join ⟨mark, left⟩ right = ⟨mark, node mark.pos left right.expr op⟩ := by
  cases op <;> rfl

theorem connect?_of_serves {layer : Layer} {u : Terminal} {op : Connective}
    {pending pending' : List Pending} {e e' : Operand} (hop : (u, op) ∈ layer.operators)
    (hneed : need pending ≤ layer.rank) (h : Serves layer.left.rank pending' e' pending e) :
    connect? op pending' e' = some (.right op e :: pending) := by
  have hlevel := Layer.level_of_mem hop
  have hlt := Layer.level_lt hop
  by_cases hpow : op = .binary .pow
  · subst hpow
    have hlayer : layer = .power := Layer.eq_of_rank hlevel.symm
    subst hlayer
    have hr : reduce 7 pending' e' = (pending, e) := by
      rw [h.reduce 7 (by decide) (by decide)]
      exact reduce_eq_self (Nat.le_trans hneed (by decide)) (by decide)
    simp only [connect?, hr]
    split
    next heq =>
      simp only [Prod.mk.injEq] at heq
      rw [heq.1] at hneed
      simp [need, Connective.level, Layer.rank] at hneed
    next heq =>
      cases heq
      rfl
  · have hpos : 1 ≤ op.level := by
      cases layer <;> simp [Layer.operators] at hop <;> simp [hlevel, Layer.rank]
    have hr : reduce op.level pending' e' = (pending, e) := by
      rw [h.reduce op.level hpos (hlevel ▸ layer.rank_le_left)]
      exact reduce_eq_self (hlevel ▸ hneed) hlt
    have hconnect : connect? op pending' e' =
        some (.right op (reduce op.level pending' e').2 :: (reduce op.level pending' e').1) := by
      unfold connect?
      split
      · exact absurd rfl hpow
      · rfl
    rw [hconnect, hr]

namespace State

variable {st : State} {t : Token} {ts : List Token} {hole : Hole} {pending : List Pending}

def ReadsAs (st : State) (ts : List Token) (hole : Hole) (pending : List Pending) (rank : Nat)
    (e : Operand) : Prop :=
  ∃ form e' pending', st.Reads ts (st.on (.operand form e' hole pending')) ∧
    Serves rank pending' e' pending e

def ReadsArguments (st : State) (ts : List Token) (hole : Hole) (pending : List Pending)
    (name : String) (start : Mark) (es : List Expr) : Prop :=
  ∃ form e pending' before last,
    st.Reads ts (st.on (.operand form e hole pending')) ∧
      collapse pending' e = (.call name start before :: pending, last) ∧
      (last.expr :: before).reverse = es

theorem next?_name (h : st.Takes hole pending) (ht : t.terminal = .name) :
    st.next? t = some (st.on (.operand (.name (textOf t) (beginsExpr pending))
      ⟨t.mark, .name t.mark.pos (textOf t)⟩ hole pending)) := by
  rw [h t (by rw [ht]; rfl), wanted?, operand?]
  simp [ht, literal?, UnaryOp.ofTerminal?]

theorem next?_function {name : String} {assignable : Bool} {mark : Mark} {u : Token}
    (hu : u.terminal = .symbol .parenOpen) :
    (st.on (.operand (.name name assignable) ⟨mark, .name mark.pos name⟩ hole pending)).next? u =
      some (st.on (.want .firstArgument hole (.call name mark [] :: pending))) := by
  simp [next?, afterOperand?, hu, Connective.ofTerminal?, afterName?]

theorem next?_close {form : Form} {e : Operand} {u : Token}
    (hu : u.terminal = .symbol .parenClose) :
    (st.on (.operand form e hole pending)).next? u = st.close? hole pending e := by
  simp [next?, afterOperand?, hu, Connective.ofTerminal?, close?, atClose?]

theorem ReadsAs.primary {form : Form} {e : Operand} (rank : Nat)
    (h : st.Reads ts (st.on (.operand form e hole pending))) :
    st.ReadsAs ts hole pending rank e :=
  ⟨form, e, pending, h, .refl rank pending e⟩

end State

end Parse

namespace Grammar

open Parse Parse.State

/-- Wherever an expression or the arguments of a call may stand, the tokens are read as such. -/
def Term.Read : Term → List Token → Prop
  | expr layer e, ts => ∀ (st : State) (hole : Hole) (pending : List Pending) (mark : Mark),
    st.Takes hole pending → need pending ≤ layer.rank → Begins ts mark →
      st.ReadsAs ts hole pending layer.rank ⟨mark, e⟩
  | arguments es, ts => ∀ (st : State) (hole : Hole) (pending : List Pending) (name : String)
    (start : Mark), st.Takes hole (.call name start [] :: pending) →
      st.ReadsArguments ts hole pending name start es

theorem read_literal {t : Token} {l : Literal} (h : Denotes t l) :
    (Term.expr .primary (.literal t.mark.pos l)).Read [t] := by
  intro st hole pending mark ht _ hb
  cases hb
  have hl := literal?_of_denotes h
  have hstarts : startsExpr t.terminal := by
    cases h with
    | integer ht | decimal ht | text ht | verdadero ht | falso ht => rw [ht]; rfl
  have hnext : st.next? t = some (st.on (.operand .closed ⟨t.mark, .literal t.mark.pos l⟩ hole
      pending)) := by
    rw [ht t hstarts, wanted?, operand?, hl]
    rfl
  exact .primary _ (.one hnext)

theorem read_join {layer above : Layer} {t : Token} {op : Connective} {left right : Expr}
    {ls rs : List Token} (hnext : layer.next? = some above)
    (hop : (t.terminal, op) ∈ layer.operators) (hl : (Term.expr layer.left left).Derives ls)
    (hr : (Term.expr above right).Derives rs) (ihl : (Term.expr layer.left left).Read ls)
    (ihr : (Term.expr above right).Read rs) :
    (Term.expr layer (node (start ls) left right op)).Read (ls ++ t :: rs) := by
  intro st hole pending mark ht hneed hb
  have hbegin : Begins ls mark := hb.of_append hl.ne_nil
  obtain ⟨form, e, pending', hread, hserves⟩ :=
    ihl st hole pending mark ht (Nat.le_trans hneed layer.rank_le_left) hbegin
  obtain ⟨rmark, hrbegin⟩ := hr.exists_begins
  have hrank := Layer.rank_of_next? hnext
  have hlevel := Layer.level_of_mem hop
  have hconnect := connect?_of_serves hop hneed hserves
  obtain ⟨form', e', pending'', hread', hserves'⟩ :=
    ihr (st.on (.want .operand hole (.right op ⟨mark, left⟩ :: pending))) hole
      (.right op ⟨mark, left⟩ :: pending) rmark takes_operand
      (by simp only [need, hrank, hlevel]; omega) hrbegin
  have hstep : (st.on (.operand form e hole pending')).next? t =
      some (st.on (.want .operand hole (.right op ⟨mark, left⟩ :: pending))) := by
    simp [next?, afterOperand?, Layer.ofTerminal?_of_mem hop, hconnect]
  refine ⟨form', e', pending'', hread.append (.cons hstep hread'), ?_⟩
  have hjoin : op.join ⟨mark, left⟩ ⟨rmark, right⟩ = ⟨mark, node (start ls) left right op⟩ := by
    rw [join_eq, hbegin.start]
  refine ⟨?_, fun level hpos hle => ?_⟩
  · rw [hserves'.collapse, collapse, hjoin]
  · rw [hserves'.reduce level hpos (by omega), reduce, if_pos (by omega), hjoin]

theorem read_assign {t u : Token} {e : Expr} {ts : List Token} (ht : t.terminal = .name)
    (hu : u.terminal = .symbol .assign) (h : (Term.expr .assignment e).Derives ts)
    (ih : (Term.expr .assignment e).Read ts) :
    (Term.expr .assignment (.assign t.mark.pos (String.ofList t.text) e)).Read (t :: u :: ts) := by
  intro st hole pending mark htakes hneed hb
  cases hb
  obtain ⟨emark, hbegin⟩ := h.exists_begins
  obtain ⟨form, e', pending', hread, hserves⟩ :=
    ih (st.on (.want .operand hole (.assign (textOf t) t.mark :: pending))) hole
      (.assign (textOf t) t.mark :: pending) emark takes_operand (Nat.le_refl 0) hbegin
  have hname := next?_name htakes ht
  rw [beginsExpr_of_need hneed] at hname
  have hassign : (st.on (.operand (.name (textOf t) true)
      ⟨t.mark, .name t.mark.pos (textOf t)⟩ hole pending)).next? u =
      some (st.on (.want .operand hole (.assign (textOf t) t.mark :: pending))) := by
    simp [next?, afterOperand?, hu, Connective.ofTerminal?, afterName?]
  refine ⟨form, e', pending', .cons hname (.cons hassign hread), hserves.collapse, ?_⟩
  intro level hpos hle
  simp only [Layer.rank] at hle
  omega

theorem read_sign {t : Token} {op : UnaryOp} {e : Expr} {ts : List Token}
    (hop : (t.terminal, op) ∈ signs) (h : (Term.expr .unary e).Derives ts)
    (ih : (Term.expr .unary e).Read ts) :
    (Term.expr .unary (.unary t.mark.pos op e)).Read (t :: ts) := by
  intro st hole pending mark htakes _ hb
  cases hb
  obtain ⟨emark, hbegin⟩ := h.exists_begins
  obtain ⟨form, e', pending', hread, hserves⟩ :=
    ih (st.on (.want .operand hole (.unary op t.mark :: pending))) hole
      (.unary op t.mark :: pending) emark takes_operand (Nat.le_refl 8) hbegin
  have hof := ofTerminal?_of_mem_signs hop
  have hstep : st.next? t =
      some (st.on (.want .operand hole (.unary op t.mark :: pending))) := by
    have hstarts : startsExpr t.terminal ∧ literal? t = none := by
      simp only [signs, List.mem_cons, Prod.mk.injEq, List.not_mem_nil, or_false] at hop
      obtain ⟨hs, _⟩ | ⟨hs, _⟩ | ⟨hs, _⟩ := hop <;> simp [startsExpr, literal?, hs]
    rw [htakes t hstarts.1, wanted?, operand?, hstarts.2]
    simp [hof]
  exact ⟨form, e', pending', .cons hstep hread, hserves.collapse, hserves.reduce⟩

theorem read_name {t : Token} (ht : t.terminal = .name) :
    (Term.expr .primary (.name t.mark.pos (String.ofList t.text))).Read [t] := by
  intro st hole pending mark htakes _ hb
  cases hb
  exact .primary _ (.one (next?_name htakes ht))

theorem read_read {t u v : Token} (ht : t.terminal = .keyword .leer)
    (hu : u.terminal = .symbol .parenOpen) (hv : v.terminal = .symbol .parenClose) :
    (Term.expr .primary (.read t.mark.pos)).Read [t, u, v] := by
  intro st hole pending mark htakes _ hb
  cases hb
  have hword : st.next? t = some (st.on (.reader false t.mark hole pending)) := by
    rw [htakes t (by rw [ht]; rfl), wanted?, operand?]
    simp [ht, literal?, UnaryOp.ofTerminal?]
  have hopen : (st.on (.reader false t.mark hole pending)).next? u =
      some (st.on (.reader true t.mark hole pending)) := by
    simp [next?, expect?, hu]
  have hclose : (st.on (.reader true t.mark hole pending)).next? v =
      some (st.on (.operand .closed ⟨t.mark, .read t.mark.pos⟩ hole pending)) := by
    simp [next?, expect?, hv]
  exact .primary _ (.cons hword (.cons hopen (.one hclose)))

theorem read_callNone {t u v : Token} (ht : t.terminal = .name)
    (hu : u.terminal = .symbol .parenOpen) (hv : v.terminal = .symbol .parenClose) :
    (Term.expr .primary (.call t.mark.pos (String.ofList t.text) [])).Read [t, u, v] := by
  intro st hole pending mark htakes _ hb
  cases hb
  have hclose :
      (st.on (.want .firstArgument hole (.call (textOf t) t.mark [] :: pending))).next? v =
      some (st.on (.operand .closed ⟨t.mark, .call t.mark.pos (textOf t) []⟩ hole pending)) := by
    simp [next?, firstArgument?, hv]
  exact .primary _ (.cons (next?_name htakes ht) (.cons (next?_function hu) (.one hclose)))

theorem read_call {t u v : Token} {es : List Expr} {ts : List Token} (ht : t.terminal = .name)
    (hu : u.terminal = .symbol .parenOpen) (hv : v.terminal = .symbol .parenClose)
    (ih : (Term.arguments es).Read ts) :
    (Term.expr .primary (.call t.mark.pos (String.ofList t.text) es)).Read
      (t :: u :: (ts ++ [v])) := by
  intro st hole pending mark htakes _ hb
  cases hb
  obtain ⟨form, e, pending', before, last, hread, hcollapse, rfl⟩ :=
    ih (st.on (.want .firstArgument hole (.call (textOf t) t.mark [] :: pending))) hole pending
      (textOf t) t.mark takes_firstArgument
  have hclose : (st.on (.operand form e hole pending')).next? v =
      some (st.on (.operand .closed
        ⟨t.mark, .call t.mark.pos (textOf t) (last.expr :: before).reverse⟩ hole pending)) := by
    rw [next?_close hv, close?, hcollapse]
  exact .primary _ (.cons (next?_name htakes ht) (.cons (next?_function hu) (hread.snoc hclose)))

theorem read_group {t u : Token} {e : Expr} {ts : List Token}
    (ht : t.terminal = .symbol .parenOpen) (h : (Term.expr .assignment e).Derives ts)
    (hu : u.terminal = .symbol .parenClose) (ih : (Term.expr .assignment e).Read ts) :
    (Term.expr .primary e).Read (t :: (ts ++ [u])) := by
  intro st hole pending mark htakes _ hb
  cases hb
  obtain ⟨emark, hbegin⟩ := h.exists_begins
  obtain ⟨form, e', pending', hread, hserves⟩ :=
    ih (st.on (.want .operand hole (.group t.mark :: pending))) hole (.group t.mark :: pending)
      emark takes_operand (Nat.le_refl 0) hbegin
  have hopen : st.next? t = some (st.on (.want .operand hole (.group t.mark :: pending))) := by
    rw [htakes t (by rw [ht]; rfl), wanted?, operand?]
    simp [ht, literal?, UnaryOp.ofTerminal?]
  have hclose : (st.on (.operand form e' hole pending')).next? u =
      some (st.on (.operand .closed ⟨t.mark, e⟩ hole pending)) := by
    rw [next?_close hu, close?, hserves.collapse]
    rfl
  exact .primary _ (.cons hopen (hread.snoc hclose))

theorem read_argument {e : Expr} {ts : List Token} (h : (Term.expr .assignment e).Derives ts)
    (ih : (Term.expr .assignment e).Read ts) : (Term.arguments [e]).Read ts := by
  intro st hole pending name start htakes
  obtain ⟨emark, hbegin⟩ := h.exists_begins
  obtain ⟨form, e', pending', hread, hserves⟩ :=
    ih st hole (.call name start [] :: pending) emark htakes (Nat.le_refl 0) hbegin
  exact ⟨form, e', pending', [], ⟨emark, e⟩, hread, hserves.collapse, rfl⟩

theorem read_nextArgument {t : Token} {es : List Expr} {e : Expr} {ts us : List Token}
    (ht : t.terminal = .symbol .comma) (h : (Term.expr .assignment e).Derives us)
    (ihs : (Term.arguments es).Read ts) (ih : (Term.expr .assignment e).Read us) :
    (Term.arguments (es ++ [e])).Read (ts ++ t :: us) := by
  intro st hole pending name start htakes
  obtain ⟨form, e', pending', before, last, hread, hcollapse, rfl⟩ :=
    ihs st hole pending name start htakes
  obtain ⟨emark, hbegin⟩ := h.exists_begins
  have hcomma : (st.on (.operand form e' hole pending')).next? t = some (st.on (.want .operand hole
      (.call name start (last.expr :: before) :: pending))) := by
    simp [next?, afterOperand?, ht, Connective.ofTerminal?, nextArgument?, hcollapse]
  obtain ⟨form', e'', pending'', hread', hserves⟩ :=
    ih (st.on (.want .operand hole (.call name start (last.expr :: before) :: pending))) hole
      (.call name start (last.expr :: before) :: pending) emark takes_operand (Nat.le_refl 0) hbegin
  refine ⟨form', e'', pending'', last.expr :: before, ⟨emark, e⟩,
    hread.append (.cons hcomma hread'), hserves.collapse, ?_⟩
  simp

/-- Every expression that the grammar derives is read as such. -/
theorem Term.Derives.is_read {term : Term} {ts : List Token} (h : term.Derives ts) :
    term.Read ts := by
  induction h with
  | tighter hnext _ ih =>
    intro st hole pending mark htakes hneed hb
    have hrank := Layer.rank_of_next? hnext
    obtain ⟨form, e', pending', hread, hserves⟩ :=
      ih st hole pending mark htakes (by omega) hb
    exact ⟨form, e', pending', hread, hserves.mono (by omega)⟩
  | assign ht hu h ih => exact read_assign ht hu h ih
  | join hnext hop hl hr ihl ihr => exact read_join hnext hop hl hr ihl ihr
  | sign hop h ih => exact read_sign hop h ih
  | literal hl => exact read_literal hl
  | name ht => exact read_name ht
  | read ht hu hv => exact read_read ht hu hv
  | callNone ht hu hv => exact read_callNone ht hu hv
  | call ht hu _ hv ih => exact read_call ht hu hv ih
  | group ht h hu ih => exact read_group ht h hu ih
  | argument h ih => exact read_argument h ih
  | nextArgument _ ht h ihs ih => exact read_nextArgument ht h ihs ih

end Grammar

end Guion
