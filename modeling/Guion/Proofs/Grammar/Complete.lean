import Guion.Proofs.Grammar.Reading

namespace Guion

namespace Parse

open Grammar

namespace State

variable {st last : State} {t u : Token} {ts : List Token} {s : Stmt}

def resolved (st : State) : State :=
  match st.focus with
  | .orElse s => settle false st.before s st.around
  | _ => st

theorem settle_false_focus (before : List Stmt) (s : Stmt) (around : List Enclosing) :
    (settle false before s around).focus = .ready .statement := by
  induction around generalizing s with
  | nil => rfl
  | cons frame up ih =>
    cases frame with
    | block start done => rfl
    | _ => exact ih _

theorem settle_resolved (before : List Stmt) (s : Stmt) (around : List Enclosing) :
    (settle true before s around).resolved = settle false before s around := by
  induction around generalizing s with
  | nil => rfl
  | cons frame up ih =>
    cases frame with
    | block start done => rfl
    | yes start test => rfl
    | _ => exact ih _

theorem next?_resolved {after : Boundary} (h : st.resolved.focus = .ready after)
    (ht : t.terminal ≠ .keyword .sino) : st.next? t = st.resolved.next? t := by
  cases hf : st.focus with
  | orElse s =>
    have hr : st.resolved = settle false st.before s st.around := by simp [resolved, hf]
    rw [hr] at h ⊢
    simp only [next?, hf, h, afterYes?, if_neg ht]
  | _ => simp [resolved, hf]

theorem program?_resolved (st : State) : st.program? = st.resolved.program? := by
  cases hf : st.focus with
  | orElse s =>
    have hready := settle_false_focus st.before s st.around
    simp only [program?, resolved, hf, hready]
  | _ => simp only [resolved, hf]

theorem ne_sino_of_next? {after : Boundary} (h : st.focus = .ready after)
    (hn : st.next? t = some last) : t.terminal ≠ .keyword .sino := by
  intro ht
  simp [next?, h, inBody?, typeOf?, ht, inStatement?, statement?, operand?, literal?,
    UnaryOp.ofTerminal?] at hn

/-- What is read after an open `si` is closed is read also before that. -/
theorem Reads.of_resolved {after : Boundary} (h : st.resolved.focus = .ready after)
    (hne : ts ≠ []) (hr : st.resolved.Reads ts last) : st.Reads ts last := by
  cases ts with
  | nil => exact absurd rfl hne
  | cons t ts =>
    obtain ⟨mid, hn, hs⟩ := reads_cons.mp hr
    rw [← next?_resolved h (ne_sino_of_next? h hn)] at hn
    exact .cons hn hs

def Flat (st : State) : Prop :=
  match st.around with
  | [] => True
  | .block _ _ :: _ => True
  | _ => False

def push (st : State) (ss : List Stmt) : State :=
  match st.around with
  | .block start done :: up => { st with around := .block start (ss.reverse ++ done) :: up }
  | _ => { st with before := ss.reverse ++ st.before }

theorem settle_flat (h : st.Flat) (hold : Bool) :
    settle hold st.before s st.around = (st.push [s]).on (.ready .statement) := by
  obtain ⟨before, around, focus⟩ := st
  cases around with
  | nil => rfl
  | cons frame up =>
    cases frame with
    | block start done => rfl
    | _ => exact h.elim

theorem push_flat (h : st.Flat) (ss : List Stmt) (focus : Focus) :
    ((st.push ss).on focus).Flat := by
  obtain ⟨before, around, _⟩ := st
  cases around with
  | nil => trivial
  | cons frame up =>
    cases frame with
    | block start done => trivial
    | _ => exact h.elim

theorem push_push (h : st.Flat) (ss us : List Stmt) (focus : Focus) :
    ((st.push ss).on focus).push us = (st.push (ss ++ us)).on focus := by
  obtain ⟨before, around, _⟩ := st
  cases around with
  | nil => simp [push, on]
  | cons frame up =>
    cases frame with
    | block start done => simp [push, on]
    | _ => exact h.elim

theorem push_nil (st : State) : st.push [] = st := by
  obtain ⟨before, around, focus⟩ := st
  cases around with
  | nil => rfl
  | cons frame up => cases frame <;> rfl

section Alike

/-- At the start of a declaration a name may belong to an expression statement or to a function
that is declared. As long as it is open, the state stands for the one where a statement is read. -/
inductive Alike : State → State → Prop where
  | refl (st : State) : Alike st st
  | ready (st : State) (after : Boundary) : Alike (st.on (.ready after)) (st.on .statement)
  | firstName (st : State) (start : Mark) (name : String) : Alike (st.on (.firstName start name))
      (st.on (.operand (.name name true) ⟨start, .name start.pos name⟩ .statement []))
  | firstOpen (st : State) (start : Mark) (name : String) : Alike (st.on (.firstOpen start name))
      (st.on (.want .firstArgument .statement [.call name start []]))
  | firstEmpty (st : State) (start : Mark) (name : String) : Alike (st.on (.firstEmpty start name))
      (st.on (.operand .closed ⟨start, .call start.pos name []⟩ .statement []))

theorem alike_ready (after : Boundary) (h : (st.on .statement).next? t = some last) :
    ∃ next, (st.on (.ready after)).next? t = some next ∧ Alike next last := by
  by_cases hname : t.terminal = .name
  · rw [next?_name takes_statement hname] at h
    cases h
    refine ⟨st.on (.firstName t.mark (textOf t)), ?_, .firstName st _ _⟩
    simp [next?, inBody?, typeOf?, hname]
  · have htype : typeOf? t = none := by
      cases hk : typeOf? t with
      | none => rfl
      | some kind =>
        have hterminal := typeOf?_eq_some hk
        simp [next?, inStatement?, hterminal, statement?, operand?, literal?,
          UnaryOp.ofTerminal?] at h
    have hclose : t.terminal ≠ .symbol .braceClose := by
      intro hterminal
      simp [next?, inStatement?, hterminal, statement?, operand?, literal?,
        UnaryOp.ofTerminal?] at h
    refine ⟨last, ?_, .refl last⟩
    rw [← h]
    simp [next?, inBody?, htype, hname, hclose, inStatement?, openBlock]

theorem alike_next? {other : State} (h : Alike st other) (hn : other.next? t = some last) :
    ∃ next, st.next? t = some next ∧ Alike next last := by
  cases h with
  | refl => exact ⟨last, hn, .refl last⟩
  | ready st after => exact alike_ready after hn
  | firstName st start name =>
    by_cases ht : t.terminal = .symbol .parenOpen
    · rw [next?_function ht] at hn
      cases hn
      exact ⟨st.on (.firstOpen start name), by simp [next?, ht], .firstOpen st start name⟩
    · refine ⟨last, ?_, .refl last⟩
      rw [← hn]
      simp only [next?, on, if_neg ht]
      rfl
  | firstOpen st start name =>
    by_cases ht : t.terminal = .symbol .parenClose
    · have hlast : some (st.on (.operand .closed ⟨start, .call start.pos name []⟩ .statement [])) =
          some last := by
        rw [← hn]
        simp [next?, firstArgument?, ht]
      cases hlast
      refine ⟨st.on (.firstEmpty start name), ?_, .firstEmpty st start name⟩
      simp [next?, afterFirstOpen?, ht]
    · have hwanted : st.wanted? .statement [.call name start []] t = some last := by
        rw [← hn]
        simp [next?, firstArgument?, ht, wanted?]
      -- no argument begins with a type, so the two readings part only at a closing bracket
      have htype : typeOf? t = none := by
        cases hk : typeOf? t with
        | none => rfl
        | some kind =>
          have hterminal := typeOf?_eq_some hk
          simp [wanted?, hterminal, operand?, literal?, UnaryOp.ofTerminal?] at hwanted
      refine ⟨last, ?_, .refl last⟩
      rw [← hwanted]
      simp [next?, afterFirstOpen?, ht, htype, wanted?]
  | firstEmpty st start name =>
    have ht : t.terminal ≠ .symbol .braceOpen := by
      intro ht
      simp [next?, afterOperand?, ht, Connective.ofTerminal?] at hn
    refine ⟨last, ?_, .refl last⟩
    rw [← hn]
    simp only [next?, on, if_neg ht]
    rfl

theorem Reads.alike {other : State} (h : Alike st other) (hr : other.Reads ts last) :
    ∃ next, st.Reads ts next ∧ Alike next last := by
  induction ts generalizing st other with
  | nil =>
    cases hr
    exact ⟨st, reads_nil st, h⟩
  | cons t ts ih =>
    obtain ⟨mid, hn, hs⟩ := reads_cons.mp hr
    obtain ⟨next, hnext, hmid⟩ := alike_next? h hn
    obtain ⟨next', hread, hlast⟩ := ih hmid hs
    exact ⟨next', .cons hnext hread, hlast⟩

theorem Alike.eq {other : State} {after : Boundary} (h : Alike st other)
    (ho : other.resolved.focus = .ready after) : st = other := by
  cases h with
  | refl => rfl
  | _ => cases ho

end Alike

theorem reads_semicolon {hole : Hole} {e : Expr} (htakes : st.Takes hole [])
    (he : (Term.expr .assignment e).Derives ts) (hu : u.terminal = .symbol .semicolon)
    (hlast : ∀ mark, Begins ts mark → st.atSemicolon? hole ⟨mark, e⟩ = some last) :
    st.Reads (ts ++ [u]) last := by
  obtain ⟨mark, hbegin⟩ := he.exists_begins
  obtain ⟨form, e', pending, hread, hserves⟩ :=
    he.is_read st hole [] mark htakes (Nat.le_refl 0) hbegin
  have hcollapse : collapse pending e' = ([], ⟨mark, e⟩) := hserves.collapse
  refine hread.snoc ?_
  rw [← hlast mark hbegin]
  simp [next?, afterOperand?, hu, Connective.ofTerminal?, endExpr?, hcollapse]
  rfl

theorem reads_close {hole : Hole} {e : Expr} (htakes : st.Takes hole [])
    (he : (Term.expr .assignment e).Derives ts) (hu : u.terminal = .symbol .parenClose)
    (hlast : ∀ mark, st.atClose? hole ⟨mark, e⟩ = some last) : st.Reads (ts ++ [u]) last := by
  obtain ⟨mark, hbegin⟩ := he.exists_begins
  obtain ⟨form, e', pending, hread, hserves⟩ :=
    he.is_read st hole [] mark htakes (Nat.le_refl 0) hbegin
  have hcollapse : collapse pending e' = ([], ⟨mark, e⟩) := hserves.collapse
  refine hread.snoc ?_
  rw [next?_close hu, close?, hcollapse]
  exact hlast mark

/-- Read a statement to its end. Where it ends in a `si` without `sino`, it may be kept open. -/
def Finishes (st : State) (ts : List Token) (s : Stmt) : Prop :=
  ∃ last, st.Reads ts last ∧ last.resolved = settle false st.before s st.around ∧
    (s.endsOpen = false → last = settle true st.before s st.around)

theorem Finishes.of_reads (h : st.Reads ts (settle true st.before s st.around)) :
    st.Finishes ts s :=
  ⟨_, h, settle_resolved _ _ _, fun _ => rfl⟩

def Awaits (st : State) : Owner → Prop
  | .body => ∃ after, st.focus = .ready after
  | .head start => st.focus = .forHead start

end State

end Parse

namespace Grammar

open Parse Parse.State

def Phrase.Read : Phrase → List Token → Prop
  | one .binding s, ts => ∀ (st : State) (owner : Owner), st.Awaits owner →
    st.Reads ts (st.declared owner s)
  | one .statement s, ts => ∀ st : State, st.focus = .statement → st.Finishes ts s
  | one .block s, ts => ∃ t rest, ts = t :: rest ∧ t.terminal = .symbol .braceOpen ∧
    ∀ st : State, (st.openBlock t.mark).Reads rest (settle true st.before s st.around)
  | one .declaration s, ts => ∀ (st : State) (after : Boundary), st.focus = .ready after →
    st.Flat → ∃ last next, st.Reads ts last ∧ last.resolved = (st.push [s]).on (.ready next)
  | body ss, ts => ∀ (st : State) (after : Boundary), st.resolved.focus = .ready after →
    st.resolved.Flat →
      ∃ last next, st.Reads ts last ∧ last.resolved = (st.resolved.push ss).on (.ready next)

theorem read_nil : (Phrase.body []).Read [] := by
  intro st after hf _
  refine ⟨st, after, reads_nil st, ?_⟩
  rw [push_nil, on, ← hf]

theorem read_snoc {ss : List Stmt} {s : Stmt} {ts us : List Token}
    (hs : (Phrase.one .declaration s).Derives us) (ihb : (Phrase.body ss).Read ts)
    (ihs : (Phrase.one .declaration s).Read us) : (Phrase.body (ss ++ [s])).Read (ts ++ us) := by
  intro st after hf hflat
  obtain ⟨mid, next, hread, hmid⟩ := ihb st after hf hflat
  have hready : mid.resolved.focus = .ready next := by rw [hmid]
  have hflat' : mid.resolved.Flat := by
    rw [hmid]
    exact push_flat hflat ss _
  obtain ⟨last, next', hread', hlast⟩ := ihs mid.resolved next hready hflat'
  refine ⟨last, next', hread.append (.of_resolved hready hs.starts.1 hread'), ?_⟩
  rw [hlast, hmid, push_push hflat]

theorem read_statement {s : Stmt} {ts : List Token} (ih : (Phrase.one .statement s).Read ts) :
    (Phrase.one .declaration s).Read ts := by
  intro st after hf hflat
  obtain ⟨last, hread, hlast, _⟩ := ih (st.on .statement) rfl
  have hready : last.resolved.focus = .ready .statement := by
    rw [hlast]
    exact settle_false_focus _ _ _
  have halike : Alike st (st.on .statement) := by
    have hst : st = st.on (.ready after) := by rw [on, ← hf]
    rw [hst]
    exact .ready st after
  obtain ⟨last', hread', hlast'⟩ := hread.alike halike
  obtain rfl := hlast'.eq hready
  refine ⟨last', .statement, hread', ?_⟩
  rw [hlast]
  exact settle_flat hflat false

theorem read_binding {s : Stmt} {ts : List Token} (ih : (Phrase.one .binding s).Read ts) :
    (Phrase.one .declaration s).Read ts := by
  intro st after hf hflat
  refine ⟨_, .declaration, ih st .body ⟨after, hf⟩, ?_⟩
  rw [declared, settle_flat hflat]
  rfl

theorem read_block {s : Stmt} {ts : List Token} (ih : (Phrase.one .block s).Read ts) :
    (Phrase.one .statement s).Read ts := by
  obtain ⟨t, rest, rfl, ht, hread⟩ := ih
  intro st hf
  refine .of_reads (.cons ?_ (hread st))
  simp [next?, hf, inStatement?, ht]

theorem reads_typed {t u : Token} {kind : Kind} {st : State} {owner : Owner}
    (hst : st.Awaits owner) (ht : t.terminal = .keyword (.type kind)) (hu : u.terminal = .name) :
    st.Reads [t, u] (st.on (.named owner t.mark kind (textOf u))) := by
  have htype : st.next? t = some (st.on (.typed owner t.mark kind)) := by
    cases owner with
    | body =>
      obtain ⟨after, hf⟩ := hst
      simp [next?, hf, inBody?, typeOf?, ht]
    | head start =>
      have hf : st.focus = .forHead start := hst
      simp [next?, hf, expectType?, typeOf?, ht]
  have hname : (st.on (.typed owner t.mark kind)).next? u =
      some (st.on (.named owner t.mark kind (textOf u))) := by
    simp [next?, expect?, hu]
  exact .cons htype (.one hname)

theorem read_declare {t u v : Token} {kind : Kind} (ht : t.terminal = .keyword (.type kind))
    (hu : u.terminal = .name) (hv : v.terminal = .symbol .semicolon) :
    (Phrase.one .binding (.declare t.mark.pos (.known kind) (String.ofList u.text) none)).Read
      [t, u, v] := by
  intro st owner hst
  refine (reads_typed hst ht hu).append (.one ?_)
  simp only [next?, afterNamed?, if_pos hv]
  cases owner <;> rfl

theorem read_initial {t u v w : Token} {kind : Kind} {e : Expr} {ts : List Token}
    (ht : t.terminal = .keyword (.type kind)) (hu : u.terminal = .name)
    (hv : v.terminal = .symbol .assign) (he : (Term.expr .assignment e).Derives ts)
    (hw : w.terminal = .symbol .semicolon) :
    (Phrase.one .binding (.declare t.mark.pos (.known kind) (String.ofList u.text) (some e))).Read
      (t :: u :: v :: (ts ++ [w])) := by
  intro st owner hst
  have hassign : (st.on (.named owner t.mark kind (textOf u))).next? v =
      some (st.on (.want .operand (.initial owner t.mark kind (textOf u)) [])) := by
    simp [next?, afterNamed?, hv]
  refine (reads_typed hst ht hu).append (.cons hassign ?_)
  refine reads_semicolon takes_operand he hw fun mark _ => ?_
  cases owner <;> rfl

theorem read_braces {t u : Token} {ss : List Stmt} {ts : List Token}
    (ht : t.terminal = .symbol .braceOpen) (hu : u.terminal = .symbol .braceClose)
    (ih : (Phrase.body ss).Read ts) :
    (Phrase.one .block (.block t.mark.pos ss)).Read (t :: (ts ++ [u])) := by
  refine ⟨t, ts ++ [u], rfl, ht, fun st => ?_⟩
  obtain ⟨last, next, hread, hlast⟩ := ih (st.openBlock t.mark) .opened rfl trivial
  have hready : last.resolved.focus = .ready next := by rw [hlast]
  refine hread.snoc ?_
  rw [next?_resolved hready (by rw [hu]; decide), hlast]
  simp [next?, inBody?, typeOf?, hu, resolved, openBlock, push, closeBlock?]

theorem reads_head {t u : Token} {st : State} (head : Head) (hf : st.focus = .statement)
    (ht : statement? t = some (.head head t.mark)) (hne : t.terminal ≠ .symbol .braceOpen)
    (hu : u.terminal = .symbol .parenOpen) : st.Reads [t, u] (st.on (opened t.mark head)) := by
  have hword : st.next? t = some (st.on (.head head t.mark)) := by
    simp [next?, hf, inStatement?, hne, ht]
  have hopen : (st.on (.head head t.mark)).next? u = some (st.on (opened t.mark head)) := by
    simp [next?, expect?, hu]
  exact .cons hword (.one hopen)

theorem reads_test {t u v : Token} {e : Expr} {ts us : List Token} {st mid last : State}
    {hole : Hole} (head : Head) (hf : st.focus = .statement)
    (ht : statement? t = some (.head head t.mark)) (hne : t.terminal ≠ .symbol .braceOpen)
    (hu : u.terminal = .symbol .parenOpen) (hhole : opened t.mark head = .want .operand hole [])
    (he : (Term.expr .assignment e).Derives ts) (hv : v.terminal = .symbol .parenClose)
    (hmid : ∀ mark, st.atClose? hole ⟨mark, e⟩ = some mid) (hrest : mid.Reads us last) :
    st.Reads (t :: u :: (ts ++ v :: us)) last := by
  have hhead := reads_head head hf ht hne hu
  rw [hhole] at hhead
  have hclose := reads_close takes_operand he hv hmid
  exact hhead.append (hclose.append_cons hrest)

theorem read_branch {t u v : Token} {e : Expr} {s : Stmt} {ts us : List Token}
    (ht : t.terminal = .keyword .si) (hu : u.terminal = .symbol .parenOpen)
    (he : (Term.expr .assignment e).Derives ts) (hv : v.terminal = .symbol .parenClose)
    (ih : (Phrase.one .statement s).Read us) :
    (Phrase.one .statement (.branch t.mark.pos e s none)).Read (t :: u :: (ts ++ v :: us)) := by
  intro st hf
  obtain ⟨last, hread, hlast, _⟩ :=
    ih { st with around := .yes t.mark e :: st.around, focus := .statement } rfl
  refine ⟨last, ?_, hlast, fun h => nomatch h⟩
  exact reads_test .si hf (by simp [statement?, ht]) (by simp [ht]) hu rfl he hv (fun _ => rfl)
    hread

theorem read_branchElse {t u v w : Token} {e : Expr} {yes no : Stmt} {ts us vs : List Token}
    (ht : t.terminal = .keyword .si) (hu : u.terminal = .symbol .parenOpen)
    (he : (Term.expr .assignment e).Derives ts) (hv : v.terminal = .symbol .parenClose)
    (hclosed : yes.endsOpen = false) (hw : w.terminal = .keyword .sino)
    (ihy : (Phrase.one .statement yes).Read us) (ihn : (Phrase.one .statement no).Read vs) :
    (Phrase.one .statement (.branch t.mark.pos e yes (some no))).Read
      (t :: u :: (ts ++ v :: (us ++ w :: vs))) := by
  intro st hf
  obtain ⟨mid, hyes, _, hmid⟩ :=
    ihy { st with around := .yes t.mark e :: st.around, focus := .statement } rfl
  obtain rfl := hmid hclosed
  have hsino : State.next? (settle true st.before yes (.yes t.mark e :: st.around)) w =
      some { st with around := .no t.mark e yes :: st.around, focus := .statement } := by
    simp [settle, next?, afterYes?, hw]
  obtain ⟨last, hno, hlast, hopen⟩ :=
    ihn { st with around := .no t.mark e yes :: st.around, focus := .statement } rfl
  refine ⟨last, ?_, hlast, hopen⟩
  exact reads_test .si hf (by simp [statement?, ht]) (by simp [ht]) hu rfl he hv (fun _ => rfl)
    (hyes.append (.cons hsino hno))

theorem read_whileLoop {t u v : Token} {e : Expr} {s : Stmt} {ts us : List Token}
    (ht : t.terminal = .keyword .mientras) (hu : u.terminal = .symbol .parenOpen)
    (he : (Term.expr .assignment e).Derives ts) (hv : v.terminal = .symbol .parenClose)
    (ih : (Phrase.one .statement s).Read us) :
    (Phrase.one .statement (.whileLoop t.mark.pos e s)).Read (t :: u :: (ts ++ v :: us)) := by
  intro st hf
  obtain ⟨last, hread, hlast, hopen⟩ :=
    ih { st with around := .whileBody t.mark e :: st.around, focus := .statement } rfl
  refine ⟨last, ?_, hlast, hopen⟩
  exact reads_test .mientras hf (by simp [statement?, ht]) (by simp [ht]) hu rfl he hv
    (fun _ => rfl) hread

theorem read_forLoop {t u v w : Token} {initial body : Stmt} {test update : Expr}
    {ts us vs ws : List Token} (ht : t.terminal = .keyword .para)
    (hu : u.terminal = .symbol .parenOpen) (htest : (Term.expr .assignment test).Derives us)
    (hv : v.terminal = .symbol .semicolon) (hupdate : (Term.expr .assignment update).Derives vs)
    (hw : w.terminal = .symbol .parenClose) (ihi : (Phrase.one .binding initial).Read ts)
    (ihb : (Phrase.one .statement body).Read ws) :
    (Phrase.one .statement (.forLoop t.mark.pos initial test update body)).Read
      (t :: u :: (ts ++ (us ++ v :: (vs ++ w :: ws)))) := by
  intro st hf
  have hhead : st.Reads [t, u] (st.on (.forHead t.mark)) :=
    reads_head .para hf (by simp [statement?, ht]) (by simp [ht]) hu
  have hinitial : (st.on (.forHead t.mark)).Reads ts
      (st.on (.want .afterDeclaration (.forTest t.mark initial) [])) :=
    ihi (st.on (.forHead t.mark)) (.head t.mark) rfl
  have hsemicolon : (st.on (.want .afterDeclaration (.forTest t.mark initial) [])).Reads (us ++ [v])
      (st.on (.want .operand (.forUpdate t.mark initial test) [])) :=
    reads_semicolon takes_afterDeclaration htest hv fun _ _ => rfl
  have hclose : (st.on (.want .operand (.forUpdate t.mark initial test) [])).Reads (vs ++ [w])
      { st with around := .forBody t.mark initial test update :: st.around, focus := .statement } :=
    reads_close takes_operand hupdate hw fun _ => rfl
  obtain ⟨last, hread, hlast, hopen⟩ := ihb
    { st with around := .forBody t.mark initial test update :: st.around, focus := .statement } rfl
  have hall := hsemicolon.append_cons (hclose.append_cons hread)
  exact ⟨last, hhead.append (hinitial.append hall), hlast, hopen⟩

theorem read_returnsNone {t u : Token} (ht : t.terminal = .keyword .retornar)
    (hu : u.terminal = .symbol .semicolon) :
    (Phrase.one .statement (.returns t.mark.pos none)).Read [t, u] := by
  intro st hf
  have hword : st.next? t = some (st.on (.returning t.mark)) := by
    simp [next?, hf, inStatement?, ht, statement?]
  refine .of_reads (.cons hword (.one ?_))
  simp [next?, hu, finish]

theorem read_returns {t u : Token} {e : Expr} {ts : List Token}
    (ht : t.terminal = .keyword .retornar) (he : (Term.expr .assignment e).Derives ts)
    (hu : u.terminal = .symbol .semicolon) :
    (Phrase.one .statement (.returns t.mark.pos (some e))).Read (t :: (ts ++ [u])) := by
  intro st hf
  have hword : st.next? t = some (st.on (.returning t.mark)) := by
    simp [next?, hf, inStatement?, ht, statement?]
  exact .of_reads (.cons hword (reads_semicolon takes_returning he hu fun _ _ => rfl))

theorem read_print {t u : Token} {e : Expr} {ts : List Token}
    (ht : t.terminal = .keyword .imprimir) (he : (Term.expr .assignment e).Derives ts)
    (hu : u.terminal = .symbol .semicolon) :
    (Phrase.one .statement (.print t.mark.pos e)).Read (t :: (ts ++ [u])) := by
  intro st hf
  have hword : st.next? t = some (st.on (.want .operand (.printed t.mark) [])) := by
    simp [next?, hf, inStatement?, ht, statement?]
  exact .of_reads (.cons hword (reads_semicolon takes_operand he hu fun _ _ => rfl))

theorem read_jump {t u : Token} {s : Stmt} (hne : t.terminal ≠ .symbol .braceOpen)
    (ht : statement? t = some (.jump s)) (hu : u.terminal = .symbol .semicolon) :
    (Phrase.one .statement s).Read [t, u] := by
  intro st hf
  have hword : st.next? t = some (st.on (.jump s)) := by
    simp [next?, hf, inStatement?, hne, ht]
  refine .of_reads (.cons hword (.one ?_))
  simp [next?, expect?, hu, finish]

theorem read_expr {t : Token} {e : Expr} {ts : List Token}
    (he : (Term.expr .assignment e).Derives ts) (ht : t.terminal = .symbol .semicolon) :
    (Phrase.one .statement (.expr (start ts) e)).Read (ts ++ [t]) := by
  intro st hf
  have htakes : st.Takes .statement [] := by
    have hst : st = st.on .statement := by rw [on, ← hf]
    rw [hst]
    exact takes_statement
  refine .of_reads (reads_semicolon htakes he ht fun mark hbegin => ?_)
  rw [hbegin.start]
  rfl

theorem reads_parameters {ps : List Param} {ts : List Token} (h : Parameters ps ts) (st : State)
    (start : Mark) (name : String) :
    (st.on (.firstOpen start name)).Reads ts (st.on (.paramName start name ps.reverse)) := by
  induction h with
  | @one t u kind ht hu =>
    have htype : (st.on (.firstOpen start name)).next? t =
        some (st.on (.paramType start name [] t.mark kind)) := by
      simp [next?, afterFirstOpen?, ht, typeOf?]
    refine .cons htype (.one ?_)
    simp [next?, expect?, hu, textOf]
  | @next t u v kind ps ts _ ht hu hv ih =>
    have hcomma : (st.on (.paramName start name ps.reverse)).next? t =
        some (st.on (.param start name ps.reverse)) := by
      simp [next?, afterParam?, ht]
    have htype : (st.on (.param start name ps.reverse)).next? u =
        some (st.on (.paramType start name ps.reverse u.mark kind)) := by
      simp [next?, expectType?, typeOf?, hu]
    refine ih.append (.cons hcomma (.cons htype (.one ?_)))
    simp [next?, expect?, hv, textOf]

theorem reads_firstOpen {t u : Token} {st : State} {after : Boundary}
    (hf : st.focus = .ready after) (ht : t.terminal = .name)
    (hu : u.terminal = .symbol .parenOpen) :
    st.Reads [t, u] (st.on (.firstOpen t.mark (textOf t))) := by
  have hname : st.next? t = some (st.on (.firstName t.mark (textOf t))) := by
    simp [next?, hf, inBody?, typeOf?, ht]
  refine .cons hname (.one ?_)
  simp [next?, hu]

theorem reads_function {st head : State} {start : Mark} {name : String} {ps : List Param}
    {body : Stmt} {ts us : List Token} (hflat : st.Flat) (hhead : st.Reads ts head)
    (hopen : ∀ t : Token, t.terminal = .symbol .braceOpen →
      head.next? t = some (st.openFunction start name ps t.mark))
    (ih : (Phrase.one .block body).Read us) :
    ∃ last next, st.Reads (ts ++ us) last ∧
      last.resolved = (st.push [.function start.pos name ps body]).on (.ready next) := by
  obtain ⟨t, rest, rfl, ht, hread⟩ := ih
  have hbody := hread { st with around := .function start name ps :: st.around }
  refine ⟨_, .statement, hhead.append (.cons (hopen t ht) hbody), ?_⟩
  rw [settle_resolved]
  exact settle_flat hflat false

theorem read_functionNone {t u v : Token} {body : Stmt} {ts : List Token}
    (ht : t.terminal = .name) (hu : u.terminal = .symbol .parenOpen)
    (hv : v.terminal = .symbol .parenClose) (ih : (Phrase.one .block body).Read ts) :
    (Phrase.one .declaration (.function t.mark.pos (String.ofList t.text) [] body)).Read
      (t :: u :: v :: ts) := by
  intro st after hf hflat
  have hclose : (st.on (.firstOpen t.mark (textOf t))).next? v =
      some (st.on (.firstEmpty t.mark (textOf t))) := by
    simp [next?, afterFirstOpen?, hv]
  refine reads_function hflat ((reads_firstOpen hf ht hu).append (.one hclose)) ?_ ih
  intro w hw
  simp [next?, hw, openFunction, openBlock, textOf]

theorem read_function {t u v : Token} {ps : List Param} {body : Stmt} {ts us : List Token}
    (ht : t.terminal = .name) (hu : u.terminal = .symbol .parenOpen) (hp : Parameters ps ts)
    (hv : v.terminal = .symbol .parenClose) (ih : (Phrase.one .block body).Read us) :
    (Phrase.one .declaration (.function t.mark.pos (String.ofList t.text) ps body)).Read
      (t :: u :: (ts ++ v :: us)) := by
  intro st after hf hflat
  have hparams := reads_parameters hp st t.mark (textOf t)
  have hclose : (st.on (.paramName t.mark (textOf t) ps.reverse)).next? v =
      some (st.on (.functionHead t.mark (textOf t) ps)) := by
    simp [next?, afterParam?, hv]
  have hhead := (reads_firstOpen hf ht hu).append (hparams.snoc hclose)
  have hopen : ∀ w : Token, w.terminal = .symbol .braceOpen →
      (st.on (.functionHead t.mark (textOf t) ps)).next? w =
        some (st.openFunction t.mark (textOf t) ps w.mark) := by
    intro w hw
    simp [next?, expect?, hw, openFunction, openBlock]
  simpa [textOf] using reads_function hflat hhead hopen ih

/-- Every phrase that the grammar derives is read as such. -/
theorem Phrase.Derives.is_read {phrase : Phrase} {ts : List Token} (h : phrase.Derives ts) :
    phrase.Read ts := by
  induction h with
  | nil => exact read_nil
  | snoc _ hs ihb ihs => exact read_snoc hs ihb ihs
  | binding _ ih => exact read_binding ih
  | statement _ ih => exact read_statement ih
  | block _ ih => exact read_block ih
  | declare ht hu hv => exact read_declare ht hu hv
  | initial ht hu hv he hw => exact read_initial ht hu hv he hw
  | functionNone ht hu hv _ ih => exact read_functionNone ht hu hv ih
  | function ht hu hp hv _ ih => exact read_function ht hu hp hv ih
  | braces ht _ hu ih => exact read_braces ht hu ih
  | branch ht hu he hv _ ih => exact read_branch ht hu he hv ih
  | branchElse ht hu he hv _ hc hw _ ihy ihn => exact read_branchElse ht hu he hv hc hw ihy ihn
  | whileLoop ht hu he hv _ ih => exact read_whileLoop ht hu he hv ih
  | forLoop ht hu _ htest hv hupdate hw _ ihi ihb =>
    exact read_forLoop ht hu htest hv hupdate hw ihi ihb
  | returnsNone ht hu => exact read_returnsNone ht hu
  | returns ht he hu => exact read_returns ht he hu
  | print ht he hu => exact read_print ht he hu
  | breaks ht hu => exact read_jump (by simp [ht]) (by simp [statement?, ht]) hu
  | continues ht hu => exact read_jump (by simp [ht]) (by simp [statement?, ht]) hu
  | expr he ht => exact read_expr he ht

theorem Phrase.Derives.reads_program {ss : List Stmt} {ts : List Token}
    (h : (Phrase.body ss).Derives ts) :
    ∃ last : State, State.Reads {} ts last ∧
      last.program? = some ⟨(ss.head?.map Stmt.pos).getD .none, ss⟩ := by
  obtain ⟨last, next, hread, hlast⟩ := h.is_read {} .start rfl trivial
  refine ⟨last, hread, ?_⟩
  have hresolved : last.resolved = ⟨ss.reverse, [], .ready next⟩ := by
    rw [hlast]
    simp [push, resolved]
  rw [program?_resolved, hresolved]
  simp [program?]

end Grammar

end Guion
