import Guion.Proofs.Grammar.Complete
import Guion.Proofs.Grammar.Lexemes
import Guion.Proofs.Grammar.Parsing

namespace Guion

namespace Parse

open Grammar

theorem literal?_starts {t : Token} {l : Literal} (h : literal? t = some l) :
    startsExpr t.terminal := by
  unfold literal? at h
  split at h
  next ht => simp [ht, startsExpr]
  next ht => simp [ht, startsExpr]
  next ht => simp [ht, startsExpr]
  next ht => simp [ht, startsExpr]
  next ht => simp [ht, startsExpr]
  next => cases h

theorem sign_starts {t : Terminal} {op : UnaryOp} (h : UnaryOp.ofTerminal? t = some op) :
    startsExpr t := by
  have hmem := mem_signs h
  simp only [signs, List.mem_cons, Prod.mk.injEq, List.not_mem_nil, or_false] at hmem
  obtain ⟨rfl, _⟩ | ⟨rfl, _⟩ | ⟨rfl, _⟩ := hmem <;> rfl

theorem connective_continues {t : Terminal} {op : Connective}
    (h : Connective.ofTerminal? t = some op) : continues t := by
  unfold Connective.ofTerminal? at h
  split at h <;> first | rfl | cases h

theorem operand?_starts {hole : Hole} {pending : List Pending} {t : Token} {focus : Focus}
    (h : operand? hole pending t = some focus) :
    startsExpr t.terminal ∧ focus ≠ .ready .start := by
  rw [operand?] at h
  split at h
  next hl =>
    cases h
    exact ⟨literal?_starts hl, by rintro ⟨⟩⟩
  next =>
    split at h
    next hop =>
      cases h
      exact ⟨sign_starts hop, by rintro ⟨⟩⟩
    next =>
      split at h <;> cases h
      next ht => exact ⟨by simp [ht, startsExpr], by rintro ⟨⟩⟩
      next ht => exact ⟨by simp [ht, startsExpr], by rintro ⟨⟩⟩
      next ht => exact ⟨by simp [ht, startsExpr], by rintro ⟨⟩⟩

theorem startsStmt_of_startsExpr {t : Terminal} (h : startsExpr t) : startsStmt t := by
  unfold startsStmt
  split <;> first | rfl | exact h

theorem statement?_starts {t : Token} {focus : Focus} (h : statement? t = some focus) :
    startsStmt t.terminal ∧ focus ≠ .ready .start := by
  unfold statement? at h
  split at h <;> cases h <;> simp_all [startsStmt]

namespace State

variable {st last : State} {t : Token}

/-- Something was read: the state is not the one at the start of a text. -/
def Begun (st : State) : Prop := st.focus ≠ .ready .start

theorem settle_begun (hold : Bool) (before : List Stmt) (s : Stmt) (around : List Enclosing) :
    (settle hold before s around).Begun := by
  induction around generalizing s with
  | nil => exact nofun
  | cons frame up ih =>
    cases frame with
    | block start done => exact nofun
    | yes start test =>
      cases hold with
      | true => exact nofun
      | false => exact ih _
    | _ => exact ih _

theorem declared_begun (st : State) (owner : Owner) (s : Stmt) : (st.declared owner s).Begun := by
  cases owner <;> exact nofun

theorem wanted?_starts {hole : Hole} {pending : List Pending}
    (h : st.wanted? hole pending t = some last) : startsExpr t.terminal ∧ last.Begun := by
  obtain ⟨focus, hf, rfl⟩ := Option.map_eq_some_iff.mp h
  exact operand?_starts hf

theorem inStatement?_starts (h : st.inStatement? t = some last) :
    startsStmt t.terminal ∧ last.Begun := by
  rw [inStatement?] at h
  split at h
  next ht =>
    cases h
    exact ⟨by simp [ht, startsStmt], by rintro ⟨⟩⟩
  next =>
    obtain ⟨focus, hf, rfl⟩ := Option.map_eq_some_iff.mp h
    obtain hs | ⟨_, hs⟩ := Option.or_eq_some_iff.mp hf
    · exact statement?_starts hs
    · obtain ⟨hstarts, hbegun⟩ := operand?_starts hs
      exact ⟨startsStmt_of_startsExpr hstarts, hbegun⟩

theorem inBody?_starts (h : st.inBody? t = some last) :
    (startsDecl t.terminal ∨ t.terminal = .symbol .braceClose ∧ st.around ≠ []) ∧ last.Begun := by
  rw [inBody?] at h
  split at h
  next hk =>
    cases h
    exact ⟨.inl (by simp [startsDecl, isType, typeOf?_eq_some hk]), by rintro ⟨⟩⟩
  next =>
    split at h
    next ht =>
      cases h
      exact ⟨.inl (by simp [ht, startsDecl, startsStmt, startsExpr]), by rintro ⟨⟩⟩
    next =>
      split at h
      next ht =>
        unfold closeBlock? at h
        split at h <;> cases h
        next ha => exact ⟨.inr ⟨ht, by simp [ha]⟩, settle_begun _ _ _ _⟩
      next =>
        obtain ⟨hstarts, hbegun⟩ := inStatement?_starts h
        exact ⟨.inl (by simp [startsDecl, hstarts]), hbegun⟩

theorem endExpr?_begun {hole : Hole} {pending : List Pending} {e : Operand}
    (h : st.endExpr? hole pending e = some last) : last.Begun := by
  unfold endExpr? at h
  split at h
  · unfold atSemicolon? at h
    split at h <;> cases h
    · exact settle_begun _ _ _ _
    · exact settle_begun _ _ _ _
    · exact settle_begun _ _ _ _
    · exact declared_begun _ _ _
    · exact nofun
  · cases h

theorem close?_begun {hole : Hole} {pending : List Pending} {e : Operand}
    (h : st.close? hole pending e = some last) : last.Begun := by
  unfold close? at h
  split at h
  · cases h
    exact nofun
  · cases h
    exact nofun
  · unfold atClose? at h
    dsimp only at h
    split at h <;> cases h <;> exact nofun
  · cases h

def Names (form : Form) (t : Terminal) : Prop :=
  ∃ name assignable, form = .name name assignable ∧
    (t = .symbol .parenOpen ∨ t = .symbol .assign ∧ assignable = true)

theorem afterOperand?_follows {form : Form} {e : Operand} {hole : Hole} {pending : List Pending}
    (h : st.afterOperand? form e hole pending t = some last) :
    (follows t.terminal ∨ Names form t.terminal) ∧ last.Begun := by
  unfold afterOperand? at h
  split at h
  next hop =>
    obtain ⟨rest, _, rfl⟩ := Option.map_eq_some_iff.mp h
    exact ⟨.inl (by simp [follows, connective_continues hop]), by rintro ⟨⟩⟩
  next =>
    split at h
    next ht => exact ⟨.inl (by simp [follows, ht]), close?_begun h⟩
    next =>
      split at h
      next ht =>
        unfold nextArgument? at h
        split at h <;> cases h
        exact ⟨.inl (by simp [follows, ht]), by rintro ⟨⟩⟩
      next =>
        split at h
        next ht => exact ⟨.inl (by simp [follows, ht, continues]), endExpr?_begun h⟩
        next =>
          split at h
          next name assignable =>
            rw [afterName?] at h
            split at h
            next ht =>
              cases h
              exact ⟨.inr ⟨name, assignable, rfl, .inl ht⟩, by rintro ⟨⟩⟩
            next =>
              split at h <;> cases h
              next ht => exact ⟨.inr ⟨name, assignable, rfl, .inr ht⟩, by rintro ⟨⟩⟩
          next => cases h

theorem afterOperand?_continues {form : Form} {e : Operand}
    (h : st.afterOperand? form e .statement [] t = some last) :
    (continues t.terminal ∨ Names form t.terminal) ∧ last.Begun := by
  have hclose : t.terminal ≠ .symbol .parenClose := by
    intro ht
    simp [afterOperand?.eq_def, ht, Connective.ofTerminal?, close?, collapse, atClose?] at h
  have hcomma : t.terminal ≠ .symbol .comma := by
    intro ht
    simp [afterOperand?.eq_def, ht, Connective.ofTerminal?, nextArgument?, collapse] at h
  obtain ⟨hf | hname, hbegun⟩ := afterOperand?_follows h
  · simp only [follows, Bool.or_eq_true, beq_iff_eq] at hf
    obtain (ht | ht) | ht := hf
    · exact absurd ht hclose
    · exact absurd ht hcomma
    · exact ⟨.inl ht, hbegun⟩
  · exact ⟨.inr hname, hbegun⟩

theorem expectType?_isType {focus : Kind → Focus} (h : st.expectType? t focus = some last)
    (hf : ∀ kind, focus kind ≠ .ready .start) : isType t.terminal ∧ last.Begun := by
  obtain ⟨kind, hk, rfl⟩ := Option.map_eq_some_iff.mp h
  exact ⟨by simp [typeOf?_eq_some hk, isType], hf kind⟩

theorem expect?_begun {terminal : Terminal} (h : expect? terminal st t = some last)
    (hst : st.Begun) : t.terminal = terminal ∧ last.Begun := by
  obtain ⟨ht, rfl⟩ := expect?_eq_some h
  exact ⟨ht, hst⟩

theorem afterYes?_starts {yes : Stmt} (h : st.afterYes? yes t = some last) :
    ((startsDecl t.terminal ∨ t.terminal = .symbol .braceClose) ∨ t.terminal = .keyword .sino) ∧
      last.Begun := by
  rw [afterYes?] at h
  split at h
  next ht =>
    split at h <;> cases h
    exact ⟨.inr ht, by rintro ⟨⟩⟩
  next =>
    obtain ⟨hstarts, hbegun⟩ := inBody?_starts h
    exact ⟨.inl (hstarts.imp_right And.left), hbegun⟩

theorem afterNamed?_goes_on {owner : Owner} {start : Mark} {kind : Kind} {name : String}
    (h : st.afterNamed? owner start kind name t = some last) :
    (t.terminal = .symbol .assign ∨ t.terminal = .symbol .semicolon) ∧ last.Begun := by
  rw [afterNamed?] at h
  split at h
  next ht =>
    cases h
    exact ⟨.inr ht, declared_begun _ _ _⟩
  next =>
    split at h <;> cases h
    next ht => exact ⟨.inl ht, by rintro ⟨⟩⟩

theorem afterFirstOpen?_starts {start : Mark} {name : String}
    (h : st.afterFirstOpen? start name t = some last) :
    ((startsExpr t.terminal ∨ t.terminal = .symbol .parenClose) ∨ isType t.terminal) ∧
      last.Begun := by
  rw [afterFirstOpen?] at h
  split at h
  next ht =>
    cases h
    exact ⟨.inl (.inr ht), by rintro ⟨⟩⟩
  next =>
    split at h
    next hk =>
      cases h
      exact ⟨.inr (by simp [isType, typeOf?_eq_some hk]), by rintro ⟨⟩⟩
    next =>
      obtain ⟨hstarts, hbegun⟩ := wanted?_starts h
      exact ⟨.inl (.inl hstarts), hbegun⟩

theorem afterParam?_goes_on {start : Mark} {name : String} {before : List Param}
    (h : st.afterParam? start name before t = some last) :
    (t.terminal = .symbol .parenClose ∨ t.terminal = .symbol .comma) ∧ last.Begun := by
  rw [afterParam?] at h
  split at h
  next ht =>
    cases h
    exact ⟨.inr ht, by rintro ⟨⟩⟩
  next =>
    split at h <;> cases h
    next ht => exact ⟨.inl ht, by rintro ⟨⟩⟩

theorem firstArgument?_starts {hole : Hole} {pending : List Pending}
    (h : st.firstArgument? hole pending t = some last) :
    (startsExpr t.terminal ∨ t.terminal = .symbol .parenClose) ∧ last.Begun := by
  unfold firstArgument? at h
  split at h
  · split at h
    next ht =>
      cases h
      exact ⟨.inr ht, by rintro ⟨⟩⟩
    next =>
      obtain ⟨hstarts, hbegun⟩ := wanted?_starts h
      exact ⟨.inl hstarts, hbegun⟩
  · cases h

theorem ready_accepts {after : Boundary} (hst : after ≠ .start ∨ st.around = [])
    (h : st.inBody? t = some last) : (Focus.ready after).accepts t.terminal = true := by
  obtain ⟨hstarts | ⟨hclose, haround⟩, _⟩ := inBody?_starts h
  · cases after <;> simp [Focus.accepts, hstarts]
  · cases after with
    | start =>
      obtain hafter | hnone := hst
      · exact absurd rfl hafter
      · exact absurd hnone haround
    | opened | declaration | statement => simp [Focus.accepts, hclose]

theorem operand_accepts {form : Form} {terminal : Terminal} (e : Operand) (hole : Hole)
    (pending : List Pending) (h : follows terminal ∨ Names form terminal) :
    (Focus.operand form e hole pending).accepts terminal = true := by
  obtain hfollows | ⟨name, assignable, rfl, hopen | ⟨hassign, rfl⟩⟩ := h
  · cases form with
    | name name assignable => cases assignable <;> simp [Focus.accepts, hfollows]
    | closed => exact hfollows
  · cases assignable <;> simp [Focus.accepts, hopen]
  · simp [Focus.accepts, hassign]

/-- A token that has a place in a state is one that the scanner looks for there. -/
theorem next?_accepts (hst : st.Begun ∨ st.around = []) (h : st.next? t = some last) :
    st.focus.accepts t.terminal = true ∧ last.Begun := by
  obtain ⟨before, around, focus⟩ := st
  cases focus with
  | ready after =>
    have hafter : after ≠ .start ∨ around = [] :=
      hst.imp_left fun hbegun hstart => hbegun (congrArg Focus.ready hstart)
    exact ⟨ready_accepts hafter h, (inBody?_starts h).2⟩
  | orElse yes =>
    obtain ⟨hs, hbegun⟩ := afterYes?_starts h
    exact ⟨by simpa [Focus.accepts] using hs, hbegun⟩
  | statement => exact inStatement?_starts h
  | typed owner start kind =>
    obtain ⟨ht, hbegun⟩ := expect?_begun h (by rintro ⟨⟩)
    exact ⟨by simp [Focus.accepts, ht], hbegun⟩
  | named owner start kind name =>
    obtain ⟨ht, hbegun⟩ := afterNamed?_goes_on h
    exact ⟨by simpa [Focus.accepts] using ht, hbegun⟩
  | head head start =>
    obtain ⟨ht, hbegun⟩ := expect?_begun h (by cases head <;> rintro ⟨⟩)
    exact ⟨by simp [Focus.accepts, ht], hbegun⟩
  | forHead start => exact expectType?_isType h (by rintro _ ⟨⟩)
  | jump s =>
    obtain ⟨ht, hbegun⟩ := expect?_begun h (settle_begun _ _ _ _)
    exact ⟨by simp [Focus.accepts, ht], hbegun⟩
  | returning start =>
    simp only [next?] at h
    split at h
    next ht =>
      cases h
      exact ⟨by simp [Focus.accepts, ht], settle_begun _ _ _ _⟩
    next =>
      obtain ⟨hs, hbegun⟩ := wanted?_starts h
      exact ⟨by simp [Focus.accepts, hs], hbegun⟩
  | firstName start name =>
    simp only [next?] at h
    split at h
    next ht =>
      cases h
      exact ⟨by simp [Focus.accepts, ht], by rintro ⟨⟩⟩
    next =>
      obtain ⟨hc | ⟨_, _, _, hc | ⟨hc, _⟩⟩, hbegun⟩ := afterOperand?_continues h <;>
        simp [Focus.accepts, hc, hbegun]
  | firstOpen start name =>
    obtain ⟨hs, hbegun⟩ := afterFirstOpen?_starts h
    exact ⟨by simpa [Focus.accepts] using hs, hbegun⟩
  | firstEmpty start name =>
    simp only [next?] at h
    split at h
    next ht =>
      cases h
      exact ⟨by simp [Focus.accepts, ht], by rintro ⟨⟩⟩
    next =>
      obtain ⟨hc | ⟨_, _, hform, _⟩, hbegun⟩ := afterOperand?_continues h
      · exact ⟨by simp [Focus.accepts, hc], hbegun⟩
      · cases hform
  | param start name before => exact expectType?_isType h (by rintro _ ⟨⟩)
  | paramType start name before place kind =>
    obtain ⟨ht, hbegun⟩ := expect?_begun h (by rintro ⟨⟩)
    exact ⟨by simp [Focus.accepts, ht], hbegun⟩
  | paramName start name before =>
    obtain ⟨ht, hbegun⟩ := afterParam?_goes_on h
    exact ⟨by simpa [Focus.accepts] using ht, hbegun⟩
  | functionHead start name params =>
    obtain ⟨ht, hbegun⟩ := expect?_begun h (by rintro ⟨⟩)
    exact ⟨by simp [Focus.accepts, ht], hbegun⟩
  | want want hole pending =>
    cases want with
    | operand => exact wanted?_starts h
    | afterDeclaration =>
      obtain ⟨hs, hbegun⟩ := wanted?_starts h
      exact ⟨by simp [Focus.accepts, startsDecl, startsStmt_of_startsExpr hs], hbegun⟩
    | firstArgument =>
      obtain ⟨hs, hbegun⟩ := firstArgument?_starts h
      exact ⟨by simpa [Focus.accepts] using hs, hbegun⟩
  | reader opened start hole pending =>
    cases opened <;> obtain ⟨ht, hbegun⟩ := expect?_begun h (by rintro ⟨⟩) <;>
      exact ⟨by simp [Focus.accepts, ht], hbegun⟩
  | operand form e hole pending =>
    obtain ⟨hs, hbegun⟩ := afterOperand?_follows h
    exact ⟨operand_accepts e hole pending hs, hbegun⟩

theorem Reads.begun {ts : List Token} (h : st.Reads ts last) (hst : st.Begun ∨ st.around = []) :
    last.Begun ∨ last.around = [] := by
  induction ts generalizing st with
  | nil =>
    cases h
    exact hst
  | cons t ts ih =>
    obtain ⟨mid, hnext, hrest⟩ := reads_cons.mp h
    exact ih hrest (.inl (next?_accepts hst hnext).2)

end State

end Parse

/-- A text is the lexemes in their order, with white space between them and perhaps around them. -/
inductive Spaced : List Lexeme → List Char → Prop where
  | nil : Spaced [] []
  | space {c : Char} {ls : List Lexeme} {cs : List Char} :
    isSpace c = true → Spaced ls cs → Spaced ls (c :: cs)
  | lexeme {l : Lexeme} {ls : List Lexeme} {cs : List Char} :
    Breaks cs → Spaced ls cs → Spaced (l :: ls) (l.text ++ cs)

def Lexeme.joined : List Lexeme → List Char
  | [] => []
  | l :: ls => l.text ++ ' ' :: joined ls

def Token.lexeme (t : Token) : Lexeme := ⟨t.terminal, t.text⟩

namespace Spaced

theorem joined (ls : List Lexeme) : Spaced ls (Lexeme.joined ls) := by
  induction ls with
  | nil => exact .nil
  | cons l ls ih =>
    have hbreaks : Breaks (' ' :: Lexeme.joined ls) := by
      intro c hc
      cases hc
      rfl
    exact .lexeme hbreaks (.space rfl ih)

variable {ls : List Lexeme} {cs : List Char}

theorem dropWhile (h : Spaced ls cs) (hl : ∀ l ∈ ls, l.Proper) :
    Spaced ls (cs.dropWhile isSpace) := by
  induction h with
  | nil => exact .nil
  | space hc _ ih =>
    rw [List.dropWhile_cons_of_pos hc]
    exact ih hl
  | @lexeme l ls cs hr h _ =>
    obtain ⟨c, ds, ht, hc, _⟩ := (hl l List.mem_cons_self).starts
    have hdrop : (l.text ++ cs).dropWhile isSpace = l.text ++ cs := by
      rw [ht, List.cons_append, List.dropWhile_cons_of_neg (by simp [hc])]
    rw [hdrop]
    exact .lexeme hr h

end Spaced

theorem layout?_of_isSpace {c : Char} (h : isSpace c) (cs : List Char) :
    layout? (c :: cs) = some (1 + (cs.takeWhile isSpace).length) := by
  obtain rfl | rfl | rfl | rfl | rfl := isSpace_cases h <;> rfl

theorem drop_takeWhile (p : Char → Bool) (cs : List Char) :
    cs.drop (cs.takeWhile p).length = cs.dropWhile p := by
  induction cs with
  | nil => rfl
  | cons c cs ih =>
    by_cases hc : p c
    · simpa [hc] using ih
    · simp [hc]

open Parse in
/-- A text of lexemes is scanned to tokens of these lexemes, whatever reads them. -/
theorem Spaced.scanned {ls : List Lexeme} {cs : List Char} (h : Spaced ls cs)
    (hl : ∀ l ∈ ls, l.Proper) (mark : Mark) :
    ∃ ts : List Token, ts.map Token.lexeme = ls ∧
      ∀ (fuel : Nat) (st last : State) (seen : List Token) (p : Program), cs.length < fuel →
        (st.Begun ∨ st.around = []) → st.Reads ts last → last.program? = some p →
        scan fuel st mark seen cs = .ok (p, seen.reverse ++ ts) := by
  -- white space is taken in one piece, so the induction is on the length of the text
  induction hn : cs.length using Nat.strong_induction_on generalizing ls cs mark with
  | h n ih =>
    subst hn
    cases h with
    | nil =>
      refine ⟨[], rfl, fun fuel st last seen p hfuel _ hread hp => ?_⟩
      cases hread
      cases fuel with
      | zero => omega
      | succ fuel => simp [scan, layout?, hp]
    | @space c _ cs hc h =>
      have hshort : (cs.dropWhile isSpace).length < (c :: cs).length := by
        have hle := (List.dropWhile_sublist isSpace (l := cs)).length_le
        simp only [List.length_cons]
        omega
      obtain ⟨ts, hts, hscan⟩ := ih _ hshort (h.dropWhile hl) hl
        (mark.advance ((c :: cs).take (1 + (cs.takeWhile isSpace).length))) rfl
      refine ⟨ts, hts, fun fuel st last seen p hfuel hst hread hp => ?_⟩
      cases fuel with
      | zero => omega
      | succ fuel =>
        have hdrop : (c :: cs).drop (1 + (cs.takeWhile isSpace).length) = cs.dropWhile isSpace := by
          rw [Nat.add_comm, List.drop_succ_cons, drop_takeWhile]
        simp only [scan, layout?_of_isSpace hc, hdrop]
        exact hscan fuel st last seen p (by omega) hst hread hp
    | @lexeme l ls cs hr h =>
      obtain ⟨hproper, hl⟩ := List.forall_mem_cons.mp hl
      obtain ⟨c, ds, ht, _, _⟩ := hproper.starts
      have hlength : l.text.length = ds.length + 1 := by simp [ht]
      obtain ⟨ts, hts, hscan⟩ := ih cs.length (by simp; omega) h hl (mark.advance l.text) rfl
      refine ⟨⟨l.terminal, l.text, mark⟩ :: ts, by rw [List.map_cons, hts]; rfl, ?_⟩
      intro fuel st last seen p hfuel hst hread hp
      cases fuel with
      | zero => omega
      | succ fuel =>
        obtain ⟨mid, hnext, hread⟩ := State.reads_cons.mp hread
        obtain ⟨haccepts, hmid⟩ := State.next?_accepts hst hnext
        have hfound := hproper.found haccepts hr
        have hlayout := hproper.not_layout hr
        have htail := hscan fuel mid last (⟨l.terminal, l.text, mark⟩ :: seen) p
          (by simp at hfuel; omega) (.inl hmid) hread hp
        rw [ht, List.cons_append] at hfound hlayout
        rw [ht] at hnext htail
        rw [ht, List.cons_append]
        simp only [scan, hlayout, hfound]
        have htake : (c :: (ds ++ cs)).take (c :: ds).length = c :: ds := List.take_left
        have hdrop : (c :: (ds ++ cs)).drop (c :: ds).length = cs := List.drop_left
        simp only [htake, hdrop, hnext, htail]
        simp

end Guion
