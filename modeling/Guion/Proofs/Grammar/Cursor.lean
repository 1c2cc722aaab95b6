import Guion.Proofs.Grammar.Cut
import Guion.Proofs.Grammar.Positions

namespace Guion

theorem Splits.append {mark : Mark} {cs ds : List Char} {ts us : List Token}
    (h : Splits mark cs ts) (hs : Splits (mark.advance cs) ds us) :
    Splits mark (cs ++ ds) (ts ++ us) := by
  induction h with
  | nil => exact hs
  | layout hl _ ih =>
    rw [List.append_assoc]
    exact .layout hl (ih (by rwa [← Mark.advance_append]))
  | token ht _ ih =>
    rw [List.append_assoc]
    exact .token ht (ih (by rwa [← Mark.advance_append]))

theorem matches_of_lexeme {accepts : Terminal → Bool} {terminal : Terminal} {text rest : List Char}
    (h : lexeme? accepts (text ++ rest) = some (terminal, text.length)) :
    terminal.Matches text := by
  have hmatches := lexeme?_matches h
  rwa [List.take_left] at hmatches

/-- A misreading names what a text begins with: a token, or a character that begins none. -/
inductive Misreading.At : Misreading → List Char → Prop where
  | unexpected {terminal : Terminal} {text rest : List Char} :
    terminal.Matches text → At (.unexpected text) (text ++ rest)
  | unknown {c : Char} {rest : List Char} :
    lexeme? (fun _ => true) (c :: rest) = none → At (.unknown c) (c :: rest)

theorem Misreading.At.of_lexeme {accepts : Terminal → Bool} {cs : List Char} {terminal : Terminal}
    {n : Nat} (h : lexeme? accepts cs = some (terminal, n)) :
    (Misreading.unexpected (cs.take n)).At cs := by
  have hat : (Misreading.unexpected (cs.take n)).At (cs.take n ++ cs.drop n) :=
    .unexpected (lexeme?_matches h)
  rwa [List.take_append_drop] at hat

namespace Parse

/-- The scanner in a text: what it has read, where it stands and the text that is left. -/
structure Cursor where
  state : State
  mark : Mark
  text : List Char

namespace Cursor

/-- The scanner goes over layout, or over a token that has a place. -/
inductive Step : Cursor → List Token → Cursor → Prop where
  | layout {st : State} {mark : Mark} {piece rest : List Char} :
    layout? (piece ++ rest) = some piece.length →
      Step ⟨st, mark, piece ++ rest⟩ [] ⟨st, mark.advance piece, rest⟩
  | token {st next : State} {t : Token} {rest : List Char} :
    layout? (t.text ++ rest) = none →
      lexeme? st.focus.accepts (t.text ++ rest) = some (t.terminal, t.text.length) →
      st.next? t = some next →
      Step ⟨st, t.mark, t.text ++ rest⟩ [t] ⟨next, t.mark.advance t.text, rest⟩

/-- The scanner goes over a part of the text, and over the given tokens in it. -/
inductive Scans : Cursor → List Token → Cursor → Prop where
  | stay (c : Cursor) : Scans c [] c
  | step {c d e : Cursor} {ts us : List Token} : c.Step ts d → Scans d us e → Scans c (ts ++ us) e

def start (cs : List Char) : Cursor := ⟨{}, {}, cs⟩

structure Over (c : Cursor) (piece : List Char) (ts : List Token) (d : Cursor) : Prop where
  text : c.text = piece ++ d.text
  mark : d.mark = c.mark.advance piece
  reads : c.state.Reads ts d.state
  splits : Splits c.mark piece ts

variable {c d e : Cursor} {ts us : List Token} {x y b u : List Char}

theorem Step.over (h : c.Step ts d) : ∃ piece, piece ≠ [] ∧ c.Over piece ts d := by
  cases h with
  | @layout st mark piece rest h =>
    have hlayout := layout?_isLayout h
    rw [List.take_left] at hlayout
    have hsplits : Splits mark (piece ++ []) [] := .layout hlayout .nil
    rw [List.append_nil] at hsplits
    refine ⟨piece, ?_, rfl, rfl, State.reads_nil st, hsplits⟩
    rintro rfl
    nomatch hlayout
  | @token st next t rest hnone h hnext =>
    have hmatches := matches_of_lexeme h
    have hsplits : Splits t.mark (t.text ++ []) [t] := .token hmatches .nil
    rw [List.append_nil] at hsplits
    exact ⟨t.text, hmatches.ne_nil, rfl, rfl, .one hnext, hsplits⟩

theorem Step.length_lt (h : c.Step ts d) : d.text.length < c.text.length := by
  obtain ⟨piece, hne, hover⟩ := h.over
  have hpos := List.length_pos_iff.mpr hne
  rw [hover.text, List.length_append]
  omega

theorem Over.trans {piece other : List Char} (h : c.Over piece ts d) (hs : d.Over other us e) :
    c.Over (piece ++ other) (ts ++ us) e where
  text := by rw [h.text, hs.text, List.append_assoc]
  mark := by rw [hs.mark, h.mark, Mark.advance_append]
  reads := h.reads.append hs.reads
  splits := h.splits.append (h.mark ▸ hs.splits)

theorem Scans.over (h : c.Scans ts d) : ∃ piece, c.Over piece ts d := by
  induction h with
  | stay c => exact ⟨[], rfl, rfl, State.reads_nil c.state, .nil⟩
  | step h _ ih =>
    obtain ⟨piece, _, hover⟩ := h.over
    obtain ⟨other, hrest⟩ := ih
    exact ⟨piece ++ other, hover.trans hrest⟩

theorem Scans.length_le (h : c.Scans ts d) : ∀ t ∈ ts, t.text.length ≤ c.text.length := by
  intro t ht
  obtain ⟨piece, hover⟩ := h.over
  obtain ⟨before, after, rfl, _⟩ := hover.splits.located t ht
  simp only [hover.text, List.length_append]
  omega

theorem Scans.eq_of_text (h : c.Scans ts d) (ht : c.text = d.text) : ts = [] ∧ c = d := by
  cases h with
  | stay => exact ⟨rfl, rfl⟩
  | step h hrest =>
    have hlength := h.length_lt
    obtain ⟨piece, hover⟩ := hrest.over
    rw [ht, hover.text, List.length_append] at hlength
    omega

section Scan

theorem Step.of_layout (st : State) (mark : Mark) {cs : List Char} {n : Nat}
    (h : layout? cs = some n) :
    Step ⟨st, mark, cs⟩ [] ⟨st, mark.advance (cs.take n), cs.drop n⟩ := by
  have hcs := List.take_append_drop n cs
  have hn := List.length_take_of_le (layout?_le h)
  generalize cs.take n = piece, cs.drop n = rest at hcs hn ⊢
  subst hcs hn
  exact .layout h

theorem Step.of_lexeme {st next : State} {mark : Mark} {cs : List Char} {n : Nat}
    {terminal : Terminal} (hnone : layout? cs = none)
    (h : lexeme? st.focus.accepts cs = some (terminal, n))
    (hnext : st.next? ⟨terminal, cs.take n, mark⟩ = some next) :
    Step ⟨st, mark, cs⟩ [⟨terminal, cs.take n, mark⟩]
      ⟨next, mark.advance (cs.take n), cs.drop n⟩ := by
  have hcs := List.take_append_drop n cs
  have hn := List.length_take_of_le (lexeme?_le h)
  generalize cs.take n = text, cs.drop n = rest at hcs hn hnext ⊢
  subst hcs hn
  exact .token hnone h hnext

theorem Step.read (h : c.Step ts d) :
    (∃ n, layout? c.text = some n ∧ ts = [] ∧
        d = ⟨c.state, c.mark.advance (c.text.take n), c.text.drop n⟩) ∨
      layout? c.text = none ∧ ∃ terminal n next,
        lexeme? c.state.focus.accepts c.text = some (terminal, n) ∧
          c.state.next? ⟨terminal, c.text.take n, c.mark⟩ = some next ∧
            ts = [⟨terminal, c.text.take n, c.mark⟩] ∧
              d = ⟨next, c.mark.advance (c.text.take n), c.text.drop n⟩ := by
  cases h with
  | @layout st mark piece rest h => exact .inl ⟨_, h, rfl, by simp⟩
  | @token st next t rest hnone h hnext =>
    obtain ⟨terminal, text, mark⟩ := t
    exact .inr ⟨hnone, terminal, text.length, next, h, by simpa using hnext, by simp, by simp⟩

theorem Step.unique (h : c.Step ts d) (h' : c.Step us e) : ts = us ∧ d = e := by
  obtain ⟨n, hn, rfl, rfl⟩ | ⟨hn, terminal, n, next, hl, hnext, rfl, rfl⟩ := h.read
  · obtain ⟨m, hm, rfl, rfl⟩ | ⟨hm, _⟩ := h'.read
    · cases hn.symm.trans hm
      exact ⟨rfl, rfl⟩
    · cases hn.symm.trans hm
  · obtain ⟨m, hm, _⟩ | ⟨_, terminal', m, next', hl', hnext', rfl, rfl⟩ := h'.read
    · cases hn.symm.trans hm
    · cases hl.symm.trans hl'
      cases hnext.symm.trans hnext'
      exact ⟨rfl, rfl⟩

theorem Scans.rest (h : c.Scans ts d) (hend : c.Scans us e) (he : e.text = []) :
    ∃ vs, us = ts ++ vs ∧ d.Scans vs e := by
  induction h generalizing us with
  | stay c => exact ⟨us, rfl, hend⟩
  | @step c d _ ts vs h _ ih =>
    cases hend with
    | stay =>
      have hlength := h.length_lt
      rw [he] at hlength
      simp at hlength
    | step h' hrest =>
      obtain ⟨rfl, rfl⟩ := h.unique h'
      obtain ⟨ws, rfl, hscans⟩ := ih hrest
      exact ⟨ws, (List.append_assoc ..).symm, hscans⟩

theorem Scans.trans (h : c.Scans ts d) (hs : d.Scans us e) : c.Scans (ts ++ us) e := by
  induction h with
  | stay c => exact hs
  | step h _ ih =>
    rw [List.append_assoc]
    exact .step h (ih hs)

theorem Scans.one (h : c.Step ts d) : c.Scans ts d := by
  simpa using Scans.step h (.stay d)

section Spaces

theorem Step.of_space {ch : Char} (hc : isSpace ch) (st : State) (mark : Mark) (cs : List Char) :
    Step ⟨st, mark, ch :: cs⟩ []
      ⟨st, (mark.next ch).advance (cs.takeWhile isSpace), cs.dropWhile isSpace⟩ := by
  have hstep := Step.of_layout st mark (layout?_of_isSpace hc cs)
  rw [Nat.add_comm, List.take_succ_cons, take_span, List.drop_succ_cons, drop_takeWhile] at hstep
  exact hstep

theorem Scans.spaces (c : Cursor) :
    c.Scans [] ⟨c.state, c.mark.advance (c.text.takeWhile isSpace), c.text.dropWhile isSpace⟩ := by
  obtain ⟨st, mark, cs⟩ := c
  cases cs with
  | nil => exact .stay _
  | cons ch cs =>
    by_cases hc : isSpace ch
    · simp only [List.takeWhile_cons_of_pos hc, List.dropWhile_cons_of_pos hc]
      exact .one (.of_space hc st mark cs)
    · simp only [List.takeWhile_cons_of_neg hc, List.dropWhile_cons_of_neg hc]
      exact .stay _

theorem Scans.after_spaces (h : c.Scans ts d) (hd : d.text.dropWhile isSpace = d.text) :
    Scans ⟨c.state, c.mark.advance (c.text.takeWhile isSpace), c.text.dropWhile isSpace⟩ ts d := by
  obtain ⟨st, mark, cs⟩ := c
  cases cs with
  | nil => exact h
  | cons ch cs =>
    by_cases hc : isSpace ch
    · simp only [List.takeWhile_cons_of_pos hc, List.dropWhile_cons_of_pos hc]
      cases h with
      | stay =>
        have hlength := (List.dropWhile_suffix isSpace (l := cs)).length_le
        simp only [List.dropWhile_cons_of_pos hc] at hd
        rw [hd, List.length_cons] at hlength
        omega
      | step hstep hrest =>
        obtain ⟨rfl, rfl⟩ := (Step.of_space hc st mark cs).unique hstep
        exact hrest
    · simp only [List.takeWhile_cons_of_neg hc, List.dropWhile_cons_of_neg hc]
      exact h

end Spaces

theorem scan_step {fuel : Nat} {seen : List Token} (h : c.Step ts d) :
    scan (fuel + 1) c.state c.mark seen c.text =
      scan fuel d.state d.mark (ts.reverse ++ seen) d.text := by
  cases h with
  | layout h => simp [scan, h]
  | @token st next t rest hnone h hnext =>
    obtain ⟨terminal, text, mark⟩ := t
    obtain ⟨c, cs, htext⟩ := List.exists_cons_of_ne_nil (matches_of_lexeme h).ne_nil
    have htake : (text ++ rest).take text.length = text := List.take_left
    have hdrop : (text ++ rest).drop text.length = rest := List.drop_left
    subst htext
    simp only [List.cons_append] at hnone h htake hdrop
    simp only [List.cons_append, scan, hnone, h, htake, hdrop, hnext]
    simp

theorem scan_of_scans {fuel : Nat} (h : c.Scans ts d) (hf : c.text.length < fuel) :
    ∃ fuel', d.text.length < fuel' ∧ ∀ seen, scan fuel c.state c.mark seen c.text =
      scan fuel' d.state d.mark (ts.reverse ++ seen) d.text := by
  induction h generalizing fuel with
  | stay c => exact ⟨fuel, hf, fun seen => by simp⟩
  | @step c d e ts us h _ ih =>
    have hlength := h.length_lt
    cases fuel with
    | zero => omega
    | succ fuel =>
      have hshort : d.text.length < fuel := by omega
      obtain ⟨fuel', hf', hscan⟩ := ih hshort
      exact ⟨fuel', hf', fun seen => by rw [scan_step h, hscan]; simp⟩

/-- The scanner fails at the end of a text that is no program, or at what has no place in it. -/
inductive Fails : Cursor → List Token → ParseError → Prop where
  | ended {st : State} {mark : Mark} {seen : List Token} :
    st.program? = none →
      Fails ⟨st, mark, []⟩ seen ⟨.unexpected [], seen.head?.map Token.mark⟩
  | misread {st : State} {mark : Mark} {cs : List Char} {seen : List Token} {cause : Misreading} :
    cause.At cs → Fails ⟨st, mark, cs⟩ seen ⟨cause, some mark⟩

theorem scan_stuck {fuel : Nat} {seen : List Token} (hstuck : ∀ ts d, ¬ c.Step ts d) :
    (∃ program, c.text = [] ∧ c.state.program? = some program ∧
        scan (fuel + 1) c.state c.mark seen c.text = .ok (program, seen.reverse)) ∨
      ∃ err, scan (fuel + 1) c.state c.mark seen c.text = .error err ∧ c.Fails seen err := by
  obtain ⟨st, mark, cs⟩ := c
  have hnone : layout? cs = none := by
    rw [Option.eq_none_iff_forall_ne_some]
    exact fun n hn => hstuck _ _ (.of_layout st mark hn)
  cases cs with
  | nil =>
    simp only [scan, hnone]
    cases hp : st.program? with
    | some program => exact .inl ⟨program, trivial, rfl, rfl⟩
    | none => exact .inr ⟨_, rfl, .ended hp⟩
  | cons a cs =>
    simp only [scan, hnone]
    refine .inr ?_
    split
    next terminal n hx =>
      split
      next next hnext => exact absurd (Step.of_lexeme hnone hx hnext) (hstuck _ _)
      next => exact ⟨_, rfl, .misread (.of_lexeme hx)⟩
    next =>
      split
      next terminal n hx => exact ⟨_, rfl, .misread (.of_lexeme hx)⟩
      next hx => exact ⟨_, rfl, .misread (.unknown hx)⟩

/-- The scanner goes over a text as far as it can, and either that is the whole of a program or it
fails there. -/
theorem scan_result (c : Cursor) (seen : List Token) {fuel : Nat} (hf : c.text.length < fuel) :
    ∃ ts d, c.Scans ts d ∧
      ((∃ program, d.text = [] ∧ d.state.program? = some program ∧
          scan fuel c.state c.mark seen c.text = .ok (program, seen.reverse ++ ts)) ∨
        ∃ err, scan fuel c.state c.mark seen c.text = .error err ∧
          d.Fails (ts.reverse ++ seen) err) := by
  induction fuel generalizing c seen with
  | zero => omega
  | succ fuel ih =>
    by_cases hstep : ∃ ts d, c.Step ts d
    · obtain ⟨ts, d, hstep⟩ := hstep
      have hlength := hstep.length_lt
      obtain ⟨us, e, hscans, hresult⟩ := ih d (ts.reverse ++ seen) (by omega)
      refine ⟨ts ++ us, e, .step hstep hscans, ?_⟩
      rw [scan_step hstep]
      simpa using hresult
    · have hstuck : ∀ ts d, ¬ c.Step ts d := fun ts d h => hstep ⟨ts, d, h⟩
      exact ⟨[], c, .stay c, by simpa using scan_stuck hstuck⟩

end Scan

theorem parse_of_scans {source : String} {program : Program}
    (hscans : (start source.toList).Scans ts d) (htext : d.text = [])
    (hp : d.state.program? = some program) :
    parse source = (ts.find? isTooLong).elim (.ok program)
      fun t => .error ⟨.tooLong t.text.length, none⟩ := by
  obtain ⟨st, mark, cs⟩ := d
  subst htext
  obtain ⟨fuel, hf, hscan⟩ := scan_of_scans hscans (Nat.lt_succ_self _)
  obtain ⟨fuel, rfl⟩ := Nat.exists_eq_succ_of_ne_zero (Nat.ne_of_gt hf)
  have hread : scan (fuel + 1) st mark (ts.reverse ++ []) [] = .ok (program, ts) := by
    simp [scan, layout?, hp]
  have hok := (hscan []).trans hread
  simp only [start, Nat.succ_eq_add_one] at hok
  simp only [parse, hok]
  cases ts.find? isTooLong with
  | none => rfl
  | some t => rfl

theorem parse_eq_ok {source : String} {program : Program} :
    parse source = .ok program ↔ ∃ ts d, (start source.toList).Scans ts d ∧ d.text = [] ∧
      d.state.program? = some program ∧ ∀ t ∈ ts, isTooLong t = false := by
  have hfind {ts : List Token} : ts.find? isTooLong = none ↔ ∀ t ∈ ts, isTooLong t = false := by
    simp
  constructor
  · intro h
    obtain ⟨ts, d, hscans, ⟨p, htext, hp, hok⟩ | ⟨err, herr, _⟩⟩ :=
      scan_result (start source.toList) [] (Nat.lt_succ_self _)
    · simp only [start, Nat.succ_eq_add_one, List.reverse_nil, List.nil_append] at hok
      simp only [parse, hok] at h
      split at h
      next => cases h
      next hshort =>
        cases h
        exact ⟨ts, d, hscans, htext, hp, hfind.mp hshort⟩
    · simp only [start, Nat.succ_eq_add_one] at herr
      simp [parse, herr] at h
  · rintro ⟨ts, d, hscans, htext, hp, hshort⟩
    rw [parse_of_scans hscans htext hp, hfind.mpr hshort, Option.elim_none]

section Comment

variable {st next : State} {t : Token} {terminal : Terminal} {text rest : List Char}

theorem symbol_of_begins (ch : Char) (h : terminal.Matches text) (htext : [ch] <+: text ++ rest)
    (hd : Double.isDigit ch = false) (hs : isNameStart ch = false) (hq : ch ≠ '"') :
    ∃ s : Symbol, terminal = .symbol s ∧ text = s.chars := by
  have hfirst {c : Char} {cs : List Char} (h : [ch] <+: c :: cs) : c = ch := by
    obtain ⟨cs, heq⟩ := h
    exact (List.cons.inj heq).1.symm
  have hdigits {ds cs : List Char} (hne : ds ≠ []) (hds : ∀ d ∈ ds, Double.isDigit d) :
      ¬ [ch] <+: ds ++ cs := by
    obtain ⟨d, ds, rfl⟩ := List.exists_cons_of_ne_nil hne
    intro h
    obtain rfl := hfirst h
    rw [hds d List.mem_cons_self] at hd
    cases hd
  cases h with
  | name hc _ =>
    obtain rfl := hfirst htext
    rw [hc] at hs
    cases hs
  | integer hne hds => exact absurd htext (hdigits hne hds)
  | decimal hw _ =>
    cases hw with
    | integer hne hds =>
      rw [List.append_assoc] at htext
      exact absurd htext (hdigits hne hds)
  | text _ => exact absurd (hfirst htext).symm hq
  | keyword k =>
    obtain ⟨c, cs, hk, hc, _⟩ := k.chars_eq
    rw [hk] at htext
    obtain rfl := hfirst htext
    rw [hc] at hs
    cases hs
  | symbol s => exact ⟨s, rfl, rfl⟩

theorem next?_slash (ht : t.terminal = .symbol .slash) (h : st.next? t = some next) :
    ∃ hole pending, next.focus = .want .operand hole pending := by
  have hafter {st : State} {form : Form} {e : Operand} {hole : Hole} {pending : List Pending}
      (h : st.afterOperand? form e hole pending t = some next) :
      ∃ hole pending, next.focus = .want .operand hole pending := by
    simp only [State.afterOperand?, ht, Connective.ofTerminal?] at h
    obtain ⟨pending, _, rfl⟩ := Option.map_eq_some_iff.mp h
    exact ⟨_, _, rfl⟩
  obtain ⟨before, around, focus⟩ := st
  have hstatement (st : State) : st.inStatement? t = none := by
    simp [State.inStatement?, ht, statement?, operand?, literal?, UnaryOp.ofTerminal?]
  have hbody (st : State) : st.inBody? t = none := by
    simp [State.inBody?, typeOf?, ht, hstatement]
  have hwanted (st : State) (hole : Hole) (pending : List Pending) :
      st.wanted? hole pending t = none := by
    simp [State.wanted?, operand?, literal?, ht, UnaryOp.ofTerminal?]
  cases focus with
  | firstName start name =>
    simp only [State.next?, ht, reduceCtorEq, Terminal.symbol.injEq, if_false] at h
    exact hafter h
  | firstEmpty start name =>
    simp only [State.next?, ht, reduceCtorEq, Terminal.symbol.injEq, if_false] at h
    exact hafter h
  | operand form e hole pending => exact hafter h
  | ready after => simp [State.next?, hbody] at h
  | orElse yes => simp [State.next?, State.afterYes?, ht, hbody] at h
  | statement => simp [State.next?, hstatement] at h
  | named => simp [State.next?, State.afterNamed?, ht] at h
  | returning => simp [State.next?, ht, hwanted] at h
  | firstOpen => simp [State.next?, State.afterFirstOpen?, typeOf?, ht, hwanted] at h
  | paramName => simp [State.next?, State.afterParam?, ht] at h
  | forHead | param => simp [State.next?, State.expectType?, typeOf?, ht] at h
  | want w hole pending =>
    cases w with
    | firstArgument =>
      simp only [State.next?, State.firstArgument?] at h
      split at h
      next => simp [ht, hwanted] at h
      next => cases h
    | _ => simp [State.next?, hwanted] at h
  | reader isOpen => cases isOpen <;> simp [State.next?, State.expect?, ht] at h
  | _ => simp [State.next?, State.expect?, ht] at h

theorem Step.not_star {hole : Hole} {pending : List Pending}
    (hfocus : c.state.focus = .want .operand hole pending) (htext : ['*'] <+: c.text) :
    ¬ c.Step ts d := by
  obtain ⟨z, hz⟩ := htext
  intro h
  cases h with
  | @layout st mark piece rest h =>
    have hz : '*' :: z = piece ++ rest := hz
    rw [← hz, layout?_eq_none (by decide) (by rintro ⟨⟩)] at h
    cases h
  | @token st next t rest _ h hnext =>
    obtain ⟨s, hs, htext⟩ := symbol_of_begins '*' (matches_of_lexeme h)
      ⟨z, hz⟩ (by decide) (by decide) (by decide)
    rw [htext] at hz
    cases s with
    | star =>
      have hfocus : st.focus = .want .operand hole pending := hfocus
      simp [State.next?, hfocus, State.wanted?, operand?, literal?, hs,
        UnaryOp.ofTerminal?] at hnext
    | _ => exact absurd (List.cons.inj hz).1 (by decide)

theorem Step.opens_comment (h : c.Step ts d) (hts : ts ≠ []) (hp : ['/', '*'] <+: c.text) :
    c.text = '/' :: d.text ∧ ∀ us e, ¬ d.Step us e := by
  obtain ⟨z, hz⟩ := hp
  cases h with
  | layout => exact absurd rfl hts
  | @token st next t rest _ h hnext =>
    obtain ⟨s, hs, htext⟩ := symbol_of_begins '/' (matches_of_lexeme h)
      ⟨'*' :: z, hz⟩ (by decide) (by decide) (by decide)
    rw [htext] at hz ⊢
    cases s with
    | slash =>
      obtain ⟨hole, pending, hfocus⟩ := next?_slash hs hnext
      exact ⟨rfl, fun us e => not_star hfocus ⟨z, (List.cons.inj hz).2⟩⟩
    | _ => exact absurd (List.cons.inj hz).1 (by decide)

end Comment

section Cut

/-- A step that ends before a cut is made also with the text cut and going on with white space.
White space up to the cut takes the white space after it along. A comment may be cut off at a
newline only. -/
theorem Step.cut {a : Char} (ha : isSpace a) (h : c.Step ts d) (hc : c.text = x ++ b)
    (hd : d.text = y ++ b) (hend : y ≠ [] ∨ ts ≠ [] ∨ a = '\n')
    (hstar : ts ≠ [] → ¬ ['/', '*'] <+: x) :
    Step ⟨c.state, c.mark, x ++ a :: u⟩ ts ⟨d.state, d.mark, y ++ a :: u⟩ ∨
      ts = [] ∧ y = [] ∧ ∃ mark, Step ⟨c.state, c.mark, x ++ a :: u⟩ ts
        ⟨d.state, mark, (a :: u).dropWhile isSpace⟩ := by
  cases h with
  | @layout st mark piece rest h =>
    obtain rfl : rest = y ++ b := hd
    obtain rfl : piece ++ y = x := List.append_cancel_right ((List.append_assoc ..).trans hc)
    rw [← List.append_assoc] at h
    have hcut := layout?_cut (a := a) (u := u) h (by simp) fun hlength => by
      obtain hy | hts | hnewline := hend
      · simp [hy] at hlength
      · simp at hts
      · exact hnewline
    obtain hcut | ⟨hlength, hcut⟩ := hcut
    · rw [List.append_assoc] at hcut ⊢
      exact .inl (.layout hcut)
    · obtain rfl : y = [] := by simpa using hlength
      have hstep := Step.of_layout st mark hcut
      have hdrop : (piece ++ [] ++ a :: u).drop
          (piece.length + ((a :: u).takeWhile isSpace).length) = (a :: u).dropWhile isSpace := by
        rw [List.append_nil, List.drop_length_add_append, drop_takeWhile]
      rw [hdrop] at hstep
      exact .inr ⟨rfl, rfl, _, hstep⟩
  | @token st next t rest hnone h hnext =>
    obtain rfl : rest = y ++ b := hd
    obtain rfl : t.text ++ y = x := List.append_cancel_right ((List.append_assoc ..).trans hc)
    have hne : t.text ++ y ≠ [] := by simp [(matches_of_lexeme h).ne_nil]
    rw [← List.append_assoc] at hnone h
    have hnone' := layout?_cut_none (u := u) ha hne (hstar (by simp)) hnone
    have h' := lexeme?_cut (u := u) ha hne h (by simp)
    rw [List.append_assoc] at hnone' h' ⊢
    exact .inl (.token hnone' h' hnext)

theorem Scans.cut {a : Char} (ha : isSpace a) (h : c.Scans ts e) (hc : c.text = x ++ b)
    (he : e.text = y ++ b) (hend : y ≠ [] ∨ a = '\n')
    (hnext : y ≠ [] → ∃ us f, e.Step us f) :
    Scans ⟨c.state, c.mark, x ++ a :: u⟩ ts ⟨e.state, e.mark, y ++ a :: u⟩ ∨
      y = [] ∧ ∃ mark, Scans ⟨c.state, c.mark, x ++ a :: u⟩ ts
        ⟨e.state, mark, (a :: u).dropWhile isSpace⟩ := by
  induction h generalizing x with
  | stay c =>
    obtain rfl : x = y := List.append_cancel_right (hc.symm.trans he)
    exact .inl (.stay _)
  | @step c d e ts us h hrest ih =>
    obtain ⟨piece, hover⟩ := hrest.over
    have hd : d.text = (piece ++ y) ++ b := by rw [hover.text, he, List.append_assoc]
    have hmore : piece ++ y ≠ [] → ∃ us f, d.Step us f := by
      intro hne
      cases hrest with
      | stay =>
        have hpiece : piece = [] := by simpa using hover.text
        exact hnext (by simpa [hpiece] using hne)
      | step hstep _ => exact ⟨_, _, hstep⟩
    -- a comment opened before the cut would leave the scanner stuck behind it
    have hstar : ts ≠ [] → ¬ ['/', '*'] <+: x := by
      rintro hts ⟨z, rfl⟩
      obtain ⟨htext, hstuck⟩ := h.opens_comment hts ⟨z ++ b, by rw [hc, List.append_assoc]⟩
      have hz : '*' :: z = piece ++ y :=
        List.append_cancel_right
          (show '*' :: z ++ b = piece ++ y ++ b by simpa [hc, hd] using htext)
      obtain ⟨us, f, hstep⟩ := hmore (by simp [← hz])
      exact hstuck us f hstep
    have hend' : piece ++ y ≠ [] ∨ ts ≠ [] ∨ a = '\n' :=
      hend.imp (fun hy => by simp [hy]) .inr
    obtain hstep | ⟨_, hnil, mark, hstep⟩ := h.cut (u := u) ha hc hd hend' hstar
    · obtain hscans | ⟨hy, mark, hscans⟩ := ih hd he hnext
      · exact .inl (.step hstep hscans)
      · exact .inr ⟨hy, mark, .step hstep hscans⟩
    · -- nothing is left before the cut
      obtain ⟨rfl, rfl⟩ := List.append_eq_nil_iff.mp hnil
      obtain ⟨rfl, rfl⟩ := hrest.eq_of_text (by simpa using hover.text)
      exact .inr ⟨rfl, mark, .step hstep (.stay _)⟩

end Cut

end Cursor

end Parse

end Guion
