import Guion.Proofs.Grammar.Cursor
import Guion.Proofs.Grammar.Relocated

namespace Guion.Parse

/-- States and places of two texts that correspond: the scanner looks for the same tokens, and a
token at corresponding places leads to corresponding states. -/
structure Correspondence where
  states : State → State → Prop
  marks : Mark → Mark → Prop
  accepts {st st' : State} : states st st' → st'.focus.accepts = st.focus.accepts
  next {st st' next : State} {terminal : Terminal} {text : List Char} {mark mark' : Mark} :
    states st st' → marks mark mark' → st.next? ⟨terminal, text, mark⟩ = some next →
      ∃ next', st'.next? ⟨terminal, text, mark'⟩ = some next' ∧ states next next'
  advance {mark mark' : Mark} (text : List Char) :
    marks mark mark' → marks (mark.advance text) (mark'.advance text)

def Correspondence.erased : Correspondence where
  states st st' := st'.moved .erasing [] = st.moved .erasing []
  marks _ _ := True
  accepts h := by
    have hfocus := congrArg (fun st => st.focus.accepts) h
    simpa [State.moved] using hfocus
  next {st st' next terminal text mark mark'} h _ hnext := by
    have hmoved := @State.next?_moved .erasing [] st ⟨terminal, text, mark⟩
    have hmoved' := @State.next?_moved .erasing [] st' ⟨terminal, text, mark'⟩
    rw [hnext, ← h] at hmoved
    obtain ⟨next', hnext', heq⟩ := Option.map_eq_some_iff.mp (hmoved'.symm.trans hmoved)
    exact ⟨next', hnext', heq⟩
  advance _ _ := trivial

theorem Relocation.advance_down (lines : Nat) (mark : Mark) (text : List Char) :
    ((down lines).mark mark).advance text = (down lines).mark (mark.advance text) := by
  induction text generalizing mark with
  | nil => rfl
  | cons c cs ih =>
    have hnext : ((down lines).mark mark).next c = (down lines).mark (mark.next c) := by
      by_cases hc : c = '\n'
      · simp [down, Mark.next, hc, Nat.add_right_comm]
      · simp [down, Mark.next, hc]
    exact (congrArg (·.advance cs) hnext).trans (ih _)

def Correspondence.down (lines : Nat) (below : List Stmt) : Correspondence where
  states st st' := st' = st.moved (.down lines) below
  marks mark mark' := mark' = (Relocation.down lines).mark mark
  accepts h := by rw [h, State.moved, Focus.accepts_moved]
  next {st st' next terminal text mark mark'} h hm hnext := by
    subst h hm
    have hmoved :=
      @State.next?_moved (.down lines) below st ⟨terminal, text, mark⟩
    rw [hnext] at hmoved
    exact ⟨_, hmoved, rfl⟩
  advance text h := by rw [h, Relocation.advance_down]

namespace Cursor

variable {c d : Cursor} {ts : List Token}

theorem Scans.carried (k : Correspondence) (c' : Cursor) (h : c.Scans ts d)
    (hstates : k.states c.state c'.state) (hmarks : k.marks c.mark c'.mark)
    (htext : c'.text = c.text) :
    ∃ us d', c'.Scans us d' ∧ k.states d.state d'.state ∧ k.marks d.mark d'.mark ∧
      d'.text = d.text ∧ us.map Token.lexeme = ts.map Token.lexeme := by
  induction h generalizing c' with
  | stay c => exact ⟨[], c', .stay c', hstates, hmarks, htext, rfl⟩
  | @step c d e ts us h _ ih =>
    obtain ⟨st', mark', cs⟩ := c'
    obtain rfl : cs = c.text := htext
    cases h with
    | @layout st mark piece rest h =>
      obtain ⟨vs, d', hscans, hd, hm, ht, hl⟩ :=
        ih ⟨st', mark'.advance piece, rest⟩ hstates (k.advance _ hmarks) rfl
      exact ⟨vs, d', .step (.layout h) hscans, hd, hm, ht, hl⟩
    | @token st next t rest hnone h hnext =>
      obtain ⟨terminal, text, mark⟩ := t
      obtain ⟨next', hnext', hnexts⟩ := k.next hstates hmarks hnext
      have haccepts : st'.focus.accepts = st.focus.accepts := k.accepts hstates
      rw [← haccepts] at h
      have hstep : Step ⟨st', mark', text ++ rest⟩ [⟨terminal, text, mark'⟩]
          ⟨next', mark'.advance text, rest⟩ :=
        .token (t := ⟨terminal, text, mark'⟩) hnone h hnext'
      obtain ⟨vs, d', hscans, hd, hm, ht, hl⟩ :=
        ih ⟨next', mark'.advance text, rest⟩ hnexts (k.advance _ hmarks) rfl
      exact ⟨_, d', .step hstep hscans, hd, hm, ht, by simp [hl, Token.lexeme]⟩

end Cursor

theorem isTooLong_of_lexemes {ts us : List Token} (h : us.map Token.lexeme = ts.map Token.lexeme)
    (hts : ∀ t ∈ ts, isTooLong t = false) : ∀ u ∈ us, isTooLong u = false := by
  intro u hu
  obtain ⟨t, ht, heq⟩ := List.mem_map.mp (h ▸ List.mem_map_of_mem (f := Token.lexeme) hu)
  have hshort := hts t ht
  obtain ⟨terminal, text, mark⟩ := t
  obtain ⟨terminal', text', mark'⟩ := u
  cases heq
  exact hshort

end Guion.Parse
