import Guion.Proofs.Grammar.Correspondence
import Mathlib.Data.List.DropRight

namespace Guion

open Parse

/-- White space, block comments and comments up to a newline, in any order. -/
inductive Blank : List Char → Prop where
  | nil : Blank []
  | space {c : Char} {cs : List Char} : isSpace c → Blank cs → Blank (c :: cs)
  | line {inner cs : List Char} :
    (∀ c ∈ inner, c ≠ '\n') → Blank ('\n' :: cs) → Blank ('/' :: '/' :: (inner ++ '\n' :: cs))
  | block {inner cs : List Char} :
    ¬ ['*', '/'] <:+: inner ++ ['*'] → Blank cs → Blank ('/' :: '*' :: (inner ++ '*' :: '/' :: cs))

namespace Parse.Cursor

variable {c d : Cursor} {ts : List Token} {x y w : List Char}

theorem scans_blank (hw : Blank w) (st : State) (mark : Mark) (y : List Char) :
    ∃ mark', Scans ⟨st, mark, w ++ y⟩ [] ⟨st, mark', y.dropWhile isSpace⟩ := by
  have hstops : (y.dropWhile isSpace).dropWhile isSpace = y.dropWhile isSpace :=
    List.dropWhile_idempotent ..
  induction hw generalizing mark with
  | nil => exact ⟨_, .spaces ⟨st, mark, y⟩⟩
  | @space ch cs hc _ ih =>
    obtain ⟨mark', hscans⟩ := ih (mark.next ch)
    exact ⟨mark', .step (.of_space hc st mark (cs ++ y)) (hscans.after_spaces hstops)⟩
  | @line inner cs hinner _ ih =>
    have htake : (inner ++ '\n' :: (cs ++ y)).takeWhile (· != '\n') = inner := by
      rw [List.takeWhile_append_of_pos (by simpa using hinner),
        List.takeWhile_cons_of_neg (by simp), List.append_nil]
    have hlayout : layout? ('/' :: '/' :: (inner ++ '\n' :: (cs ++ y))) =
        some (inner.length + 2) := by
      simp [layout?, htake, Nat.add_comm]
    obtain ⟨mark', hscans⟩ := ih (mark.advance ('/' :: '/' :: inner))
    refine ⟨mark', ?_⟩
    simpa using Scans.step (.of_layout st mark hlayout) (by simpa using hscans)
  | @block inner cs hinner _ ih =>
    have hlayout : layout? ('/' :: '*' :: (inner ++ '*' :: '/' :: (cs ++ y))) =
        some (inner.length + 4) := by
      simp [layout?, commentEnd?_of_first hinner]
    obtain ⟨mark', hscans⟩ := ih (mark.advance ('/' :: '*' :: (inner ++ ['*', '/'])))
    have htake : (inner ++ '*' :: '/' :: (cs ++ y)).take (inner.length + 2) =
        inner ++ ['*', '/'] := by
      rw [List.take_length_add_append]
      rfl
    refine ⟨mark', ?_⟩
    simpa using Scans.step (.of_layout st mark hlayout) (by simpa [htake] using hscans)

theorem Scans.resumed (h : c.Scans ts d) (hd : d.text = []) (mark : Mark) :
    ∃ us e, Scans ⟨c.state, mark, c.text.dropWhile isSpace⟩ us e ∧
      Correspondence.erased.states d.state e.state ∧ e.text = [] ∧
        us.map Token.lexeme = ts.map Token.lexeme := by
  obtain ⟨_, rfl, hrest⟩ := (Scans.spaces c).rest h hd
  obtain ⟨us, e, hscans, hstates, _, htext, hl⟩ :=
    hrest.carried .erased ⟨c.state, mark, _⟩ rfl trivial rfl
  exact ⟨us, e, hscans, hstates, htext.trans hd, hl⟩

/-- A text is divided at its start, or directly after a token that the scanner goes over. -/
def Divides (x y : List Char) : Prop :=
  x = [] ∨ ∃ ts c t d, (start (x ++ y)).Scans ts c ∧ c.Step [t] d ∧ d.text = y

theorem Scans.spread {a : Char} (h : (start (x ++ y)).Scans ts d) (hd : d.text = [])
    (hdivides : Divides x y) (ha : isSpace a) (hw : Blank w) :
    ∃ us e, (start (x ++ a :: w ++ y)).Scans us e ∧
      Correspondence.erased.states d.state e.state ∧ e.text = [] ∧
        us.map Token.lexeme = ts.map Token.lexeme := by
  obtain rfl | ⟨ts, c, t, m, hscans, hstep, rfl⟩ := hdivides
  · obtain ⟨mark, hblank⟩ := scans_blank (hw.space ha) {} {} y
    obtain ⟨us, e, hscans, hrest⟩ := h.resumed hd mark
    exact ⟨us, e, hblank.trans hscans, hrest⟩
  · obtain ⟨piece, hne, hover⟩ := hstep.over
    have hstar : [t] ≠ [] → ¬ ['/', '*'] <+: piece := by
      rintro hts ⟨z, rfl⟩
      have htext := (hstep.opens_comment hts ⟨z ++ m.text, hover.text.symm⟩).1
      rw [hover.text] at htext
      have hlength := congrArg List.length htext
      simp only [List.length_append, List.length_cons] at hlength
      omega
    have hbefore := hscans.cut (u := w ++ m.text) ha rfl hover.text (.inl hne)
      fun _ => ⟨_, _, hstep⟩
    have hat := hstep.cut (u := w ++ m.text) ha hover.text (List.nil_append _).symm
      (.inr (.inl (List.cons_ne_nil t []))) hstar
    obtain hbefore | ⟨hnil, _⟩ := hbefore
    · obtain hat | ⟨hnil, _⟩ := hat
      · obtain ⟨mark, hblank⟩ := scans_blank (hw.space ha) m.state m.mark m.text
        obtain ⟨rest, rfl, hrest⟩ := (hscans.trans (.one hstep)).rest h hd
        obtain ⟨us, e, hresumed, hstates, he, hl⟩ := hrest.resumed hd mark
        refine ⟨ts ++ ([t] ++ us), e, ?_, hstates, he, by simp [hl]⟩
        rw [List.append_assoc]
        exact hbefore.trans (.step hat (hblank.trans hresumed))
      · cases hnil
    · exact absurd hnil hne

end Parse.Cursor

/-- Layout does not change meaning: white space and what may follow it, put at the start of a
program or directly after a token of it, gives the same program up to positions. -/
theorem parse_layout {p : Program} {x y w : List Char} {a : Char}
    (h : parse (String.ofList (x ++ y)) = .ok p) (hdivides : Cursor.Divides x y) (ha : isSpace a)
    (hw : Blank w) :
    ∃ p', parse (String.ofList (x ++ a :: w ++ y)) = .ok p' ∧ p'.erase = p.erase := by
  obtain ⟨ts, d, hscans, hd, hp, hshort⟩ := Cursor.parse_eq_ok.mp h
  rw [String.toList_ofList] at hscans
  obtain ⟨us, e, hspread, hstates, he, hl⟩ := hscans.spread hd hdivides ha hw
  have hmoved := @State.program?_moved .erasing [] d.state
  have hmoved' := @State.program?_moved .erasing [] e.state
  rw [show e.state.moved .erasing [] = d.state.moved .erasing [] from hstates, hmoved, hp]
    at hmoved'
  obtain ⟨p', hp', hbody⟩ := Option.map_eq_some_iff.mp hmoved'.symm
  refine ⟨p', Cursor.parse_eq_ok.mpr ⟨us, e, ?_, he, hp', isTooLong_of_lexemes hl hshort⟩, ?_⟩
  · rwa [String.toList_ofList]
  · rw [Program.erase_eq, Program.erase_eq]
    exact congrArg _ hbody

/-- After the first number layout is put, which parts it from the word that it was written with. -/
theorem parse_layout_widened :
    Cursor.Divides "y=1".toList "ofalso;".toList ∧
      ∃ p p', parse "y=1ofalso;" = .ok p ∧ parse "y=1 /*o*///\nofalso;" = .ok p' ∧
        p'.erase = p.erase := by
  have hdivides : Cursor.Divides "y=1".toList "ofalso;".toList :=
    .inr ⟨_, ⟨_, ⟨1, 3⟩, "1ofalso;".toList⟩, ⟨.integer, ['1'], ⟨1, 3⟩⟩, _,
      .step (@Cursor.Step.token _ _ ⟨.name, ['y'], ⟨1, 1⟩⟩ "=1ofalso;".toList rfl rfl rfl)
        (.step (@Cursor.Step.token _ _ ⟨.symbol .assign, ['='], ⟨1, 2⟩⟩ "1ofalso;".toList
          rfl rfl rfl) (.stay _)),
      @Cursor.Step.token _ _ ⟨.integer, ['1'], ⟨1, 3⟩⟩ "ofalso;".toList rfl rfl rfl, rfl⟩
  obtain ⟨p, hp⟩ : ∃ p, parse (String.ofList ("y=1".toList ++ "ofalso;".toList)) = .ok p := ⟨_, rfl⟩
  have hblank : Blank "/*o*///\n".toList :=
    @Blank.block ['o'] _ (by decide) (@Blank.line [] _ (by simp) (.space rfl .nil))
  obtain ⟨p', hp', herase⟩ := parse_layout hp hdivides (a := ' ') rfl hblank
  exact ⟨hdivides, p, p', hp, hp', herase⟩

end Guion
