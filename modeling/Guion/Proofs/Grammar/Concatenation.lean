import Guion.Proofs.Grammar.Correspondence
import Mathlib.Data.List.Find

namespace Guion

section Wider

variable {accepts wider : Terminal → Bool} {cs : List Char} {terminal : Terminal} {n : Nat}

theorem wordTerminal_wider {word : List Char} (hword : word ≠ Keyword.sino.chars)
    (hsame : ∀ k : Keyword, k ≠ .sino → wider (.keyword k) = accepts (.keyword k)) :
    wordTerminal wider word = wordTerminal accepts word := by
  have hfind : Keyword.all.find? (fun k => wider (.keyword k) && k.chars == word) =
      Keyword.all.find? fun k => accepts (.keyword k) && k.chars == word := by
    refine List.find?_congr fun k _ => ?_
    by_cases hk : k = .sino
    · have hne : (Keyword.sino.chars == word) = false := beq_eq_false_iff_ne.mpr hword.symm
      rw [hk, hne, Bool.and_false, Bool.and_false]
    · rw [hsame k hk]
  rw [wordTerminal, hfind, wordTerminal]

theorem keywordAt?_of_no_name (h : nameLength cs = 0) : keywordAt? accepts cs = none := by
  rw [keywordAt?, List.find?_eq_none]
  intro k _ hk
  obtain ⟨c, ds, hchars, hc, _⟩ := k.chars_eq
  simp only [Bool.and_eq_true, List.isPrefixOf_iff_prefix, hchars] at hk
  obtain ⟨rest, rfl⟩ := hk.2
  simp [nameLength, hc] at h

theorem symbolAt?_wider {s : Symbol}
    (hsame : ∀ s : Symbol, s ≠ .braceClose → wider (.symbol s) = accepts (.symbol s))
    (hs : s ≠ .braceClose) (h : symbolAt? accepts cs = some s) : symbolAt? wider cs = some s := by
  rw [← h]
  have hfits := List.find?_some h
  simp only [Bool.and_eq_true, List.isPrefixOf_iff_prefix] at hfits
  refine List.find?_congr fun b _ => ?_
  by_cases hb : b = .braceClose
  · -- no other symbol begins with a brace
    subst hb
    have hnot : Symbol.braceClose.chars.isPrefixOf cs = false := by
      rw [Bool.eq_false_iff, ne_eq, List.isPrefixOf_iff_prefix]
      rintro ⟨rest, rfl⟩
      obtain ⟨ds, hds⟩ := hfits.2
      cases s with
      | braceClose => exact hs rfl
      | _ => exact absurd (List.cons.inj hds).1 (by decide)
    simp [hnot]
  · rw [hsame b hb]

theorem lexeme?_wider (hname : accepts .name) (hbrace : accepts (.symbol .braceClose) = false)
    (hsame : ∀ t, t ≠ .symbol .braceClose → t ≠ .keyword .sino → wider t = accepts t)
    (h : lexeme? accepts cs = some (terminal, n)) (hsino : cs.take n ≠ Keyword.sino.chars) :
    lexeme? wider cs = some (terminal, n) := by
  have hdecimal : wider .decimal = accepts .decimal := hsame _ nofun nofun
  have hname' : wider .name = accepts .name := hsame _ nofun nofun
  have htext : wider .text = accepts .text := hsame _ nofun nofun
  have hinteger : wider .integer = accepts .integer := hsame _ nofun nofun
  unfold lexeme? at h ⊢
  rw [hdecimal, hname', htext, hinteger]
  split at h
  next k hk =>
    cases h
    rfl
  next =>
    split at h
    next hword =>
      cases h
      rw [if_pos hword, wordTerminal_wider hsino fun k hk => hsame _ nofun (by simpa using hk)]
    next hword =>
      have hlength : nameLength cs = 0 := by simpa [hname] using hword
      rw [keywordAt?_of_no_name hlength] at h
      rw [if_neg hword, keywordAt?_of_no_name hlength]
      split at h
      next => exact h
      next =>
        split at h
        next hdigits => exact (if_pos hdigits).trans h
        next hdigits =>
          rw [if_neg hdigits]
          cases hs : symbolAt? accepts cs with
          | none =>
            rw [hs] at h
            cases h
          | some s =>
            have hne : s ≠ .braceClose := by
              rintro rfl
              have hfits := List.find?_some hs
              simp [hbrace] at hfits
            rw [hs] at h
            rw [symbolAt?_wider (fun s hs => hsame _ (by simpa using hs) nofun) hne hs]
            exact h

end Wider

open Parse

namespace Parse

namespace State

variable {st : State} {t : Token} {p : Program}

theorem resolved_of_program? (h : st.program? = some p) :
    ∃ after, st.resolved = ⟨p.body.reverse, [], .ready after⟩ := by
  obtain ⟨⟨before, around, focus⟩, hlast, rfl, ⟨after, rfl⟩, rfl⟩ := program?_eq_some h
  refine ⟨after, ?_⟩
  rw [List.reverse_reverse]
  obtain rfl | ⟨yes, hyes, hlast⟩ := hlast
  · rfl
  · rw [hlast, resolved, hyes]

/-- Where a text may end, the scanner looks for all that begins a declaration and, besides, for
closing braces and `sino` at most. -/
theorem accepts_of_program? (h : st.program? = some p) {terminal : Terminal}
    (hbrace : terminal ≠ .symbol .braceClose) (hsino : terminal ≠ .keyword .sino) :
    st.focus.accepts terminal = startsDecl terminal := by
  have hbrace' : (terminal == .symbol .braceClose) = false := beq_eq_false_iff_ne.mpr hbrace
  have hsino' : (terminal == .keyword .sino) = false := beq_eq_false_iff_ne.mpr hsino
  obtain ⟨other, hother, _, ⟨after, hready⟩, _⟩ := program?_eq_some h
  obtain rfl | ⟨yes, hyes, _⟩ := hother
  · rw [hready]
    cases after <;> simp [Focus.accepts, hbrace', hsino']
  · simp [hyes, Focus.accepts, hbrace', hsino']

theorem next?_of_program? (h : st.program? = some p) (hsino : t.terminal ≠ .keyword .sino) :
    st.next? t = State.next? ⟨p.body.reverse, [], .ready .start⟩ t := by
  obtain ⟨after, hresolved⟩ := resolved_of_program? h
  have hready : st.resolved.focus = .ready after := by rw [hresolved]
  rw [next?_resolved hready hsino, hresolved]
  simp only [next?, inBody?, closeBlock?, inStatement?, openBlock]

end State

namespace Cursor

variable {c d : Cursor} {ts : List Token}

theorem Scans.layout (h : c.Scans [] d) (st : State) (mark : Mark) :
    ∃ piece, d.state = c.state ∧ d.mark = c.mark.advance piece ∧
      Scans ⟨st, mark, c.text⟩ [] ⟨st, mark.advance piece, d.text⟩ := by
  generalize hts : [] = ts at h
  induction h generalizing mark with
  | stay c => exact ⟨[], rfl, rfl, .stay _⟩
  | @step c d e ts us h _ ih =>
    obtain ⟨rfl, rfl⟩ := List.append_eq_nil_iff.mp hts.symm
    cases h with
    | @layout st' mark' piece rest h =>
      obtain ⟨other, hstate, hmark, hscans⟩ := ih (mark.advance piece) rfl
      refine ⟨piece ++ other, hstate, ?_, ?_⟩
      · rw [hmark, Mark.advance_append]
      · rw [Mark.advance_append]
        exact .step (.layout h) hscans

theorem Scans.first {t : Token} (h : c.Scans (t :: ts) d) :
    ∃ m n, c.Scans [] m ∧ m.Step [t] n ∧ n.Scans ts d := by
  generalize hts : t :: ts = us at h
  induction h with
  | stay => cases hts
  | @step c d e us vs h hrest ih =>
    cases h with
    | layout h =>
      obtain ⟨m, n, hlayout, hstep, hscans⟩ := ih hts
      exact ⟨m, n, .step (.layout h) hlayout, hstep, hscans⟩
    | token hnone h hnext =>
      cases hts
      exact ⟨_, _, .stay _, .token hnone h hnext, hrest⟩

theorem Step.first_eq {t u : Token} (h : c.Step [u] d) (hs : c.Scans (t :: ts) e) : t = u := by
  generalize hts : t :: ts = us at hs
  cases hs with
  | stay => cases hts
  | step hstep _ =>
    obtain ⟨rfl, _⟩ := hstep.unique h
    exact (List.cons.inj hts).1

/-- What is read at the start of a text is read also where another text could end, unless it begins
with `sino`. -/
theorem Scans.appended {st : State} {p : Program} (lines : Nat) (h : c.Scans ts d)
    (hc : c.state = {}) (hp : st.program? = some p)
    (hsino : ∀ t ∈ ts.head?, t.text ≠ Keyword.sino.chars) :
    ∃ us e, Scans ⟨st, (Relocation.down lines).mark c.mark, c.text⟩ us e ∧ e.text = d.text ∧
      us.map Token.lexeme = ts.map Token.lexeme ∧
        (d.state = {} ∧ e.state = st ∨
          e.state = d.state.moved (.down lines) p.body.reverse) := by
  cases ts with
  | nil =>
    obtain ⟨_, hstate, _, hscans⟩ := h.layout st ((Relocation.down lines).mark c.mark)
    exact ⟨[], _, hscans, rfl, rfl, .inl ⟨hstate.trans hc, rfl⟩⟩
  | cons t ts =>
    obtain ⟨⟨first, mark, cs⟩, n, hlayout, hstep, hscans⟩ := h.first
    obtain ⟨piece, hstate, hmark, hlayout'⟩ :=
      hlayout.layout st ((Relocation.down lines).mark c.mark)
    obtain rfl : first = {} := hstate.trans hc
    have hplace : ((Relocation.down lines).mark c.mark).advance piece =
        (Relocation.down lines).mark mark := by
      rw [Relocation.advance_down, ← show mark = _ from hmark]
    rw [hplace] at hlayout'
    cases hstep with
    | @token _ next t rest hnone hl hnext =>
      have htext : t.text ≠ Keyword.sino.chars := hsino t rfl
      have hterminal : t.terminal ≠ .keyword .sino := by
        intro hterminal
        have hmatches := matches_of_lexeme hl
        rw [hterminal] at hmatches
        generalize t.text = text at hmatches htext
        cases hmatches
        exact htext rfl
      -- what the first text leaves accepts more than the start does, but nothing else is found
      have hl' := lexeme?_wider rfl rfl (fun _ => State.accepts_of_program? hp) hl
        (by rwa [List.take_left])
      have hnext' := @State.next?_moved (.down lines) p.body.reverse {} t
      rw [hnext] at hnext'
      have hread : st.next? (t.moved (.down lines)) =
          some (next.moved (.down lines) p.body.reverse) :=
        (State.next?_of_program? hp (t := t.moved (.down lines)) hterminal).trans hnext'
      have hstep : Step ⟨st, (Relocation.down lines).mark t.mark, t.text ++ rest⟩
          [t.moved (.down lines)] ⟨_, _, rest⟩ :=
        .token (t := t.moved (.down lines)) hnone hl' hread
      obtain ⟨us, e, hrest, hstates, _, he, hlexemes⟩ := hscans.carried
        (.down lines p.body.reverse) ⟨_, _, rest⟩ rfl (Relocation.advance_down lines _ _) rfl
      refine ⟨_, e, hlayout'.trans (.step hstep hrest), he, ?_, .inr hstates⟩
      simp [hlexemes, Token.lexeme, Token.moved]

theorem Scans.ended {cs us : List Char} (h : (start cs).Scans ts d) (hd : d.text = []) :
    (start (cs ++ '\n' :: us)).Scans ts ⟨d.state, (Relocation.down (cs.count '\n' + 1)).mark
      (Mark.advance {} (us.takeWhile isSpace)), us.dropWhile isSpace⟩ := by
  obtain ⟨mark, hscans⟩ : ∃ mark,
      (start (cs ++ '\n' :: us)).Scans ts ⟨d.state, mark, us.dropWhile isSpace⟩ := by
    obtain hcut | ⟨-, mark, hcut⟩ :=
      h.cut (a := '\n') (u := us) (y := []) rfl (List.append_nil cs).symm hd (.inr rfl) (by simp)
    · have htrans := hcut.trans (.one (.of_space rfl d.state d.mark us))
      rw [List.append_nil] at htrans
      exact ⟨_, htrans⟩
    · exact ⟨mark, hcut⟩
  obtain ⟨piece, hover⟩ := hscans.over
  have hpiece : piece = cs ++ '\n' :: us.takeWhile isSpace := by
    refine List.append_cancel_right (hover.text.symm.trans ?_)
    simp [start]
  have hline : (Mark.advance {} cs).next '\n' = (Relocation.down (cs.count '\n' + 1)).mark {} := by
    rw [Mark.advance_eq_after]
    simp [Mark.next, Mark.after, Relocation.down, Nat.add_comm]
  have hmark : mark = (Relocation.down (cs.count '\n' + 1)).mark
      (Mark.advance {} (us.takeWhile isSpace)) := by
    rw [show mark = _ from hover.mark, hpiece, Mark.advance_append, ← Relocation.advance_down,
      ← hline]
    rfl
  rwa [← hmark]

end Cursor

end Parse

/-- Programs in sequence are a program: a newline between them, and what comes second is moved down
by the lines of the first. Only a `sino` would be read otherwise than at the start. -/
theorem parse_append {first second : String} {p q : Program} (hp : parse first = .ok p)
    (hq : parse second = .ok q)
    (hsino : ∀ t ts d, (Cursor.start second.toList).Scans (t :: ts) d →
      t.text ≠ Keyword.sino.chars) :
    ∃ whole, parse (first ++ "\n" ++ second) = .ok whole ∧
      whole.body = p.body ++ q.body.map (Stmt.moved (Pos.down (first.toList.count '\n' + 1))) := by
  obtain ⟨ts, d, hts, hd, hprogram, hshort⟩ := Cursor.parse_eq_ok.mp hp
  obtain ⟨us, e, hus, he, hother, hshort'⟩ := Cursor.parse_eq_ok.mp hq
  obtain ⟨_, rfl, hrest⟩ := (Cursor.Scans.spaces _).rest hus he
  have hhead : ∀ t ∈ us.head?, t.text ≠ Keyword.sino.chars := by
    cases us with
    | nil => simp
    | cons t us => simpa using hsino t us e hus
  obtain ⟨ws, f, hscans, hf, hlexemes, hstate⟩ :=
    hrest.appended (first.toList.count '\n' + 1) rfl hprogram hhead
  have hwhole := (hts.ended hd).trans hscans
  obtain ⟨whole, hwholeProgram, hbody⟩ : ∃ whole, f.state.program? = some whole ∧ whole.body =
      p.body ++ q.body.map (Stmt.moved (Pos.down (first.toList.count '\n' + 1))) := by
    obtain ⟨hempty, hsame⟩ | hmoved := hstate
    · rw [hempty] at hother
      cases hother
      exact ⟨p, hsame ▸ hprogram, (List.append_nil _).symm⟩
    · have hbody := @State.program?_moved (.down (first.toList.count '\n' + 1)) p.body.reverse
        e.state
      rw [← hmoved, hother] at hbody
      obtain ⟨whole, hw, hbody⟩ := Option.map_eq_some_iff.mp hbody
      exact ⟨whole, hw, by simpa [Relocation.down] using hbody⟩
  refine ⟨whole, Cursor.parse_eq_ok.mpr ⟨ts ++ ws, f, ?_, hf.trans he, hwholeProgram, ?_⟩, hbody⟩
  · simpa [String.toList_append, Cursor.start] using hwhole
  · intro t ht
    obtain ht | ht := List.mem_append.mp ht
    · exact hshort t ht
    · exact isTooLong_of_lexemes hlexemes hshort' t ht

end Guion
