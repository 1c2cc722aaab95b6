import Guion.Proofs.Figures
import Guion.Proofs.Grammar.Lexing

namespace Guion

open Double (isDigit)

structure Lexeme where
  terminal : Terminal
  text : List Char
deriving DecidableEq

/-- The text belongs to its class, and no keyword serves as a name. -/
structure Lexeme.Proper (l : Lexeme) : Prop where
  text : l.terminal.Matches l.text
  name : l.terminal = .name → ∀ k : Keyword, k.chars ≠ l.text

/-- The text ends here, or goes on with white space. -/
def Breaks (rest : List Char) : Prop := ∀ c ∈ rest.head?, isSpace c = true

section Characters

variable {c : Char}

theorem isSpace_cases (h : isSpace c) :
    c = ' ' ∨ c = '\t' ∨ c = '\x0c' ∨ c = '\r' ∨ c = '\n' := by
  simpa [isSpace, or_assoc] using h

theorem isDigit_of_isSpace (h : isSpace c) : isDigit c = false := by
  obtain rfl | rfl | rfl | rfl | rfl := isSpace_cases h <;> rfl

theorem isNamePart_of_isSpace (h : isSpace c) : isNamePart c = false := by
  obtain rfl | rfl | rfl | rfl | rfl := isSpace_cases h <;> rfl

theorem isSpace_of_isNamePart (h : isNamePart c) : isSpace c = false := by
  rw [Bool.eq_false_iff]
  intro hs
  rw [isNamePart_of_isSpace hs] at h
  cases h

theorem isDigit_of_isNameStart (h : isNameStart c) : isDigit c = false := by
  simp only [isNameStart, Bool.or_eq_true, Bool.and_eq_true, decide_eq_true_eq, beq_iff_eq] at h
  rw [Bool.eq_false_iff, isDigit, Ne, Bool.and_eq_true, decide_eq_true_eq, decide_eq_true_eq]
  rintro ⟨_, hle⟩
  obtain ((⟨h, _⟩ | ⟨h, _⟩) | h) | h := h
  · exact absurd (Char.le_trans h hle) (by decide)
  · exact absurd (Char.le_trans h hle) (by decide)
  · subst h
    exact absurd hle (by decide)
  · -- no accented letter is as small as a digit
    have hall : ['á', 'é', 'í', 'ó', 'ú', 'ü', 'ñ', 'Á', 'É', 'Í', 'Ó', 'Ú', 'Ü', 'Ñ'].all
        (fun d => !decide (d ≤ '9')) = true := by decide
    have hnot := List.all_eq_true.mp hall c (by simpa [isAccented] using h)
    simp [hle] at hnot

theorem isNamePart_of_isNameStart (h : isNameStart c) : isNamePart c = true := by
  simp [isNamePart, h]

theorem isNamePart_of_isDigit (h : isDigit c) : isNamePart c = true := by
  simp [isNamePart, h]

end Characters

theorem takeWhile_of_breaks {p : Char → Bool} (hp : ∀ c, isSpace c → p c = false)
    {cs rest : List Char} (hcs : ∀ c ∈ cs, p c) (hr : Breaks rest) :
    (cs ++ rest).takeWhile p = cs := by
  rw [List.takeWhile_append_of_pos hcs]
  cases rest with
  | nil => simp
  | cons c rest =>
    have hc : p c = false := hp c (hr c rfl)
    simp [hc]

theorem isPrefixOf_of_breaks {ds cs rest : List Char} (hd : ∀ d ∈ ds, isSpace d = false)
    (hr : Breaks rest) (h : ds.isPrefixOf (cs ++ rest)) : ds.isPrefixOf cs := by
  induction ds generalizing cs with
  | nil => rfl
  | cons d ds ih =>
    obtain ⟨hd, hds⟩ := List.forall_mem_cons.mp hd
    cases cs with
    | nil =>
      cases rest with
      | nil => cases h
      | cons c rest =>
        have hc : isSpace c = true := hr c rfl
        simp only [List.nil_append, List.isPrefixOf_cons_cons, Bool.and_eq_true, beq_iff_eq] at h
        rw [← h.1, hd] at hc
        cases hc
    | cons c cs =>
      simp only [List.cons_append, List.isPrefixOf_cons_cons, Bool.and_eq_true] at h ⊢
      exact ⟨h.1, ih hds h.2⟩

theorem find?_of_longest {α : Type} {all : List α} {chars : α → List Char} {p : α → Bool} {a : α}
    (hall : all.Pairwise fun b c => (chars b).isPrefixOf (chars c) = false) (ha : a ∈ all)
    (hp : p a) (hlong : ∀ b, p b → (chars b).isPrefixOf (chars a)) : all.find? p = some a := by
  induction all with
  | nil => cases ha
  | cons b all ih =>
    obtain ⟨hb, hall⟩ := List.pairwise_cons.mp hall
    by_cases hpb : p b
    · rw [List.find?_cons_of_pos hpb]
      obtain rfl | ha := List.mem_cons.mp ha
      · rfl
      · have hprefix := hlong b hpb
        rw [hb a ha] at hprefix
        cases hprefix
    · rw [List.find?_cons_of_neg hpb]
      obtain rfl | ha := List.mem_cons.mp ha
      · exact absurd hp hpb
      · exact ih hall ha

namespace Keyword

theorem mem_all (k : Keyword) : k ∈ all := by
  cases k with
  | type kind => cases kind <;> decide
  | _ => decide

theorem pairwise_all : all.Pairwise fun a b => a.chars.isPrefixOf b.chars = false := by decide

theorem chars_eq (k : Keyword) :
    ∃ c cs, k.chars = c :: cs ∧ isNameStart c ∧ ∀ d ∈ cs, isNamePart d := by
  cases k with
  | type kind => cases kind <;> exact ⟨_, _, rfl, by decide, List.all_eq_true.mp (by decide)⟩
  | _ => exact ⟨_, _, rfl, by decide, List.all_eq_true.mp (by decide)⟩

theorem isNamePart_of_mem {k : Keyword} {c : Char} (h : c ∈ k.chars) : isNamePart c = true := by
  obtain ⟨d, cs, hk, hd, hcs⟩ := k.chars_eq
  rw [hk] at h
  obtain rfl | h := List.mem_cons.mp h
  · exact isNamePart_of_isNameStart hd
  · exact hcs c h

end Keyword

namespace Symbol

theorem mem_all (s : Symbol) : s ∈ all := by
  cases s <;> decide

theorem pairwise_all : all.Pairwise fun a b => a.chars.isPrefixOf b.chars = false := by decide

theorem chars_eq (s : Symbol) :
    ∃ c cs, s.chars = c :: cs ∧ isDigit c = false ∧ c ≠ '.' ∧ isNameStart c = false ∧ c ≠ '"' := by
  cases s <;> exact ⟨_, _, rfl, by decide, by decide, by decide, by decide⟩

theorem isSpace_of_mem {s : Symbol} {c : Char} (h : c ∈ s.chars) : isSpace c = false := by
  have hall : s.chars.all (fun d => !isSpace d) = true := by cases s <;> decide
  simpa using List.all_eq_true.mp hall c h

end Symbol

section Lengths

variable {c : Char} {cs rest : List Char}

theorem integerLength_of_not_digit (h : isDigit c = false) : integerLength (c :: cs) = 0 := by
  simp [integerLength, h]

theorem decimalLength?_of_not_digit (h : isDigit c = false) (hdot : c ≠ '.') :
    decimalLength? (c :: cs) = none := by
  simp [decimalLength?, integerLength_of_not_digit h, hdot]

theorem nameLength_of_not_start (h : isNameStart c = false) : nameLength (c :: cs) = 0 := by
  simp [nameLength, h]

theorem textLength?_of_ne (h : c ≠ '"') : textLength? (c :: cs) = none := by
  unfold textLength?
  split
  next heq => exact absurd (List.cons.inj heq).1 h
  next => rfl

theorem Breaks.endsDigits (hr : Breaks rest) : Double.EndsDigits rest :=
  fun c hc => isDigit_of_isSpace (hr c hc)

theorem integerLength_append (h : ∀ d ∈ cs, isDigit d) (hr : Double.EndsDigits rest) :
    integerLength (cs ++ rest) = cs.length := by
  rw [integerLength, Double.takeWhile_isDigit h hr]

theorem nameLength_append (hc : isNameStart c) (hcs : ∀ d ∈ cs, isNamePart d) (hr : Breaks rest) :
    nameLength (c :: cs ++ rest) = (c :: cs).length := by
  have htake := takeWhile_of_breaks (fun _ => isNamePart_of_isSpace) hcs hr
  simp [nameLength, hc, htake]
  omega

theorem textLength?_append {inner : List Char} (hinner : ∀ c ∈ inner, c ≠ '"' ∧ c ≠ '\n') :
    textLength? ('"' :: (inner ++ ['"']) ++ rest) = some (inner.length + 2) := by
  have htake : (inner ++ '"' :: rest).takeWhile (fun c => c != '"' && c != '\n') = inner := by
    rw [List.takeWhile_append_of_pos (by simpa using hinner), List.takeWhile_cons_of_neg (by simp),
      List.append_nil]
  simp [textLength?, htake]

end Lengths

variable {accepts : Terminal → Bool} {rest : List Char}

theorem lexeme?_digits {ds : List Char} (ha : accepts .integer) (hne : ds ≠ [])
    (hds : ∀ d ∈ ds, isDigit d) (hr : Double.EndsDigits rest) (hdot : rest.head? ≠ some '.') :
    lexeme? accepts (ds ++ rest) = some (.integer, ds.length) := by
  have hlength := integerLength_append hds hr
  have hdecimal : decimalLength? (ds ++ rest) = none := by
    unfold decimalLength?
    simp only [hlength, List.drop_left]
    split
    next => exact absurd rfl hdot
    next => rfl
  obtain ⟨d, tail, rfl⟩ := List.exists_cons_of_ne_nil hne
  have hd : isDigit d := hds d List.mem_cons_self
  have hname : nameLength (d :: tail ++ rest) = 0 := by
    refine nameLength_of_not_start (Bool.eq_false_iff.mpr fun hs => ?_)
    rw [isDigit_of_isNameStart hs] at hd
    cases hd
  have htext : textLength? (d :: tail ++ rest) = none := by
    refine textLength?_of_ne fun hq => ?_
    subst hq
    cases hd
  simp only [lexeme?, hdecimal, hname, htext, ha, hlength]
  simp

theorem lexeme?_integer {ds : List Char} (ha : accepts .integer) (hne : ds ≠ [])
    (hds : ∀ d ∈ ds, isDigit d) (hr : Breaks rest) :
    lexeme? accepts (ds ++ rest) = some (.integer, ds.length) :=
  lexeme?_digits ha hne hds hr.endsDigits fun hdot => absurd (hr '.' hdot) (by decide)

theorem lexeme?_decimal {whole fraction : List Char} (ha : accepts .decimal)
    (hw : whole ≠ []) (hws : ∀ d ∈ whole, isDigit d) (hf : fraction ≠ [])
    (hfs : ∀ d ∈ fraction, isDigit d) (hr : Breaks rest) :
    lexeme? accepts (whole ++ '.' :: fraction ++ rest) =
      some (.decimal, (whole ++ '.' :: fraction).length) := by
  have hlength : integerLength (whole ++ '.' :: (fraction ++ rest)) = whole.length := by
    rw [integerLength, List.takeWhile_append_of_pos hws, List.takeWhile_cons_of_neg (by decide),
      List.append_nil]
  have hwhole : whole.length ≠ 0 := by simpa using hw
  have hfraction : fraction.length ≠ 0 := by simpa using hf
  have hdecimal : decimalLength? (whole ++ '.' :: (fraction ++ rest)) =
      some (whole.length + 1 + fraction.length) := by
    simp [decimalLength?, hlength, integerLength_append hfs hr.endsDigits, hwhole, hfraction]
  rw [List.append_assoc, List.cons_append]
  simp [lexeme?, ha, hdecimal]
  omega

theorem lexeme?_text {inner : List Char} (ha : accepts .text)
    (hinner : ∀ c ∈ inner, c ≠ '"' ∧ c ≠ '\n') :
    lexeme? accepts ('"' :: (inner ++ ['"']) ++ rest) =
      some (.text, ('"' :: (inner ++ ['"'])).length) := by
  have htext : textLength? ('"' :: (inner ++ '"' :: rest)) = some (inner.length + 2) := by
    have hlength : textLength? ('"' :: (inner ++ ['"']) ++ rest) = _ := textLength?_append hinner
    simpa using hlength
  have hdecimal : decimalLength? ('"' :: (inner ++ '"' :: rest)) = none :=
    decimalLength?_of_not_digit (by decide) (by decide)
  have hname : nameLength ('"' :: (inner ++ '"' :: rest)) = 0 := nameLength_of_not_start (by decide)
  simp [lexeme?, hdecimal, hname, ha, htext]

theorem lexeme?_word {c : Char} {cs : List Char} (ha : accepts .name) (hc : isNameStart c)
    (hcs : ∀ d ∈ cs, isNamePart d) (hr : Breaks rest) :
    lexeme? accepts (c :: cs ++ rest) =
      some (wordTerminal accepts (c :: cs), (c :: cs).length) := by
  have hdecimal : decimalLength? (c :: cs ++ rest) = none := by
    refine decimalLength?_of_not_digit (isDigit_of_isNameStart hc) fun hdot => ?_
    subst hdot
    cases hc
  have hlength := nameLength_append hc hcs hr
  have htake : (c :: cs ++ rest).take (c :: cs).length = c :: cs := List.take_left
  simp only [lexeme?, hdecimal, ite_self, hlength, ha, htake]
  simp

theorem lexeme?_name {text : List Char} (ha : accepts .name) (ht : Terminal.name.Matches text)
    (hk : ∀ k : Keyword, k.chars ≠ text) (hr : Breaks rest) :
    lexeme? accepts (text ++ rest) = some (.name, text.length) := by
  cases ht with
  | @name c cs hc hcs =>
    rw [lexeme?_word ha hc hcs hr]
    have hfind :
        Keyword.all.find? (fun k => accepts (.keyword k) && k.chars == c :: cs) = none := by
      rw [List.find?_eq_none]
      intro k _ h
      simp only [Bool.and_eq_true, beq_iff_eq] at h
      exact hk k h.2
    simp [wordTerminal, hfind]

theorem lexeme?_keyword {k : Keyword} (ha : accepts (.keyword k)) (hr : Breaks rest) :
    lexeme? accepts (k.chars ++ rest) = some (.keyword k, k.chars.length) := by
  obtain ⟨c, cs, hk, hc, hcs⟩ := k.chars_eq
  by_cases hname : accepts .name
  · have hfind : Keyword.all.find? (fun b => accepts (.keyword b) && b.chars == k.chars) =
        some k := by
      refine find?_of_longest Keyword.pairwise_all k.mem_all (by simp [ha]) fun b hb => ?_
      simp only [Bool.and_eq_true, beq_iff_eq] at hb
      rw [hb.2]
      exact List.isPrefixOf_iff_prefix.mpr (List.prefix_refl _)
    have hword : wordTerminal accepts k.chars = .keyword k := by simp [wordTerminal, hfind]
    rw [hk] at hword ⊢
    rw [lexeme?_word hname hc hcs hr, hword]
  · have hfind : keywordAt? accepts (k.chars ++ rest) = some k := by
      refine find?_of_longest Keyword.pairwise_all k.mem_all ?_ fun b hb => ?_
      · simp [ha]
      · simp only [Bool.and_eq_true] at hb
        refine isPrefixOf_of_breaks (fun d hd => ?_) hr hb.2
        exact isSpace_of_isNamePart (Keyword.isNamePart_of_mem hd)
    have hnot := isDigit_of_isNameStart hc
    have hdecimal : decimalLength? (k.chars ++ rest) = none := by
      rw [hk]
      refine decimalLength?_of_not_digit hnot fun hdot => ?_
      subst hdot
      cases hc
    have htext : textLength? (k.chars ++ rest) = none := by
      rw [hk]
      refine textLength?_of_ne fun hq => ?_
      subst hq
      cases hc
    have hinteger : integerLength (k.chars ++ rest) = 0 := by
      rw [hk]
      exact integerLength_of_not_digit hnot
    simp [lexeme?, hdecimal, hname, htext, hinteger, hfind]

theorem lexeme?_symbol {s : Symbol} (ha : accepts (.symbol s)) (hr : Breaks rest) :
    lexeme? accepts (s.chars ++ rest) = some (.symbol s, s.chars.length) := by
  obtain ⟨c, cs, hs, hdigit, hdot, hstart, hquote⟩ := s.chars_eq
  have hfind : symbolAt? accepts (s.chars ++ rest) = some s := by
    refine find?_of_longest Symbol.pairwise_all s.mem_all ?_ fun b hb => ?_
    · simp [ha]
    · simp only [Bool.and_eq_true] at hb
      exact isPrefixOf_of_breaks (fun d hd => Symbol.isSpace_of_mem hd) hr hb.2
  have hkeyword : keywordAt? accepts (s.chars ++ rest) = none := by
    rw [keywordAt?, List.find?_eq_none]
    intro k _ h
    obtain ⟨d, ds, hk, hd, _⟩ := k.chars_eq
    simp only [hk, hs, List.cons_append, List.isPrefixOf_cons_cons, Bool.and_eq_true,
      beq_iff_eq] at h
    rw [h.2.1, hstart] at hd
    cases hd
  have hdecimal : decimalLength? (s.chars ++ rest) = none := by
    rw [hs]
    exact decimalLength?_of_not_digit hdigit hdot
  have hname : nameLength (s.chars ++ rest) = 0 := by
    rw [hs]
    exact nameLength_of_not_start hstart
  have htext : textLength? (s.chars ++ rest) = none := by
    rw [hs]
    exact textLength?_of_ne hquote
  have hinteger : integerLength (s.chars ++ rest) = 0 := by
    rw [hs]
    exact integerLength_of_not_digit hdigit
  simp [lexeme?, hdecimal, hname, htext, hinteger, hkeyword, hfind]

/-- A lexeme that ends at white space is found wherever its class is looked for, whatever else
is. -/
theorem Lexeme.Proper.found {l : Lexeme} (h : l.Proper) (ha : accepts l.terminal)
    (hr : Breaks rest) : lexeme? accepts (l.text ++ rest) = some (l.terminal, l.text.length) := by
  obtain ⟨terminal, text⟩ := l
  obtain ⟨ht, hname⟩ := h
  cases terminal with
  | name => exact lexeme?_name ha ht (hname rfl) hr
  | integer =>
    cases ht with
    | integer hne hds => exact lexeme?_integer ha hne hds hr
  | decimal =>
    cases ht with
    | decimal hw hf =>
      cases hw with
      | integer hwne hws =>
        cases hf with
        | integer hfne hfs => exact lexeme?_decimal ha hwne hws hfne hfs hr
  | text =>
    cases ht with
    | text hinner => exact lexeme?_text ha hinner
  | keyword k =>
    cases ht with
    | keyword => exact lexeme?_keyword ha hr
  | symbol s =>
    cases ht with
    | symbol => exact lexeme?_symbol ha hr

theorem Lexeme.Proper.starts {l : Lexeme} (h : l.Proper) :
    ∃ c cs, l.text = c :: cs ∧ isSpace c = false ∧ (c = '/' → cs = []) := by
  have hpart {c : Char} {cs : List Char} (hc : isNamePart c = true) :
      isSpace c = false ∧ (c = '/' → cs = []) := by
    refine ⟨isSpace_of_isNamePart hc, fun hslash => ?_⟩
    subst hslash
    cases hc
  obtain ⟨terminal, text⟩ := l
  obtain ⟨ht, _⟩ := h
  cases ht with
  | @name c cs hc _ => exact ⟨c, cs, rfl, hpart (isNamePart_of_isNameStart hc)⟩
  | integer hne hds =>
    obtain ⟨d, ds, rfl⟩ := List.exists_cons_of_ne_nil hne
    exact ⟨d, ds, rfl, hpart (isNamePart_of_isDigit (hds d List.mem_cons_self))⟩
  | decimal hw _ =>
    cases hw with
    | integer hne hds =>
      obtain ⟨d, ds, rfl⟩ := List.exists_cons_of_ne_nil hne
      exact ⟨d, _, rfl, hpart (isNamePart_of_isDigit (hds d List.mem_cons_self))⟩
  | text => exact ⟨_, _, rfl, by decide, fun h => absurd h (by decide)⟩
  | keyword k =>
    obtain ⟨c, cs, hk, hc, _⟩ := k.chars_eq
    exact ⟨c, cs, hk, hpart (isNamePart_of_isNameStart hc)⟩
  | symbol s => cases s <;> exact ⟨_, _, rfl, by decide, by decide⟩

theorem Lexeme.Proper.not_layout {l : Lexeme} (h : l.Proper) (hr : Breaks rest) :
    layout? (l.text ++ rest) = none := by
  obtain ⟨c, cs, ht, hc, hslash⟩ := h.starts
  rw [ht]
  by_cases hs : c = '/'
  · obtain rfl := hslash hs
    subst hs
    cases rest with
    | nil => rfl
    | cons d rest =>
      have hd : isSpace d = true := hr d rfl
      obtain rfl | rfl | rfl | rfl | rfl := isSpace_cases hd <;> rfl
  · unfold layout?
    split
    next heq => exact absurd (List.cons.inj heq).1 hs
    next heq => exact absurd (List.cons.inj heq).1 hs
    next heq =>
      obtain ⟨rfl, rfl⟩ := List.cons.inj heq
      simp [hc]
    next => rfl

end Guion
