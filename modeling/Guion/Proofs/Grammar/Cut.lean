import Guion.Proofs.Grammar.Scanning

namespace Guion

open Double (isDigit)

variable {a : Char} {x y b u ds cs : List Char} {n : Nat}

section Lengths

theorem takeWhile_length_le (p : Char → Bool) (cs : List Char) :
    (cs.takeWhile p).length ≤ cs.length :=
  (List.takeWhile_prefix p).length_le

theorem commentEnd?_le (h : commentEnd? cs = some n) : n ≤ cs.length := by
  fun_induction commentEnd? cs generalizing n with
  | case1 cs =>
    obtain rfl := Option.some.inj h
    simp
  | case2 c cs _ ih =>
    obtain ⟨k, hk, rfl⟩ := Option.map_eq_some_iff.mp h
    exact Nat.succ_le_succ (ih hk)
  | case3 => cases h

theorem layout?_le (h : layout? cs = some n) : n ≤ cs.length := by
  unfold layout? at h
  split at h
  next cs =>
    obtain ⟨k, hk, rfl⟩ := Option.map_eq_some_iff.mp h
    exact Nat.add_le_add_right (commentEnd?_le hk) 2
  next cs =>
    obtain rfl := Option.some.inj h
    have hle := takeWhile_length_le (· != '\n') cs
    simp only [List.length_cons]
    omega
  next c cs _ _ =>
    split at h
    next =>
      obtain rfl := Option.some.inj h
      have hle := takeWhile_length_le isSpace cs
      simp only [List.length_cons]
      omega
    next => cases h
  next => cases h

theorem nameLength_le (cs : List Char) : nameLength cs ≤ cs.length := by
  unfold nameLength
  split
  next c cs =>
    have hle := takeWhile_length_le isNamePart cs
    split <;> simp only [List.length_cons] <;> omega
  next => simp

theorem decimalLength?_le (h : decimalLength? cs = some n) : n ≤ cs.length := by
  unfold decimalLength? at h
  dsimp only at h
  split at h
  next rest hrest =>
    split at h
    next => cases h
    next =>
      obtain rfl := Option.some.inj h
      have hlength := congrArg List.length hrest
      have hle : integerLength rest ≤ rest.length := takeWhile_length_le isDigit rest
      simp only [List.length_drop, List.length_cons] at hlength
      omega
  next => cases h

theorem textLength?_le (h : textLength? cs = some n) : n ≤ cs.length := by
  unfold textLength? at h
  split at h
  next cs =>
    dsimp only at h
    split at h
    next rest hrest =>
      obtain rfl := Option.some.inj h
      have hlength := congrArg List.length hrest
      simp only [List.length_drop, List.length_cons] at hlength ⊢
      omega
    next => cases h
  next => cases h

end Lengths

theorem begins_of_append_eq (h : x ++ b = ds ++ cs) (hl : ds.length ≤ x.length) :
    ∃ y, x = ds ++ y ∧ cs = y ++ b := by
  obtain ⟨extra, rfl, rfl⟩ | h := List.append_eq_append_iff.mp h
  · have hextra : extra = [] := by
      rw [← List.length_eq_zero_iff]
      simp only [List.length_append] at hl
      omega
    subst hextra
    exact ⟨[], by simp, rfl⟩
  · exact h

theorem begins_of_cut (hd : a ∉ ds) (h : ds <+: x ++ a :: u) : ds <+: x := by
  obtain hp | ⟨extra, rfl⟩ := List.prefix_or_prefix_of_prefix h (List.prefix_append x _)
  · exact hp
  · rw [List.prefix_append_right_inj] at h
    cases extra with
    | nil => simp
    | cons c extra =>
      obtain ⟨rfl, _⟩ := List.cons_prefix_cons.mp h
      simp at hd

theorem Keyword.space_notMem (k : Keyword) (ha : isSpace a) : a ∉ k.chars := fun hmem => by
  have hpart := Keyword.isNamePart_of_mem hmem
  rw [isNamePart_of_isSpace ha] at hpart
  cases hpart

theorem Symbol.space_notMem (s : Symbol) (ha : isSpace a) : a ∉ s.chars := fun hmem => by
  rw [Symbol.isSpace_of_mem hmem] at ha
  cases ha

theorem Terminal.Matches.space_notMem (h : Terminal.decimal.Matches ds) (ha : isSpace a) :
    a ∉ ds := by
  have hdigits {ds : List Char} (h : ∀ d ∈ ds, isDigit d) : a ∉ ds := fun hmem => by
    have hdigit := h _ hmem
    rw [isDigit_of_isSpace ha] at hdigit
    cases hdigit
  have hdot : a ≠ '.' := by
    rintro rfl
    cases ha
  cases h with
  | decimal hw hf =>
    cases hw with
    | integer _ hws =>
      cases hf with
      | integer _ hfs => simp [hdigits hws, hdigits hfs, hdot]

section Pieces

theorem takeWhile_cut {p : Char → Bool} (h : ((x ++ b).takeWhile p).length ≤ x.length)
    (hp : ((x ++ b).takeWhile p).length = x.length → p a = false) :
    (x ++ a :: u).takeWhile p = (x ++ b).takeWhile p := by
  induction x with
  | nil =>
    have hb : b.takeWhile p = [] := by simpa using h
    have ha : p a = false := hp (by simp [hb])
    simp [ha, hb]
  | cons c x ih =>
    by_cases hc : p c
    · simp only [List.cons_append, List.takeWhile_cons_of_pos hc, List.length_cons] at h hp ⊢
      rw [ih (by omega) fun heq => hp (by omega)]
    · simp [hc]

theorem integerLength_cut (ha : isSpace a) (h : integerLength (x ++ b) ≤ x.length) :
    integerLength (x ++ a :: u) = integerLength (x ++ b) := by
  rw [integerLength, takeWhile_cut h fun _ => isDigit_of_isSpace ha, integerLength]

theorem nameLength_cut (ha : isSpace a) (hx : x ≠ []) (h : nameLength (x ++ b) ≤ x.length) :
    nameLength (x ++ a :: u) = nameLength (x ++ b) := by
  obtain ⟨c, x, rfl⟩ := List.exists_cons_of_ne_nil hx
  by_cases hc : isNameStart c
  · simp only [List.cons_append, nameLength, hc, if_true, List.length_cons] at h ⊢
    rw [takeWhile_cut (b := b) (by omega) fun _ => isNamePart_of_isSpace ha]
  · simp [nameLength, hc]

theorem decimalLength?_cut (ha : isSpace a) (h : decimalLength? (x ++ b) = some n)
    (hn : n ≤ x.length) : decimalLength? (x ++ a :: u) = some n := by
  unfold decimalLength? at h
  dsimp only at h
  split at h
  next rest hrest =>
    split at h
    next => cases h
    next hne =>
      obtain rfl := Option.some.inj h
      have hwhole : integerLength (x ++ a :: u) = integerLength (x ++ b) :=
        integerLength_cut ha (by omega)
      rw [List.drop_append_of_le_length (by omega)] at hrest
      obtain ⟨y, hy, rfl⟩ := begins_of_append_eq (show _ = ['.'] ++ rest from hrest)
        (by simp only [List.length_drop, List.length_singleton]; omega)
      have hlength := congrArg List.length hy
      simp only [List.length_drop, List.length_append, List.length_singleton] at hlength
      have hfraction : integerLength (y ++ a :: u) = integerLength (y ++ b) :=
        integerLength_cut ha (by omega)
      have hdrop : (x ++ a :: u).drop (integerLength (x ++ b)) = '.' :: (y ++ a :: u) := by
        rw [List.drop_append_of_le_length (by omega), hy]
        rfl
      simp only [decimalLength?, hwhole, hdrop, hfraction, if_neg hne]
  next => cases h

theorem decimalLength?_cut_none (ha : isSpace a) (h : decimalLength? (x ++ b) = none) :
    decimalLength? (x ++ a :: u) = none := by
  rw [Option.eq_none_iff_forall_ne_some]
  intro m hm
  -- the decimal would stand before the cut
  have hmatches := decimal_matches hm
  have hbegins := begins_of_cut (hmatches.space_notMem ha) (List.take_prefix m _)
  generalize (x ++ a :: u).take m = text at hmatches hbegins
  obtain ⟨y, rfl⟩ := hbegins
  cases hmatches with
  | @decimal whole fraction hw hf =>
    cases hw with
    | integer hwne hws =>
      cases hf with
      | integer hfne hfs =>
        have hlength : integerLength (whole ++ '.' :: (fraction ++ (y ++ b))) = whole.length := by
          rw [integerLength, List.takeWhile_append_of_pos hws,
            List.takeWhile_cons_of_neg (by decide), List.append_nil]
        have hfraction : integerLength (fraction ++ (y ++ b)) ≠ 0 := by
          rw [integerLength, List.takeWhile_append_of_pos hfs]
          simp [hfne]
        simp [decimalLength?, hlength, hfraction, hwne] at h

theorem textLength?_cut (h : textLength? (x ++ b) = some n) (hn : n ≤ x.length) :
    textLength? (x ++ a :: u) = some n := by
  have hmatches := text_matches h
  rw [List.take_append_of_le_length hn] at hmatches
  have hx := List.take_append_drop n x
  have hlength := List.length_take_of_le hn
  generalize x.take n = text at hmatches hx hlength
  cases hmatches with
  | @text inner hinner =>
    rw [← hx, List.append_assoc, textLength?_append hinner, ← hlength]
    simp

theorem textLength?_cut_none (hx : x ≠ []) (hq : x.head? ≠ some '"') :
    textLength? (x ++ u) = none := by
  obtain ⟨c, x, rfl⟩ := List.exists_cons_of_ne_nil hx
  exact textLength?_of_ne (by simpa using hq)

end Pieces

/-- A way to find a token. The token ends inside the text, it is found also where the text is cut
after it and goes on with white space, and where there is none, there is none after such a cut. Only
quotes may go on beyond it. -/
structure Local (attempt : List Char → Option (Terminal × Nat)) : Prop where
  le : ∀ {cs terminal n}, attempt cs = some (terminal, n) → n ≤ cs.length
  found : ∀ {x b terminal n}, x ≠ [] → attempt (x ++ b) = some (terminal, n) → n ≤ x.length →
    ∀ {a}, isSpace a → ∀ u, attempt (x ++ a :: u) = some (terminal, n)
  missed : ∀ {x b}, x ≠ [] → x.head? ≠ some '"' → attempt (x ++ b) = none →
    ∀ {a}, isSpace a → ∀ u, attempt (x ++ a :: u) = none

namespace Local

variable {accepted : Bool} {terminal : Terminal}

theorem of_length? {length? : List Char → Option Nat}
    (hle : ∀ {cs n}, length? cs = some n → n ≤ cs.length)
    (hfound : ∀ {a x b u n}, isSpace a → length? (x ++ b) = some n → n ≤ x.length →
      length? (x ++ a :: u) = some n)
    (hmissed : ∀ {a x b u}, isSpace a → x ≠ [] → x.head? ≠ some '"' → length? (x ++ b) = none →
      length? (x ++ a :: u) = none) :
    Local fun cs => if accepted then (length? cs).map (terminal, ·) else none := by
  cases accepted with
  | false => exact ⟨nofun, nofun, fun _ _ _ _ _ _ => rfl⟩
  | true =>
    simp only [if_true]
    refine ⟨fun h => ?_, fun _ h hn _ ha u => ?_, fun hx hq h _ ha u => ?_⟩
    · obtain ⟨k, hk, heq⟩ := Option.map_eq_some_iff.mp h
      cases heq
      exact hle hk
    · obtain ⟨k, hk, heq⟩ := Option.map_eq_some_iff.mp h
      cases heq
      rw [hfound ha hk hn, Option.map_some]
    · rw [hmissed ha hx hq (Option.map_eq_none_iff.mp h), Option.map_none]

theorem of_length {length : List Char → Nat} (classify : List Char → Terminal)
    (hle : ∀ cs, length cs ≤ cs.length)
    (hcut : ∀ {a x b u}, isSpace a → x ≠ [] → length (x ++ b) ≤ x.length →
      length (x ++ a :: u) = length (x ++ b)) :
    Local fun cs => if accepted ∧ length cs ≠ 0 then
      some (classify (cs.take (length cs)), length cs) else none := by
  refine ⟨fun {cs _ _} h => ?_, fun {x b _ _} hx h hn _ ha u => ?_,
    fun {x b} hx _ h _ ha u => ?_⟩
  · split at h
    · cases h
      exact hle cs
    · cases h
  · split at h
    next hne =>
      cases h
      rw [hcut ha hx hn, if_pos hne, List.take_append_of_le_length hn,
        List.take_append_of_le_length hn]
    next => cases h
  · split at h
    next => cases h
    next hne =>
      refine if_neg fun ⟨hacc, hne'⟩ => hne ⟨hacc, fun h0 => hne' ?_⟩
      rw [hcut (b := b) ha hx (by omega), h0]

section Words

variable {α : Type} {all : List α} {accepts : α → Bool} {chars : α → List Char} {word : α}

theorem fits_of_cut (ha : a ∉ chars word)
    (h : (accepts word && (chars word).isPrefixOf (x ++ a :: u)) = true) :
    (accepts word && (chars word).isPrefixOf (x ++ b)) = true := by
  rw [Bool.and_eq_true, List.isPrefixOf_iff_prefix] at h ⊢
  exact ⟨h.1, (begins_of_cut ha h.2).trans (List.prefix_append x b)⟩

theorem fits_cut (hl : (chars word).length ≤ x.length)
    (h : (accepts word && (chars word).isPrefixOf (x ++ b)) = true) :
    (accepts word && (chars word).isPrefixOf (x ++ a :: u)) = true := by
  rw [Bool.and_eq_true, List.isPrefixOf_iff_prefix] at h ⊢
  have hx := List.prefix_of_prefix_length_le h.2 (List.prefix_append x b) hl
  exact ⟨h.1, hx.trans (List.prefix_append x _)⟩

theorem of_words {classify : α → Terminal} (hchars : ∀ word {a}, isSpace a → a ∉ chars word) :
    Local fun cs => (all.find? fun word => accepts word && (chars word).isPrefixOf cs).map
      fun word => (classify word, (chars word).length) := by
  refine ⟨fun h => ?_, fun _ h hn _ ha u => ?_, fun _ _ h _ ha u => ?_⟩
  · obtain ⟨word, hword, heq⟩ := Option.map_eq_some_iff.mp h
    cases heq
    have hfits := List.find?_some hword
    rw [Bool.and_eq_true, List.isPrefixOf_iff_prefix] at hfits
    exact hfits.2.length_le
  · obtain ⟨word, hword, heq⟩ := Option.map_eq_some_iff.mp h
    cases heq
    rw [List.find?_eq_some_iff_append] at hword
    obtain ⟨hfits, before, after, rfl, hbefore⟩ := hword
    refine Option.map_eq_some_iff.mpr ⟨word, List.find?_eq_some_iff_append.mpr ?_, rfl⟩
    refine ⟨fits_cut hn hfits, before, after, rfl, fun other hother => ?_⟩
    have hnot := hbefore other hother
    rw [Bool.not_eq_true', Bool.eq_false_iff] at hnot ⊢
    exact fun hcut => hnot (fits_of_cut (hchars other ha) hcut)
  · rw [Option.map_eq_none_iff, List.find?_eq_none] at h ⊢
    exact fun word hword hcut => h word hword (fits_of_cut (hchars word ha) hcut)

end Words

end Local

def attempts (accepts : Terminal → Bool) : List (List Char → Option (Terminal × Nat)) :=
  [fun cs => if accepts .decimal then (decimalLength? cs).map (.decimal, ·) else none,
    fun cs => if accepts .name ∧ nameLength cs ≠ 0 then
      some (wordTerminal accepts (cs.take (nameLength cs)), nameLength cs) else none,
    fun cs => if accepts .text then (textLength? cs).map (.text, ·) else none,
    fun cs => if accepts .integer ∧ integerLength cs ≠ 0 then
      some (.integer, integerLength cs) else none,
    fun cs => (keywordAt? accepts cs).map fun k => (.keyword k, k.chars.length),
    fun cs => (symbolAt? accepts cs).map fun s => (.symbol s, s.chars.length)]

theorem attempts_local (accepts : Terminal → Bool) :
    ∀ attempt ∈ attempts accepts, Local attempt := by
  simp only [attempts, List.forall_mem_cons, List.not_mem_nil, IsEmpty.forall_iff, implies_true,
    and_true]
  exact ⟨.of_length? decimalLength?_le decimalLength?_cut
      fun ha _ _ h => decimalLength?_cut_none ha h,
    .of_length (wordTerminal accepts) nameLength_le nameLength_cut,
    .of_length? textLength?_le (fun _ => textLength?_cut)
      fun _ hx hq _ => textLength?_cut_none hx hq,
    .of_length (fun _ => .integer) (takeWhile_length_le isDigit) fun ha _ => integerLength_cut ha,
    .of_words fun k _ ha => k.space_notMem ha,
    .of_words fun s _ ha => s.space_notMem ha⟩

theorem lexeme?_eq (accepts : Terminal → Bool) (cs : List Char) :
    lexeme? accepts cs = (attempts accepts).findSome? (· cs) := by
  simp only [lexeme?, attempts, List.findSome?_cons, List.findSome?_nil]
  cases accepts .decimal <;> cases decimalLength? cs <;> try rfl
  all_goals
    by_cases hname : accepts .name ∧ nameLength cs ≠ 0
    · simp [hname]
    · simp only [if_neg hname]
      cases accepts .text <;> cases textLength? cs <;> try rfl
      all_goals
        by_cases hinteger : accepts .integer ∧ integerLength cs ≠ 0
        · simp [hinteger]
        · simp only [if_neg hinteger]
          cases keywordAt? accepts cs <;> cases symbolAt? accepts cs <;> rfl

theorem lexeme?_le {accepts : Terminal → Bool} {terminal : Terminal}
    (h : lexeme? accepts cs = some (terminal, n)) : n ≤ cs.length := by
  rw [lexeme?_eq] at h
  obtain ⟨attempt, hmem, hattempt⟩ := List.exists_of_findSome?_eq_some h
  exact (attempts_local accepts attempt hmem).le hattempt

theorem lexeme?_quote (accepts : Terminal → Bool) (cs : List Char) :
    lexeme? accepts ('"' :: cs) =
      if accepts .text then (textLength? ('"' :: cs)).map (.text, ·) else none := by
  have hdecimal : decimalLength? ('"' :: cs) = none :=
    decimalLength?_of_not_digit (by decide) (by decide)
  have hname : nameLength ('"' :: cs) = 0 := nameLength_of_not_start (by decide)
  have hinteger : integerLength ('"' :: cs) = 0 := integerLength_of_not_digit (by decide)
  have hkeyword : keywordAt? accepts ('"' :: cs) = none := by
    rw [keywordAt?, List.find?_eq_none]
    intro k _ h
    obtain ⟨d, ds, hk, hd, _⟩ := k.chars_eq
    simp only [hk, List.isPrefixOf_cons_cons, Bool.and_eq_true, beq_iff_eq] at h
    rw [h.2.1] at hd
    cases hd
  have hsymbol : symbolAt? accepts ('"' :: cs) = none := by
    rw [symbolAt?, List.find?_eq_none]
    intro s _ h
    obtain ⟨d, ds, hs, _, _, _, hd⟩ := s.chars_eq
    simp only [hs, List.isPrefixOf_cons_cons, Bool.and_eq_true, beq_iff_eq] at h
    exact hd h.2.1
  rw [lexeme?_eq]
  simp only [attempts, List.findSome?_cons, List.findSome?_nil, hdecimal, hname, hinteger,
    hkeyword, hsymbol]
  cases accepts .text <;> cases textLength? ('"' :: cs) <;> simp

/-- A token that ends before a cut is found also with the text cut after it. -/
theorem lexeme?_cut {accepts : Terminal → Bool} {terminal : Terminal} (ha : isSpace a)
    (hx : x ≠ []) (h : lexeme? accepts (x ++ b) = some (terminal, n)) (hn : n ≤ x.length) :
    lexeme? accepts (x ++ a :: u) = some (terminal, n) := by
  by_cases hq : x.head? = some '"'
  · obtain ⟨x, rfl⟩ := List.head?_eq_some_iff.mp hq
    rw [List.cons_append, lexeme?_quote] at h ⊢
    split at h
    next hacc =>
      obtain ⟨k, hk, heq⟩ := Option.map_eq_some_iff.mp h
      cases heq
      have hcut := textLength?_cut (a := a) (u := u) (x := '"' :: x) hk hn
      rw [List.cons_append] at hcut
      rw [if_pos hacc, hcut, Option.map_some]
    next => cases h
  · have hlocal := attempts_local accepts
    rw [lexeme?_eq, List.findSome?_eq_some_iff] at h ⊢
    obtain ⟨before, attempt, after, hall, hattempt, hbefore⟩ := h
    rw [hall] at hlocal
    refine ⟨before, attempt, after, hall, ?_, fun other hother => ?_⟩
    · exact (hlocal attempt (by simp)).found hx hattempt hn ha u
    · exact (hlocal other (by simp [hother])).missed hx hq (hbefore other hother) ha u

section Layout

theorem commentEnd?_of_first {inner rest : List Char} (h : ¬ ['*', '/'] <:+: inner ++ ['*']) :
    commentEnd? (inner ++ '*' :: '/' :: rest) = some (inner.length + 2) := by
  induction inner with
  | nil => rfl
  | cons c inner ih =>
    rw [List.cons_append, List.infix_cons_iff, not_or] at h
    rw [List.cons_append, commentEnd?, ih h.2]
    · rfl
    · -- the star of an earlier end would be `c`
      rintro tail rfl htail
      cases inner with
      | nil => cases htail
      | cons d inner =>
        obtain ⟨rfl, _⟩ := List.cons.inj htail
        exact h.1 (by simp)

theorem commentEnd?_cut (h : commentEnd? (y ++ b) = some n) (hn : n ≤ y.length) :
    commentEnd? (y ++ a :: u) = some n := by
  obtain ⟨inner, htake, hfirst⟩ := commentEnd?_eq_some h
  rw [List.take_append_of_le_length hn] at htake
  have hlength : n = inner.length + 2 := by
    rw [← List.length_take_of_le hn, htake]
    simp
  have hy : y = inner ++ '*' :: '/' :: y.drop n := by
    calc y = y.take n ++ y.drop n := (List.take_append_drop n y).symm
      _ = inner ++ '*' :: '/' :: y.drop n := by simp [htake]
  rw [hy, List.append_assoc, hlength]
  exact commentEnd?_of_first hfirst

theorem layout?_eq_none {c : Char} (hc : isSpace c = false)
    (h : c = '/' → ∀ d ∈ cs.head?, d ≠ '*' ∧ d ≠ '/') : layout? (c :: cs) = none := by
  unfold layout?
  split
  next heq =>
    obtain ⟨rfl, rfl⟩ := List.cons.inj heq
    exact absurd rfl (h rfl '*' rfl).1
  next heq =>
    obtain ⟨rfl, rfl⟩ := List.cons.inj heq
    exact absurd rfl (h rfl '/' rfl).2
  next heq =>
    obtain ⟨rfl, rfl⟩ := List.cons.inj heq
    simp [hc]
  next => rfl

theorem layout?_cut_none (ha : isSpace a) (hx : x ≠ []) (hstar : ¬ ['/', '*'] <+: x)
    (h : layout? (x ++ b) = none) : layout? (x ++ a :: u) = none := by
  obtain ⟨c, x, rfl⟩ := List.exists_cons_of_ne_nil hx
  have hc : isSpace c = false := by
    rw [Bool.eq_false_iff]
    intro hc
    rw [List.cons_append, layout?_of_isSpace hc] at h
    cases h
  refine layout?_eq_none hc ?_
  rintro rfl d hd
  cases x with
  | nil =>
    cases hd
    refine ⟨?_, ?_⟩ <;> rintro rfl <;> cases ha
  | cons e x =>
    cases hd
    refine ⟨?_, ?_⟩
    · rintro rfl
      exact hstar ⟨x, rfl⟩
    · rintro rfl
      cases h

theorem spaces_cut (h : ((y ++ b).takeWhile isSpace).length ≤ y.length) :
    ((y ++ a :: u).takeWhile isSpace).length = ((y ++ b).takeWhile isSpace).length ∨
      ((y ++ b).takeWhile isSpace).length = y.length ∧
        ((y ++ a :: u).takeWhile isSpace).length =
          y.length + ((a :: u).takeWhile isSpace).length := by
  simp only [List.takeWhile_append] at h ⊢
  split
  next hall =>
    rw [if_pos hall, List.length_append] at h
    exact .inr ⟨by rw [List.length_append]; omega, List.length_append⟩
  next => exact .inl rfl

/-- Layout that ends before a cut is the same after it, unless it is white space up to the cut: then
it takes the white space after the cut too. At a cut itself, only a newline ends a comment. -/
theorem layout?_cut (h : layout? (x ++ b) = some n) (hn : n ≤ x.length)
    (hend : n = x.length → a = '\n') :
    layout? (x ++ a :: u) = some n ∨ n = x.length ∧
      layout? (x ++ a :: u) = some (n + ((a :: u).takeWhile isSpace).length) := by
  unfold layout? at h
  split at h
  next cs heq =>
    obtain ⟨k, hk, rfl⟩ := Option.map_eq_some_iff.mp h
    obtain ⟨y, rfl, rfl⟩ :=
      begins_of_append_eq (show _ = ['/', '*'] ++ cs from heq) (by simp; omega)
    have hcut := commentEnd?_cut (a := a) (u := u) hk (by simpa using hn)
    exact .inl (by simp [layout?, hcut])
  next cs heq =>
    obtain rfl := Option.some.inj h
    obtain ⟨y, rfl, rfl⟩ :=
      begins_of_append_eq (show _ = ['/', '/'] ++ cs from heq) (by simp; omega)
    simp only [List.cons_append, List.nil_append, List.length_cons] at hn hend
    have hcut := takeWhile_cut (a := a) (x := y) (b := b) (u := u) (p := (· != '\n')) (by omega)
      fun hlength => by simp [hend (by omega)]
    exact .inl (by simp [layout?, hcut])
  next c cs _ _ heq =>
    split at h
    next hc =>
      obtain rfl := Option.some.inj h
      obtain ⟨y, rfl, rfl⟩ := begins_of_append_eq (show _ = [c] ++ cs from heq) (by simp; omega)
      simp only [List.cons_append, List.nil_append, List.length_cons] at hn ⊢
      rw [layout?_of_isSpace hc]
      obtain hcut | ⟨hall, hcut⟩ := spaces_cut (y := y) (b := b) (u := u) (by omega)
      · exact .inl (by rw [hcut])
      · exact .inr ⟨by omega, by rw [hcut, hall, Nat.add_assoc]⟩
    next => cases h
  next => cases h

end Layout

end Guion
