import Guion.Json.Printer
import Guion.Json.Reader
import Guion.Proofs.Figures

namespace Guion.Json

open Double (IsWhole EndsDigits Figures isDigit digitsValue digitLimit ReadsBack)

def Ends (rest : List Char) : Prop :=
  ∀ c ∈ rest.head?, c = ',' ∨ c = '\n'

section Numbers

variable {rest : List Char}

theorem Ends.endsDigits (h : Ends rest) : EndsDigits rest := by
  intro c hc
  obtain rfl | rfl := h c hc <;> rfl

theorem Ends.fractionDigits (h : Ends rest) : fractionDigits rest = ([], rest) := by
  cases rest with
  | nil => rfl
  | cons c cs => obtain rfl | rfl := h c rfl <;> rfl

theorem Ends.exponentPart (h : Ends rest) : exponentPart rest = (none, rest) := by
  cases rest with
  | nil => rfl
  | cons c cs => obtain rfl | rfl := h c rfl <;> rfl

theorem wholeDigits?_append {ds : List Char} (hds : IsWhole ds) (hr : EndsDigits rest) :
    wholeDigits? (ds ++ rest) = some (ds, rest) := by
  obtain ⟨d, es, rfl⟩ := List.exists_cons_of_ne_nil hds.ne_nil
  by_cases hd : d = '0'
  · subst hd
    obtain rfl : es = [] := (List.cons.inj (hds.front rfl)).2
    rfl
  · have htake := Double.takeWhile_isDigit hds.digits hr
    have hdrop := Double.dropWhile_isDigit hds.digits hr
    rw [List.cons_append] at htake hdrop ⊢
    unfold wholeDigits?
    split
    next heq => exact absurd (List.cons.inj heq).1 hd
    next => rw [htake, hdrop]

theorem number?_whole {ds : List Char} (hds : IsWhole ds) (hl : ds.length ≤ digitLimit)
    (hr : Ends rest) (negative : Bool) :
    number? negative (ds ++ rest) =
      some (.int (if negative then -(digitsValue ds : Int) else digitsValue ds), rest) := by
  have hlimit : ¬ digitLimit < ds.length := Nat.not_lt.mpr hl
  simp [number?, wholeDigits?_append hds hr.endsDigits, hr.fractionDigits, hr.exponentPart, hlimit]

theorem exponentPart_powered (f : Figures) (hr : Ends rest) :
    exponentPart (Figures.powered f.power ++ rest) = (f.power.map fun _ => f.exponent, rest) := by
  cases hp : f.power with
  | none => exact hr.exponentPart
  | some p =>
    obtain ⟨negative, ds⟩ := p
    obtain ⟨hne, hds⟩ := f.power_digits _ hp
    have htake := Double.takeWhile_isDigit hds hr.endsDigits
    have hdrop := Double.dropWhile_isDigit hds hr.endsDigits
    have hexponent : f.exponent = if negative then -(digitsValue ds : Int) else digitsValue ds := by
      rw [Figures.exponent, hp]
    obtain ⟨d, es, rfl⟩ := List.exists_cons_of_ne_nil hne
    rw [hexponent]
    rw [List.cons_append] at htake hdrop
    cases negative with
    | true => simp only [Figures.powered, exponentPart, List.cons_append, true_or, if_true, htake,
        hdrop, Option.map_some]
    | false => simp only [Figures.powered, exponentPart, List.cons_append, true_or, if_true, htake,
        hdrop, Option.map_some, Bool.false_eq_true, if_false]

theorem fractionDigits_pointed (f : Figures) (hr : Ends rest) :
    fractionDigits (Figures.pointed f.fraction ++ (Figures.powered f.power ++ rest)) =
      (f.fraction, Figures.powered f.power ++ rest) := by
  have hpower := Figures.endsDigits_powered f.power hr.endsDigits
  cases hf : f.fraction with
  | nil =>
    cases hp : f.power with
    | none => exact hr.fractionDigits
    | some p => rfl
  | cons d ds =>
    have hds := f.fraction_digits
    rw [hf] at hds
    have htake := Double.takeWhile_isDigit hds hpower
    have hdrop := Double.dropWhile_isDigit hds hpower
    simp_all [Figures.pointed, fractionDigits]

theorem number?_figures (f : Figures) (hr : Ends rest) (negative : Bool) :
    number? negative (f.chars ++ rest) =
      some (.float (Double.signed negative f.double), rest) := by
  have hends := Figures.endsDigits_pointed f.fraction
    (Figures.endsDigits_powered f.power hr.endsDigits)
  have hmarked : ¬ (f.fraction = [] ∧ f.power.map (fun _ => f.exponent) = none) := by
    rintro ⟨hf, hp⟩
    obtain h | h := f.marked
    · exact h hf
    · exact h (Option.map_eq_none_iff.mp hp)
  have hexponent : (f.power.map fun _ => f.exponent).getD 0 = f.exponent := by
    cases hp : f.power with
    | none => simp [Figures.exponent, hp]
    | some p => rfl
  simp only [number?, Figures.chars, List.append_assoc, wholeDigits?_append f.isWhole hends,
    Option.bind_eq_bind, Option.bind_some, fractionDigits_pointed f hr, exponentPart_powered f hr]
  rw [if_neg hmarked, hexponent]
  rfl

end Numbers

section Texts

theorem quotedText_no_unit (acc rest : List Char) {a b c d : Char} (h : unit? a b c d = none) :
    quotedText acc ('\\' :: 'u' :: a :: b :: c :: d :: rest) = none := by
  by_cases hunit : ∃ e f g i cs, rest = '\\' :: 'u' :: e :: f :: g :: i :: cs
  · obtain ⟨e, f, g, i, cs, rfl⟩ := hunit
    rw [quotedText, h]
  · rw [quotedText, h]
    intro e f g i cs hrest
    exact hunit ⟨e, f, g, i, cs, hrest⟩

theorem quotedText_unit (acc rest : List Char) {a b c d : Char} {n : Nat}
    (h : unit? a b c d = some n) (hn : n < 0xD800) :
    quotedText acc ('\\' :: 'u' :: a :: b :: c :: d :: rest) =
      quotedText (unitChar n :: acc) rest := by
  have hpair (low : Nat) : pair? n low = none := by
    rw [pair?, if_neg]
    omega
  -- Only a further unit makes a difference to how this one is taken.
  by_cases hunit : ∃ e f g i cs, rest = '\\' :: 'u' :: e :: f :: g :: i :: cs
  · obtain ⟨e, f, g, i, cs, rfl⟩ := hunit
    rw [quotedText, h]
    cases hlow : unit? e f g i with
    | some low => simp only [hpair]
    | none => exact (quotedText_no_unit _ _ hlow).symm
  · rw [quotedText, h]
    intro e f g i cs hrest
    exact hunit ⟨e, f, g, i, cs, hrest⟩

theorem quotedText_plain (acc rest : List Char) {c : Char} (hquote : c ≠ '"') (hslash : c ≠ '\\')
    (hc : ¬ c.toNat < 32) :
    quotedText acc (c :: rest) = quotedText (c :: acc) rest := by
  rw [quotedText, if_neg hc]
  · exact hquote
  · exact fun a b c d e f g i cs h => absurd h hslash
  · exact fun a b c d cs h => absurd h hslash
  · exact fun d cs h => absurd h hslash

theorem unit?_control :
    ∀ n < 32, unit? '0' '0' (hexDigit (n / 16)) (hexDigit (n % 16)) = some n := by
  decide

theorem quotedText_escaped (acc rest : List Char) (c : Char) :
    quotedText acc (escaped c ++ rest) = quotedText (c :: acc) rest := by
  by_cases hspecial : c ∈ ['"', '\\', '\n', '\r', '\t', '\x08', '\x0c']
  · simp only [List.mem_cons, List.not_mem_nil, or_false] at hspecial
    obtain rfl | rfl | rfl | rfl | rfl | rfl | rfl := hspecial <;> rfl
  · simp only [List.mem_cons, List.not_mem_nil, or_false, not_or] at hspecial
    obtain ⟨h₁, h₂, h₃, h₄, h₅, h₆, h₇⟩ := hspecial
    simp only [escaped, h₁, h₂, h₃, h₄, h₅, h₆, h₇, if_false]
    by_cases hcontrol : c.toNat < 32
    · have hchar : unitChar c.toNat = c := by
        rw [unitChar, if_neg (by omega), Char.ofNat_toNat]
      rw [if_pos hcontrol]
      have hread := quotedText_unit acc rest (unit?_control c.toNat hcontrol)
        (by omega)
      rwa [hchar] at hread
    · rw [if_neg hcontrol]
      exact quotedText_plain acc rest h₁ h₂ hcontrol

theorem quotedText_flatMap (acc cs rest : List Char) :
    quotedText acc (cs.flatMap escaped ++ '"' :: rest) =
      some (String.ofList (acc.reverse ++ cs), rest) := by
  induction cs generalizing acc with
  | nil => simp [quotedText]
  | cons c cs ih =>
    rw [List.flatMap_cons, List.append_assoc, quotedText_escaped, ih]
    simp

theorem quotedText_quoted (s : String) :
    ∃ cs, quoted s = '"' :: cs ∧ ∀ rest, quotedText [] (cs ++ rest) = some (s, rest) := by
  refine ⟨s.toList.flatMap escaped ++ ['"'], rfl, fun rest => ?_⟩
  rw [List.append_assoc]
  simpa using quotedText_flatMap [] s.toList rest

end Texts

/-- Data whose text is read as the data: integers have no more digits than are read, doubles are
read back, and no two fields of an object have the same name. -/
inductive Legible : Json → Prop where
  | null : Legible .null
  | bool (b : Bool) : Legible (.bool b)
  | int {n : Int} : (Nat.toDigits 10 n.natAbs).length ≤ digitLimit → Legible (.int n)
  | float {x : Float} : ReadsBack x → Legible (.float x)
  | text (s : String) : Legible (.text s)
  | list {vs : List Json} : (∀ v ∈ vs, Legible v) → Legible (.list vs)
  | object {fields : List (String × Json)} :
    (fields.map Prod.fst).Nodup → (∀ f ∈ fields, Legible f.2) → Legible (.object fields)

/-- A text that is read as a value wherever it stands. It begins with what is neither a blank nor
the end of a list, and line ends do not change in it. -/
structure Spells (cs : List Char) (v : Json) : Prop where
  head : ∃ c rest, cs = c :: rest ∧ isBlank c = false ∧ c ≠ ']'
  read : ∀ fuel rest, cs.length ≤ fuel → Ends rest → value fuel (cs ++ rest) = some (v, rest)
  plain : '\r' ∉ cs

section Leaves

theorem Spells.leaf {c : Char} {cs : List Char} {v : Json} (hc : isBlank c = false) (hne : c ≠ ']')
    (hread : ∀ fuel rest, Ends rest → value (fuel + 1) (c :: cs ++ rest) = some (v, rest))
    (hplain : '\r' ∉ c :: cs) : Spells (c :: cs) v := by
  refine ⟨⟨c, cs, rfl, hc, hne⟩, fun fuel rest hfuel hr => ?_, hplain⟩
  cases fuel with
  | zero => simp at hfuel
  | succ fuel => exact hread fuel rest hr

theorem value_digit {c : Char} (hc : isDigit c) (fuel : Nat) (cs : List Char) :
    value (fuel + 1) (c :: cs) = number? false (c :: cs) := by
  have hmem := Double.mem_of_isDigit hc
  simp only [Double.tenDigits, List.mem_cons, List.not_mem_nil, or_false] at hmem
  obtain rfl | rfl | rfl | rfl | rfl | rfl | rfl | rfl | rfl | rfl := hmem <;> rfl

theorem value_minus {c : Char} (hc : isDigit c) (fuel : Nat) (cs : List Char) :
    value (fuel + 1) ('-' :: c :: cs) = number? true (c :: cs) := by
  have hmem := Double.mem_of_isDigit hc
  simp only [Double.tenDigits, List.mem_cons, List.not_mem_nil, or_false] at hmem
  obtain rfl | rfl | rfl | rfl | rfl | rfl | rfl | rfl | rfl | rfl := hmem <;> rfl

theorem isDigit_head {c : Char} (hc : isDigit c) : isBlank c = false ∧ c ≠ ']' ∧ c ≠ '\r' :=
  Double.of_isDigit (fun c => isBlank c = false ∧ c ≠ ']' ∧ c ≠ '\r') hc (by decide)

theorem Spells.number {negative : Bool} {cs : List Char} {v : Json}
    (hhead : ∃ d ds, cs = d :: ds ∧ isDigit d) (hplain : '\r' ∉ cs)
    (hread : ∀ rest, Ends rest → number? negative (cs ++ rest) = some (v, rest)) :
    Spells ((Double.signText negative).toList ++ cs) v := by
  obtain ⟨d, ds, rfl, hd⟩ := hhead
  obtain ⟨hblank, hne, _⟩ := isDigit_head hd
  cases negative with
  | true =>
    have hsign : (Double.signText true).toList = ['-'] := rfl
    rw [hsign]
    refine .leaf rfl (by decide) (fun fuel rest hr => ?_) (by simpa using hplain)
    exact (value_minus hd fuel _).trans (hread rest hr)
  | false =>
    refine .leaf hblank hne (fun fuel rest hr => ?_) hplain
    exact (value_digit hd fuel _).trans (hread rest hr)

theorem spells_int {n : Int} (h : (Nat.toDigits 10 n.natAbs).length ≤ digitLimit) (depth : Nat) :
    Spells (chars depth (.int n)) (.int n) := by
  have hwhole := Double.isWhole_toDigits n.natAbs
  have hchars : chars depth (.int n) =
      (Double.signText (decide (n < 0))).toList ++ Nat.toDigits 10 n.natAbs := by
    rw [chars, Double.toString_int]
    simp [Nat.repr_eq_ofList_toDigits]
  have hvalue : (if decide (n < 0) then -(digitsValue (Nat.toDigits 10 n.natAbs) : Int)
      else digitsValue (Nat.toDigits 10 n.natAbs)) = n := by
    rw [Double.digitsValue_toDigits, Double.signed_natAbs]
  rw [hchars]
  refine .number ?_ ?_ fun rest hr => ?_
  · obtain ⟨d, ds, hd⟩ := List.exists_cons_of_ne_nil hwhole.ne_nil
    exact ⟨d, ds, hd, hwhole.digits d (by simp [hd])⟩
  · exact fun hm => (isDigit_head (hwhole.digits _ hm)).2.2 rfl
  · rw [number?_whole hwhole h hr, hvalue]

theorem spells_float {x : Float} (h : ReadsBack x) (depth : Nat) :
    Spells (chars depth (.float x)) (.float x) := by
  cases hs : Double.shape x with
  | finite negative mantissa exponent =>
    obtain ⟨f, hf, hx⟩ := h.exists_figures hs
    have hchars : chars depth (.float x) = (Double.signText negative).toList ++ f.chars := by
      rw [chars, floatText, hs]
      exact hf
    rw [hchars]
    refine .number f.exists_chars (fun hm => ?_) fun rest hr => ?_
    · have hdigit : isDigit '\r' = false := rfl
      simpa [hdigit] using f.mem_chars hm
    · rw [number?_figures f hr, hx]
  | infinite negative =>
    have hx := h.infinite hs
    cases negative with
    | true =>
      have hchars : chars depth (.float x) = '-' :: "Infinity".toList := by
        simp [chars, floatText, hs, Double.signText]
      rw [hchars]
      refine .leaf rfl (by decide) (fun fuel rest _ => ?_) (by decide)
      rw [hx]
      rfl
    | false =>
      have hchars : chars depth (.float x) = 'I' :: "nfinity".toList := by
        simp [chars, floatText, hs, Double.signText]
      rw [hchars]
      refine .leaf rfl (by decide) (fun fuel rest _ => ?_) (by decide)
      rw [hx]
      rfl
  | nan =>
    have hx := h.eq_nan hs
    have hchars : chars depth (.float x) = ['N', 'a', 'N'] := by
      simp [chars, floatText, hs]
    rw [hchars]
    refine .leaf rfl (by decide) (fun fuel rest _ => ?_) (by decide)
    rw [hx]
    rfl

end Leaves

section Blanks

theorem blanks_cons {c : Char} (h : isBlank c = false) (cs : List Char) :
    blanks (c :: cs) = c :: cs := by
  simp [blanks, h]

theorem blanks_indentation (depth : Nat) (cs : List Char) :
    blanks (indentation depth ++ cs) = blanks cs := by
  have hall : ∀ c ∈ indentation depth, isBlank c := by
    intro c hc
    obtain rfl | hc := List.mem_cons.mp hc
    · rfl
    · rw [List.eq_of_mem_replicate hc]
      rfl
  exact List.dropWhile_append_of_pos hall

theorem ends_indentation (depth : Nat) (cs : List Char) : Ends (indentation depth ++ cs) :=
  fun _ hc => .inr (Option.some.inj hc).symm

theorem Spells.blanks {cs : List Char} {v : Json} (h : Spells cs v) (rest : List Char) :
    blanks (cs ++ rest) = cs ++ rest := by
  obtain ⟨c, ds, rfl, hc, _⟩ := h.head
  exact blanks_cons hc _

end Blanks

section Parts

variable {depth outer : Nat} {rest : List Char}

theorem ends_itemChars (vs : List Json) :
    Ends (itemChars depth vs ++ (indentation outer ++ rest)) := by
  cases vs with
  | nil => exact ends_indentation outer rest
  | cons v vs => exact fun _ hc => .inl (Option.some.inj hc).symm

theorem ends_fieldChars (fields : List (String × Json)) :
    Ends (fieldChars depth fields ++ (indentation outer ++ rest)) := by
  cases fields with
  | nil => exact ends_indentation outer rest
  | cons f fields => exact fun _ hc => .inl (Option.some.inj hc).symm

theorem items_read {v : Json} {vs : List Json} (hv : Spells (chars depth v) v)
    (hvs : ∀ w ∈ vs, Spells (chars depth w) w) {fuel : Nat}
    (hfuel : (chars depth v ++ itemChars depth vs).length < fuel) :
    items fuel (chars depth v ++ (itemChars depth vs ++ (indentation outer ++ ']' :: rest))) =
      some (v :: vs, rest) := by
  induction vs generalizing v fuel with
  | nil =>
    cases fuel with
    | zero => simp at hfuel
    | succ fuel =>
      simp only [itemChars, List.append_nil] at hfuel
      rw [items, hv.read fuel _ (by omega) (ends_itemChars [])]
      simp [itemChars, blanks_indentation, blanks_cons, isBlank]
  | cons w ws ih =>
    obtain ⟨hw, hws⟩ := List.forall_mem_cons.mp hvs
    cases fuel with
    | zero => simp at hfuel
    | succ fuel =>
      simp only [itemChars, List.length_append, List.length_cons] at hfuel
      rw [items, hv.read fuel _ (by omega) (ends_itemChars (w :: ws))]
      have hless : (chars depth w ++ itemChars depth ws).length < fuel := by
        simp only [List.length_append]
        omega
      simp [itemChars, blanks_indentation, blanks_cons, isBlank, hw.blanks, ih hw hws hless]

theorem insertField_of_not_mem {name : String} {v : Json} {acc : List (String × Json)}
    (h : name ∉ acc.map Prod.fst) : insertField name v acc = acc ++ [(name, v)] := by
  induction acc with
  | nil => rfl
  | cons f acc ih =>
    simp only [List.map_cons, List.mem_cons, not_or] at h
    simp [insertField, Ne.symm h.1, ih h.2]

theorem not_mem_of_nodup {name : String} {v : Json} {acc fs : List (String × Json)}
    (h : ((acc ++ (name, v) :: fs).map Prod.fst).Nodup) : name ∉ acc.map Prod.fst := by
  rw [List.map_append, List.map_cons, List.nodup_append] at h
  exact fun hmem => h.2.2 _ hmem _ List.mem_cons_self rfl

def afterField (fuel : Nat) (acc : List (String × Json)) (cs : List Char) :
    Option (List (String × Json) × List Char) :=
  match blanks cs with
  | ',' :: cs => fields fuel acc (blanks cs)
  | '\x7d' :: cs => some (acc, cs)
  | _ => none

theorem fields_step {name : String} {v : Json} {acc : List (String × Json)}
    (hv : Spells (chars depth v) v) (hnew : name ∉ acc.map Prod.fst) {fuel : Nat}
    (hfuel : (chars depth v).length ≤ fuel) (hends : Ends rest) :
    fields (fuel + 1) acc (quoted name ++ ([':', ' '] ++ (chars depth v ++ rest))) =
      afterField fuel (acc ++ [(name, v)]) rest := by
  obtain ⟨ds, hquoted, hread⟩ := quotedText_quoted name
  have hcolon (es : List Char) : blanks (':' :: es) = ':' :: es := rfl
  have hspace : blanks (' ' :: (chars depth v ++ rest)) = chars depth v ++ rest := hv.blanks rest
  rw [hquoted, List.cons_append, fields, hread]
  simp only [List.cons_append, List.nil_append, Option.bind_eq_bind, Option.bind_some, hcolon,
    hspace, hv.read fuel rest hfuel hends, insertField_of_not_mem hnew]
  rfl

theorem fields_read {name : String} {v : Json} {fs acc : List (String × Json)}
    (hv : Spells (chars depth v) v) (hfs : ∀ f ∈ fs, Spells (chars depth f.2) f.2)
    (hnames : ((acc ++ (name, v) :: fs).map Prod.fst).Nodup) {fuel : Nat}
    (hfuel : (chars depth v ++ fieldChars depth fs).length < fuel) :
    fields fuel acc (quoted name ++ ([':', ' '] ++ (chars depth v ++
      (fieldChars depth fs ++ (indentation outer ++ '\x7d' :: rest))))) =
      some (acc ++ (name, v) :: fs, rest) := by
  have hnew := not_mem_of_nodup hnames
  induction fs generalizing name v acc fuel with
  | nil =>
    have hclose : blanks (fieldChars depth [] ++ (indentation outer ++ '\x7d' :: rest)) =
        '\x7d' :: rest := blanks_indentation outer _
    cases fuel with
    | zero => cases hfuel
    | succ fuel =>
      rw [List.length_append] at hfuel
      rw [fields_step hv hnew (by omega) (ends_fieldChars [])]
      simp only [afterField, hclose]
  | cons g gs ih =>
    obtain ⟨hg, hgs⟩ := List.forall_mem_cons.mp hfs
    have hnext : ((acc ++ [(name, v)] ++ (g.1, g.2) :: gs).map Prod.fst).Nodup := by
      simpa using hnames
    have hcomma : blanks (fieldChars depth (g :: gs) ++ (indentation outer ++ '\x7d' :: rest)) =
        ',' :: (indentation depth ++ (quoted g.1 ++ ([':', ' '] ++ (chars depth g.2 ++
          (fieldChars depth gs ++ (indentation outer ++ '\x7d' :: rest)))))) := by
      simp only [fieldChars, List.cons_append, List.append_assoc]
      rfl
    cases fuel with
    | zero => cases hfuel
    | succ fuel =>
      simp only [fieldChars, List.length_append, List.length_cons] at hfuel
      have hless : (chars depth g.2 ++ fieldChars depth gs).length < fuel := by
        rw [List.length_append]
        omega
      have hquote (ds : List Char) : blanks (quoted g.1 ++ ds) = quoted g.1 ++ ds := rfl
      have hrest := ih hg hgs hnext hless (not_mem_of_nodup hnext)
      rw [List.append_assoc] at hrest
      rw [fields_step hv hnew (by omega) (ends_fieldChars (g :: gs))]
      simp only [afterField, hcomma, blanks_indentation, hquote]
      exact hrest

theorem value_list {fuel : Nat} {cs : List Char} (h : ∀ ds, blanks cs ≠ ']' :: ds) :
    value (fuel + 1) ('[' :: cs) = (items fuel (blanks cs)).map fun r => (.list r.1, r.2) := by
  rw [value]
  split
  next ds heq => exact absurd heq (h ds)
  next => cases items fuel (blanks cs) <;> rfl

theorem value_object {fuel : Nat} {cs : List Char} (h : ∀ ds, blanks cs ≠ '\x7d' :: ds) :
    value (fuel + 1) ('\x7b' :: cs) =
      (fields fuel [] (blanks cs)).map fun r => (.object r.1, r.2) := by
  rw [value]
  split
  next ds heq => exact absurd heq (h ds)
  next => cases fields fuel [] (blanks cs) <;> rfl

theorem plain_indentation (depth : Nat) : '\r' ∉ indentation depth := by
  simp [indentation]

theorem plain_escaped (c : Char) : '\r' ∉ escaped c := by
  have hdigit : ∀ n < 16, hexDigit n ≠ '\r' := by decide
  by_cases hc : c = '\r'
  · subst hc
    decide
  · rw [escaped]
    repeat' split
    any_goals decide
    next hcontrol =>
      have hhigh := hdigit (c.toNat / 16) (by omega)
      have hlow := hdigit (c.toNat % 16) (by omega)
      simp [hhigh.symm, hlow.symm]
    next => simp [Ne.symm hc]

theorem plain_quoted (s : String) : '\r' ∉ quoted s := by
  simp [quoted, plain_escaped]

theorem plain_itemChars {vs : List Json} (h : ∀ v ∈ vs, Spells (chars depth v) v) :
    '\r' ∉ itemChars depth vs := by
  induction vs with
  | nil => simp [itemChars]
  | cons v vs ih =>
    obtain ⟨hv, hvs⟩ := List.forall_mem_cons.mp h
    simp [itemChars, plain_indentation, hv.plain, ih hvs]

theorem plain_fieldChars {fs : List (String × Json)} (h : ∀ f ∈ fs, Spells (chars depth f.2) f.2) :
    '\r' ∉ fieldChars depth fs := by
  induction fs with
  | nil => simp [fieldChars]
  | cons f fs ih =>
    obtain ⟨hf, hfs⟩ := List.forall_mem_cons.mp h
    simp [fieldChars, plain_indentation, plain_quoted, hf.plain, ih hfs]

theorem spells_text (s : String) (depth : Nat) : Spells (chars depth (.text s)) (.text s) := by
  have hplain := plain_quoted s
  obtain ⟨cs, hquoted, hread⟩ := quotedText_quoted s
  rw [hquoted] at hplain
  rw [chars, hquoted]
  refine .leaf rfl (by decide) (fun fuel rest _ => ?_) hplain
  rw [List.cons_append, value, hread]
  rfl

theorem spells_list {vs : List Json} (h : ∀ v ∈ vs, ∀ depth, Spells (chars depth v) v)
    (depth : Nat) : Spells (chars depth (.list vs)) (.list vs) := by
  cases vs with
  | nil => exact .leaf rfl (by decide) (fun fuel rest _ => rfl) (by decide)
  | cons v vs =>
    obtain ⟨hv, hvs⟩ := List.forall_mem_cons.mp h
    have hitems : ∀ w ∈ vs, Spells (chars (depth + 1) w) w := fun w hw => hvs w hw (depth + 1)
    obtain ⟨c, cs, hc, hblank, hne⟩ := (hv (depth + 1)).head
    refine ⟨⟨'[', _, by rw [chars], rfl, by decide⟩, fun fuel rest hfuel hr => ?_, ?_⟩
    · cases fuel with
      | zero => simp [chars] at hfuel
      | succ fuel =>
        have hblanks : blanks (indentation (depth + 1) ++ (chars (depth + 1) v ++
            (itemChars (depth + 1) vs ++ (indentation depth ++ ']' :: rest)))) =
            chars (depth + 1) v ++
              (itemChars (depth + 1) vs ++ (indentation depth ++ ']' :: rest)) := by
          rw [blanks_indentation, (hv (depth + 1)).blanks]
        have hless : (chars (depth + 1) v ++ itemChars (depth + 1) vs).length < fuel := by
          simp only [chars, indentation, List.length_append, List.length_cons] at hfuel ⊢
          omega
        simp only [chars, List.cons_append, List.append_assoc, List.nil_append]
        rw [value_list, hblanks, items_read (hv (depth + 1)) hitems hless]
        · rfl
        · intro ds heq
          rw [hblanks, hc] at heq
          exact hne (List.cons.inj heq).1
    · simp [chars, plain_indentation, (hv (depth + 1)).plain, plain_itemChars hitems]

theorem spells_object {fs : List (String × Json)} (hnames : (fs.map Prod.fst).Nodup)
    (h : ∀ f ∈ fs, ∀ depth, Spells (chars depth f.2) f.2) (depth : Nat) :
    Spells (chars depth (.object fs)) (.object fs) := by
  cases fs with
  | nil => exact .leaf rfl (by decide) (fun fuel rest _ => rfl) (by decide)
  | cons f fs =>
    obtain ⟨hf, hfs⟩ := List.forall_mem_cons.mp h
    have hfields : ∀ g ∈ fs, Spells (chars (depth + 1) g.2) g.2 := fun g hg => hfs g hg (depth + 1)
    refine ⟨⟨'\x7b', _, by rw [chars], rfl, by decide⟩, fun fuel rest hfuel hr => ?_, ?_⟩
    · cases fuel with
      | zero => simp [chars] at hfuel
      | succ fuel =>
        have hblanks : blanks (indentation (depth + 1) ++ (quoted f.1 ++ ([':', ' '] ++
            (chars (depth + 1) f.2 ++ (fieldChars (depth + 1) fs ++
              (indentation depth ++ '\x7d' :: rest)))))) =
            quoted f.1 ++ ([':', ' '] ++ (chars (depth + 1) f.2 ++ (fieldChars (depth + 1) fs ++
              (indentation depth ++ '\x7d' :: rest)))) := by
          rw [blanks_indentation]
          rfl
        have hless : (chars (depth + 1) f.2 ++ fieldChars (depth + 1) fs).length < fuel := by
          simp only [chars, indentation, List.length_append, List.length_cons] at hfuel ⊢
          omega
        have hread : fields fuel [] (quoted f.1 ++ ([':', ' '] ++ (chars (depth + 1) f.2 ++
            (fieldChars (depth + 1) fs ++ (indentation depth ++ '\x7d' :: rest))))) =
            some (f :: fs, rest) := fields_read (hf (depth + 1)) hfields hnames hless
        simp only [chars, List.cons_append, List.append_assoc, List.nil_append] at hblanks hread ⊢
        rw [value_object, hblanks, hread]
        · rfl
        · intro ds heq
          rw [hblanks] at heq
          cases heq
    · simp [chars, plain_indentation, plain_quoted, (hf (depth + 1)).plain,
        plain_fieldChars hfields]

end Parts

theorem Legible.spells {v : Json} (h : v.Legible) (depth : Nat) : Spells (chars depth v) v := by
  induction h generalizing depth with
  | null => exact .leaf rfl (by decide) (fun fuel rest _ => rfl) (by decide)
  | bool b => cases b <;> exact .leaf rfl (by decide) (fun fuel rest _ => rfl) (by decide)
  | int hn => exact spells_int hn depth
  | float hx => exact spells_float hx depth
  | text s => exact spells_text s depth
  | list _ ih => exact spells_list ih depth
  | object hnames _ ih => exact spells_object hnames ih depth

/-- Reading the text of legible data gives the data. -/
theorem Legible.parse?_render {v : Json} (h : v.Legible) : parse? (render v) = some v := by
  have hspells := h.spells 0
  have hread := hspells.read (2 * (chars 0 v).length + 2) [] (by omega) nofun
  have hblanks := hspells.blanks []
  rw [List.append_nil] at hread hblanks
  rw [parse?, render, String.toList_ofList, hblanks]
  simp only [hread]
  rfl

end Guion.Json
