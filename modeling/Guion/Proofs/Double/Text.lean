import Guion.Proofs.Double.Shortest

namespace Guion.Double

section Denotation

/-- The rational number that a text denotes: that of its decimal, under an optional sign. -/
def rational? : List Char → Option ℚ
  | '-' :: cs => (numeral? cs).map fun n => -n.value
  | cs => (numeral? cs).map Numeral.value

theorem Numeral.Extends.value_eq {a b : Numeral} (h : a.Extends b) : a.value = b.value := by
  obtain ⟨k, hdigits, hscale⟩ := h
  rw [value, value, hdigits, ← hscale, zpow_add₀ (by norm_num), zpow_natCast]
  push_cast
  ring

theorem numeral?_minus (cs : List Char) : numeral? ('-' :: cs) = none := by
  have hdigit : isDigit '-' = false := rfl
  simp [numeral?, hdigit]

theorem rational?_signed (negative : Bool) {cs : List Char} {n : Numeral}
    (h : numeral? cs = some n) : rational? ((signText negative).toList ++ cs) =
      some (if negative then -n.value else n.value) := by
  cases negative with
  | true => simp [signText, rational?, h]
  | false =>
    simp only [signText, Bool.false_eq_true, if_false, String.toList_empty, List.nil_append]
    unfold rational?
    split
    next =>
      rw [numeral?_minus] at h
      cases h
    next => rw [h, Option.map_some]

end Denotation

section Forms

/-- Plain notation: digits on both sides of a point. -/
def Plain (cs : List Char) : Prop :=
  ∃ whole fraction, IsWhole whole ∧ (fraction ≠ [] ∧ ∀ d ∈ fraction, isDigit d) ∧
    cs = whole ++ '.' :: fraction

structure IsFraction (ds : List Char) : Prop where
  ne_nil : ds ≠ []
  digits : ∀ d ∈ ds, isDigit d
  back : ds.getLast? = some '0' → ds = ['0']

/-- Notation with an exponent: one digit other than zero, a point and digits without a needless zero
at their end, and an exponent without a plus sign or a needless zero in front. -/
def Scientific (cs : List Char) : Prop :=
  ∃ (d : Char) (fraction : List Char) (negative : Bool) (power : List Char),
    (isDigit d ∧ d ≠ '0') ∧ IsFraction fraction ∧ IsWhole power ∧
    cs = d :: '.' :: (fraction ++ 'E' :: ((signText negative).toList ++ power))

variable {n : Numeral}

theorem Plain.of_figures {f : Figures} (h : f.power = none) : Plain f.chars := by
  have hfraction : f.fraction ≠ [] := f.marked.resolve_right fun hne => hne h
  refine ⟨f.whole, f.fraction, f.isWhole, ⟨hfraction, f.fraction_digits⟩, ?_⟩
  simp [Figures.chars, h, Figures.pointed_of_ne_nil hfraction, Figures.powered]

theorem getLast?_toDigits {k : Nat} (h : k % 10 ≠ 0) :
    (Nat.toDigits 10 k).getLast? ≠ some '0' := by
  have hdigit : ∀ d < 10, d ≠ 0 → Nat.digitChar d ≠ '0' := by decide
  by_cases hk : k < 10
  · simpa [Nat.toDigits_of_lt_base hk] using hdigit k hk (by omega)
  · rw [Nat.toDigits_of_base_le (by decide) (Nat.le_of_not_lt hk), List.getLast?_append]
    simpa using hdigit (k % 10) (Nat.mod_lt _ (by decide)) h

theorem exponent?_signed (negative : Bool) {power : List Char} (h : IsWhole power) :
    exponent? ('E' :: ((signText negative).toList ++ power)) =
      some (if negative then -(digitsValue power : Int) else digitsValue power) := by
  have hall : power.all isDigit = true := List.all_eq_true.mpr h.digits
  have hne := h.ne_nil
  cases negative with
  | true => simp [exponent?, signText, hall, hne]
  | false =>
    obtain ⟨d, ds, rfl⟩ := List.exists_cons_of_ne_nil hne
    obtain ⟨hminus, hplus⟩ :=
      of_isDigit (fun d => d ≠ '-' ∧ d ≠ '+') (h.digits d List.mem_cons_self) (by decide)
    simpa [exponent?, signText, hminus, hplus] using hall

def padded (ds : List Char) : List Char :=
  if ds = [] then ['0'] else ds

theorem Numeral.toList_scientific {d : Char} {ds : List Char}
    (h : Nat.toDigits 10 n.digits = d :: ds) : n.scientific.toList =
      d :: '.' :: (padded ds ++ 'E' :: ((signText (n.point - 1 < 0)).toList ++
        Nat.toDigits 10 (n.point - 1).natAbs)) := by
  simp only [scientific, split, h, toString_int]
  cases ds with
  | nil => simp [padded, Nat.repr_eq_ofList_toDigits]
  | cons c cs => simp [padded, Nat.repr_eq_ofList_toDigits]

theorem isFraction_padded {d : Char} {ds : List Char} (hds : ∀ c ∈ ds, isDigit c)
    (hlast : (d :: ds).getLast? ≠ some '0') : IsFraction (padded ds) := by
  cases ds with
  | nil => exact ⟨by decide, List.forall_mem_singleton.mpr rfl, fun _ => rfl⟩
  | cons c cs => exact ⟨nofun, hds, fun hback => absurd hback (by simpa [padded] using hlast)⟩

theorem Numeral.scientific_spec (hn : n.digits % 10 ≠ 0) : Scientific n.scientific.toList ∧
    ∃ m, numeral? n.scientific.toList = some m ∧ m.Extends n := by
  have hvalue := digitsValue_toDigits n.digits
  have hhead := head_toDigits (n := n.digits) (by omega)
  have hlast := getLast?_toDigits hn
  have hpoint : n.point = (Nat.toDigits 10 n.digits).length + n.scale := rfl
  have hpower := isWhole_toDigits (n.point - 1).natAbs
  have hexponent := exponent?_signed (n.point - 1 < 0) hpower
  rw [digitsValue_toDigits, signed_natAbs] at hexponent
  obtain ⟨d, ds, hd⟩ := List.exists_cons_of_ne_nil (toDigits_ne_nil n.digits)
  have hdigits : ∀ c ∈ d :: ds, isDigit c := by
    rw [← hd]
    exact fun _ => isDigit_of_mem_toDigits
  rw [toList_scientific hd]
  rw [hd] at hvalue hhead hlast hpoint
  obtain ⟨hfirst, hrest⟩ := List.forall_mem_cons.mp hdigits
  have hpadded := isFraction_padded hrest hlast
  have hwhole : ∀ c ∈ [d], isDigit c := List.forall_mem_singleton.mpr hfirst
  have hread := Figures.numeral?_append (by simp) hwhole hpadded.digits hexponent
  rw [Figures.pointed_of_ne_nil hpadded.ne_nil] at hread
  refine ⟨⟨d, padded ds, _, _, ⟨hfirst, by simpa using hhead⟩, hpadded, hpower, rfl⟩, _, hread, ?_⟩
  cases ds with
  | nil =>
    rw [List.length_singleton] at hpoint
    refine ⟨1, ?_, ?_⟩
    · rw [← hvalue]
      exact digitsValue_append_zeros [d] 1
    · simp only [padded, if_true, List.length_singleton]
      omega
  | cons e es =>
    rw [List.length_cons] at hpoint
    refine ⟨0, ?_, ?_⟩
    · rw [← hvalue, Nat.pow_zero, Nat.mul_one]
      rfl
    · simp only [padded, reduceCtorEq, if_false]
      omega

end Forms

section Texts

variable {mantissa : Nat} {exponent : Int} {x y : Float} {negative : Bool}

theorem isPlain_iff : isPlain mantissa exponent = true ↔
    1 / 1000 ≤ size mantissa exponent ∧ size mantissa exponent < 10 ^ 7 := by
  have hup : (mantissa : ℚ) * 2 ^ exponent.toNat =
      size mantissa exponent * 2 ^ (-exponent).toNat := by
    rw [zpow_toNat (by norm_num), size, mul_assoc]
  have hdown : (0 : ℚ) < 2 ^ (-exponent).toNat := by positivity
  rw [isPlain, Bool.and_eq_true, decide_eq_true_eq, decide_eq_true_eq, ← Nat.cast_le (α := ℚ),
    ← Nat.cast_lt (α := ℚ)]
  simp only [Nat.pow_eq]
  push_cast
  rw [hup]
  constructor
  · rintro ⟨hlow, hhigh⟩
    refine ⟨(mul_le_mul_iff_left₀ hdown).mp ?_, (mul_lt_mul_iff_left₀ hdown).mp ?_⟩
    · linarith
    · linarith
  · rintro ⟨hlow, hhigh⟩
    have hlow := (mul_le_mul_iff_left₀ hdown).mpr hlow
    have hhigh := (mul_lt_mul_iff_left₀ hdown).mpr hhigh
    constructor
    · linarith
    · linarith

def unsignedText (mantissa : Nat) (exponent : Int) : String :=
  if mantissa = 0 then "0.0"
  else if isPlain mantissa exponent then (shortest mantissa exponent).positional
  else (shortest mantissa exponent).scientific

theorem text_finite (h : shape x = .finite negative mantissa exponent) :
    text x = signText negative ++ unsignedText mantissa exponent := by
  rw [text, h, unsignedText]

theorem text_infinite (h : shape x = .infinite negative) :
    text x = signText negative ++ "Infinity" := by
  rw [text, h]

theorem numeral?_unsignedText (h : Canonical mantissa exponent) (hm : mantissa ≠ 0) :
    ∃ n, numeral? (unsignedText mantissa exponent).toList = some n ∧
      n.Extends (shortest mantissa exponent) := by
  have hlast := (shortest_spec h hm).2
  have hne : (shortest mantissa exponent).digits ≠ 0 := shortest_ne_zero hm
  rw [unsignedText, if_neg hm]
  split
  · obtain ⟨f, hf, _, hextends⟩ := Numeral.exists_positional hne
    exact ⟨f.numeral, by rw [hf, f.numeral?_chars], hextends⟩
  · exact (Numeral.scientific_spec hlast).2

/-- The text of a double is read as a decimal that rounds to it. -/
theorem unsignedText_rounds (h : Canonical mantissa exponent) :
    ∃ n, numeral? (unsignedText mantissa exponent).toList = some n ∧
      Rounds mantissa exponent n.value := by
  by_cases hm : mantissa = 0
  · subst hm
    refine ⟨⟨0, -1⟩, by rw [unsignedText, if_pos rfl]; rfl, ?_⟩
    have hzero : (⟨0, -1⟩ : Numeral).value = 0 := by simp [Numeral.value]
    rw [Rounds, if_pos rfl, hzero, low, high]
    constructor
    · simp
    · positivity
  · obtain ⟨n, hn, hextends⟩ := numeral?_unsignedText h hm
    exact ⟨n, hn, hextends.value_eq ▸ (shortest_spec h hm).1⟩

/-- Plain notation is for the range of plain sizes, and the other for the rest. -/
theorem form_unsignedText (h : Canonical mantissa exponent) (hm : mantissa ≠ 0) :
    (1 / 1000 ≤ size mantissa exponent ∧ size mantissa exponent < 10 ^ 7 →
        Plain (unsignedText mantissa exponent).toList) ∧
      (¬ (1 / 1000 ≤ size mantissa exponent ∧ size mantissa exponent < 10 ^ 7) →
        Scientific (unsignedText mantissa exponent).toList) := by
  rw [unsignedText, if_neg hm, ← isPlain_iff]
  constructor
  · intro hplain
    have hne : (shortest mantissa exponent).digits ≠ 0 := shortest_ne_zero hm
    obtain ⟨f, hf, hpower, _⟩ := Numeral.exists_positional hne
    rw [if_pos hplain, hf]
    exact .of_figures hpower
  · intro hplain
    rw [if_neg hplain]
    exact (Numeral.scientific_spec (shortest_spec h hm).2).1

theorem Numeral.point_spec {n : Numeral} (hn : n.digits ≠ 0) :
    (10 : ℚ) ^ (n.point - 1) ≤ n.value ∧ n.value < 10 ^ n.point := by
  have hpos := decimalLength_pos n.digits
  have hscale : (0 : ℚ) < 10 ^ n.scale := by positivity
  have hlow : (10 : ℚ) ^ (decimalLength n.digits - 1) ≤ n.digits := by
    exact_mod_cast pow_decimalLength_le hn
  have hhigh : (n.digits : ℚ) < 10 ^ decimalLength n.digits := by
    exact_mod_cast lt_pow_decimalLength n.digits
  constructor
  · have hpoint : n.point - 1 = (decimalLength n.digits - 1 : Nat) + n.scale := by
      unfold point
      omega
    rw [hpoint, zpow_add₀ (by norm_num), zpow_natCast, value]
    exact mul_le_mul_of_nonneg_right hlow hscale.le
  · rw [point, zpow_add₀ (by norm_num), zpow_natCast, value]
    exact mul_lt_mul_of_pos_right hhigh hscale

theorem Rounds.near {r : ℚ} (h : Rounds mantissa exponent r) (hm : mantissa ≠ 0) :
    size mantissa exponent ≤ 2 * r ∧ r ≤ 2 * size mantissa exponent := by
  have hunit : (0 : ℚ) < 2 ^ (exponent - 2) := by positivity
  have hone : (1 : ℚ) ≤ mantissa := by exact_mod_cast Nat.one_le_iff_ne_zero.mpr hm
  have hquarters : (quartersBelow mantissa exponent : ℚ) ≤ 2 := by
    exact_mod_cast quartersBelow_le mantissa exponent
  have hlow := low_add hm exponent
  have hhigh := size_add mantissa exponent
  have hsize := size_eq mantissa exponent
  have hll := h.low_le
  have hrh := h.le_high
  push_cast at hsize
  constructor
  · nlinarith
  · nlinarith

theorem text_eq_shown (h : shape x = .finite negative mantissa exponent) (hm : mantissa ≠ 0)
    (hsize : 1 / 1000 ≤ size mantissa exponent ∧ size mantissa exponent < 10 ^ 7) :
    text x = shown x := by
  have hplain := isPlain_iff.mpr hsize
  obtain ⟨hbelow, habove⟩ := (shortest_spec (shape_canonical h) hm).1.near hm
  have hne : (shortest mantissa exponent).digits ≠ 0 := shortest_ne_zero hm
  obtain ⟨hfirst, hlast⟩ := Numeral.point_spec hne
  have hlow : -4 < (shortest mantissa exponent).point := by
    rw [← zpow_lt_zpow_iff_right₀ (by norm_num : (1 : ℚ) < 10)]
    norm_num
    linarith
  have hhigh : (shortest mantissa exponent).point - 1 < 8 := by
    rw [← zpow_lt_zpow_iff_right₀ (by norm_num : (1 : ℚ) < 10)]
    norm_num
    linarith
  rw [text, shown, h]
  simp only [hm, hplain, if_true, if_false]
  rw [if_pos ⟨hlow, by omega⟩]

theorem signText_append_inj {a b : Bool} {s t : String} (hs : s.toList.head? ≠ some '-')
    (ht : t.toList.head? ≠ some '-') (h : signText a ++ s = signText b ++ t) : a = b ∧ s = t := by
  have hchars : (signText a).toList ++ s.toList = (signText b).toList ++ t.toList := by
    rw [← String.toList_append, h, String.toList_append]
  cases a <;> cases b
  · exact ⟨rfl, String.toList_inj.mp hchars⟩
  · have heq : s.toList = '-' :: t.toList := hchars
    exact absurd (congrArg List.head? heq) hs
  · have heq : '-' :: s.toList = t.toList := hchars
    exact absurd (congrArg List.head? heq).symm ht
  · have heq : '-' :: s.toList = '-' :: t.toList := hchars
    exact ⟨rfl, String.toList_inj.mp (List.cons.inj heq).2⟩

theorem head_of_numeral? {cs : List Char} {n : Numeral} (h : numeral? cs = some n) :
    cs.head? ≠ some '-' := by
  intro hhead
  obtain ⟨tail, rfl⟩ := List.head?_eq_some_iff.mp hhead
  rw [numeral?_minus] at h
  cases h

theorem text_cases (hx : shape x ≠ .nan) :
    (∃ negative, shape x = .infinite negative ∧ text x = signText negative ++ "Infinity") ∨
      ∃ negative mantissa exponent n, shape x = .finite negative mantissa exponent ∧
        text x = signText negative ++ unsignedText mantissa exponent ∧
          numeral? (unsignedText mantissa exponent).toList = some n ∧
            Rounds mantissa exponent n.value := by
  cases h : shape x with
  | finite negative mantissa exponent =>
    obtain ⟨n, hn, hrounds⟩ := unsignedText_rounds (shape_canonical h)
    exact .inr ⟨negative, mantissa, exponent, n, rfl, text_finite h, hn, hrounds⟩
  | infinite negative => exact .inl ⟨negative, rfl, text_infinite h⟩
  | nan => exact absurd h hx

theorem eq_of_text (hx : shape x ≠ .nan) (hy : shape y ≠ .nan) (h : text x = text y) : x = y := by
  have hinfinity : numeral? "Infinity".toList = none := rfl
  have hhead : "Infinity".toList.head? ≠ some '-' := by decide
  refine eq_of_shape ?_ hx
  obtain ⟨a, hshape, htext⟩ | ⟨a, m, e, n, hshape, htext, hn, hrounds⟩ := text_cases hx
  · obtain ⟨b, hshape', htext'⟩ | ⟨b, m', e', n', hshape', htext', hn', _⟩ := text_cases hy
    · rw [htext, htext'] at h
      rw [hshape, hshape', (signText_append_inj hhead hhead h).1]
    · rw [htext, htext'] at h
      rw [← (signText_append_inj hhead (head_of_numeral? hn') h).2, hinfinity] at hn'
      cases hn'
  · obtain ⟨b, hshape', htext'⟩ | ⟨b, m', e', n', hshape', htext', hn', hrounds'⟩ := text_cases hy
    · rw [htext, htext'] at h
      rw [(signText_append_inj (head_of_numeral? hn) hhead h).2, hinfinity] at hn
      cases hn
    · rw [htext, htext'] at h
      obtain ⟨rfl, heq⟩ := signText_append_inj (head_of_numeral? hn) (head_of_numeral? hn') h
      rw [heq, hn'] at hn
      cases hn
      obtain ⟨rfl, rfl⟩ :=
        (shape_canonical hshape).eq_of_rounds (shape_canonical hshape') hrounds hrounds'
      rw [hshape, hshape']

end Texts

/-- The text of a finite double other than zero denotes the same number as its text as a piece of
data, and that number rounds to the double. From a thousandth up to ten million the two texts are
one, in plain notation, and elsewhere the text has one digit before the point and an exponent. Among
all doubles that are numbers the text says which it is, the sign of a zero included. -/
theorem text_denotes :
    (∀ (x : Float) (negative : Bool) (mantissa : Nat) (exponent : Int),
      shape x = .finite negative mantissa exponent → mantissa ≠ 0 →
        (∃ q, Rounds mantissa exponent q ∧
          rational? (text x).toList = some (if negative then -q else q) ∧
          rational? (shown x).toList = some (if negative then -q else q)) ∧
        ∃ cs, (text x).toList = (signText negative).toList ++ cs ∧
          (1 / 1000 ≤ size mantissa exponent ∧ size mantissa exponent < 10 ^ 7 →
            Plain cs ∧ text x = shown x) ∧
          (¬ (1 / 1000 ≤ size mantissa exponent ∧ size mantissa exponent < 10 ^ 7) →
            Scientific cs)) ∧
      ∀ x y : Float, shape x ≠ .nan → shape y ≠ .nan → text x = text y → x = y := by
  refine ⟨fun x negative mantissa exponent h hm => ?_, fun x y => eq_of_text⟩
  have hcanonical := shape_canonical h
  obtain ⟨hplain, hscientific⟩ := form_unsignedText hcanonical hm
  have htext : (text x).toList =
      (signText negative).toList ++ (unsignedText mantissa exponent).toList := by
    rw [text_finite h, String.toList_append]
  refine ⟨⟨(shortest mantissa exponent).value, (shortest_spec hcanonical hm).1, ?_, ?_⟩, _, htext,
    fun hsize => ⟨hplain hsize, text_eq_shown h hm hsize⟩, hscientific⟩
  · obtain ⟨n, hn, hextends⟩ := numeral?_unsignedText hcanonical hm
    rw [htext, rational?_signed negative hn, hextends.value_eq]
  · obtain ⟨f, hf, hextends⟩ := exists_shown h
    rw [hf, rational?_signed negative f.numeral?_chars, (hextends hm).value_eq]

/-- A small double, and two ways of writing one. -/
theorem text_denotes_small :
    shape (-1.5e-7) = .finite true 5666839779443574 (-75) ∧
      (∃ q, Rounds 5666839779443574 (-75) q ∧ rational? "-1.5E-7".toList = some (-q) ∧
        rational? "-1.5e-07".toList = some (-q)) ∧
      (∃ cs, "-1.5E-7".toList = '-' :: cs ∧ Scientific cs) ∧
      text 0.1 = text 0.10000000000000001 ∧ (0.1 : Float) = 0.10000000000000001 := by
  obtain ⟨hdenotes, hinjective⟩ := text_denotes
  have hshape : shape (-1.5e-7) = .finite true 5666839779443574 (-75) := by decide
  have htext : text (-1.5e-7) = "-1.5E-7" := by rfl
  have hshown : shown (-1.5e-7) = "-1.5e-07" := by rfl
  have hsize : ¬ (1 / 1000 ≤ size 5666839779443574 (-75) ∧ size 5666839779443574 (-75) < 10 ^ 7) := by
    norm_num [size]
  have hsame : text 0.1 = text 0.10000000000000001 := by rfl
  obtain ⟨⟨q, hq⟩, cs, hcs, _, hscientific⟩ := hdenotes _ _ _ _ hshape (by decide)
  rw [htext, hshown] at hq
  rw [htext] at hcs
  exact ⟨hshape, ⟨q, hq⟩, ⟨cs, hcs, hscientific hsize⟩, hsame,
    hinjective _ _ (by decide) (by decide) hsame⟩

end Guion.Double
