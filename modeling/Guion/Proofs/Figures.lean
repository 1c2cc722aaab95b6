import Guion.Double.Text
import Guion.Proofs.Digits

namespace Guion.Double

def EndsDigits (rest : List Char) : Prop :=
  ∀ c ∈ rest.head?, isDigit c = false

theorem takeWhile_isDigit {ds rest : List Char} (hds : ∀ d ∈ ds, isDigit d)
    (hr : EndsDigits rest) : (ds ++ rest).takeWhile isDigit = ds := by
  rw [List.takeWhile_append_of_pos hds]
  cases rest with
  | nil => simp
  | cons c cs => simp [hr c rfl]

theorem dropWhile_isDigit {ds rest : List Char} (hds : ∀ d ∈ ds, isDigit d)
    (hr : EndsDigits rest) : (ds ++ rest).dropWhile isDigit = rest := by
  rw [List.dropWhile_append_of_pos hds]
  cases rest with
  | nil => rfl
  | cons c cs => simp [hr c rfl]

/-- The decimal that a text is read as: digits with an optional point among or around them and an
optional exponent. -/
def numeral? (cs : List Char) : Option Numeral :=
  let whole := cs.takeWhile isDigit
  let rest := cs.dropWhile isDigit
  let (fraction, rest) := match rest with
    | '.' :: rest => (rest.takeWhile isDigit, rest.dropWhile isDigit)
    | rest => ([], rest)
  if whole = [] ∧ fraction = [] then none
  else (exponent? rest).map fun exponent =>
    ⟨digitsValue (whole ++ fraction), exponent - fraction.length⟩

theorem unsigned?_eq (cs : List Char) : unsigned? cs = (numeral? cs).map ofNumeral := by
  have hparts (whole fraction rest : List Char) :
      (if whole = [] ∧ fraction = [] then none
        else (exponent? rest).map (ofDigits whole fraction)) =
      Option.map ofNumeral (if whole = [] ∧ fraction = [] then none
        else (exponent? rest).map fun exponent =>
          ⟨digitsValue (whole ++ fraction), exponent - fraction.length⟩) := by
    split
    next => rfl
    next =>
      rw [Option.map_map]
      rfl
  exact hparts _ _ _

/-- The same number with more zeros at the end of its digits. -/
def Numeral.Extends (a b : Numeral) : Prop :=
  ∃ k : Nat, a.digits = b.digits * 10 ^ k ∧ a.scale + k = b.scale

theorem Numeral.Extends.refl (n : Numeral) : n.Extends n :=
  ⟨0, by simp, by simp⟩

structure IsWhole (ds : List Char) : Prop where
  ne_nil : ds ≠ []
  digits : ∀ d ∈ ds, isDigit d
  front : ds.head? = some '0' → ds = ['0']

theorem IsWhole.zero : IsWhole ['0'] :=
  ⟨by simp, List.forall_mem_singleton.mpr rfl, fun _ => rfl⟩

theorem head_toDigits {n : Nat} (h : n ≠ 0) : (Nat.toDigits 10 n).head? ≠ some '0' := by
  induction n using Nat.strongRecOn with
  | ind n ih =>
    by_cases hn : n < 10
    · have hone : ∀ d < 10, d ≠ 0 → Nat.digitChar d ≠ '0' := by decide
      simpa [Nat.toDigits_of_lt_base hn] using hone n hn h
    · have hten : 10 ≤ n := Nat.le_of_not_lt hn
      have hrest := ih (n / 10) (by omega) (by omega)
      obtain ⟨c, cs, hc⟩ := List.exists_cons_of_ne_nil (toDigits_ne_nil (n / 10))
      rw [Nat.toDigits_of_base_le (by decide) hten, hc]
      rwa [hc] at hrest

theorem isWhole_toDigits (n : Nat) : IsWhole (Nat.toDigits 10 n) := by
  refine ⟨toDigits_ne_nil n, fun d hd => isDigit_of_mem_toDigits hd, fun hz => ?_⟩
  by_cases hn : n = 0
  · subst hn
    rfl
  · exact absurd hz (head_toDigits hn)

/-- A double in writing: digits, digits after a point, and the sign and digits of an exponent. At
least one of the last two is there. -/
structure Figures where
  whole : List Char
  fraction : List Char
  power : Option (Bool × List Char)
  isWhole : IsWhole whole
  fraction_digits : ∀ d ∈ fraction, isDigit d
  power_digits : ∀ p ∈ power, p.2 ≠ [] ∧ ∀ d ∈ p.2, isDigit d
  marked : fraction ≠ [] ∨ power ≠ none

namespace Figures

def pointed : List Char → List Char
  | [] => []
  | ds => '.' :: ds

theorem pointed_of_ne_nil {ds : List Char} (h : ds ≠ []) : pointed ds = '.' :: ds := by
  cases ds with
  | nil => exact absurd rfl h
  | cons d ds => rfl

def powered : Option (Bool × List Char) → List Char
  | none => []
  | some (negative, ds) => 'e' :: (if negative then '-' else '+') :: ds

def chars (f : Figures) : List Char :=
  f.whole ++ (pointed f.fraction ++ powered f.power)

def exponent (f : Figures) : Int :=
  match f.power with
  | none => 0
  | some (negative, ds) => if negative then -(digitsValue ds : Int) else digitsValue ds

def numeral (f : Figures) : Numeral :=
  ⟨digitsValue (f.whole ++ f.fraction), f.exponent - f.fraction.length⟩

def double (f : Figures) : Float :=
  ofNumeral f.numeral

theorem endsDigits_of_exponent? {rest : List Char} {k : Int} (h : exponent? rest = some k) :
    EndsDigits rest ∧ rest.head? ≠ some '.' := by
  cases rest with
  | nil => exact ⟨nofun, nofun⟩
  | cons mark cs =>
    simp only [exponent?] at h
    split at h
    next hmark =>
      obtain rfl | rfl := hmark
      · exact ⟨fun c hc => by cases hc; rfl, by simp⟩
      · exact ⟨fun c hc => by cases hc; rfl, by simp⟩
    next => cases h

theorem endsDigits_powered (power : Option (Bool × List Char)) {rest : List Char}
    (hr : EndsDigits rest) : EndsDigits (powered power ++ rest) := by
  cases power with
  | none => exact hr
  | some p => exact fun c hc => by cases hc; rfl

theorem endsDigits_pointed (fraction : List Char) {rest : List Char} (hr : EndsDigits rest) :
    EndsDigits (pointed fraction ++ rest) := by
  cases fraction with
  | nil => exact hr
  | cons d ds => exact fun c hc => by cases hc; rfl

theorem numeral?_append {whole fraction rest : List Char} {k : Int} (hne : whole ≠ [])
    (hw : ∀ d ∈ whole, isDigit d) (hf : ∀ d ∈ fraction, isDigit d) (hk : exponent? rest = some k) :
    numeral? (whole ++ (pointed fraction ++ rest)) =
      some ⟨digitsValue (whole ++ fraction), k - fraction.length⟩ := by
  obtain ⟨hends, hdot⟩ := endsDigits_of_exponent? hk
  have hrest := endsDigits_pointed fraction hends
  unfold numeral?
  rw [takeWhile_isDigit hw hrest, dropWhile_isDigit hw hrest]
  cases fraction with
  | nil =>
    simp only [pointed, List.nil_append]
    split
    next => exact absurd rfl hdot
    next => simp [hne, hk]
  | cons d ds =>
    have htake := takeWhile_isDigit hf hends
    have hdrop := dropWhile_isDigit hf hends
    simp only [pointed, List.cons_append] at htake hdrop ⊢
    simp [htake, hdrop, hk]

theorem exponent?_powered (f : Figures) : exponent? (powered f.power) = some f.exponent := by
  rcases hp : f.power with _ | ⟨negative, ds⟩
  · simp [powered, exponent?, exponent, hp]
  · obtain ⟨hne, hds⟩ := f.power_digits _ hp
    have hall : ds.all isDigit = true := List.all_eq_true.mpr hds
    cases negative <;> simp [powered, exponent?, exponent, hp, hne, hall]

theorem numeral?_chars (f : Figures) : numeral? f.chars = some f.numeral :=
  numeral?_append f.isWhole.ne_nil f.isWhole.digits f.fraction_digits f.exponent?_powered

theorem unsigned?_chars (f : Figures) : unsigned? f.chars = some f.double := by
  rw [unsigned?_eq, numeral?_chars]
  rfl

theorem mem_chars (f : Figures) {c : Char} (h : c ∈ f.chars) :
    isDigit c ∨ c = '.' ∨ c = 'e' ∨ c = '+' ∨ c = '-' := by
  simp only [chars, List.mem_append] at h
  obtain h | h | h := h
  · exact .inl (f.isWhole.digits c h)
  · cases hf : f.fraction with
    | nil => simp [hf, pointed] at h
    | cons d ds =>
      simp only [hf, pointed, List.mem_cons] at h
      obtain rfl | h := h
      · exact .inr (.inl rfl)
      · exact .inl (f.fraction_digits c (by simpa [hf] using h))
  · cases hp : f.power with
    | none => simp [hp, powered] at h
    | some p =>
      simp only [hp, powered, List.mem_cons] at h
      obtain rfl | rfl | h := h
      · simp
      · split <;> simp
      · exact .inl ((f.power_digits p hp).2 c h)

theorem exists_chars (f : Figures) : ∃ d cs, f.chars = d :: cs ∧ isDigit d := by
  obtain ⟨d, ds, hd⟩ := List.exists_cons_of_ne_nil f.isWhole.ne_nil
  exact ⟨d, _, by rw [chars, hd, List.cons_append], f.isWhole.digits d (by simp [hd])⟩

end Figures

section Shortest

variable {mantissa : Nat} {exponent scale : Int}

theorem ratio_pos (exponent scale : Int) : 0 < (ratio exponent scale).1 :=
  Nat.mul_pos (Nat.pow_pos (by decide)) (Nat.pow_pos (by decide))

theorem quartersBelow_le (mantissa : Nat) (exponent : Int) :
    quartersBelow mantissa exponent ≤ 2 := by
  unfold quartersBelow
  split <;> omega

theorem roundsTo_zero (hm : mantissa ≠ 0) : roundsTo mantissa exponent 0 scale = false := by
  have hbelow := quartersBelow_le mantissa exponent
  have hratio := ratio_pos exponent scale
  rw [roundsTo]
  revert hratio
  rcases ratio exponent scale with ⟨num, den⟩
  intro hratio
  have hlow : 0 < (4 * mantissa - quartersBelow mantissa exponent) * num :=
    Nat.mul_pos (by omega) hratio
  simp only [Nat.zero_mul]
  split
  · rw [decide_eq_false (Nat.not_le.mpr hlow), Bool.false_and]
  · rfl

theorem onGrid?_ne_zero (hm : mantissa ≠ 0) {count : Nat}
    (h : onGrid? mantissa exponent scale = some count) : count ≠ 0 := by
  rintro rfl
  have hzero : roundsTo mantissa exponent 0 scale = false := roundsTo_zero hm
  rw [onGrid?] at h
  simp only at h
  split at h
  next hb _ =>
    split at h
    next =>
      rw [Option.some.inj h, hzero] at hb
      cases hb
    next => simp at h
  next hb _ =>
    rw [Option.some.inj h, hzero] at hb
    cases hb
  next => simp at h
  next => cases h

theorem Numeral.trimmed_ne_zero {n : Numeral} (h : n.digits ≠ 0) (fuel : Nat) :
    (n.trimmed fuel).digits ≠ 0 := by
  induction fuel generalizing n with
  | zero => exact h
  | succ fuel ih =>
    unfold Numeral.trimmed
    split
    next hlast =>
      refine ih ?_
      simp only
      omega
    next => exact h

theorem shortest_ne_zero (hm : mantissa ≠ 0) : (shortest mantissa exponent).digits ≠ 0 := by
  refine Numeral.trimmed_ne_zero ?_ _
  generalize decimalPlaces mantissa exponent = places
  cases hf : (List.range 17).findSome? fun n =>
      (onGrid? mantissa exponent (places - (n + 1 : Nat))).map fun digits =>
        (⟨digits, places - (n + 1 : Nat)⟩ : Numeral) with
  | none => exact hm
  | some found =>
    obtain ⟨n, _, hn⟩ := List.exists_of_findSome?_eq_some hf
    obtain ⟨digits, hdigits, rfl⟩ := Option.map_eq_some_iff.mp hn
    exact onGrid?_ne_zero hm hdigits

end Shortest

section Shown

variable {n : Numeral}

theorem toString_int (k : Int) : toString k = signText (k < 0) ++ toString k.natAbs := by
  cases k with
  | ofNat k => rfl
  | negSucc k =>
    rw [decide_eq_true (Int.negSucc_lt_zero k)]
    rfl

theorem toList_zeros (k : Nat) : (zeros k).toList = List.replicate k '0' := by
  simp [zeros]

theorem isDigit_of_mem_zeros {k : Nat} {d : Char} (h : d ∈ List.replicate k '0') :
    isDigit d = true := by
  rw [List.eq_of_mem_replicate h]
  rfl

theorem isDigit_append {ds es : List Char} (hds : ∀ d ∈ ds, isDigit d) (hes : ∀ d ∈ es, isDigit d) :
    ∀ d ∈ ds ++ es, isDigit d :=
  List.forall_mem_append.mpr ⟨hds, hes⟩

def Figures.plain (whole fraction : List Char) (hw : IsWhole whole)
    (hf : ∀ d ∈ fraction, isDigit d) (hne : fraction ≠ []) : Figures :=
  ⟨whole, fraction, none, hw, hf, nofun, .inl hne⟩

theorem Figures.chars_plain {whole fraction : List Char} {hw : IsWhole whole}
    {hf : ∀ d ∈ fraction, isDigit d} {hne : fraction ≠ []} :
    (Figures.plain whole fraction hw hf hne).chars = whole ++ '.' :: fraction := by
  simp [plain, chars, pointed_of_ne_nil hne, powered]

theorem isWhole_of_head {ds : List Char} (hd : ∀ d ∈ ds, isDigit d) (hne : ds ≠ [])
    (hhead : ds.head? ≠ some '0') : IsWhole ds :=
  ⟨hne, hd, fun h => absurd h hhead⟩

theorem Numeral.exists_positional (hn : n.digits ≠ 0) :
    ∃ f : Figures, n.positional.toList = f.chars ∧ f.power = none ∧ f.numeral.Extends n := by
  have hdigits : ∀ d ∈ Nat.toDigits 10 n.digits, isDigit d := fun _ => isDigit_of_mem_toDigits
  have hvalue := digitsValue_toDigits n.digits
  have hhead := head_toDigits hn
  have hne := toDigits_ne_nil n.digits
  have hpoint : n.point = (Nat.toDigits 10 n.digits).length + n.scale := rfl
  unfold Numeral.positional
  simp only
  split
  -- the point stands before all digits
  next hfront =>
    refine ⟨.plain ['0'] (List.replicate (-n.point).toNat '0' ++ Nat.toDigits 10 n.digits) .zero
      (isDigit_append (fun _ => isDigit_of_mem_zeros) hdigits) (by simp), ?_, rfl, 0, ?_, ?_⟩
    · rw [Figures.chars_plain]
      simp [toList_zeros]
    · rw [Nat.pow_zero, Nat.mul_one]
      exact (digitsValue_zeros _ _).trans hvalue
    · simp only [Figures.numeral, Figures.plain, Figures.exponent, List.length_append,
        List.length_replicate]
      omega
  next hfront =>
    split
    -- the point stands behind all digits, and zeros fill the gap
    next hback =>
      obtain ⟨d, ds, hd⟩ := List.exists_cons_of_ne_nil hne
      rw [hd] at hdigits hhead hpoint hback hvalue ⊢
      refine ⟨.plain (d :: ds ++ List.replicate (n.point - (d :: ds).length).toNat '0') ['0']
        (isWhole_of_head (isDigit_append hdigits fun _ => isDigit_of_mem_zeros) (by simp) hhead)
        (List.forall_mem_singleton.mpr rfl) (by decide), ?_, rfl,
        (n.point - (d :: ds).length).toNat + 1, ?_, ?_⟩
      · rw [Figures.chars_plain]
        simp [toList_zeros]
      · simp only [Figures.numeral, Figures.plain]
        rw [List.append_assoc, ← List.replicate_succ', digitsValue_append_zeros, hvalue]
      · simp only [Figures.numeral, Figures.plain, Figures.exponent, List.length_singleton]
        omega
    next hback =>
      have htake : (Nat.toDigits 10 n.digits).take n.point.toNat ≠ [] := by
        simp [List.take_eq_nil_iff]
        omega
      have hdrop : (Nat.toDigits 10 n.digits).drop n.point.toNat ≠ [] := by
        simp [List.drop_eq_nil_iff]
        omega
      have hwhole : IsWhole ((Nat.toDigits 10 n.digits).take n.point.toNat) := by
        refine isWhole_of_head (fun d hd => hdigits d (List.mem_of_mem_take hd)) htake ?_
        rwa [List.head?_take, if_neg (by omega)]
      refine ⟨.plain _ _ hwhole (fun d hd => hdigits d (List.mem_of_mem_drop hd)) hdrop, ?_, rfl, 0,
        ?_, ?_⟩
      · rw [Figures.chars_plain]
        simp
      · simp only [Figures.numeral, Figures.plain]
        rw [List.take_append_drop, hvalue, Nat.pow_zero, Nat.mul_one]
      · simp only [Figures.numeral, Figures.plain, Figures.exponent, List.length_drop]
        omega

theorem exists_power (power : Int) : ∃ ds : List Char, (ds ≠ [] ∧ ∀ d ∈ ds, isDigit d) ∧
    digitsValue ds = power.natAbs ∧
    ("e" ++ (if power < 0 then "-" else "+") ++
      (if (toString power.natAbs).length < 2 then "0" ++ toString power.natAbs
        else toString power.natAbs)).toList =
      Figures.powered (some (decide (power < 0), ds)) := by
  have hne := toDigits_ne_nil power.natAbs
  have hdigits : ∀ d ∈ Nat.toDigits 10 power.natAbs, isDigit d := fun _ => isDigit_of_mem_toDigits
  have hvalue := digitsValue_toDigits power.natAbs
  have hsign : (if power < 0 then "-" else "+").toList = [if power < 0 then '-' else '+'] := by
    split <;> rfl
  by_cases hshort : (toString power.natAbs).length < 2
  · refine ⟨'0' :: Nat.toDigits 10 power.natAbs,
      ⟨by simp, List.forall_mem_cons.mpr ⟨rfl, hdigits⟩⟩, hvalue, ?_⟩
    rw [if_pos hshort]
    simp [hsign, Figures.powered, Nat.repr_eq_ofList_toDigits]
  · refine ⟨Nat.toDigits 10 power.natAbs, ⟨hne, hdigits⟩, hvalue, ?_⟩
    rw [if_neg hshort]
    simp [hsign, Figures.powered, Nat.repr_eq_ofList_toDigits]

theorem Numeral.exists_exponential (hn : n.digits ≠ 0) :
    ∃ f : Figures, n.exponential.toList = f.chars ∧ f.numeral = n := by
  have hhead := head_toDigits hn
  have hvalue := digitsValue_toDigits n.digits
  have hpoint : n.point = (Nat.toDigits 10 n.digits).length + n.scale := rfl
  obtain ⟨d, ds, hd⟩ := List.exists_cons_of_ne_nil (toDigits_ne_nil n.digits)
  have hdigits : ∀ c ∈ d :: ds, isDigit c := by
    rw [← hd]
    exact fun _ => isDigit_of_mem_toDigits
  rw [hd] at hhead hvalue hpoint
  obtain ⟨es, hes, hsize, hpower⟩ := exists_power (n.point - 1)
  have hwhole : IsWhole [d] :=
    isWhole_of_head (List.forall_mem_singleton.mpr (hdigits d List.mem_cons_self)) (by simp) hhead
  refine ⟨⟨[d], ds, some (decide (n.point - 1 < 0), es), hwhole,
    fun c hc => hdigits c (List.mem_cons_of_mem _ hc), fun p hp => ?_, .inr nofun⟩, ?_, ?_⟩
  · cases hp
    exact hes
  · simp only [Figures.chars, ← hpower]
    unfold Numeral.exponential Numeral.split
    simp only [hd]
    cases ds with
    | nil => simp [Figures.pointed]
    | cons c cs => simp [Figures.pointed]
  · have hexponent : (if decide (n.point - 1 < 0) then -(digitsValue es : Int)
        else digitsValue es) = n.point - 1 := by
      rw [hsize, signed_natAbs]
    simp only [Figures.numeral, Figures.exponent, hexponent, List.singleton_append, hvalue]
    rw [List.length_cons] at hpoint
    rw [show n.point - 1 - (ds.length : Int) = n.scale by omega]

theorem exists_shown {x : Float} {negative : Bool} {mantissa : Nat} {exponent : Int}
    (h : shape x = .finite negative mantissa exponent) :
    ∃ f : Figures, (shown x).toList = (signText negative).toList ++ f.chars ∧
      (mantissa ≠ 0 → f.numeral.Extends (shortest mantissa exponent)) := by
  rw [shown, h]
  simp only [String.toList_append]
  split
  next hzero =>
    refine ⟨.plain ['0'] ['0'] .zero (List.forall_mem_singleton.mpr rfl) (by decide), ?_,
      fun hm => absurd hzero hm⟩
    rw [Figures.chars_plain]
    rfl
  next hm =>
    have hn : (shortest mantissa exponent).digits ≠ 0 := shortest_ne_zero hm
    split
    next =>
      obtain ⟨f, hf, _, hextends⟩ := Numeral.exists_positional hn
      exact ⟨f, by rw [hf], fun _ => hextends⟩
    next =>
      obtain ⟨f, hf, hnumeral⟩ := Numeral.exists_exponential hn
      exact ⟨f, by rw [hf], fun _ => hnumeral ▸ .refl _⟩

end Shown

theorem withoutUnderscores_eq {cs : List Char} (h : '_' ∉ cs) : withoutUnderscores cs = cs := by
  fun_induction withoutUnderscores cs with
  | case1 a b cs _ ih => simp at h
  | case2 a b cs _ ih => simp at h
  | case3 a cs _ ih => rw [ih fun hm => h (List.mem_cons_of_mem _ hm)]
  | case4 => rfl

def tenDigits : List Char := ['0', '1', '2', '3', '4', '5', '6', '7', '8', '9']

theorem mem_of_isDigit {c : Char} (h : isDigit c) : c ∈ tenDigits := by
  have hall : ∀ n < 58, 48 ≤ n → Char.ofNat n ∈ tenDigits := by decide
  simp only [isDigit, Bool.and_eq_true, decide_eq_true_eq] at h
  have hlow : 48 ≤ c.toNat := h.1
  have hhigh : c.toNat ≤ 57 := h.2
  simpa [Char.ofNat_toNat] using hall c.toNat (by omega) hlow

theorem of_isDigit (property : Char → Prop) [DecidablePred property] {c : Char} (hc : isDigit c)
    (h : tenDigits.all (fun c => decide (property c)) = true) : property c :=
  of_decide_eq_true (List.all_eq_true.mp h c (mem_of_isDigit hc))

/-- Figures under a sign are read as their double. -/
theorem read?_chars (negative : Bool) (f : Figures) :
    read? ((signText negative).toList ++ f.chars) = some (signed negative f.double) := by
  obtain ⟨d, cs, hcs, hd⟩ := f.exists_chars
  obtain ⟨hminus, hplus, hi, hn⟩ :=
    of_isDigit (fun d => d ≠ '-' ∧ d ≠ '+' ∧ d.toLower ≠ 'i' ∧ d.toLower ≠ 'n') hd (by decide)
  have hunder : withoutUnderscores f.chars = f.chars := by
    refine withoutUnderscores_eq fun hm => ?_
    have hdigit : isDigit '_' = false := rfl
    simpa [hdigit] using f.mem_chars hm
  have hread := f.unsigned?_chars
  rw [← hunder, hcs] at hread
  have hinf (text : String) : String.singleton d.toLower ++ text ≠ "inf" ∧
      String.singleton d.toLower ++ text ≠ "infinity" ∧
      String.singleton d.toLower ++ text ≠ "nan" := by
    refine ⟨fun h => ?_, fun h => ?_, fun h => ?_⟩ <;>
      simpa [hi, hn] using congrArg String.toList h
  cases negative with
  | true => simp [read?, signText, hcs, hinf, hread]
  | false => simp [read?, signText, hcs, hminus, hplus, hinf, hread]

/-- A double that its own text is read as. -/
def ReadsBack (x : Float) : Prop :=
  read? (shown x).toList = some x

theorem ReadsBack.exists_figures {x : Float} {negative : Bool} {mantissa : Nat} {exponent : Int}
    (hx : ReadsBack x) (h : shape x = .finite negative mantissa exponent) :
    ∃ f : Figures, (shown x).toList = (signText negative).toList ++ f.chars ∧
      signed negative f.double = x := by
  obtain ⟨f, hf, _⟩ := exists_shown h
  rw [ReadsBack, hf, read?_chars] at hx
  exact ⟨f, hf, Option.some.inj hx⟩

theorem ReadsBack.infinite {x : Float} {negative : Bool} (hx : ReadsBack x)
    (h : shape x = .infinite negative) : x = signed negative infinity := by
  have hread : read? (signText negative ++ "inf").toList = some (signed negative infinity) := by
    cases negative <;> rfl
  rw [ReadsBack, shown, h] at hx
  exact Option.some.inj (hx.symm.trans hread)

theorem ReadsBack.eq_nan {x : Float} (hx : ReadsBack x) (h : shape x = .nan) : x = nan := by
  have hread : read? "nan".toList = some nan := rfl
  rw [ReadsBack, shown, h] at hx
  exact Option.some.inj (hx.symm.trans hread)

end Guion.Double
