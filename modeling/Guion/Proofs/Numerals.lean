import Guion.Proofs.Grammar.Cursor
import Guion.Proofs.Wrapping

namespace Guion

open Double (digitsValue digitLimit isDigit signText zeros)
open Parse

section Digits

/-- An integer in writing: its sign, zeros in front and its digits. -/
def numeralText (n : Int) (front : Nat) : String :=
  signText (n < 0) ++ zeros front ++ toString n.natAbs

theorem numeralText_eq (n : Int) (front : Nat) :
    numeralText n front = signText (n < 0) ++
      String.ofList (List.replicate front '0' ++ Nat.toDigits 10 n.natAbs) := by
  simp [numeralText, zeros, String.append_assoc, Nat.repr_eq_ofList_toDigits]

theorem text_largo (n : Int) : (Value.largo n).text = numeralText n 0 := by
  rw [Value.text, numeralText, zeros, List.replicate_zero, String.ofList_nil, String.append_empty,
    Double.toString_int]

end Digits

section Reading

variable {ds : List Char}

namespace Parse.Cursor

theorem Step.of_digits (st : State) (mark : Mark) {next : State} {rest : List Char}
    (hne : ds ≠ []) (hds : ∀ d ∈ ds, isDigit d) (hr : Double.EndsDigits rest)
    (hdot : rest.head? ≠ some '.')
    (ha : st.focus.accepts .integer) (hnext : st.next? ⟨.integer, ds, mark⟩ = some next) :
    Step ⟨st, mark, ds ++ rest⟩ [⟨.integer, ds, mark⟩] ⟨next, mark.advance ds, rest⟩ := by
  have hlexeme := lexeme?_digits ha hne hds hr hdot
  have hlayout : layout? (ds ++ rest) = none := by
    obtain ⟨d, tail, rfl⟩ := List.exists_cons_of_ne_nil hne
    have hd : isDigit d := hds d List.mem_cons_self
    refine layout?_eq_none (isSpace_of_isNamePart (isNamePart_of_isDigit hd)) fun hslash => ?_
    subst hslash
    cases hd
  exact .token hlayout hlexeme hnext

end Parse.Cursor

/-- What is read from digits under a sign at the start of a text. -/
def signedLiteral (negative : Bool) (n : Nat) : Expr :=
  if negative then
    .unary (Mark.pos ⟨1, 1⟩) .minus (.literal (Mark.pos ⟨1, 2⟩) (.integer (.int n)))
  else .literal (Mark.pos ⟨1, 1⟩) (.integer (.int n))

theorem scans_signed (negative : Bool) (hne : ds ≠ []) (hds : ∀ d ∈ ds, isDigit d) :
    ∃ ts d, (Cursor.start (signText negative ++ String.ofList ds ++ ";").toList).Scans ts d ∧
      d.text = [] ∧ d.state.program? = some ⟨Mark.pos ⟨1, 1⟩,
        [.expr (Mark.pos ⟨1, 1⟩) (signedLiteral negative (digitsValue ds))]⟩ ∧
      ts.find? isTooLong = if digitLimit < ds.length then some ⟨.integer, ds, ⟨1, negative.toNat + 1⟩⟩
        else none := by
  have hend : Double.EndsDigits [';'] := fun c hc => by cases hc; rfl
  have hstop {e : Operand} {pending : List Pending} {next : State} {mark : Mark}
      (h : State.endExpr? ⟨[], [], .operand .closed e .statement pending⟩ .statement pending e =
        some next) :
      Cursor.Step ⟨⟨[], [], .operand .closed e .statement pending⟩, mark, [';']⟩
        [⟨.symbol .semicolon, [';'], mark⟩] ⟨next, mark.advance [';'], []⟩ :=
    .token (t := ⟨.symbol .semicolon, [';'], mark⟩) rfl rfl h
  cases negative with
  | false =>
    have htext : (signText false ++ String.ofList ds ++ ";").toList = ds ++ [';'] := by
      simp [signText]
    have hdigits := Cursor.Step.of_digits {} {} hne hds hend (by decide) rfl rfl
    have hscans := (Cursor.Scans.one hdigits).trans (.one (hstop rfl))
    rw [htext]
    refine ⟨_, _, hscans, rfl, rfl, ?_⟩
    by_cases hlong : digitLimit < ds.length <;> simp [isTooLong, hlong]
  | true =>
    have htext : (signText true ++ String.ofList ds ++ ";").toList = ['-'] ++ (ds ++ [';']) := by
      simp [signText]
    have hminus : Cursor.Step ⟨{}, {}, ['-'] ++ (ds ++ [';'])⟩ [⟨.symbol .minus, ['-'], {}⟩]
        ⟨⟨[], [], .want .operand .statement [.unary .minus {}]⟩, ⟨1, 2⟩, ds ++ [';']⟩ :=
      .token (t := ⟨.symbol .minus, ['-'], {}⟩) rfl rfl rfl
    have hdigits := Cursor.Step.of_digits ⟨[], [], .want .operand .statement [.unary .minus {}]⟩
      ⟨1, 2⟩ hne hds hend (by decide) rfl rfl
    have hscans := (Cursor.Scans.one hminus).trans
      ((Cursor.Scans.one hdigits).trans (.one (hstop rfl)))
    rw [htext]
    refine ⟨_, _, hscans, rfl, rfl, ?_⟩
    by_cases hlong : digitLimit < ds.length <;> simp [isTooLong, hlong]

theorem parse_signed (negative : Bool) (hne : ds ≠ []) (hds : ∀ d ∈ ds, isDigit d) :
    parse (signText negative ++ String.ofList ds ++ ";") =
      if digitLimit < ds.length then .error ⟨.tooLong ds.length, none⟩
      else .ok ⟨Mark.pos ⟨1, 1⟩,
        [.expr (Mark.pos ⟨1, 1⟩) (signedLiteral negative (digitsValue ds))]⟩ := by
  obtain ⟨ts, d, hscans, htext, hp, hfind⟩ := scans_signed negative hne hds
  rw [Cursor.parse_of_scans hscans htext hp, hfind]
  by_cases hlong : digitLimit < ds.length <;> simp [hlong]

end Reading

section Evaluating

variable {n : Nat}

def widthOf (size : Nat) : Width :=
  if size ≤ 2147483647 then .entero else .largo

theorem widthOf_holds (h : n < 2 ^ 63) : (widthOf n).Holds n ∧ (widthOf n).Holds (-n) := by
  unfold widthOf
  split
  · simp only [Width.Holds, Width.low, Width.high, Width.half]
    omega
  · simp only [Width.Holds, Width.low, Width.high, Width.half]
    omega

theorem ofLiteral_of_lt (h : n < 2 ^ 63) :
    Value.ofLiteral (.int n) = .ok ((widthOf n).value n) := by
  have hentero : Number.isWithin .entero (.int n) = decide (n ≤ 2147483647) := by
    simp only [Number.isWithin, Number.integer?, Width.Holds, Width.low, Width.high, Width.half]
    congr 1
    apply propext
    omega
  have hlargo : Number.isWithin .largo (.int n) = true := by
    simp only [Number.isWithin, Number.integer?, Width.Holds, Width.low, Width.high, Width.half]
    apply decide_eq_true
    omega
  rw [Value.ofLiteral, hentero, hlargo]
  by_cases hn : n ≤ 2147483647
  · simp [widthOf, hn, Width.holding]
  · simp [widthOf, hn, Width.holding]

theorem ofLiteral_of_ge (h : 2 ^ 63 ≤ n) :
    Value.ofLiteral (.int n) = Fault.raise (.literalTooLarge (.int n)) := by
  have hwithin (w : Width) : Number.isWithin w (.int n) = false := by
    simp only [Number.isWithin, Number.integer?, Width.Holds, Width.low, Width.high]
    apply decide_eq_false
    cases w <;> simp only [Width.half] <;> omega
  rw [Value.ofLiteral, hwithin, hwithin]
  rfl

theorem gives_signed (h : n < 2 ^ 63) (negative : Bool) (m : Machine) :
    (signedLiteral negative n).Gives m ((widthOf n).value (if negative then -n else n)) m := by
  obtain ⟨hpos, hneg⟩ := widthOf_holds h
  have hliteral (pos : Pos) :
      (Expr.literal pos (.integer (.int n))).Gives m ((widthOf n).value n) m := by
    refine ⟨1, ?_⟩
    rw [eval_succ, Exec.located, Exec.evalStep, Exec.literal, ofLiteral_of_lt h]
    rfl
  cases negative with
  | false => exact hliteral _
  | true =>
    refine (hliteral _).unary ?_ _
    rw [Value.unary_unbounded rfl hpos, hneg.wrap]
    rfl

theorem eval_signed_large (h : 2 ^ 63 ≤ n) (negative : Bool) (fuel : Nat) (m : Machine) :
    eval (fuel + 2) (signedLiteral negative n) m =
      (.error (.fault (.literalTooLarge (.int n)) (some (Mark.pos ⟨1, negative.toNat + 1⟩))), m) := by
  have hliteral (fuel column : Nat) :
      eval (fuel + 1) (.literal (Mark.pos ⟨1, column⟩) (.integer (.int n))) m =
        (.error (.fault (.literalTooLarge (.int n)) (some (Mark.pos ⟨1, column⟩))), m) := by
    rw [eval_succ, Exec.located, Exec.evalStep, Exec.literal, ofLiteral_of_ge h]
    rfl
  cases negative with
  | false => exact hliteral (fuel + 1) 1
  | true =>
    have hstep : Exec.evalStep ⟨eval (fuel + 1), exec (fuel + 1)⟩ (signedLiteral true n) m =
        (.error (.fault (.literalTooLarge (.int n)) (some (Mark.pos ⟨1, 2⟩))), m) :=
      Exec.bind_error (hliteral fuel 2)
    rw [eval_succ, Exec.located, hstep]
    rfl

end Evaluating

/-- The text of an integer is read and evaluated, on any machine and without a change to it, as the
value. -/
def ReadsAs (text : String) (v : Value) : Prop :=
  ∃ (p : Program) (pos : Pos) (e : Expr), parse (text ++ ";") = .ok p ∧ p.body = [.expr pos e] ∧
    ∀ m, e.Gives m v m

/-- The text is read, but evaluated on any machine it is a type mismatch, which does not change the
machine. A depth of two is enough to find that out. -/
def Mismatches (text : String) : Prop :=
  ∃ (p : Program) (pos : Pos) (e : Expr), parse (text ++ ";") = .ok p ∧ p.body = [.expr pos e] ∧
    ∃ cause place, cause.family = .typeMismatch ∧
      ∀ m fuel, eval (fuel + 2) e m = (.error (.fault cause (some place)), m)

section Texts

variable {ds : List Char}

theorem parse_signed_short (negative : Bool) (hne : ds ≠ []) (hds : ∀ d ∈ ds, isDigit d)
    (hshort : ds.length ≤ digitLimit) :
    parse (signText negative ++ String.ofList ds ++ ";") = .ok ⟨Mark.pos ⟨1, 1⟩,
      [.expr (Mark.pos ⟨1, 1⟩) (signedLiteral negative (digitsValue ds))]⟩ := by
  rw [parse_signed negative hne hds, if_neg (Nat.not_lt.mpr hshort)]

theorem readsAs_signed (negative : Bool) (hne : ds ≠ []) (hds : ∀ d ∈ ds, isDigit d)
    (hshort : ds.length ≤ digitLimit) (hsize : digitsValue ds < 2 ^ 63) :
    ReadsAs (signText negative ++ String.ofList ds) ((widthOf (digitsValue ds)).value
      (if negative then -digitsValue ds else digitsValue ds)) :=
  ⟨_, _, _, parse_signed_short negative hne hds hshort, rfl, gives_signed hsize negative⟩

theorem mismatches_signed (negative : Bool) (hds : ∀ d ∈ ds, isDigit d)
    (hshort : ds.length ≤ digitLimit) (hsize : 2 ^ 63 ≤ digitsValue ds) :
    Mismatches (signText negative ++ String.ofList ds) := by
  have hne : ds ≠ [] := by
    rintro rfl
    exact absurd hsize (by decide)
  exact ⟨_, _, _, parse_signed_short negative hne hds hshort, rfl, _, _, rfl,
    fun m fuel => eval_signed_large hsize negative fuel m⟩

theorem digitsValue_numeral (n : Int) (front : Nat) :
    digitsValue (List.replicate front '0' ++ Nat.toDigits 10 n.natAbs) = n.natAbs := by
  rw [Double.digitsValue_zeros, Double.digitsValue_toDigits]

theorem isDigit_of_mem_numeral (n : Int) (front : Nat) :
    ∀ d ∈ List.replicate front '0' ++ Nat.toDigits 10 n.natAbs, isDigit d :=
  Double.isDigit_append (fun _ => Double.isDigit_of_mem_zeros)
    (fun _ => Double.isDigit_of_mem_toDigits)

theorem value_of_natAbs (n : Int) :
    (widthOf n.natAbs).value (if decide (n < 0) then -(n.natAbs : Int) else n.natAbs) =
      if |n| ≤ 2 ^ 31 - 1 then .entero n else .largo n := by
  rw [Double.signed_natAbs, widthOf, Int.abs_eq_natAbs]
  by_cases hn : n.natAbs ≤ 2147483647
  · rw [if_pos hn, if_pos (by omega)]
    rfl
  · rw [if_neg hn, if_neg (by omega)]
    rfl

end Texts

/-- Integers are printed so that they are read back as literals. Zeros in front change nothing. An
integer whose size is that of the lower end of `largo`, or larger, is no literal, with or without a
sign. All of this is about texts of no more digits than an integer is read from, and longer ones are
no programs. -/
theorem integers_read_back :
    (∀ n : Int, (Value.largo n).text = numeralText n 0) ∧
      (∀ (n : Int) (front : Nat), -2 ^ 63 + 1 ≤ n → n ≤ 2 ^ 63 - 1 →
        front + (Nat.toDigits 10 n.natAbs).length ≤ digitLimit →
          ReadsAs (numeralText n front) (if |n| ≤ 2 ^ 31 - 1 then .entero n else .largo n)) ∧
      Mismatches (Value.largo (-2 ^ 63)).text ∧
      (∀ (negative : Bool) (ds : List Char), (∀ d ∈ ds, isDigit d) → ds.length ≤ digitLimit →
        2 ^ 63 ≤ digitsValue ds → Mismatches (signText negative ++ String.ofList ds)) ∧
      ∀ (negative : Bool) (ds : List Char), (∀ d ∈ ds, isDigit d) → digitLimit < ds.length →
        parse (signText negative ++ String.ofList ds ++ ";") =
          .error ⟨.tooLong ds.length, none⟩ := by
  refine ⟨text_largo, fun n front hlow hhigh hshort => ?_, ?_,
    fun negative ds hds hshort => mismatches_signed negative hds hshort,
    fun negative ds hds hlong => ?_⟩
  · have hne : List.replicate front '0' ++ Nat.toDigits 10 n.natAbs ≠ [] := by
      simp
    have hsize : digitsValue (List.replicate front '0' ++ Nat.toDigits 10 n.natAbs) < 2 ^ 63 := by
      rw [digitsValue_numeral]
      omega
    have hreads := readsAs_signed (n < 0) hne (isDigit_of_mem_numeral n front)
      (by simpa using hshort) hsize
    rwa [digitsValue_numeral, value_of_natAbs, ← numeralText_eq] at hreads
  · rw [text_largo, numeralText_eq]
    exact mismatches_signed _ (isDigit_of_mem_numeral _ _) (by decide) (by decide)
  · have hne : ds ≠ [] := by
      rintro rfl
      exact absurd hlong (by decide)
    rw [parse_signed negative hne hds, if_pos hlong]

/-- The lower end of `entero` is read as `largo`, behind zeros too, and that of `largo` is a type
mismatch. -/
theorem integers_read_back_ends :
    ReadsAs "-0002147483648" (.largo (-2147483648)) ∧ ReadsAs "2147483647" (.entero 2147483647) ∧
      (Value.largo (-9223372036854775808)).text = "-9223372036854775808" ∧
      Mismatches "-9223372036854775808" ∧ Mismatches "0009223372036854775808" := by
  obtain ⟨htext, hreads, hleast, hlarge, _⟩ := integers_read_back
  have hlow := hreads (-2147483648) 3 (by decide) (by decide) (by decide)
  have hhigh := hreads 2147483647 0 (by decide) (by decide) (by decide)
  rw [if_neg (by decide)] at hlow
  rw [if_pos (by decide)] at hhigh
  exact ⟨hlow, hhigh, htext _, hleast,
    hlarge false "0009223372036854775808".toList (List.all_eq_true.mp (by decide)) (by decide)
      (by decide)⟩

end Guion
