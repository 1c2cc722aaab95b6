import Guion.Proofs.Depth
import Guion.Proofs.Sound.Session
import Mathlib.Algebra.Ring.InjSurj
import Mathlib.Data.ZMod.Basic
import Mathlib.Tactic.Ring

namespace Guion

namespace Width

def bits : Width → Nat
  | entero => 32
  | largo => 64

theorem two_half (w : Width) : 2 * w.half = 2 ^ w.bits := by
  cases w <;> rfl

variable {w : Width} {a b n : Int}

theorem holds_iff : w.Holds n ↔ -2 ^ (w.bits - 1) ≤ n ∧ n < 2 ^ (w.bits - 1) := by
  have hhalf : (2 : Int) ^ (w.bits - 1) = w.half := by cases w <;> rfl
  rw [hhalf, Holds, low, high]
  omega

theorem wrap_modEq (w : Width) (n : Int) : w.wrap n ≡ n [ZMOD 2 ^ w.bits] := by
  rw [wrap, two_half]
  calc (n - w.low) % 2 ^ w.bits + w.low
      ≡ n - w.low + w.low [ZMOD 2 ^ w.bits] := (Int.mod_modEq _ _).add_right _
    _ = n := Int.sub_add_cancel _ _

theorem Holds.eq_of_modEq (ha : w.Holds a) (hb : w.Holds b) (h : a ≡ b [ZMOD 2 ^ w.bits]) :
    a = b := by
  have hshift : (a - w.low) % (2 * w.half) = (b - w.low) % (2 * w.half) := by
    rw [two_half]
    exact h.sub_right w.low
  simp only [Holds, high, low] at ha hb hshift
  rw [Int.emod_eq_of_lt (by omega) (by omega), Int.emod_eq_of_lt (by omega) (by omega)] at hshift
  omega

theorem Holds.wrap (h : w.Holds n) : w.wrap n = n :=
  (w.wrap_holds n).eq_of_modEq h (w.wrap_modEq n)

theorem wrap_eq_of_modEq (h : a ≡ b [ZMOD 2 ^ w.bits]) : w.wrap a = w.wrap b :=
  (w.wrap_holds a).eq_of_modEq (w.wrap_holds b)
    ((w.wrap_modEq a).trans (h.trans (w.wrap_modEq b).symm))

/-- The wrapped integer is the only one of the width with its residue. -/
theorem eq_wrap_iff : a = w.wrap n ↔ w.Holds a ∧ a ≡ n [ZMOD 2 ^ w.bits] := by
  constructor
  · rintro rfl
    exact ⟨w.wrap_holds n, w.wrap_modEq n⟩
  · rintro ⟨ha, h⟩
    exact ha.eq_of_modEq (w.wrap_holds n) (h.trans (w.wrap_modEq n).symm)

def meet : Width → Width → Width
  | entero, entero => entero
  | _, _ => largo

@[simp]
theorem meet_self (w : Width) : w.meet w = w := by
  cases w <;> rfl

/-- An integer of a width. -/
structure Word (w : Width) where
  number : Int
  holds : w.Holds number

end Width

namespace Width.Word

variable {w : Width}

def ofInt (w : Width) (n : Int) : w.Word := ⟨w.wrap n, w.wrap_holds n⟩

def value (a : w.Word) : Value := w.value a.number

def residue (a : w.Word) : ZMod (2 ^ w.bits) := a.number

theorem residue_ofInt (n : Int) : (ofInt w n).residue = n := by
  have h := w.wrap_modEq n
  refine (ZMod.intCast_eq_intCast_iff _ _ _).mpr ?_
  exact_mod_cast h

theorem residue_injective : Function.Injective (residue (w := w)) := by
  rintro ⟨a, ha⟩ ⟨b, hb⟩ h
  have hmod := (ZMod.intCast_eq_intCast_iff a b _).mp h
  have hab : a = b := ha.eq_of_modEq hb (by exact_mod_cast hmod)
  subst hab
  rfl

/-- The ring of a width: integers are added and multiplied as they are, and the result is
wrapped. -/
abbrev ring (w : Width) : CommRing w.Word :=
  let _ : Zero w.Word := ⟨ofInt w 0⟩
  let _ : One w.Word := ⟨ofInt w 1⟩
  let _ : Add w.Word := ⟨fun a b => ofInt w (a.number + b.number)⟩
  let _ : Mul w.Word := ⟨fun a b => ofInt w (a.number * b.number)⟩
  let _ : Neg w.Word := ⟨fun a => ofInt w (-a.number)⟩
  let _ : Sub w.Word := ⟨fun a b => ofInt w (a.number - b.number)⟩
  let _ : SMul ℕ w.Word := ⟨fun n a => ofInt w (n * a.number)⟩
  let _ : SMul ℤ w.Word := ⟨fun n a => ofInt w (n * a.number)⟩
  let _ : Pow w.Word ℕ := ⟨fun a n => ofInt w (a.number ^ n)⟩
  let _ : NatCast w.Word := ⟨fun n => ofInt w n⟩
  let _ : IntCast w.Word := ⟨fun n => ofInt w n⟩
  residue_injective.commRing residue
    (by exact (residue_ofInt 0).trans Int.cast_zero)
    (by exact (residue_ofInt 1).trans Int.cast_one)
    (fun a b => (residue_ofInt _).trans (Int.cast_add _ _))
    (fun a b => (residue_ofInt _).trans (Int.cast_mul _ _))
    (fun a => (residue_ofInt _).trans (Int.cast_neg _))
    (fun a b => (residue_ofInt _).trans (Int.cast_sub _ _))
    (fun n a => (residue_ofInt _).trans (by simp [residue]))
    (fun n a => (residue_ofInt _).trans (by simp [residue]))
    (fun a n => (residue_ofInt _).trans (by simp [residue]))
    (fun n => (residue_ofInt _).trans (Int.cast_natCast n))
    (fun n => residue_ofInt n)

end Width.Word

namespace BinaryOp

def whole : List BinaryOp := [.add, .sub, .mul, .div, .mod]

def unbounded? : BinaryOp → Option (Int → Int → Int)
  | .add => some (· + ·)
  | .sub => some (· - ·)
  | .mul => some (· * ·)
  | _ => none

theorem unbounded?_modEq {op : BinaryOp} {f : Int → Int → Int} (h : op.unbounded? = some f)
    {a a' b b' n : Int} (ha : a ≡ a' [ZMOD n]) (hb : b ≡ b' [ZMOD n]) :
    f a b ≡ f a' b' [ZMOD n] := by
  cases op <;> cases h
  · exact ha.add hb
  · exact ha.sub hb
  · exact ha.mul hb

end BinaryOp

namespace UnaryOp

def unbounded? : UnaryOp → Option (Int → Int)
  | .minus => some (- ·)
  | .plus => some id
  | _ => none

theorem unbounded?_modEq {op : UnaryOp} {f : Int → Int} (h : op.unbounded? = some f)
    {a a' n : Int} (ha : a ≡ a' [ZMOD n]) : f a ≡ f a' [ZMOD n] := by
  cases op <;> cases h
  · exact ha.neg
  · exact ha

end UnaryOp

namespace Value

variable {v w : Width} {x y : Int}

theorem binary_value {op : BinaryOp} (hop : op ∈ BinaryOp.whole) (v w : Width) (x y : Int) :
    binary op (v.value x) (w.value y) = (v.meet w).value <$> integerOp op (v.meet w) x y := by
  simp only [BinaryOp.whole, List.mem_cons, List.not_mem_nil, or_false] at hop
  obtain rfl | rfl | rfl | rfl | rfl := hop <;> cases v <;> cases w <;> rfl

theorem binary_unbounded {op : BinaryOp} {f : Int → Int → Int} (h : op.unbounded? = some f)
    (v w : Width) (x y : Int) :
    binary op (v.value x) (w.value y) = .ok ((v.meet w).value ((v.meet w).wrap (f x y))) := by
  have hop : op ∈ BinaryOp.whole := by
    cases op <;> first | decide | cases h
  rw [binary_value hop]
  cases op <;> cases h <;> rfl

theorem unary_unbounded {op : UnaryOp} {f : Int → Int} (h : op.unbounded? = some f)
    (hx : w.Holds x) : unary op (w.value x) = .ok (w.value (w.wrap (f x))) := by
  cases op <;> cases h
  · cases w <;> rfl
  · rw [id, hx.wrap]
    cases w <;> rfl

end Value

namespace Expr

/-- Evaluated on `m`, with whatever depth that takes, the expression gives `v` and leaves `n`. -/
def Gives (e : Expr) (m : Machine) (v : Value) (n : Machine) : Prop :=
  ∃ fuel, eval fuel e m = (.ok v, n)

variable {e left right : Expr} {m n q : Machine} {a b v : Value}

theorem eval_deeper {fuel depth : Nat} (h : eval fuel e m = (.ok v, n)) (hd : fuel ≤ depth) :
    eval depth e m = (.ok v, n) := by
  have hcut : ((Task.eval e).run fuel m).1 ≠ .error .exhausted := by
    rw [Task.run, h]
    exact nofun
  exact (Task.run_deeper hd hcut).trans h

theorem Gives.unary {op : UnaryOp} (h : e.Gives m a n) (hop : Value.unary op a = .ok v)
    (pos : Pos) : (Expr.unary pos op e).Gives m v n := by
  obtain ⟨fuel, h⟩ := h
  refine ⟨fuel + 1, ?_⟩
  have hstep : Exec.evalStep ⟨eval fuel, exec fuel⟩ (.unary pos op e) m = (.ok v, n) := by
    rw [Exec.evalStep, Exec.bind_ok h, hop]
    rfl
  rw [eval_succ, Exec.located, hstep]

theorem Gives.binary {op : BinaryOp} (hl : left.Gives m a n) (hr : right.Gives n b q)
    (hop : Value.binary op a b = .ok v) (pos : Pos) :
    (Expr.binary pos op left right).Gives m v q := by
  obtain ⟨fuel, hl⟩ := hl
  obtain ⟨depth, hr⟩ := hr
  have hl := eval_deeper hl (fuel.le_max_left depth)
  have hr := eval_deeper hr (fuel.le_max_right depth)
  generalize max fuel depth = depth at hl hr
  refine ⟨depth + 1, ?_⟩
  have hstep : Exec.evalStep ⟨eval depth, exec depth⟩ (.binary pos op left right) m =
      (.ok v, q) := by
    rw [Exec.evalStep, Exec.bind_ok hl, Exec.bind_ok hr, hop]
    rfl
  rw [eval_succ, Exec.located, hstep]

/-- Evaluated on `m` from left to right, down to `n`, the leaves of a tree of sums, differences,
products and signs give integers of the width. The exact value, of any size, that the tree makes of
these is `k`. -/
inductive Exact (w : Width) : Expr → Machine → Int → Machine → Prop where
  | leaf {e : Expr} {m n : Machine} {k : Int} :
    e.Gives m (w.value k) n → w.Holds k → Exact w e m k n
  | sign (pos : Pos) {op : UnaryOp} {f : Int → Int} {e : Expr} {m n : Machine} {k : Int} :
    op.unbounded? = some f → Exact w e m k n → Exact w (.unary pos op e) m (f k) n
  | join (pos : Pos) {op : BinaryOp} {f : Int → Int → Int} {left right : Expr}
    {m n q : Machine} {i k : Int} :
    op.unbounded? = some f → Exact w left m i n → Exact w right n k q →
      Exact w (.binary pos op left right) m (f i k) q

/-- A tree of integers gives the exact value, wrapped once. -/
theorem Exact.gives {w : Width} {k : Int} (h : e.Exact w m k n) :
    e.Gives m (w.value (w.wrap k)) n := by
  induction h with
  | leaf h hk => rwa [hk.wrap]
  | sign pos hop _ ih =>
    refine ih.unary ?_ pos
    rw [Value.unary_unbounded hop (w.wrap_holds _),
      Width.wrap_eq_of_modEq (UnaryOp.unbounded?_modEq hop (w.wrap_modEq _))]
  -- both operands are wrapped already, which changes nothing modulo the size
  | join pos hop _ _ ihl ihr =>
    refine ihl.binary ihr ?_ pos
    rw [Value.binary_unbounded hop, w.meet_self,
      Width.wrap_eq_of_modEq (BinaryOp.unbounded?_modEq hop (w.wrap_modEq _) (w.wrap_modEq _))]

theorem Gives.sound {w : Width} {k : Int} (h : e.Gives m (w.value k) n) (hm : m.Sound)
    (he : e.Written) : w.Holds k ∧ n.Sound := by
  obtain ⟨fuel, h⟩ := h
  obtain ⟨hk, hn⟩ := (Task.run_fulfils expected_kept fuel (.eval e) m he hm).of_ok h
  refine ⟨?_, hn⟩
  cases w <;> exact hk.1

end Expr

/-- Integer arithmetic is that of the integers modulo the size of the width. A tree of sums,
differences, products and signs, whose leaves give integers of one width, gives the only integer of
the width that is congruent to the exact value, whatever overflowed on the way. The leaves are any
expressions, and those of a program read from text are in range by themselves. Under the operators
the integers of a width are a commutative ring. -/
theorem arithmetic_modular (w : Width) :
    (∀ (e : Expr) (m n : Machine) (k : Int), e.Exact w m k n → ∃ r, e.Gives m (w.value r) n ∧
      ∀ r', (-2 ^ (w.bits - 1) ≤ r' ∧ r' < 2 ^ (w.bits - 1)) ∧ r' ≡ k [ZMOD 2 ^ w.bits] ↔ r' = r) ∧
      (∀ (e : Expr) (m n : Machine) (k : Int), e.Written → m.Sound → e.Gives m (w.value k) n →
        w.Holds k ∧ n.Sound) ∧
      ∃ _ : CommRing w.Word, (0 : w.Word).number = 0 ∧ (1 : w.Word).number = 1 ∧
        ∀ a b : w.Word, Value.binary .add a.value b.value = .ok (a + b).value ∧
          Value.binary .sub a.value b.value = .ok (a - b).value ∧
          Value.binary .mul a.value b.value = .ok (a * b).value ∧
          Value.unary .minus a.value = .ok (-a).value ∧ Value.unary .plus a.value = .ok a.value := by
  have hbinary {op : BinaryOp} {f : Int → Int → Int} (h : op.unbounded? = some f) (a b : w.Word) :
      Value.binary op a.value b.value = .ok (Width.Word.ofInt w (f a.number b.number)).value := by
    rw [Width.Word.value, Width.Word.value, Value.binary_unbounded h, w.meet_self]
    rfl
  refine ⟨fun e m n k h => ⟨w.wrap k, h.gives, fun r' => ?_⟩, fun e m n k he hm h => h.sound hm he,
    Width.Word.ring w, ?_, ?_, fun a b => ⟨?_, ?_, ?_, ?_, ?_⟩⟩
  · rw [← Width.holds_iff]
    exact Width.eq_wrap_iff.symm
  · exact Width.Holds.wrap (by cases w <;> decide)
  · exact Width.Holds.wrap (by cases w <;> decide)
  · exact hbinary rfl a b
  · exact hbinary rfl a b
  · exact hbinary rfl a b
  · exact Value.unary_unbounded rfl a.holds
  · rw [Width.Word.value, Value.unary_unbounded rfl a.holds, id, a.holds.wrap]

/-- The product leaves the range of `entero` and comes back wrapped, and so does the difference. -/
theorem arithmetic_modular_overflow :
    ∃ (e : Expr) (m : Machine), e.Exact .entero m (2147483647 * 3 - 2147483640) m ∧ e.Written ∧
      m.Sound ∧ e.Gives m (.entero 5) m ∧
      (∃ r, e.Gives m (Width.entero.value r) m ∧
        ∀ r', (-2 ^ 31 ≤ r' ∧ r' < 2 ^ 31) ∧ r' ≡ 2147483647 * 3 - 2147483640 [ZMOD 2 ^ 32] ↔
          r' = r) ∧ Width.entero.Holds 5 := by
  let m : Machine := .start (.stream "") 0 1000
  let literal (k : Int) : Expr := .literal .none (.integer (.int k))
  let e : Expr := .binary .none .sub (.binary .none .mul (literal 2147483647) (literal 3))
    (literal 2147483640)
  have he : e.Exact .entero m (2147483647 * 3 - 2147483640) m :=
    .join .none rfl
      (.join .none rfl (.leaf ⟨1, by rfl⟩ (by decide)) (.leaf ⟨1, by rfl⟩ (by decide)))
      (.leaf ⟨1, by rfl⟩ (by decide))
  have hwritten : e.Written :=
    .binary nofun (.binary nofun (.literal (.integer 2147483647)) (.literal (.integer 3)))
      (.literal (.integer 2147483640))
  have hm : m.Sound := (Machine.Reachable.start _ _ _).sound
  have hfive : e.Gives m (.entero 5) m := ⟨3, by rfl⟩
  have hall := arithmetic_modular .entero
  exact ⟨e, m, he, hwritten, hm, hfive, hall.1 e m m _ he, (hall.2.1 e m m 5 hwritten hm hfive).1⟩

end Guion
