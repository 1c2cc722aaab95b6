import Guion.Proofs.Discipline.Store
import Guion.Proofs.Sound.Session

namespace Guion

namespace Value

/-- What binding makes of a value: it stays in range, only `null` is taken for `null`, and an
integer is taken for itself where it is taken for an integer. -/
structure Retains (v w : Value) : Prop where
  inRange : w.InRange
  null : w = .null ↔ v = .null
  integer : ∀ a b, v.number? = some (.int a) → w.number? = some (.int b) → b = a

variable {target : TypeName} {v w : Value} {slot : Slot}

theorem Retains.refl (hv : v.InRange) : v.Retains v := by
  refine ⟨hv, Iff.rfl, fun a b ha hb => ?_⟩
  rw [ha] at hb
  cases hb
  rfl

theorem number?_value (width : Width) (n : Int) : (width.value n).number? = some (.int n) := by
  cases width <;> rfl

theorem inRange_value {width : Width} {n : Int} :
    (width.value n).InRange ↔ width.Holds n := by
  cases width <;> exact Iff.rfl

theorem value_ne_null (width : Width) (n : Int) : width.value n ≠ .null := by
  cases width <;> nofun

theorem exists_value {n : Int} (hv : v.InRange) (hn : v.number? = some (.int n)) :
    ∃ width : Width, v = width.value n ∧ width.Holds n := by
  cases v with
  | entero m =>
    cases hn
    exact ⟨.entero, rfl, hv⟩
  | largo m =>
    cases hn
    exact ⟨.largo, rfl, hv⟩
  | loose width content => exact hv.elim
  | decimal | booleano | cadena | null | foreign => cases hn

theorem Retains.resized {source : Width} (width : Width) {n : Int} (hn : width.Holds n) :
    (source.value n).Retains (width.value n) := by
  have hnull := iff_of_false (value_ne_null width n) (value_ne_null source n)
  refine ⟨inRange_value.mpr hn, hnull, fun a b ha hb => ?_⟩
  rw [number?_value] at ha hb
  cases ha
  cases hb
  rfl

theorem Retains.toDecimal {x : Float} (hv : v ≠ .null) : v.Retains (decimal x) :=
  ⟨trivial, iff_of_false nofun hv, nofun⟩

theorem coerce_value (kind : Kind) (source : Width) (n : Int) :
    coerce (.known kind) (source.value n) = convert kind (source.value n) (.int n) := by
  cases source <;> cases kind <;> rfl

theorem convert_retains (kind : Kind) (source : Width) {n : Int} (hn : source.Holds n) :
    Yields (source.value n).Retains (fun _ => True) (convert kind (source.value n) (.int n)) := by
  cases kind with
  | entero =>
    simp only [convert]
    split
    · exact .refl (inRange_value.mpr hn)
    · split
      · rename_i hwithin
        exact .resized .entero (of_decide_eq_true hwithin)
      · trivial
  | largo =>
    refine Retains.resized .largo ?_
    cases source with
    | entero => exact hn.toLargo
    | largo => exact hn
  | decimal =>
    simp only [convert, hn.isSized, ↓reduceIte]
    exact .toDecimal (value_ne_null source n)
  | booleano | cadena => exact .refl (inRange_value.mpr hn)

theorem truncate_retains (width : Width) (x : Float) :
    Yields (decimal x).Retains (fun _ => True) (width.value <$> truncate width x) := by
  have htruncate := (truncate_yields width x).mono (fun _ hn => hn) fun _ _ => trivial
  refine htruncate.map fun n hn => ⟨inRange_value.mpr hn, ?_, nofun⟩
  exact iff_of_false (value_ne_null width n) nofun

theorem coerce_retains (target : TypeName) (hv : v.InRange) :
    Yields v.Retains (fun _ => True) (coerce target v) := by
  cases target with
  | unknown data => exact .refl hv
  | known kind =>
    cases v with
    | entero n =>
      rw [← Width.value, coerce_value]
      exact convert_retains kind .entero hv
    | largo n =>
      rw [← Width.value, coerce_value]
      exact convert_retains kind .largo hv
    | decimal x =>
      cases kind with
      | entero => exact truncate_retains .entero x
      | largo => exact truncate_retains .largo x
      | decimal | booleano | cadena => exact .refl hv
    | booleano | cadena | null | foreign => cases kind <;> exact .refl hv
    | loose width content => exact hv.elim

theorem conform_of_compatible (slot : Slot) (hv : v.InRange) (h : compatible target v = true) :
    conform target v slot = .ok v := by
  have hcoerce : coerce target v = .ok v := by
    cases v with
    | null => rcases target with ⟨_ | _ | _ | _ | _⟩ | data <;> rfl
    | loose width content => exact hv.elim
    | entero | largo | decimal | booleano | cadena | foreign =>
      cases target with
      | unknown data => cases h
      | known kind =>
        obtain rfl := beq_iff_eq.mp h
        rfl
  simp only [conform, hcoerce, bind, Except.bind, h, ↓reduceIte]

theorem conform_ok (h : conform target v slot = .ok w) :
    coerce target v = .ok w ∧ compatible target w = true := by
  obtain ⟨u, hu, h⟩ := bind_eq_ok h
  split at h
  · cases h
    exact ⟨hu, by assumption⟩
  · cases h

theorem conform_value_error_iff {width source : Width} {n : Int} (hn : source.Holds n) :
    (∃ e, conform (.known (.ofWidth width)) (source.value n) slot = .error e) ↔
      width = .entero ∧ ¬ Width.Holds .entero n := by
  constructor
  · rintro ⟨e, he⟩
    cases width with
    | largo => cases source <;> cases he
    | entero =>
      refine ⟨rfl, fun hfits => ?_⟩
      have hwithin : (Number.int n).isWithin .entero = true := decide_eq_true hfits
      cases source with
      | entero => cases he
      | largo =>
        rw [conform, Kind.ofWidth, coerce_value] at he
        simp only [convert, hwithin] at he
        cases he
  · rintro ⟨rfl, hout⟩
    have hwithin : (Number.int n).isWithin .entero = false := decide_eq_false hout
    cases source with
    | entero => exact absurd hn hout
    | largo =>
      refine ⟨.fault (.largoTooLarge (.int n)) none, ?_⟩
      rw [conform, Kind.ofWidth, coerce_value]
      simp only [convert, hwithin]
      rfl

end Value

namespace Frame

theorem set_get? {frame : Frame} {name : Name} {var : Variable} (h : frame.get? name = some var) :
    frame.set name var = frame := by
  induction frame with
  | nil => rfl
  | cons entry rest ih =>
    simp only [get?, List.find?_cons] at h
    simp only [set]
    split
    · rename_i hname
      simp only [hname, Option.map_some, Option.some.injEq] at h
      rw [← h]
    · rename_i hname
      simp only [hname] at h
      rw [ih h]

end Frame

namespace Store

variable {s : Store} {name : Name} {var : Variable}

theorem set_find? (h : s.find? name = some var) : s.set name var = s := by
  obtain ⟨globals, frames⟩ := s
  unfold set
  induction frames with
  | nil => simp only [setIn, Frame.set_get? h]
  | cons first rest ih =>
    simp only [find?, List.findSome?_cons] at h ih
    simp only [setIn]
    split
    · rename_i hsome
      obtain ⟨found, hfound⟩ := Option.isSome_iff_exists.mp hsome
      simp only [hfound, Option.some_or, Option.some.injEq] at h
      subst h
      rw [Frame.set_get? hfound]
    · rename_i hnone
      rw [Option.not_isSome_iff_eq_none.mp hnone] at h
      rw [ih h]

theorem lookup_usable (hname : name.isUsable = true) : s.lookup name =
    match s.find? name with
    | some var => .ok var
    | none => Fault.raise (.variableMissing name) := by
  have hcheck : checkName name = .ok () := if_pos hname
  unfold lookup
  rw [hcheck]
  rfl

theorem lookup_find? (hname : name.IsText) (h : s.find? name = some var) :
    s.lookup name = .ok var := by
  obtain ⟨x, rfl⟩ := hname
  rw [lookup_usable rfl, h]

end Store

theorem Variable.Sound.compatible {var : Variable} (h : var.Sound) :
    Value.compatible var.type var.value = true := by
  obtain ⟨kind, htype, hnull | hkind⟩ := h.typed
  · rw [hnull]
    rfl
  · simp [Value.compatible, htype, hkind]

theorem Store.assign_self {s : Store} {name : Name} {var : Variable} (hs : s.Sound)
    (hname : name.IsText) (h : s.find? name = some var) (hvar : var.initialized = true) :
    s.assign name var.value = (.ok var.value, s) := by
  have hsound := hs.find? h
  have hconform := Value.conform_of_compatible (.assignment name) hsound.regular.1 hsound.compatible
  have hself : (⟨var.type, var.value, true⟩ : Variable) = var := by
    rw [← hvar]
  have hassigned : s.assigned name var.value = .ok var := by
    simp only [assigned, lookup_find? hname h, bind, Except.bind, hconform, hself]
  simp only [assign, hassigned, set_find? h]

theorem eval_assign_self (fuel : Nat) {m : Machine} {name : Name} {var : Variable}
    (hm : m.store.Sound) (hname : name.IsText) (h : m.store.find? name = some var)
    (hvar : var.initialized = true) (pos place : Pos) :
    eval (fuel + 2) (.assign pos name (.name place name)) m = (.ok var.value, m) := by
  have hfetch : Exec.fetch name m = (.ok var.value, m) := by
    simp only [Exec.fetch, bind, Exec.lookup, Store.lookup_find? hname h, hvar, ↓reduceIte]
    rfl
  have hname' : eval (fuel + 1) (.name place name) m = (.ok var.value, m) := by
    rw [eval_succ, Exec.located_apply, Exec.evalStep, hfetch]
    rfl
  have hassign : Exec.assign name var.value m = (.ok var.value, m) := by
    simp only [Exec.assign, Exec.onStore, Store.assign_self hm hname h hvar]
  rw [eval_succ, Exec.located_apply, Exec.evalStep, Exec.bind_ok hname', hassign]
  rfl

/-- The machines that sessions come to, between requests and at every point of one. -/
def Machine.Arises (q : Machine) : Prop :=
  ∃ m fuel r, m.Reachable ∧ Request.IsParsed r ∧ r.Passes fuel m q

theorem Machine.Arises.sound {q : Machine} (h : q.Arises) : q.Sound := by
  obtain ⟨m, fuel, r, hm, hr, hq⟩ := h
  exact Request.passes_within hr.written hm.sound hq

theorem Machine.Reachable.arises {m : Machine} (h : m.Reachable) : m.Arises := by
  have hempty : parse "" = .ok ⟨.none, []⟩ := by rfl
  exact ⟨m, 0, .run ⟨.none, []⟩, h, ⟨"", hempty⟩, .inl (.inl rfl)⟩

/-- Binding is a retraction: what it gives may be held under the type, is bound to the type as it
is, and is `null` or an integer exactly as the value bound was. Between the integer types it fails
only for what is out of the range of `entero`. So in every session of programs that were read, a
variable that has a value can be assigned to itself, which gives the value and changes nothing. -/
theorem conform_retracts :
    (∀ (target : TypeName) (v : Value) (slot : Slot), v.InRange →
      (∀ w, Value.conform target v slot = .ok w →
        (w = .null ↔ v = .null) ∧ Value.compatible target w = true ∧
          (∀ other, Value.conform target w other = .ok w) ∧
          ∀ a b, v.number? = some (.int a) → w.number? = some (.int b) → b = a) ∧
      ∀ width n, target = .known (.ofWidth width) → v.number? = some (.int n) →
        ((∃ e, Value.conform target v slot = .error e) ↔
          width = .entero ∧ ¬ Width.Holds .entero n)) ∧
    ∀ (q : Machine) (x : String) (var : Variable), q.Arises → q.store.find? x = some var →
      var.initialized = true → ∀ (fuel : Nat) (pos place : Pos),
        eval (fuel + 2) (.assign pos x (.name place x)) q = (.ok var.value, q) := by
  refine ⟨fun target v slot hv => ⟨fun w h => ?_, ?_⟩, ?_⟩
  · obtain ⟨hcoerce, hcompatible⟩ := Value.conform_ok h
    have hretains : v.Retains w := by
      have hyields := Value.coerce_retains target hv
      rw [hcoerce] at hyields
      exact hyields
    refine ⟨hretains.null, hcompatible, fun other => ?_, hretains.integer⟩
    exact Value.conform_of_compatible other hretains.inRange hcompatible
  · rintro width n rfl hn
    obtain ⟨source, rfl, hholds⟩ := Value.exists_value hv hn
    exact Value.conform_value_error_iff hholds
  · intro q x var hq hfind hvar fuel pos place
    exact eval_assign_self fuel hq.sound.store ⟨x, rfl⟩ hfind hvar pos place

/-- The value 7 of `largo` becomes one of `entero`, and the variable that holds it is assigned to
itself. -/
theorem conform_retracts_entero :
    Value.InRange (.largo 7) ∧
      (∀ w, Value.conform (.known .entero) (.largo 7) (.declaration "x") = .ok w →
        (w = .null ↔ Value.largo 7 = .null) ∧ Value.compatible (.known .entero) w = true ∧
          (∀ other, Value.conform (.known .entero) w other = .ok w) ∧
          ∀ a b, Value.number? (.largo 7) = some (.int a) → w.number? = some (.int b) → b = a) ∧
      Value.conform (.known .entero) (.largo 7) (.declaration "x") = .ok (.entero 7) ∧
      ((∃ e, Value.conform (.known .entero) (.largo 2147483648) (.declaration "x") = .error e) ↔
        Width.entero = .entero ∧ ¬ Width.Holds .entero 2147483648) ∧
      ∃ p q, parse "entero x = 7;" = .ok p ∧
        parse "x = x;" = .ok ⟨Mark.pos ⟨1, 1⟩, [.expr (Mark.pos ⟨1, 1⟩)
          (.assign (Mark.pos ⟨1, 1⟩) "x" (.name (Mark.pos ⟨1, 5⟩) "x"))]⟩ ∧
        q = ((Machine.start (.stream "") 0 1000).serve 9 (.run p)).2 ∧ q.Arises ∧
        q.store.find? "x" = some ⟨.known .entero, .entero 7, true⟩ ∧
        eval 9 (.assign (Mark.pos ⟨1, 1⟩) "x" (.name (Mark.pos ⟨1, 5⟩) "x")) q =
          (.ok (.entero 7), q) := by
  have hp : parse "entero x = 7;" = .ok ⟨Mark.pos ⟨1, 1⟩,
      [.declare (Mark.pos ⟨1, 1⟩) (.known .entero) "x"
        (some (.literal (Mark.pos ⟨1, 12⟩) (.integer (.int 7))))]⟩ := by rfl
  have hq := (Machine.Reachable.start (.stream "") 0 1000).serve (r := .run _) 9 ⟨_, hp⟩
  obtain ⟨hconform, hself⟩ := conform_retracts
  have hsmall : Value.InRange (.largo 7) := (by decide : Width.Holds .largo 7)
  have hlarge : Value.InRange (.largo 2147483648) := (by decide : Width.Holds .largo 2147483648)
  refine ⟨hsmall, (hconform (.known .entero) (.largo 7) (.declaration "x") hsmall).1, by rfl,
    (hconform (.known .entero) (.largo 2147483648) (.declaration "x") hlarge).2 .entero _ rfl rfl,
    _, _, hp, by rfl, rfl, hq.arises, by rfl, ?_⟩
  exact hself _ "x" ⟨.known .entero, .entero 7, true⟩ hq.arises (by rfl) rfl 7 _ _

end Guion
