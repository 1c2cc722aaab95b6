import Guion.Proofs.Grammar.Placed
import Guion.Proofs.Padding

namespace Guion

namespace Exec

def andThen (x y : Exec Signal) : Exec Signal := do
  match ← x with
  | .normal => y
  | signal => pure signal

def dropping (x : Exec Value) : Exec Signal := do
  let _ ← x
  pure .normal

def looping (first : Exec Signal) (test : Exec Bool) (round : Exec Signal) (rounds : Nat) :
    Exec Signal :=
  inScope (andThen first (iterate test round (pure ()) rounds))

theorem sequence_pair (exec : Stmt → Exec Signal) (s t : Stmt) :
    sequence exec [s, t] = andThen (exec s) (exec t) := by
  simp only [sequence, andThen]
  congr 1
  funext signal
  cases signal with
  | normal =>
    refine (congrArg (exec t >>= ·) (funext fun signal => ?_)).trans (bind_pure (exec t))
    cases signal <;> rfl
  | broken | continued | returned v => rfl

theorem bind_eq_andThen {x y : Exec Signal}
    (h : ∀ m signal, (x m).1 = .ok signal → signal = .normal) :
    (x >>= fun _ => y) = andThen x y := by
  funext m
  rcases hr : x m with ⟨e | signal, n⟩
  · rw [andThen, bind_error hr, bind_error hr]
  · obtain rfl : signal = .normal := h m signal (congrArg Prod.fst hr)
    rw [andThen, bind_ok hr, bind_ok hr]

/-- The step after each round of a loop belongs to the round, unless that ends with `continuar`. -/
theorem iterate_eq {test : Exec Bool} {body : Exec Signal} {next : Exec Value}
    (h : ∀ m, (body m).1 ≠ .ok .continued) (rounds : Nat) :
    iterate test body (do let _ ← next; pure ()) rounds =
      iterate test (andThen body (dropping next)) (pure ()) rounds := by
  induction rounds with
  | zero => rfl
  | succ rounds ih =>
    simp only [iterate, ih]
    congr 1
    funext b
    split
    · simp only [andThen, dropping, bind_assoc]
      funext m
      rcases hr : body m with ⟨e | signal, n⟩
      · rw [bind_error hr, bind_error hr]
      · rw [bind_ok hr, bind_ok hr]
        cases signal with
        | continued => exact absurd (congrArg Prod.fst hr) (h m)
        | normal => simp only [bind_assoc, pure_bind]
        | broken | returned v => rfl
    · rfl

section Follows

variable {excused : Failure → Prop} {R : Machine → Machine → Prop} {x x' y y' : Exec Signal}

theorem Follows.andThen (hx : Follows excused R x x') (hy : Follows excused R y y') :
    Follows excused R (andThen x y) (andThen x' y') := by
  refine hx.bind fun signal => ?_
  cases signal with
  | normal => exact hy
  | broken | continued | returned v => exact .pure _

theorem Follows.dropping {x x' : Exec Value} (hx : Follows excused R x x') :
    Follows excused R (dropping x) (dropping x') :=
  hx.bind fun _ => .pure _

theorem Follows.iterate (hcut : excused .exhausted) {test test' : Exec Bool}
    (ht : Follows excused R test test') (hx : Follows excused R x x') {rounds rounds' : Nat}
    (h : rounds ≤ rounds') :
    Follows excused R (iterate test x (Pure.pure ()) rounds)
      (iterate test' x' (Pure.pure ()) rounds') := by
  induction rounds generalizing rounds' with
  | zero => exact .of_excused hcut
  | succ rounds ih =>
    cases rounds' with
    | zero => exact absurd h (Nat.not_succ_le_zero rounds)
    | succ rounds' =>
      refine ht.bind fun b => ?_
      cases b with
      | false => exact .pure _
      | true =>
        refine hx.bind fun signal => ?_
        cases signal with
        | broken | returned v => exact .pure _
        | normal | continued => exact ih (Nat.le_of_succ_le_succ h)

theorem condition_follows {store : Nat → Store → Store → Prop} {quiet : Bool} {k : Nat}
    {loop loop' : Loop} {pos : Pos} {x x' : Exec Value}
    (hx : Follows (· = .exhausted) (Machine.Like (apart store quiet) k) x x') :
    Follows (· = .exhausted) (Machine.Like (apart store quiet) k) (condition loop pos x)
      (condition loop' pos x') := by
  refine hx.bind fun v => ?_
  cases v with
  | booleano b => exact .pure b
  | entero | largo | decimal | cadena | null | loose | foreign =>
    refine Follows.bind ?_ fun _ => .pure false
    intro m m' hm _
    rw [note_plain rfl, note_plain rfl]
    exact ⟨rfl, { hm with trace := hm.trace.note _ _ }⟩

theorem looping_follows {L : Likeness} (law : L.Kept) (hcut : L.excused .exhausted) {k : Nat}
    {test test' : Exec Bool} (hx : Follows L.excused (Machine.Like L (k + 1)) x x')
    (ht : Follows L.excused (Machine.Like L (k + 1)) test test')
    (hy : Follows L.excused (Machine.Like L (k + 1)) y y') {rounds rounds' : Nat}
    (h : rounds ≤ rounds') :
    Follows L.excused (Machine.Like L k) (looping x test y rounds) (looping x' test' y' rounds') :=
  Bracket.scope.around_follows law (hx.andThen (.iterate hcut ht hy h))

end Follows

theorem located_eq_self {α : Type} {pos : Pos} {x : Exec α}
    (h : ∀ m e, (x m).1 = .error e → e.locate pos = e) : located pos x = x := by
  funext m
  rw [located_apply]
  refine Prod.ext ?_ rfl
  cases hr : (x m).1 with
  | ok a => rfl
  | error e => exact congrArg Except.error (h m e hr)

theorem located_none {α : Type} (x : Exec α) : located .none x = x := by
  refine located_eq_self fun m e _ => ?_
  rcases e with ⟨cause, _ | place⟩ | why | _ | _ | _ <;> rfl

/-- A computation all of whose faults have a place. -/
def Placed {α : Type} (x : Exec α) : Prop :=
  ∀ m cause, (x m).1 ≠ .error (.fault cause none)

namespace Placed

variable {α β : Type} {x : Exec α}

theorem pure (a : α) : Placed (Pure.pure a : Exec α) := by
  intro m cause h
  cases h

theorem bind {f : α → Exec β} (hx : Placed x) (hf : ∀ a, Placed (f a)) : Placed (x >>= f) := by
  intro m cause h
  obtain h | ⟨a, n, _, h⟩ := Plan.bind_error_iff.mp h
  · exact hx m cause h
  · exact hf a n cause h

theorem inScope (hx : Placed x) : Placed (Exec.inScope x) := by
  intro m cause h
  exact hx _ cause h

theorem located_eq (hx : Placed x) (pos : Pos) : located pos x = x := by
  refine located_eq_self fun m e he => ?_
  rcases e with ⟨cause, _ | place⟩ | why | _ | _ | _
  · exact absurd he (hx m cause)
  all_goals rfl

theorem condition (loop : Loop) (pos : Pos) {x : Exec Value} (hx : Placed x) :
    Placed (Exec.condition loop pos x) := by
  refine hx.bind fun v => ?_
  cases v with
  | booleano b => exact .pure b
  | entero | largo | decimal | cadena | null | loose | foreign =>
    refine Placed.bind (fun m cause h => ?_) fun _ => .pure false
    rw [note_plain rfl] at h
    cases h

theorem andThen {x y : Exec Signal} (hx : Placed x) (hy : Placed y) : Placed (andThen x y) := by
  refine hx.bind fun signal => ?_
  cases signal with
  | normal => exact hy
  | broken | continued | returned v => exact .pure _

theorem dropping {x : Exec Value} (hx : Placed x) : Placed (dropping x) :=
  hx.bind fun _ => .pure _

theorem iterate {test : Exec Bool} {x : Exec Signal} (ht : Placed test) (hx : Placed x)
    (rounds : Nat) : Placed (iterate test x (Pure.pure ()) rounds) := by
  induction rounds with
  | zero =>
    intro m cause h
    cases h
  | succ rounds ih =>
    refine ht.bind fun b => ?_
    cases b with
    | false => exact .pure _
    | true =>
      refine hx.bind fun signal => ?_
      cases signal with
      | broken | returned v => exact .pure _
      | normal | continued => exact ih

end Placed

end Exec

theorem Task.run_placed {t : Task} (h : t.pos.IsPlace) (fuel : Nat) : Exec.Placed (t.run fuel) := by
  intro m cause hrun
  cases fuel with
  | zero =>
    rw [run_zero] at hrun
    cases hrun
  | succ fuel =>
    rw [run_succ] at hrun
    obtain ⟨e, _, he⟩ := Exec.located_error.mp hrun
    have hplace : t.pos.place? = some t.pos := if_pos h
    rcases e with ⟨_, _ | place⟩ | why | _ <;> simp [Failure.locate, hplace] at he

namespace Plan

variable {ev : Evaluator} {m n n' q q' : Machine} {u : Task} {test update : Expr} {body : Stmt}

theorem asks_condition {loop : Loop} :
    (condition loop test).Asks ev m u n ↔ u = .eval test ∧ n = m := by
  constructor
  · intro h
    obtain h | ⟨v, q, _, h⟩ := asks_bind.mp h
    · exact asks_value.mp h
    · cases v with
      | booleano b => exact h.elim
      | entero | largo | decimal | cadena | null | loose | foreign =>
        obtain h | ⟨_, _, _, h⟩ := asks_bind.mp h
        · exact absurd h not_asks_perform
        · exact h.elim
  · intro h
    exact asks_bind.mpr (.inl (asks_value.mpr h))

section Iterate

variable {check : Plan Bool} {next : Plan Unit} {rounds : Nat}

theorem iterate_leaves {last : Signal} (hcheck : check.run ev m = (.ok true, q))
    (hbody : (signal body).run ev q = (.ok last, q')) (hlast : last = .normal ∨ last = .continued) :
    Leaves ev (iterate check body next (rounds + 1)) m
      (next >>= fun _ => iterate check body next rounds) q' := by
  refine (Leaves.of_bind hcheck _).trans ((Leaves.of_bind hbody _).trans ?_)
  obtain rfl | rfl := hlast <;> exact ⟨rfl, fun _ _ hu => hu⟩

/-- Whenever a round ends with `continuar`, the step after it is next. -/
theorem iterate_continued (hcheck : ∀ m n, ¬ check.Asks ev m (.exec body) n)
    (hnext : ∀ m n, ¬ next.Asks ev m (.exec body) n)
    (hbody : (signal body).run ev n = (.ok .continued, n'))
    (h : (iterate check body next rounds).Asks ev m (.exec body) n) :
    ∃ left, Leaves ev (iterate check body next rounds) m
      (next >>= fun _ => iterate check body next left) n' := by
  induction rounds generalizing m with
  | zero => exact h.elim
  | succ rounds ih =>
    obtain h | ⟨_ | _, q, hq, h⟩ := asks_bind.mp h
    · exact absurd h (hcheck m n)
    · exact h.elim
    · obtain h | ⟨last, q', hq', h⟩ := asks_bind.mp h
      · obtain ⟨_, rfl⟩ := asks_signal.mp h
        exact ⟨rounds, iterate_leaves hq hbody (.inr rfl)⟩
      · -- the body is executed in a later round: the step after this one comes first
        have hlater (hlast : last = .normal ∨ last = .continued)
            (h : (next >>= fun _ => iterate check body next rounds).Asks ev q' (.exec body) n) :
            ∃ left, Leaves ev (iterate check body next (rounds + 1)) m
              (next >>= fun _ => iterate check body next left) n' := by
          obtain h | ⟨_, q'', hq'', h⟩ := asks_bind.mp h
          · exact absurd h (hnext q' n)
          · obtain ⟨left, hleft⟩ := ih h
            exact ⟨left, (iterate_leaves hq hq' hlast).trans ((Leaves.of_bind hq'' _).trans hleft)⟩
        cases last with
        | normal => exact hlater (.inl rfl) h
        | continued => exact hlater (.inr rfl) h
        | broken | returned v => exact h.elim

end Iterate

end Plan

end Guion
