import Guion.Proofs.Rounds
import Guion.Proofs.Signals

namespace Guion

namespace Stmt

theorem enclosed_declare {pos : Pos} {type : TypeName} {name : Name} {first : Option Expr} :
    (declare pos type name first).Enclosed :=
  ⟨nofun, nofun, nofun⟩

/-- A `para` written as a `mientras`, in a block of its own, behind its first statement. What is
added has no place. -/
def expansion (initial : Stmt) (test update : Expr) (body : Stmt) : Stmt :=
  .block .none [initial, .whileLoop .none test (.block .none [body, .expr .none update])]

end Stmt

section Loops

variable {pos : Pos} {initial body : Stmt} {test update : Expr}

theorem exec_expansion (fuel : Nat) :
    exec (fuel + 4) (.expansion initial test update body) =
      Exec.looping (exec (fuel + 3) initial)
        (Exec.condition .whileLoop test.pos (eval (fuel + 2) test))
        (Exec.inScope (Exec.andThen (exec (fuel + 1) body) (Exec.dropping (eval fuel update))))
        (fuel + 2) := by
  have hround : exec (fuel + 2) (.block .none [body, .expr .none update]) = Exec.inScope
      (Exec.andThen (exec (fuel + 1) body) (Exec.dropping (eval fuel update))) := by
    have hupdate : exec (fuel + 1) (.expr .none update) = Exec.dropping (eval fuel update) :=
      Exec.located_none _
    rw [← hupdate, ← Exec.sequence_pair]
    exact Exec.located_none _
  have hloop : exec (fuel + 3) (.whileLoop .none test (.block .none [body, .expr .none update])) =
      Exec.iterate (Exec.condition .whileLoop test.pos (eval (fuel + 2) test))
        (Exec.inScope (Exec.andThen (exec (fuel + 1) body) (Exec.dropping (eval fuel update))))
        (pure ()) (fuel + 2) := by
    rw [← hround]
    exact Exec.located_none _
  rw [Exec.looping, ← hloop, ← Exec.sequence_pair]
  exact Exec.located_none _

theorem exec_forLoop (hinitial : initial.Enclosed)
    (hcontinue : ¬ ∃ place, body.Exposes false (.continues place))
    (hplaced : (Task.exec (.forLoop pos initial test update body)).Throughout (Task.At Pos.IsPlace))
    (fuel : Nat) :
    exec (fuel + 1) (.forLoop pos initial test update body) =
      Exec.looping (exec fuel initial) (Exec.condition .forLoop test.pos (eval fuel test))
        (Exec.andThen (exec fuel body) (Exec.dropping (eval fuel update))) fuel := by
  have hnormal : ∀ m signal, (exec fuel initial m).1 = .ok signal → signal = .normal := by
    intro m signal h
    exact hinitial.normal (exec_gives h)
  have hbody : ∀ m, (exec fuel body m).1 ≠ .ok .continued := by
    intro m h
    exact hcontinue (exec_gives h)
  have hstep : exec (fuel + 1) (.forLoop pos initial test update body) =
      Exec.located pos (Exec.looping (exec fuel initial)
        (Exec.condition .forLoop test.pos (eval fuel test))
        (Exec.andThen (exec fuel body) (Exec.dropping (eval fuel update))) fuel) := by
    rw [Exec.looping, ← Exec.iterate_eq hbody, ← Exec.bind_eq_andThen hnormal]
    rfl
  have hpart : ∀ t ∈ (Task.exec (.forLoop pos initial test update body)).parts,
      Exec.Placed (t.run fuel) := by
    intro t ht
    exact t.run_placed (hplaced.part ht).self fuel
  simp only [Task.parts, List.forall_mem_cons] at hpart
  obtain ⟨hfirst, htest, hupdate, hround, _⟩ := hpart
  rw [hstep]
  have hrounds := Exec.Placed.iterate (.condition .forLoop test.pos htest)
    (.andThen hround hupdate.dropping) fuel
  exact (Exec.Placed.inScope (.andThen hfirst hrounds)).located_eq pos

theorem round_follows {store : Nat → Store → Store → Prop} {quiet : Bool} {k : Nat}
    (law : Store.Congruence store quiet) (hbody : (Task.exec body).Silent) (update : Expr)
    {fuel fuel' depth depth' : Nat} (hfuel : fuel ≤ fuel') (hdepth : depth ≤ depth') :
    Exec.Follows (· = .exhausted) (Machine.Like (apart store quiet) k)
      (Exec.andThen (exec fuel body) (Exec.dropping (eval depth update)))
      (Exec.andThen (exec fuel' body) (Exec.dropping (eval depth' update))) := by
  have hexec := (Task.exec body).follows_deeper law (k := k) hfuel fun _ _ => hbody
  have heval := (Task.eval update).follows_deeper law (k := k) hdepth fun _ _ => trivial
  exact Exec.Follows.andThen hexec (Exec.Follows.dropping heval)

section Equal

variable (hinitial : initial.Enclosed)
  (hcontinue : ¬ ∃ place, body.Exposes false (.continues place))
  (hplaced : (Task.exec (.forLoop pos initial test update body)).Throughout (Task.At Pos.IsPlace))
  (hbody : (Task.exec body).Silent)

include hinitial hcontinue hplaced hbody

/-- Whatever a `para` comes to, its expansion comes to. -/
theorem expansion_follows (fuel : Nat) :
    Exec.Follows (· = .exhausted) (Machine.Like (apart (fun _ s s' => s' = s) false) 0)
      (exec (fuel + 1) (.forLoop pos initial test update body))
      (exec (fuel + 4) (.expansion initial test update body)) := by
  rw [exec_forLoop hinitial hcontinue hplaced, exec_expansion]
  have law := Store.congruence_eq false
  have hfirst := (Task.exec initial).follows_deeper law (k := 1)
    (fuel.le_add_right 3) fun hquiet => nomatch hquiet
  have htest := (Task.eval test).follows_deeper law (k := 1)
    (fuel.le_add_right 2) fun hquiet => nomatch hquiet
  have hround := round_follows Store.congruence_padded (k := 0) hbody update
    (fuel.le_add_right 1) (Nat.le_refl fuel)
  exact Exec.looping_follows (apart_kept law) rfl hfirst (Exec.condition_follows htest)
    hround.inScope_right (fuel.le_add_right 2)

theorem forLoop_follows (fuel : Nat) :
    Exec.Follows (· = .exhausted) (Machine.Like (apart (fun _ s s' => s' = s) false) 0)
      (exec (fuel + 4) (.expansion initial test update body))
      (exec (fuel + 4) (.forLoop pos initial test update body)) := by
  rw [exec_forLoop hinitial hcontinue hplaced, exec_expansion]
  have law := Store.congruence_eq false
  have hfirst := (Task.exec initial).follows_deeper law (k := 1)
    (Nat.le_refl (fuel + 3)) fun hquiet => nomatch hquiet
  have htest := (Task.eval test).follows_deeper law (k := 1)
    (Nat.le_succ (fuel + 2)) fun hquiet => nomatch hquiet
  have hround := round_follows Store.congruence_padded.flip (k := 0) hbody update
    (show fuel + 1 ≤ fuel + 3 by omega) (fuel.le_add_right 3)
  exact Exec.looping_follows (apart_kept law) rfl hfirst (Exec.condition_follows htest)
    hround.inScope_left (Nat.le_succ (fuel + 2))

end Equal

end Loops

section Continued

variable {fuel : Nat} {pos : Pos} {initial body : Stmt} {test update : Expr} {m n n' : Machine}

theorem forLoop_leaves {ev : Evaluator} {rounds : Nat} (hinitial : initial ≠ body)
    (hasks : (Plan.forLoop initial test update body rounds).Asks ev m (.exec body) n)
    (hbody : ev.exec body n = (.ok .continued, n')) :
    ∃ left, Plan.Leaves ev (Plan.forLoop initial test update body rounds) m
      (do
        let _ ← Plan.value update
        Plan.iterate (Plan.condition .forLoop test) body
          (do let _ ← Plan.value update; pure ()) left) n' := by
  obtain h | ⟨first, q, hq, h⟩ := Plan.asks_bind.mp hasks
  · obtain ⟨h, _⟩ := Plan.asks_signal.mp h
    cases h
    exact absurd rfl hinitial
  · have hsignal : (Plan.signal body).run ev n = (.ok .continued, n') :=
      (congrFun (Plan.run_signal ev body) n).trans hbody
    have hcheck : ∀ m n, ¬ (Plan.condition .forLoop test).Asks ev m (.exec body) n := by
      intro m n h
      cases (Plan.asks_condition.mp h).1
    have hnext : ∀ m n, ¬ (do let _ ← Plan.value update; pure () : Plan Unit).Asks ev m
        (.exec body) n := by
      intro m n h
      obtain h | ⟨_, _, _, h⟩ := Plan.asks_bind.mp h
      · cases (Plan.asks_value.mp h).1
      · exact h
    obtain ⟨left, hleft⟩ := Plan.iterate_continued hcheck hnext hsignal h
    rw [Plan.bind_assoc] at hleft
    exact ⟨left, (Plan.Leaves.of_bind hq _).trans hleft⟩

theorem forLoop_continued (hinitial : initial ≠ body)
    (hasks : (Plan.exec fuel (.forLoop pos initial test update body)).Asks (.upTo fuel) m
      (.exec body) n) (hbody : exec fuel body n = (.ok .continued, n')) :
    (Plan.exec fuel (.forLoop pos initial test update body)).Asks (.upTo fuel) m
        (.eval update) n' ∧
      ∀ v q, eval fuel update n' = (.ok v, q) →
        (exec (fuel + 1) (.forLoop pos initial test update body) m).1 = .error .exhausted ∨
        (Plan.exec fuel (.forLoop pos initial test update body)).Asks (.upTo fuel) m
          (.eval test) q := by
  obtain h | ⟨_, _, _, h⟩ := hasks
  · obtain ⟨left, hrun, hasks⟩ := forLoop_leaves hinitial h hbody
    refine ⟨.inl (hasks _ _ (Plan.asks_bind.mpr (.inl (Plan.asks_value.mpr ⟨rfl, rfl⟩)))), ?_⟩
    intro v q hv
    have hupdate : (Plan.value update).run (.upTo fuel) n' = (.ok v, q) :=
      (congrFun (Plan.run_value (.upTo fuel) update) n').trans hv
    cases left with
    | zero =>
      left
      refine (Task.run_exhausted_iff fuel (.exec _) m).mpr ?_
      change ((Plan.inside .scope (Plan.forLoop initial test update body fuel)).run
        (.upTo fuel) m).1 = _
      rw [Plan.run_inside]
      refine Plan.around_error.mpr ?_
      rw [hrun, Plan.run_bind, Exec.bind_ok hupdate]
      rfl
    | succ left =>
      right
      refine .inl (hasks _ _ (Plan.asks_bind.mpr (.inr ⟨v, q, hupdate, ?_⟩)))
      exact Plan.asks_bind.mpr (.inl (Plan.asks_condition.mpr ⟨rfl, rfl⟩))
  · exact h.elim

end Continued

/-- Executed on `m`, with whatever depth that takes, the statement comes to the result `r` and
leaves the machine `n`. -/
def Stmt.Ends (s : Stmt) (m : Machine) (r : Except Failure Signal) (n : Machine) : Prop :=
  r ≠ .error .exhausted ∧ ∃ fuel, exec fuel s m = (r, n)

theorem Machine.Agrees.symm {m m' : Machine} (h : m.Agrees m') : m'.Agrees m :=
  ⟨h.store.symm, h.functions.symm, h.calls.symm, h.limit.symm, h.stack.symm, h.console.symm⟩

theorem exec_deeper {s : Stmt} {fuel depth : Nat} {m n : Machine} {r : Except Failure Signal}
    (hd : fuel ≤ depth) (hr : r ≠ .error .exhausted) (h : exec fuel s m = (r, n)) :
    exec depth s m = (r, n) := by
  rw [← h]
  refine Task.run_deeper hd (t := .exec s) fun hcut => hr ?_
  exact (congrArg Prod.fst h).symm.trans hcut

theorem ends_of_follows {s s' : Stmt} {fuel fuel' : Nat} {m n : Machine}
    {r : Except Failure Signal}
    (h : Exec.Follows (· = .exhausted) (Machine.Like (apart (fun _ s s' => s' = s) false) 0)
      (exec fuel s) (exec fuel' s'))
    (hr : r ≠ .error .exhausted) (hs : exec fuel s m = (r, n)) :
    ∃ n', s'.Ends m r n' ∧ n.Agrees n' := by
  obtain ⟨hfst, hsnd⟩ := h m m ⟨rfl, rfl, rfl, rfl, rfl, rfl, .refl _⟩ (by
    rintro e he rfl
    rw [hs] at he
    exact hr he)
  rw [hs] at hfst hsnd
  refine ⟨(exec fuel' s' m).2, ⟨hr, fuel', Exec.eq_of_fst hfst⟩, ?_⟩
  exact ⟨hsnd.store, hsnd.functions, hsnd.calls, hsnd.limit.symm, hsnd.stack, hsnd.console⟩

/-- A `para` is its expansion. Where no `continuar` of its body is meant for it, one of the two ends
where the other does, with the same result and on machines that agree in all but their reports. And
where its body ends with `continuar`, a `para` still evaluates the update and then the test, unless
the update fails or the depth gives out. -/
theorem forLoop_expands {source : String} {p : Program} (hp : parse source = .ok p) {pos : Pos}
    {initial body : Stmt} {test update : Expr}
    (hloop : p.Contains (.exec (.forLoop pos initial test update body))) (m : Machine) :
    ((¬ ∃ place, body.Exposes false (.continues place)) →
      (∀ r n, (Stmt.forLoop pos initial test update body).Ends m r n →
        ∃ n', (Stmt.expansion initial test update body).Ends m r n' ∧ n.Agrees n') ∧
      ∀ r n', (Stmt.expansion initial test update body).Ends m r n' →
        ∃ n, (Stmt.forLoop pos initial test update body).Ends m r n ∧ n.Agrees n') ∧
    ∀ fuel n n', (Plan.exec fuel (.forLoop pos initial test update body)).Asks (.upTo fuel) m
        (.exec body) n → exec fuel body n = (.ok .continued, n') →
      (Plan.exec fuel (.forLoop pos initial test update body)).Asks (.upTo fuel) m
          (.eval update) n' ∧
        ∀ v q, eval fuel update n' = (.ok v, q) →
          (exec (fuel + 1) (.forLoop pos initial test update body) m).1 = .error .exhausted ∨
          (Plan.exec fuel (.forLoop pos initial test update body)).Asks (.upTo fuel) m
            (.eval test) q := by
  have hplaced := Task.Throughout.contains (parse_placed hp) hloop
  have hwritten : (Stmt.forLoop pos initial test update body).Written :=
    (parse_written hp).contains hloop
  cases hwritten with
  | forLoop _ _ _ hbody hplain =>
    have hsilent : (Task.exec body).Silent := ⟨hbody, hplain.isDeclare⟩
    refine ⟨fun hcontinue => ⟨?_, ?_⟩, fun fuel n n' hasks hcontinued => ?_⟩
    · rintro r n ⟨hr, _ | fuel, hrun⟩
      · cases hrun
        exact absurd rfl hr
      · have hfollows := expansion_follows Stmt.enclosed_declare hcontinue hplaced hsilent fuel
        exact ends_of_follows hfollows hr hrun
    · rintro r n' ⟨hr, fuel, hrun⟩
      have hfollows := forLoop_follows Stmt.enclosed_declare hcontinue hplaced hsilent fuel
      obtain ⟨n, hends, hagrees⟩ := ends_of_follows hfollows hr
        (exec_deeper (fuel.le_add_right 4) hr hrun)
      exact ⟨n, hends, hagrees.symm⟩
    · refine forLoop_continued ?_ hasks hcontinued
      rintro rfl
      exact hplain

/-- A `para` that prints ends as its expansion does, and one that only continues goes on. -/
theorem forLoop_expands_both :
    ∃ p q pos initial test update prints jump,
      parse "para (entero i = 0; i < 1; i = i + 1) imprimir i;" = .ok p ∧
      p.Contains (.exec (.forLoop pos initial test update prints)) ∧
      (¬ ∃ place, prints.Exposes false (.continues place)) ∧
      (∃ n n', (Stmt.forLoop pos initial test update prints).Ends (.start (.stream "") 0 9)
          (.ok .normal) n ∧
        (Stmt.expansion initial test update prints).Ends (.start (.stream "") 0 9)
          (.ok .normal) n' ∧ n.Agrees n') ∧
      parse "para (entero i = 0; i < 1; i = i + 1) continuar;" = .ok q ∧
      q.Contains (.exec (.forLoop pos initial test update jump)) ∧
      ∃ n n', (Plan.exec 9 (.forLoop pos initial test update jump)).Asks (.upTo 9)
          (.start (.stream "") 0 9) (.exec jump) n ∧ exec 9 jump n = (.ok .continued, n') ∧
        (Plan.exec 9 (.forLoop pos initial test update jump)).Asks (.upTo 9)
          (.start (.stream "") 0 9) (.eval update) n' := by
  let initial : Stmt := .declare (Mark.pos ⟨1, 7⟩) (.known .entero) "i"
    (some (.literal (Mark.pos ⟨1, 18⟩) (.integer (.int 0))))
  let test : Expr := .binary (Mark.pos ⟨1, 21⟩) .less (.name (Mark.pos ⟨1, 21⟩) "i")
    (.literal (Mark.pos ⟨1, 25⟩) (.integer (.int 1)))
  let update : Expr := .assign (Mark.pos ⟨1, 28⟩) "i" (.binary (Mark.pos ⟨1, 32⟩) .add
    (.name (Mark.pos ⟨1, 32⟩) "i") (.literal (Mark.pos ⟨1, 36⟩) (.integer (.int 1))))
  let prints : Stmt := .print (Mark.pos ⟨1, 39⟩) (.name (Mark.pos ⟨1, 48⟩) "i")
  let jump : Stmt := .continues (Mark.pos ⟨1, 39⟩)
  let m : Machine := .start (.stream "") 0 9
  have hp : parse "para (entero i = 0; i < 1; i = i + 1) imprimir i;" = .ok ⟨Mark.pos ⟨1, 1⟩,
      [.forLoop (Mark.pos ⟨1, 1⟩) initial test update prints]⟩ := by rfl
  have hq : parse "para (entero i = 0; i < 1; i = i + 1) continuar;" = .ok ⟨Mark.pos ⟨1, 1⟩,
      [.forLoop (Mark.pos ⟨1, 1⟩) initial test update jump]⟩ := by rfl
  have hrun : (exec 9 (.forLoop (Mark.pos ⟨1, 1⟩) initial test update prints) m).1 =
      .ok .normal := by decide +kernel
  have hends : (Stmt.forLoop (Mark.pos ⟨1, 1⟩) initial test update prints).Ends m (.ok .normal)
      (exec 9 (.forLoop (Mark.pos ⟨1, 1⟩) initial test update prints) m).2 :=
    ⟨nofun, 9, Exec.eq_of_fst hrun⟩
  have hno : ¬ ∃ place, prints.Exposes false (.continues place) := by
    rintro ⟨place, h⟩
    change (Stmt.print _ _).Exposes false _ at h
    cases h
  have hinitial : ((Plan.signal initial).run (.upTo 9) (Bracket.scope.enter m)).1 =
      .ok .normal := by decide +kernel
  have htest : ((Plan.condition .forLoop test).run (.upTo 9)
      ((Plan.signal initial).run (.upTo 9) (Bracket.scope.enter m)).2).1 = .ok true := by
    decide +kernel
  have hasks : (Plan.exec 9 (.forLoop (Mark.pos ⟨1, 1⟩) initial test update jump)).Asks (.upTo 9) m
      (.exec jump) _ :=
    .inl (Plan.asks_bind.mpr (.inr ⟨_, _, Exec.eq_of_fst hinitial,
      Plan.asks_bind.mpr (.inr ⟨true, _, Exec.eq_of_fst htest, .inl ⟨rfl, rfl⟩⟩)⟩))
  obtain ⟨n', hends', hagrees⟩ :=
    ((forLoop_expands hp (.top List.mem_cons_self) m).1 hno).1 _ _ hends
  refine ⟨_, _, _, initial, test, update, prints, jump, hp, .top List.mem_cons_self, hno,
    ⟨_, n', hends, hends', hagrees⟩, hq, .top List.mem_cons_self, _, _, hasks, rfl, ?_⟩
  exact ((forLoop_expands hq (.top List.mem_cons_self) m).2 9 _ _ hasks rfl).1

end Guion
