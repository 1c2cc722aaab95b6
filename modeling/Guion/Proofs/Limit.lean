import Guion.Proofs.Calls
import Guion.Proofs.Likeness

namespace Guion

/-- Machines on one stack that differ in the limit on calls only. A call that goes beyond the lower
limit is excused. -/
def looser (stack : Stack) (low high : Int) : Likeness where
  store _ s s' := s' = s
  limit stack' a b := stack' = stack ∧ a = low ∧ b = high
  trace t t' := t' = t
  quiet := false
  excused e := ∃ cause place, e = .fault cause place ∧ cause.family = .recursionDepth

theorem looser_kept {stack : Stack} {low high : Int} (hle : low ≤ high) (hlow : stack.Grants low)
    (hhigh : stack.Grants high) : (looser stack low high).Kept where
  store := Store.congruence_eq false
  limit := by
    rintro _ _ _ ⟨rfl, rfl, rfl⟩
    exact .inr ⟨hle, hlow, hhigh, fun name => ⟨_, _, rfl, rfl⟩⟩
  refuses := by
    rintro t _ event rfl
    exact .inl rfl
  note := by
    rintro t _ event rfl
    rfl
  close := by
    rintro t _ rfl
    rfl
  located := by
    rintro cause place ⟨cause, _, h, hfamily⟩
    cases h
    exact ⟨_, _, rfl, hfamily⟩

theorem eq_of_looser {stack : Stack} {low high : Int} {k : Nat} {n n' : Machine}
    (h : n.Like (looser stack low high) k n') : n' = { n with limit := high } := by
  obtain ⟨store, functions, calls, limit, stack, console, trace⟩ := n'
  obtain ⟨rfl, rfl, rfl, ⟨_, _, rfl⟩, rfl, rfl, rfl⟩ := h
  rfl

variable {p : Program} {m : Machine} {fuel : Nat}

theorem run_looser {bound : Int} (hle : m.limit ≤ bound) (hm : m.stack.Grants m.limit)
    (hbound : m.stack.Grants bound)
    (h : ∀ cause place, (run fuel p m).1 = .error (.fault cause place) →
      cause.family ≠ .recursionDepth) :
    run fuel p { m with limit := bound } =
      ((run fuel p m).1, { (run fuel p m).2 with limit := bound }) := by
  have hlike : m.Like (looser m.stack m.limit bound) 0 { m with limit := bound } :=
    ⟨rfl, rfl, rfl, ⟨rfl, rfl, rfl⟩, rfl, rfl, rfl⟩
  obtain ⟨hfst, hsnd⟩ := run_follows (looser_kept hle hm hbound) rfl fuel p m _ hlike (by
    rintro e he ⟨cause, place, rfl, hfamily⟩
    exact h cause place he hfamily)
  exact Prod.ext hfst (eq_of_looser hsnd)

theorem run_refused (h : ¬ m.stack.Grants m.limit) :
    ∃ why, (why = .noStack ∨ why = .hugeStack ∨ why = .deepStack) ∧ run fuel p m =
      (.error (.stuck why), { m with trace := m.trace.note (.started p.body.length) }) := by
  let noted : Machine := { m with trace := m.trace.note (.started p.body.length) }
  have hrun : run fuel p m = (Exec.checkStack >>= fun _ => runTraced (exec fuel) p.body) noted :=
    Exec.bind_ok (Exec.note_plain rfl m)
  have hcheck : Exec.checkStack noted =
      if m.stackFrames < -2147483648 ∨ 2147483647 < m.stackFrames then
        (.error (.stuck .hugeStack), noted)
      else if m.stackFrames < 1 then (.error (.stuck .noStack), noted)
      else if m.stackFrames ≤ m.stack.used then (.error (.stuck .deepStack), noted)
      else (.ok (), noted) := rfl
  rw [hrun]
  split_ifs at hcheck with hhuge hno hdeep
  · exact ⟨.hugeStack, .inr (.inl rfl), Exec.bind_error hcheck⟩
  · exact ⟨.noStack, .inl rfl, Exec.bind_error hcheck⟩
  · exact ⟨.deepStack, .inr (.inr rfl), Exec.bind_error hcheck⟩
  · have hframes : m.stackFrames = m.stack.size + 30 * m.limit := rfl
    exact absurd ⟨by omega, by omega, by omega⟩ h

/-- The limit on calls is only a limit. A run that starts outside all calls counts at every moment
the calls open by then, never more than the limit. And where no call goes beyond the limit, a higher
one gives the same run, as far as the stack that it asks for is granted; where it is not, nothing of
the program is run. -/
theorem limit_only_limits (fuel : Nat) (p : Program) (m : Machine) :
    (m.calls = 0 → ∀ k q, (k, q) ∈ p.moments fuel m → q.calls = k ∧ k ≤ max m.limit 0) ∧
      ∀ bound, m.limit ≤ bound →
        (m.stack.Grants m.limit → m.stack.Grants bound →
          (∀ cause place, (run fuel p m).1 = .error (.fault cause place) →
            cause.family ≠ .recursionDepth) →
          run fuel p { m with limit := bound } =
            ((run fuel p m).1, { (run fuel p m).2 with limit := bound })) ∧
        (¬ m.stack.Grants bound → ∃ why, (why = .noStack ∨ why = .hugeStack ∨ why = .deepStack) ∧
          run fuel p { m with limit := bound } = (.error (.stuck why),
            { m with limit := bound, trace := m.trace.note (.started p.body.length) })) := by
  refine ⟨fun hm k q hq => ?_, fun bound hle => ⟨run_looser hle, ?_⟩⟩
  · obtain ⟨hcalls, hlimit⟩ := p.moments_counted fuel m (k, q) hq
    simp only [hm, Nat.zero_add] at hcalls hlimit
    refine ⟨hcalls, ?_⟩
    by_cases hk : k = 0
    · omega
    · have hbound := hlimit hk
      omega
  · intro hbound
    exact run_refused (m := { m with limit := bound }) hbound

/-- Two calls inside each other stay below a limit of five and run the same under a higher one, but
not under one whose stack is refused. -/
theorem limit_only_limits_nested :
    ∃ p, parse "f() \x7b \x7d g() \x7b f(); \x7d g();" = .ok p ∧
      (Machine.start (.stream "") 0 5).calls = 0 ∧
      (p.moments 9 (.start (.stream "") 0 5)).any (·.1 == 2) = true ∧
      (∀ k q, (k, q) ∈ p.moments 9 (.start (.stream "") 0 5) → q.calls = k ∧ k ≤ max (5 : Int) 0) ∧
      Stack.Grants {} 5 ∧ Stack.Grants {} 1000 ∧ (run 9 p (.start (.stream "") 0 5)).1 = .ok () ∧
      run 9 p (.start (.stream "") 0 1000) = ((run 9 p (.start (.stream "") 0 5)).1,
        { (run 9 p (.start (.stream "") 0 5)).2 with limit := 1000 }) ∧
      ¬ Stack.Grants {} 100000000 ∧ ∃ why, (why = .noStack ∨ why = .hugeStack ∨ why = .deepStack) ∧
        run 9 p (.start (.stream "") 0 100000000) =
          (.error (.stuck why), .start (.stream "") 0 100000000) := by
  let p : Program := ⟨Mark.pos ⟨1, 1⟩,
    [.function (Mark.pos ⟨1, 1⟩) "f" [] (.block (Mark.pos ⟨1, 5⟩) []),
      .function (Mark.pos ⟨1, 9⟩) "g" [] (.block (Mark.pos ⟨1, 13⟩)
        [.expr (Mark.pos ⟨1, 15⟩) (.call (Mark.pos ⟨1, 15⟩) "f" [])]),
      .expr (Mark.pos ⟨1, 22⟩) (.call (Mark.pos ⟨1, 22⟩) "g" [])]⟩
  have hp : parse "f() \x7b \x7d g() \x7b f(); \x7d g();" = .ok p := by rfl
  have hlow : Stack.Grants {} 5 := ⟨by decide, by decide, by decide⟩
  have hhigh : Stack.Grants {} 1000 := ⟨by decide, by decide, by decide⟩
  have hhuge : ¬ Stack.Grants {} 100000000 := fun h => absurd h.counted (by decide)
  have hrun : (run 9 p (.start (.stream "") 0 5)).1 = .ok () := by decide +kernel
  refine ⟨p, hp, rfl, by decide +kernel, (limit_only_limits 9 _ _).1 rfl, hlow, hhigh, hrun, ?_,
    hhuge, ?_⟩
  · refine ((limit_only_limits 9 p (.start (.stream "") 0 5)).2 1000 (by decide)).1 hlow hhigh ?_
    intro cause place h
    rw [hrun] at h
    cases h
  · exact ((limit_only_limits 9 p (.start (.stream "") 0 5)).2 100000000 (by decide)).2 hhuge

end Guion
