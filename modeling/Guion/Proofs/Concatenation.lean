import Guion.Proofs.Counterparts
import Guion.Proofs.Grammar.Concatenation
import Guion.Proofs.Limit
import Guion.Proofs.Signals

namespace Guion

/-- The top-level statements are all executed, and each of them ends normally. -/
def Program.Completes (p : Program) (fuel : Nat) (m : Machine) : Prop :=
  (Exec.sequence (exec fuel) p.body m).1 = .ok .normal

/-- The task stands in a function that the machine knows. -/
def Machine.Holds (m : Machine) (t : Task) : Prop :=
  (⟨.none, m.functions.map Function.body⟩ : Program).Contains t

/-- A program that is started on a machine and is read further down in another text: what stands in
the functions of the machine stays where it is, what stands in the program is moved. -/
def lowered (m : Machine) (p : Program) (lines : Nat) : Counterparts where
  moves move t := (move = id ∧ m.Holds t) ∨ (move = Pos.down lines ∧ p.Contains t)
  places place place' :=
    (place' = place ∧ ∃ t, m.Holds t ∧ t.pos = place) ∨
      (place' = place.down lines ∧ ∃ t, p.Contains t ∧ t.pos = place)

theorem Pos.Marked.place?_down {pos : Pos} (h : pos.Marked) (lines : Nat) :
    pos.place? = some pos ∧ (pos.down lines).place? = some (pos.down lines) ∧ pos ≠ .none := by
  obtain ⟨mark, hline, _, rfl⟩ := h
  have hne : mark.line ≠ 0 := by omega
  have hsum : (mark.line : Int) + lines ≠ 0 := by omega
  refine ⟨?_, ?_, ?_⟩
  · simp [place?, Mark.pos, Tree.isTrue, hne]
  · simp [place?, down, Mark.pos, Tree.isTrue, hsum]
  · simp [Mark.pos, none, hne]

theorem lowered_kept (m : Machine) {source : String} {p : Program} (hp : parse source = .ok p)
    (lines : Nat) : (lowered m p lines).Kept where
  part := by
    rintro move t u (⟨rfl, ht⟩ | ⟨rfl, ht⟩) hu
    · exact .inl ⟨rfl, ht.part hu⟩
    · exact .inr ⟨rfl, ht.part hu⟩
  placed := by
    rintro move t (⟨rfl, ht⟩ | ⟨rfl, ht⟩)
    · rw [Task.moved_id]
      cases hplace : t.pos.place? with
      | none => exact .none
      | some place =>
        have heq : t.pos = place := by
          simp only [Pos.place?, Option.ite_none_right_eq_some] at hplace
          exact Option.some.inj hplace.2
        exact .some (.inl ⟨rfl, t, ht, heq⟩)
    · have hmarked : t.pos.Marked := (Task.Throughout.contains (parse_marked hp) ht).self
      obtain ⟨hplace, hmoved, hne⟩ := hmarked.place?_down lines
      rw [Task.pos_moved hne, hplace, hmoved]
      exact .some (.inr ⟨rfl, t, ht, rfl⟩)

/-- Machines that differ in what they have reported only. -/
def unreported : Likeness where
  store _ s s' := s' = s
  limit _ a b := a = b
  trace := Trace.Alike
  quiet := false
  excused _ := False

theorem unreported_kept : unreported.Kept where
  store := Store.congruence_eq false
  limit := .inl
  refuses _ h := .inl (h.refuses rfl rfl)
  note event h := h.note event event
  close h := h.close
  located _ _ h := h

section Run

variable {fuel : Nat} {m n k : Machine} {p : Program}

theorem sequence_unreported {body : List Stmt} {signal : Signal}
    (h : (Exec.sequence (exec fuel) body m).1 = .ok signal) (hm : m.Like unreported 0 n) :
    ∃ k, Exec.sequence (exec fuel) body n = (.ok signal, k) ∧ n.SameSettings k ∧
      (Exec.sequence (exec fuel) body m).2.Like unreported 0 k := by
  have hrun : Exec.sequence (exec fuel) body = (Plan.sequence body).run (.upTo fuel) :=
    (Plan.run_sequence (.upTo fuel) body).symm
  have hfollows : Exec.Follows unreported.excused (Machine.Like unreported 0)
      (Exec.sequence (exec fuel) body) (Exec.sequence (exec fuel) body) := by
    rw [hrun]
    refine Plan.run_follows unreported_kept (fun t k _ => ?_) _ fun hq => nomatch hq
    rw [Evaluator.answer_upTo]
    exact t.run_follows unreported_kept fuel fun hq => nomatch hq
  have hlevel : n.Level (Exec.sequence (exec fuel) body n).2 := by
    rw [hrun]
    refine Plan.run_level (fun t q => ?_) _ n
    rw [Evaluator.answer_upTo]
    exact t.run_level fuel q
  obtain ⟨hfst, hsnd⟩ := hfollows m n hm fun _ _ he => he
  exact ⟨_, Exec.eq_of_fst (hfst.trans h), hlevel.toSameSettings, hsnd⟩

theorem runBody_append {body rest : List Stmt}
    (h : Exec.sequence (exec fuel) body m = (.ok .normal, k)) :
    runBody (exec fuel) (body ++ rest) m = runBody (exec fuel) rest k := by
  induction body generalizing m with
  | nil =>
    cases h
    rfl
  | cons s body ih =>
    obtain ⟨signal, q, hs, hrest⟩ := Exec.bind_eq_ok.mp h
    rw [List.cons_append, runBody, Exec.bind_ok hs]
    cases signal with
    | normal => exact ih hrest
    | broken | continued | returned v => cases hrest

theorem runTraced_append {body rest : List Stmt}
    (h : Exec.sequence (exec fuel) body m = (.ok .normal, k)) :
    runTraced (exec fuel) (body ++ rest) m = runTraced (exec fuel) rest k := by
  have hbody : (runBody (exec fuel) (body ++ rest) >>= fun _ => Exec.note .finished) m =
      (runBody (exec fuel) rest >>= fun _ => Exec.note .finished) k := by
    simp only [bind, runBody_append h]
  simp only [runTraced, hbody]

theorem run_granted (h : m.stack.Grants m.limit) :
    run fuel p m =
      runTraced (exec fuel) p.body { m with trace := m.trace.note (.started p.body.length) } := by
  let noted : Machine := { m with trace := m.trace.note (.started p.body.length) }
  have hcheck : Exec.checkStack noted = (.ok (), noted) := Exec.checkStack_granted h
  exact (Exec.bind_ok (Exec.note_plain rfl m)).trans (Exec.bind_ok hcheck)

theorem granted_of_run (h : run fuel p m = (.ok (), n)) : m.stack.Grants m.limit := by
  by_contra hrefused
  obtain ⟨why, _, hrun⟩ := @run_refused p m fuel hrefused
  cases h.symm.trans hrun

end Run

/-- A run that completes and a run after it are one run, of the statements of both. The second
program may stand further down in the text of both. -/
theorem run_append {fuel lines : Nat} {m n : Machine} {p q whole : Program} {source : String}
    (hq : parse source = .ok q)
    (hbody : whole.body = p.body ++ q.body.map (Stmt.moved (Pos.down lines)))
    (hrun : run fuel p m = (.ok (), n)) (hp : p.Completes fuel m) :
    (lowered n q lines).Results Eq (run fuel q n).1 (run fuel whole m).1 ∧
      (lowered n q lines).Machines (run fuel q n).2 (run fuel whole m).2 := by
  have hgranted := granted_of_run hrun
  obtain ⟨k, hfirst, hsame, hlike⟩ := sequence_unreported hp
    (n := { m with trace := m.trace.note (.started p.body.length) })
    ⟨rfl, rfl, rfl, rfl, rfl, rfl, ⟨by simp, by simp⟩⟩
  obtain ⟨k', hfirst', hsame', hlike'⟩ := sequence_unreported hp
    (n := { m with trace := m.trace.note (.started whole.body.length) })
    ⟨rfl, rfl, rfl, rfl, rfl, rfl, ⟨by simp, by simp⟩⟩
  -- The first program leaves `k`, but for the end of its trace.
  have hn : n = { k with trace := (k.trace.note .finished).close } := by
    have hend := @runTraced_append fuel _ _ p.body [] hfirst
    rw [List.append_nil] at hend
    have hnote : (runBody (exec fuel) [] >>= fun _ => Exec.note .finished) k =
        (.ok (), { k with trace := k.trace.note .finished }) := Exec.note_plain rfl k
    have hfinished : runTraced (exec fuel) [] k =
        (.ok (), { k with trace := (k.trace.note .finished).close }) := by
      simp only [runTraced, hnote]
    rw [run_granted hgranted, hend, hfinished] at hrun
    exact (congrArg Prod.snd hrun).symm
  have hstart : (lowered n q lines).Machines
      { n with trace := n.trace.note (.started q.body.length) } k' := by
    subst hn
    refine ⟨?_, ?_, ?_, ?_, ?_, ?_, ?_⟩
    · exact hlike'.store.trans hlike.store.symm
    · have hfunctions : k'.functions = k.functions := hlike'.functions.trans hlike.functions.symm
      rw [hfunctions]
      refine List.forall₂_same.mpr fun f hf => ?_
      exact ⟨id, .inl ⟨rfl, .top (List.mem_map_of_mem hf)⟩, f.moved_id.symm⟩
    · exact hlike'.calls.trans hlike.calls.symm
    · exact hsame'.limit.trans hsame.limit.symm
    · exact hsame'.stack.trans hsame.stack.symm
    · exact hlike'.console.trans hlike.console.symm
    · exact ⟨by simp [hsame'.verbosity, hsame.verbosity], by simp [hsame'.lacking, hsame.lacking]⟩
  have hgrantedThen : n.stack.Grants n.limit := by
    subst hn
    change k.stack.Grants k.limit
    rw [hsame.stack, hsame.limit]
    exact hgranted
  rw [run_granted hgrantedThen, run_granted hgranted, hbody, runTraced_append (hbody ▸ hfirst')]
  refine runTraced_moved (lowered_kept n hq lines) fuel ?_ _ _ hstart
  intro s hs
  exact .inr ⟨rfl, .top hs⟩

end Guion
