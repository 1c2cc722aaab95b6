import Guion.Proofs.Reports
import Guion.Proofs.Sound.Session

namespace Guion

namespace Plan

variable {α : Type} {failure : Failure → Prop} {ev : Evaluator} {good : α → Prop}

theorem Meets.mono {other : Failure → Prop} (hf : ∀ e, failure e → other e) {p : Plan α}
    (hp : p.Meets (regular failure) good) : p.Meets (regular other) good := by
  induction p with
  | done a => exact hp
  | fail e => exact hf e hp
  | move operation next ih =>
    refine ⟨?_, fun b hb => ih b (hp.2 b hb)⟩
    cases operation with
    | checkStack => exact ⟨hf _ hp.1.1, hf _ hp.1.2.1, hf _ hp.1.2.2⟩
    | _ => exact hp.1
  | ask t next ih => exact ⟨hp.1, fun a ha => ih a (hp.2 a ha)⟩
  | within bracket inner next ihi ih =>
    obtain ⟨mid, hi, hn⟩ := hp
    exact ⟨mid, ihi hi, fun b hb => ih b (hn b hb)⟩

theorem raises_of_meets (hw : ∀ e, e.Worded → failure e) (hu : failure .unwritten)
    (hfe : ∀ e, failure e → e.Expected) (hev : Answers (regular Failure.Expected) ev) (p : Plan α)
    (hp : p.Meets (regular failure) good) (m : Machine) (hm : m.Sound) {e : Failure}
    (h : p.Raises ev m e) : failure e := by
  induction p generalizing m with
  | done a => exact h.elim
  | fail f => exact h ▸ hp
  | move operation next ih =>
    have hmove := Move.run_fulfils hw hu operation m hp.1 hm
    obtain h | ⟨b, n, hr, h⟩ := h
    · exact hmove.failure e h
    · obtain ⟨hb, hn⟩ := hmove.of_ok hr
      exact ih b (hp.2 b hb) n hn h
  | ask t next ih =>
    obtain ⟨a, n, hr, h⟩ := h
    obtain ⟨ha, hn⟩ := (hev t m hp.1 hm).of_ok hr
    exact ih a (hp.2 a ha) n hn h
  | within bracket inner next ihi ih =>
    obtain ⟨mid, hi, hnext⟩ := hp
    have hin := Bracket.enter_sound bracket m hm
    obtain h | ⟨b, n, hr, h⟩ := h
    · exact ihi hi (bracket.enter m) hin h
    -- the tasks of the inner part answer within the wider contract only
    · have hinner := run_fulfils expected_kept hev inner (hi.mono hfe) _ hin
      obtain ⟨hb, hn⟩ := (hinner.around expected_kept).of_ok hr
      exact ih b (hnext b hb) n hn h

theorem raises_ofExcept {r : Except Failure α} {m : Machine} {e : Failure} :
    (ofExcept r).Raises ev m e ↔ r = .error e := by
  cases r with
  | ok a => exact ⟨fun h => h.elim, fun h => nomatch h⟩
  | error f => exact ⟨fun h => congrArg _ h.symm, fun h => (Except.error.inj h).symm⟩

end Plan

namespace Task

variable {fuel k : Nat} {t u : Task} {m m' : Machine}

theorem run_stuck_iff (why : Stuck) :
    (t.run (fuel + 1) m).1 = .error (.stuck why) ↔
      ((t.plan fuel).run (.upTo fuel) m).1 = .error (.stuck why) := by
  rw [run_succ, Exec.located_error]
  constructor
  · rintro ⟨f, hf, hl⟩
    rcases f with ⟨cause, _ | place⟩ | why' | _ | _ | _ <;> cases hl
    exact hf
  · intro h
    exact ⟨_, h, rfl⟩

/-- A task that is stuck leaves every task around it stuck. -/
theorem stuck_of_reaches {why : Stuck} (h : t.Reaches fuel m k u m')
    (hu : (u.run k m').1 = .error (.stuck why)) : (t.run fuel m).1 = .error (.stuck why) := by
  induction h with
  | here => exact hu
  | @inside fuel k t u v m n m' hask _ ih =>
    rw [run_stuck_iff, Plan.run_error_iff]
    refine .inl ⟨u, n, hask, ?_⟩
    rw [Evaluator.answer_upTo]
    exact ih hu

/-- A binary operator that is due on `m` gets operands that are an infinite dividend and a divisor
other than zero, and takes the remainder. -/
def TakesInfiniteRemainder : Nat → Task → Machine → Prop
  | k + 1, eval (.binary _ op left right), m =>
    ∃ a n b n', Guion.eval k left m = (.ok a, n) ∧ Guion.eval k right n = (.ok b, n') ∧
      Value.InfiniteRemainder op a b
  | _, _, _ => False

theorem raises_binary_iff {pos : Pos} {op : BinaryOp} {left right : Expr} {e : Failure} :
    ((eval (.binary pos op left right)).plan k).Raises (.upTo k) m e ↔
      ∃ a n b n', Guion.eval k left m = (.ok a, n) ∧ Guion.eval k right n = (.ok b, n') ∧
        Value.binary op a b = .error e := by
  constructor
  · rintro ⟨a, n, ha, b, n', hb, h⟩
    exact ⟨a, n, b, n', ha, hb, Plan.raises_ofExcept.mp h⟩
  · rintro ⟨a, n, b, n', ha, hb, h⟩
    exact ⟨a, n, ha, b, n', hb, Plan.raises_ofExcept.mpr h⟩

/-- Among the constructs of a text only a remainder of infinity fails outside the language's
words. -/
theorem raises_stuck_iff (ht : t.Written) (hm : m.Sound) :
    (t.plan fuel).Raises (.upTo fuel) m (.stuck .remainderOfInfinity) ↔
      t.TakesInfiniteRemainder (fuel + 1) m := by
  have hev := answers_upTo expected_kept fuel
  let usual (e : Failure) : Prop := e.Worded ∨ e = .unwritten
  have hworded (e : Failure) (he : e.Worded) : usual e := .inl he
  have husual (e : Failure) (he : usual e) : e.Expected := .inl (he.imp_right .inl)
  have hnot : ¬ usual (.stuck .remainderOfInfinity) := by rintro (h | h) <;> cases h
  cases t with
  | exec s =>
    refine ⟨fun h => ?_, fun h => h.elim⟩
    have hp := Plan.exec_meets hworded fuel ht
    exact (hnot (Plan.raises_of_meets hworded (.inr rfl) husual hev _ hp m hm h)).elim
  | eval e =>
    cases e with
    | binary pos op left right =>
      cases ht with
      | binary hop hl hr =>
        rw [raises_binary_iff]
        refine exists_congr fun a => exists_congr fun n => exists_congr fun b =>
          exists_congr fun n' => and_congr_right fun ha => and_congr_right fun hb => ?_
        obtain ⟨hra, hn⟩ := (hev (.eval left) m hl hm).of_ok ha
        obtain ⟨hrb, _⟩ := (hev (.eval right) n hr hn).of_ok hb
        exact Value.binary_stuck_iff hop hra hrb
    | _ =>
      refine ⟨fun h => ?_, fun h => h.elim⟩
      have hp := Plan.eval_meets hworded ht fun _ _ _ _ heq => nomatch heq
      exact (hnot (Plan.raises_of_meets hworded (.inr rfl) husual hev _ hp m hm h)).elim

theorem stuck_of_takes (ht : t.Written) (hm : m.Sound) (h : t.TakesInfiniteRemainder k m) :
    (t.run k m).1 = .error (.stuck .remainderOfInfinity) := by
  cases k with
  | zero => exact h.elim
  | succ k =>
    rw [run_stuck_iff, Plan.run_error_iff]
    exact .inr ((raises_stuck_iff ht hm).mpr h)

theorem stuck_iff_takes (ht : t.Written) (hm : m.Sound) :
    (t.run fuel m).1 = .error (.stuck .remainderOfInfinity) ↔
      ∃ k u m', t.Reaches fuel m k u m' ∧ u.TakesInfiniteRemainder k m' := by
  constructor
  · intro h
    induction fuel generalizing t m with
    | zero => cases t <;> cases h
    | succ fuel ih =>
      rw [run_stuck_iff, Plan.run_error_iff] at h
      obtain ⟨u, n, hask, h⟩ | h := h
      · rw [Evaluator.answer_upTo] at h
        obtain ⟨hu, hn⟩ := Plan.asks_within expected_kept (answers_upTo expected_kept fuel) _
          (expected_kept.plan fuel t ht) m hm hask
        obtain ⟨k, v, m', hr, hv⟩ := ih hu hn h
        exact ⟨k, v, m', .inside hask hr, hv⟩
      · exact ⟨fuel + 1, t, m, .here _ _ _, (raises_stuck_iff ht hm).mp h⟩
  · rintro ⟨k, u, m', hr, hu⟩
    obtain ⟨hw, hm'⟩ := reaches_within expected_kept ht hm hr
    exact stuck_of_reaches hr (stuck_of_takes hw hm' hu)

end Task

section Run

variable {p : Program} {m : Machine} {fuel : Nat}

theorem run_fst (fuel : Nat) (p : Program) (m : Machine) :
    (run fuel p m).1 =
      if m.stackFrames < -2147483648 ∨ 2147483647 < m.stackFrames then .error (.stuck .hugeStack)
      else if m.stackFrames < 1 then .error (.stuck .noStack)
      else if m.stackFrames ≤ m.stack.used then .error (.stuck .deepStack)
      else (runTraced (exec fuel) p.body
        { m with trace := m.trace.note (.started p.body.length) }).1 := by
  let noted : Machine := { m with trace := m.trace.note (.started p.body.length) }
  have hrun : run fuel p m = (Exec.checkStack >>= fun _ => runTraced (exec fuel) p.body) noted :=
    Exec.bind_ok (Exec.note_plain rfl m)
  have hcheck : Exec.checkStack noted =
      if m.stackFrames < -2147483648 ∨ 2147483647 < m.stackFrames then
        (.error (.stuck .hugeStack), noted)
      else if m.stackFrames < 1 then (.error (.stuck .noStack), noted)
      else if m.stackFrames ≤ m.stack.used then (.error (.stuck .deepStack), noted)
      else (.ok (), noted) := rfl
  rw [hrun]
  split_ifs at hcheck ⊢
  · rw [Exec.bind_error hcheck]
  · rw [Exec.bind_error hcheck]
  · rw [Exec.bind_error hcheck]
  · rw [Exec.bind_ok hcheck]

theorem runTraced_stuck (hp : p.Written) {why : Stuck}
    (h : (runTraced (exec fuel) p.body m).1 = .error (.stuck why)) (hm : m.Sound) :
    why = .remainderOfInfinity := by
  have hmeets : (Plan.traced p.body).Meets (regular Failure.Proper) fun _ => True :=
    Plan.Meets.bind (Plan.statements_meets hp) fun _ _ => Plan.Meets.perform trivial
  have hev := Task.answers_upTo proper_kept fuel
  have hrun := Plan.run_fulfils proper_kept hev _ hmeets m hm
  change (runTraced (Evaluator.upTo fuel).exec p.body m).1 = _ at h
  rw [← Plan.run_traced] at h
  obtain h | h | h := hrun.failure _ h
  · exact h.elim
  · cases h
  · exact Failure.stuck.inj h

theorem run_stuck_iff_takes (hp : p.Written) (hm : m.Sound) :
    (run fuel p m).1 = .error (.stuck .remainderOfInfinity) ↔
      ∃ k u m', (Request.run p).Reaches fuel m k u m' ∧ u.TakesInfiniteRemainder k m' := by
  have hev := Task.answers_upTo expected_kept fuel
  let usual (e : Failure) : Prop := (e.Worded ∨ e = .unwritten) ∨ e.Refusal
  have hmeets : (Plan.program p).Meets (regular usual) fun _ => True :=
    Plan.program_meets hp (.inr (.inl rfl)) (.inr (.inr (.inl rfl))) (.inr (.inr (.inr rfl)))
  have hraises : ¬ (Plan.program p).Raises (.upTo fuel) m (.stuck .remainderOfInfinity) := by
    intro h
    have hworded (e : Failure) (he : e.Worded) : usual e := .inl (.inl he)
    have husual (e : Failure) (he : usual e) : e.Expected :=
      he.imp_left fun h => h.imp_right .inl
    obtain (h | h) | h | h | h :=
      Plan.raises_of_meets hworded (.inl (.inr rfl)) husual hev _ hmeets m hm h <;> cases h
  rw [← Plan.run_program, Plan.run_error_iff]
  constructor
  · rintro (⟨t, n, hask, h⟩ | h)
    · rw [Evaluator.answer_upTo] at h
      obtain ⟨ht, hn⟩ := Request.starts_within (r := .run p) hp hm hask
      obtain ⟨k, u, m', hr, hu⟩ := (Task.stuck_iff_takes ht hn).mp h
      exact ⟨k, u, m', ⟨t, n, hask, hr⟩, hu⟩
    · exact (hraises h).elim
  · rintro ⟨k, u, m', ⟨t, n, hask, hr⟩, hu⟩
    obtain ⟨ht, hn⟩ := Request.starts_within (r := .run p) hp hm hask
    refine .inl ⟨t, n, hask, ?_⟩
    rw [Evaluator.answer_upTo]
    exact (Task.stuck_iff_takes ht hn).mpr ⟨k, u, m', hr, hu⟩

variable (fuel) in
theorem run_refused_iff (hp : p.Written) (hm : m.Sound) :
    ((run fuel p m).1 = .error (.stuck .hugeStack) ↔
        m.stackFrames < -2147483648 ∨ 2147483647 < m.stackFrames) ∧
      ((run fuel p m).1 = .error (.stuck .noStack) ↔
        -2147483648 ≤ m.stackFrames ∧ m.stackFrames < 1) ∧
      ((run fuel p m).1 = .error (.stuck .deepStack) ↔
        1 ≤ m.stackFrames ∧ m.stackFrames ≤ 2147483647 ∧ m.stackFrames ≤ m.stack.used) := by
  have htraced {why : Stuck} (hwhy : why ≠ .remainderOfInfinity) :
      (runTraced (exec fuel) p.body
        { m with trace := m.trace.note (.started p.body.length) }).1 ≠ .error (.stuck why) :=
    fun h => hwhy (runTraced_stuck hp h ⟨hm.store, hm.functions⟩)
  rw [run_fst]
  split_ifs with hhuge hno hdeep
  · simp only [reduceCtorEq, Except.error.injEq, Failure.stuck.injEq, false_iff, true_iff]
    omega
  · simp only [reduceCtorEq, Except.error.injEq, Failure.stuck.injEq, false_iff, true_iff]
    omega
  · simp only [reduceCtorEq, Except.error.injEq, Failure.stuck.injEq, false_iff, true_iff]
    omega
  · refine ⟨iff_of_false (htraced (nomatch ·)) hhuge, iff_of_false (htraced (nomatch ·)) ?_,
      iff_of_false (htraced (nomatch ·)) ?_⟩ <;> omega

theorem run_expected (hp : p.Written) (hm : m.Sound) {e : Failure}
    (h : (run fuel p m).1 = .error e) : e.Expected := by
  rw [← Plan.run_program] at h
  exact (Plan.run_fulfils expected_kept (Task.answers_upTo expected_kept fuel) _
    (Request.program_meets hp) m hm).failure e h

end Run

/-- A program read from text fails, on every machine that a session comes to, only in the language's
words, for a remainder of infinity, or because the stack that the limit on calls asks for has no
frames, more than can be counted, or none but those in use. Each of these others has its exact
condition. Besides, a report of level 2 or more may quote what cannot be written. -/
theorem run_failures {m : Machine} (hm : m.Reachable) {source : String} {p : Program}
    (hp : parse source = .ok p) (fuel : Nat) :
    (∀ e, (run fuel p m).1 = .error e → e.Worded ∨ e = .stuck .remainderOfInfinity ∨
        e = .stuck .noStack ∨ e = .stuck .hugeStack ∨ e = .stuck .deepStack ∨
        e = .unwritten ∧ 2 ≤ m.trace.verbosity ∧ m.trace.lacking ≠ []) ∧
      ((run fuel p m).1 = .error (.stuck .remainderOfInfinity) ↔
        ∃ k u m', (Request.run p).Reaches fuel m k u m' ∧ u.TakesInfiniteRemainder k m') ∧
      ((run fuel p m).1 = .error (.stuck .noStack) ↔
        -2147483648 ≤ m.stackFrames ∧ m.stackFrames < 1) ∧
      ((run fuel p m).1 = .error (.stuck .hugeStack) ↔
        m.stackFrames < -2147483648 ∨ 2147483647 < m.stackFrames) ∧
      ((run fuel p m).1 = .error (.stuck .deepStack) ↔
        1 ≤ m.stackFrames ∧ m.stackFrames ≤ 2147483647 ∧ m.stackFrames ≤ m.stack.used) := by
  have hw := parse_written hp
  obtain ⟨hhuge, hno, hdeep⟩ := run_refused_iff fuel hw hm.sound
  refine ⟨fun e h => ?_, run_stuck_iff_takes hw hm.sound, hno, hhuge, hdeep⟩
  obtain (he | rfl | he) | he | he | he := run_expected hw hm.sound h
  · exact .inl he
  · have htakes : ¬ m.trace.Takes := fun ht => run_written ht h
    obtain ⟨hlacking, hverbosity⟩ := not_or.mp htakes
    exact .inr (.inr (.inr (.inr (.inr ⟨rfl, Int.not_lt.mp hverbosity, hlacking⟩))))
  · exact .inr (.inl he)
  · exact .inr (.inr (.inl he))
  · exact .inr (.inr (.inr (.inl he)))
  · exact .inr (.inr (.inr (.inr (.inl he))))

/-- A limit far below zero refuses even the empty program. -/
theorem run_failures_negative :
    parse "" = .ok ⟨.none, []⟩ ∧ (Machine.start (.stream "") 0 (-1000000)).Reachable ∧
      (run 9 ⟨.none, []⟩ (Machine.start (.stream "") 0 (-1000000))).1 =
        .error (.stuck .noStack) := by
  have hp : parse "" = .ok ⟨.none, []⟩ := by rfl
  have hm : (Machine.start (.stream "") 0 (-1000000)).Reachable := .start _ _ _
  exact ⟨hp, hm, (run_failures hm hp 9).2.2.1.mpr (by decide)⟩

end Guion
