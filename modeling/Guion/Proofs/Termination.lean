import Guion.Proofs.Depth
import Guion.Proofs.Grammar.Parsing
import Guion.Proofs.Plan.Parts

namespace Guion

namespace Task

/-- No loop stands anywhere in the task, nor in the functions that it declares. -/
def LoopFree (t : Task) : Prop := t.Throughout (·.isLoop = false)

/-- The size of the syntax of a task. -/
noncomputable def size : Task → Nat
  | eval e => sizeOf e
  | exec s => sizeOf s

theorem size_pos (t : Task) : 0 < t.size := by
  cases t with
  | eval e => cases e <;> simp [size, Nat.pos_iff_ne_zero]
  | exec s => cases s <;> simp [size, Nat.pos_iff_ne_zero]

theorem size_lt_of_optional {first : Option Expr} {u : Task} (h : u ∈ first.toList.map eval) :
    u.size < sizeOf first := by
  obtain ⟨e, rfl, rfl⟩ := mem_optional.mp h
  simp [size]

theorem size_lt_of_mem_parts {t u : Task} (h : u ∈ t.parts) : u.size < t.size := by
  cases t with
  | eval e =>
    cases e with
    | call pos name arguments =>
      obtain ⟨e, he, rfl⟩ := List.mem_map.mp h
      have hlt := List.sizeOf_lt_of_mem he
      simp only [size, Expr.call.sizeOf_spec]
      omega
    | _ => simp [parts] at h <;> rcases h with rfl | rfl <;> simp [size] <;> omega
  | exec s =>
    cases s with
    | declare pos type name first =>
      have hlt := size_lt_of_optional h
      simp only [size, Stmt.declare.sizeOf_spec] at hlt ⊢
      omega
    | returns pos value =>
      have hlt := size_lt_of_optional h
      simp only [size, Stmt.returns.sizeOf_spec] at hlt ⊢
      omega
    | block pos body =>
      obtain ⟨s, hs, rfl⟩ := List.mem_map.mp h
      have hlt := List.sizeOf_lt_of_mem hs
      simp only [size, Stmt.block.sizeOf_spec]
      omega
    | branch pos test yes no =>
      obtain rfl | rfl | ⟨s, hs, rfl⟩ :
          u = eval test ∨ u = exec yes ∨ ∃ s, no = some s ∧ u = exec s := by
        simpa [parts, eq_comm] using h
      · simp [size]
        omega
      · simp [size]
        omega
      · subst hs
        simp [size]
        omega
    | _ => simp [parts] at h <;> rcases h with rfl | rfl | rfl | rfl <;> simp [size] <;> omega

/-- A task without loops, of bounded size. -/
structure Tame (bound : Nat) (t : Task) : Prop where
  loopFree : t.LoopFree
  size_le : t.size ≤ bound

theorem Tame.part {bound : Nat} {t u : Task} (h : t.Tame bound) (hu : u ∈ t.parts) :
    u.Tame bound :=
  ⟨h.loopFree.part hu, Nat.le_of_lt (Nat.lt_of_lt_of_le (size_lt_of_mem_parts hu) h.size_le)⟩

end Task

def Function.Tame (bound : Nat) (f : Function) : Prop := (Task.exec f.body).Tame bound

/-- The machine knows tame functions only, and no more than `left` calls can still be opened. -/
structure Machine.Calm (bound left : Nat) (m : Machine) : Prop where
  functions : m.Knows (Function.Tame bound)
  calls : m.limit ≤ m.calls + left

def calm (bound left : Nat) : Contract where
  machine := Machine.Calm bound left
  requires := Move.Adds (Function.Tame bound)
  ensures := Move.Finds (Function.Tame bound)
  task := Task.Tame bound
  answer _ _ := True
  failure e := e ≠ .exhausted

theorem Failure.Fresh.ne_exhausted {e : Failure} (h : e.Fresh) : e ≠ .exhausted := by
  rintro rfl
  exact h

theorem Failure.Immediate.ne_exhausted {e : Failure} (h : e.Immediate) : e ≠ .exhausted := by
  obtain h | rfl := h
  · exact h.ne_exhausted
  · exact (nomatch ·)

namespace Plan

variable {bound left : Nat} {ev : Evaluator} {α : Type} {m : Machine}

theorem move_calm (operation : Move α) (h : operation.Adds (Function.Tame bound))
    (hm : m.Calm bound left) :
    Exec.Fulfils (calm bound left) operation.run m (operation.Finds (Function.Tame bound)) := by
  refine ⟨⟨operation.run_knows h hm.functions, ?_⟩, ?_, ?_⟩
  · rw [(operation.run_same m).1.limit, (operation.run_grown m).calls]
    exact hm.calls
  · intro b hb
    exact operation.run_finds hm.functions hb
  · intro e he
    exact (operation.run_immediate he).ne_exhausted

theorem perform_calm (operation : Move α) (h : operation.isRegister = false)
    (hm : m.Calm bound left) :
    Exec.Fulfils (calm bound left) operation.run m fun _ => True := by
  obtain ⟨hmachine, _, hfailure⟩ := move_calm operation (operation.adds_of_not_register h) hm
  exact ⟨hmachine, fun _ _ => trivial, hfailure⟩

theorem around_calm {x : Exec α} {bracket : Bracket} {good : α → Prop} (hb : bracket ≠ .call)
    (h : Exec.Fulfils (calm bound left) x (bracket.enter m) good) :
    Exec.Fulfils (calm bound left) (bracket.around x) m good := by
  refine ⟨⟨bracket.leave_knows h.machine.functions, ?_⟩, h.result, h.failure⟩
  cases bracket with
  | scope => exact h.machine.calls
  | tracing => exact h.machine.calls
  | call => exact absurd rfl hb

theorem around_call_calm {x : Exec α} {good : α → Prop}
    (h : Exec.Fulfils (calm bound left) x (Bracket.call.enter m) good) :
    Exec.Fulfils (calm bound (left + 1)) (Bracket.call.around x) m good := by
  refine ⟨⟨h.machine.functions, ?_⟩, h.result, h.failure⟩
  have hcalls := h.machine.calls
  simp only [Bracket.around, Bracket.leave] at hcalls ⊢
  omega

theorem bindAll_calm (params : List Param) (vs : List Value) (hm : m.Calm bound left) :
    Exec.Fulfils (calm bound left) (Exec.bindAll params vs) m fun _ => True := by
  induction params generalizing vs m with
  | nil => exact ⟨hm, fun _ _ => trivial, fun e he => nomatch he⟩
  | cons p ps ih =>
    cases vs with
    | nil => exact ⟨hm, fun _ _ => trivial, fun e he => nomatch he⟩
    | cons v vs =>
      have hdeclare := perform_calm (.declare p.name p.type (some v)) rfl hm
      exact hdeclare.bind fun _ n _ hn => ih vs hn

theorem noteCall_calm (name : Name) (vs : List Value) (hm : m.Calm bound left) :
    Exec.Fulfils (calm bound left) (Exec.noteCall name vs) m fun _ => True := by
  unfold Exec.noteCall
  split
  · refine ⟨hm, fun _ _ => trivial, fun e he => ?_⟩
    cases he
    exact nofun
  · exact perform_calm (.note (.called name vs)) rfl hm

/-- A call beyond the limit fails at once, and every other one leaves fewer calls to open. -/
theorem enter_calm {f : Function} (vs : List Value)
    (hbody : ∀ fewer n, left = fewer + 1 → n.Calm bound fewer →
      Exec.Fulfils (calm bound fewer) (ev.exec f.body) n fun _ => True)
    (hm : m.Calm bound left) :
    Exec.Fulfils (calm bound left) ((enter f vs).run ev) m fun _ => True := by
  rw [run_enter]
  by_cases hdeep : m.limit ≤ m.calls
  · have hfail : Exec.enter ev.exec f vs m =
        (.error (.fault (.tooDeep f.name m.limit) none), m) :=
      Exec.bind_error (by simp only [Exec.checkDepth, if_pos hdeep])
    refine ⟨by rw [hfail]; exact hm, fun _ _ => trivial, fun e he => ?_⟩
    rw [hfail] at he
    cases he
    rintro ⟨⟩
  · obtain ⟨fewer, rfl⟩ : ∃ fewer, left = fewer + 1 := by
      have hcalls := hm.calls
      exact ⟨left - 1, by omega⟩
    have hdepth := perform_calm (.checkDepth f.name) rfl hm
    refine hdepth.bind fun _ m₁ _ hm₁ => ?_
    refine (noteCall_calm f.name vs hm₁).bind fun _ m₂ _ hm₂ => ?_
    have hin : (Bracket.call.enter m₂).Calm bound fewer := by
      refine ⟨hm₂.functions, ?_⟩
      have hcalls := hm₂.calls
      simp only [Bracket.enter]
      omega
    have hinner : Exec.Fulfils (calm bound fewer)
        (Bracket.scope.around (Exec.bindAll f.params vs >>= fun _ => ev.exec f.body))
        (Bracket.call.enter m₂) fun _ => True := by
      refine around_calm (by rintro ⟨⟩) ?_
      have hscope : (Bracket.scope.enter (Bracket.call.enter m₂)).Calm bound fewer :=
        ⟨hin.functions, hin.calls⟩
      refine (bindAll_calm f.params vs hscope).bind fun _ n _ hn => ?_
      exact hbody fewer n rfl hn
    refine (around_call_calm hinner).bind fun signal m₃ _ hm₃ => ?_
    have hnote := perform_calm (.note (.returned f.name signal.result)) rfl hm₃
    exact hnote.bind fun _ n _ hn => ⟨hn, fun _ _ => trivial, by rintro e ⟨⟩⟩

theorem Shape.run_calm {tasks : Task → Prop} {failures : Failure → Prop} {p : Plan α}
    (hp : p.Shape tasks (Function.Tame bound) failures)
    (hfail : ∀ e, failures e → e ≠ .exhausted)
    (hask : ∀ t n, tasks t → n.Calm bound left →
      Exec.Fulfils (calm bound left) (ev.answer t) n fun _ => True)
    (hcall : ∀ (f : Function) (vs : List Value) n, f.Tame bound → n.Calm bound left →
      Exec.Fulfils (calm bound left) ((Plan.enter f vs).run ev) n fun _ => True)
    (hm : m.Calm bound left) : Exec.Fulfils (calm bound left) (p.run ev) m fun _ => True := by
  induction hp generalizing m with
  | done a => exact ⟨hm, fun _ _ => trivial, fun e he => nomatch he⟩
  | fail he =>
    refine ⟨hm, fun _ _ => trivial, fun e h => ?_⟩
    cases h
    exact hfail _ he
  | move hadd _ ih => exact (move_calm _ hadd hm).bind fun b n hb hn => ih b hb hn
  | ask ht _ ih => exact (hask _ m ht hm).bind fun a n _ hn => ih a hn
  | @within _ _ bracket _ _ hb _ _ ihi ih =>
    have hin : (bracket.enter m).Calm bound left := by
      cases bracket with
      | scope => exact ⟨hm.functions, hm.calls⟩
      | tracing => exact hm
      | call => exact absurd rfl hb
    exact (around_calm hb (ihi hin)).bind fun b n _ hn => ih b hn
  | enter hf _ ih =>
    rw [run_bind]
    exact (hcall _ _ m hf hm).bind fun v n _ hn => ih v hn

end Plan

/-- A task without loops is not cut short at a depth of its own size and, for each call that can
still be opened, the size of the largest function. -/
theorem Task.run_calm {bound : Nat} (fuel left : Nat) (t : Task) (m : Machine)
    (ht : t.Tame bound) (hm : m.Calm bound left) (hfuel : t.size + left * bound ≤ fuel) :
    Exec.Fulfils (calm bound left) (t.run fuel) m fun _ => True := by
  -- the measure is the size of the task and, for each call left, the bound on bodies
  induction fuel generalizing left t m with
  | zero =>
    have hpos := t.size_pos
    omega
  | succ fuel ih =>
    have hpos := t.size_pos
    have hshape := t.plan_shape fuel (Function.Tame bound) fun f hf => ht.part hf.part
    have hloop := ht.loopFree.self
    have hplan : Exec.Fulfils (calm bound left) ((t.plan fuel).run (.upTo fuel)) m
        fun _ => True := by
      refine hshape.run_calm ?_ ?_ ?_ hm
      · rintro e (he | ⟨hl, _⟩)
        · exact he.ne_exhausted
        · rw [hloop] at hl
          cases hl
      · intro u n hu hn
        have hlt := size_lt_of_mem_parts hu
        rw [Evaluator.answer_upTo]
        exact ih left u n (ht.part hu) hn (by omega)
      · intro f vs n hf hn
        refine Plan.enter_calm vs (fun fewer n' hleft hn' => ?_) hn
        have hsize := hf.size_le
        rw [hleft, Nat.add_mul] at hfuel
        exact ih fewer (.exec f.body) n' hf hn' (by omega)
    rw [run_succ]
    refine ⟨by rw [Exec.located_apply]; exact hplan.machine, fun _ _ => trivial, fun e he => ?_⟩
    rintro rfl
    obtain ⟨f, hf, hl⟩ := Exec.located_error.mp he
    rcases f with ⟨cause, _ | place⟩ | _ | _ | _ | _ <;> cases hl
    exact hplan.failure _ hf rfl

def Program.LoopFree (p : Program) : Prop := ∀ s ∈ p.body, (Task.exec s).LoopFree

def Machine.LoopFree (m : Machine) : Prop := m.Knows fun f => (Task.exec f.body).LoopFree

theorem exists_bound {p : Program} {m : Machine} (hp : p.LoopFree) (hm : m.LoopFree) :
    ∃ bound, (∀ s ∈ p.body, (Task.exec s).Tame bound) ∧ m.Knows (Function.Tame bound) := by
  refine ⟨sizeOf p.body + sizeOf m.functions, ?_, ?_⟩
  · intro s hs
    have hlt := List.sizeOf_lt_of_mem hs
    refine ⟨hp s hs, ?_⟩
    simp only [Task.size]
    omega
  · intro f hf
    have hlt := List.sizeOf_lt_of_mem hf
    have hbody : sizeOf f.body < sizeOf f := by
      cases f
      simp only [Function.mk.sizeOf_spec]
      omega
    refine ⟨hm f hf, ?_⟩
    simp only [Task.size]
    omega

/-- A program without loops ends, whatever its functions call: there is a depth from which on its
run is one and the same and is not cut short. -/
theorem run_terminates {p : Program} {m : Machine} (hp : p.LoopFree) (hm : m.LoopFree) :
    ∃ enough, (run enough p m).1 ≠ .error .exhausted ∧
      ∀ fuel, enough ≤ fuel → run fuel p m = run enough p m := by
  obtain ⟨bound, hbody, hfunctions⟩ := exists_bound hp hm
  let left := (m.limit - m.calls).toNat
  let enough := bound + left * bound
  have hcalm : m.Calm bound left := ⟨hfunctions, by omega⟩
  have hfulfils : Exec.Fulfils (calm bound left) ((Plan.program p).run (.upTo enough)) m
      fun _ => True := by
    have hshape : (Plan.program p).Shape (Task.Tame bound) (Function.Tame bound) fun _ => False :=
      Plan.shape_program hbody
    refine hshape.run_calm (fun e he => he.elim) ?_ ?_ hcalm
    · intro t n ht hn
      have hsize := ht.size_le
      rw [Evaluator.answer_upTo]
      exact t.run_calm enough left n ht hn (by omega)
    · intro f vs n hf hn
      refine Plan.enter_calm vs (fun fewer n' hleft hn' => ?_) hn
      have hsize := hf.size_le
      have hmul : left * bound = fewer * bound + 1 * bound := by rw [hleft, Nat.add_mul]
      exact Task.run_calm enough fewer (.exec f.body) n' hf hn' (by omega)
  rw [Plan.run_program] at hfulfils
  have huncut : (run enough p m).1 ≠ .error .exhausted := fun h => hfulfils.failure _ h rfl
  exact ⟨enough, huncut, fun fuel hfuel => run_deeper hfuel huncut⟩

/-- A function that only calls itself is stopped by the limit on calls. -/
theorem run_terminates_runaway :
    ∃ p, parse "f() \x7b retornar f(); \x7d f();" = .ok p ∧ p.LoopFree ∧
      (Machine.start (.stream "") 0 1).LoopFree ∧
      (∃ enough, (run enough p (.start (.stream "") 0 1)).1 ≠ .error .exhausted ∧
        ∀ fuel, enough ≤ fuel →
          run fuel p (.start (.stream "") 0 1) = run enough p (.start (.stream "") 0 1)) ∧
      (run 9 p (.start (.stream "") 0 1)).1 =
        .error (.fault (.tooDeep "f" 1) (some (Mark.pos ⟨1, 16⟩))) := by
  have hp : parse "f() \x7b retornar f(); \x7d f();" = .ok ⟨Mark.pos ⟨1, 1⟩,
      [.function (Mark.pos ⟨1, 1⟩) "f" [] (.block (Mark.pos ⟨1, 5⟩)
        [.returns (Mark.pos ⟨1, 7⟩) (some (.call (Mark.pos ⟨1, 16⟩) "f" []))]),
        .expr (Mark.pos ⟨1, 23⟩) (.call (Mark.pos ⟨1, 23⟩) "f" [])]⟩ := by rfl
  have hcall (pos : Pos) : (Task.eval (.call pos "f" [])).LoopFree := .intro rfl nofun
  have hreturn (pos place : Pos) :
      (Task.exec (.returns pos (some (.call place "f" [])))).LoopFree :=
    .intro rfl (List.forall_mem_singleton.mpr (hcall place))
  have hfree : Program.LoopFree ⟨Mark.pos ⟨1, 1⟩,
      [.function (Mark.pos ⟨1, 1⟩) "f" [] (.block (Mark.pos ⟨1, 5⟩)
        [.returns (Mark.pos ⟨1, 7⟩) (some (.call (Mark.pos ⟨1, 16⟩) "f" []))]),
        .expr (Mark.pos ⟨1, 23⟩) (.call (Mark.pos ⟨1, 23⟩) "f" [])]⟩ := by
    refine List.forall_mem_cons.mpr ⟨?_, List.forall_mem_singleton.mpr ?_⟩
    · refine .intro rfl (List.forall_mem_singleton.mpr ?_)
      exact .intro rfl (List.forall_mem_singleton.mpr (hreturn _ _))
    · exact .intro rfl (List.forall_mem_singleton.mpr (hcall _))
  have hm : (Machine.start (.stream "") 0 1).LoopFree := fun f hf => nomatch hf
  exact ⟨_, hp, hfree, hm, run_terminates hfree hm, by decide +kernel⟩

end Guion
