import Guion.Proofs.Plan.Contract
import Guion.Proofs.Regular.Binary
import Guion.Proofs.Sound.Store

namespace Guion

def Signal.Regular : Signal → Prop
  | returned (some v) => v.Regular
  | _ => True

theorem Signal.Regular.result {signal : Signal} (h : signal.Regular) :
    signal.result.Regular := by
  rcases signal with _ | _ | _ | _ | v
  · exact Value.regular_null
  · exact Value.regular_null
  · exact Value.regular_null
  · exact Value.regular_null
  · exact h

/-- The variables of a machine are sound and its functions could be read from a text. -/
structure Machine.Sound (m : Machine) : Prop where
  store : m.store.Sound
  functions : ∀ f ∈ m.functions, f.Written

namespace Move

def Regular (failure : Failure → Prop) : {α : Type} → Move α → Prop
  | _, lookup name => name.IsText
  | _, declare name type value =>
    name.IsText ∧ (∃ kind, type = .known kind) ∧ ∀ v, value = some v → v.Regular
  | _, assign name v => name.IsText ∧ v.Regular
  | _, readLine => True
  | _, print v => v.Regular
  | _, note _ => True
  | _, function name => name.IsText
  | _, checkFree name => name.IsText
  | _, register f => f.name.IsText ∧ f.Written
  | _, checkDepth _ => True
  | _, checkStack =>
    failure (.stuck .noStack) ∧ failure (.stuck .hugeStack) ∧ failure (.stuck .deepStack)

def Result : {α : Type} → Move α → α → Prop
  | _, lookup _, var => var.Sound
  | _, declare _ _ _, var => var.Sound
  | _, assign _ _, v => v.Regular
  | _, function _, f => f.Written
  | _, _, _ => True

end Move

def Task.Regular : (t : Task) → t.Answer → Prop
  | eval _, v => Value.Regular v
  | exec _, signal => Signal.Regular signal

/-- Programs read from text keep machines sound and values regular, and fail in the given ways. -/
def regular (failure : Failure → Prop) : Contract where
  machine := Machine.Sound
  requires := Move.Regular failure
  ensures := Move.Result
  task := Task.Written
  answer := Task.Regular
  failure := failure

namespace Exec

variable {failure : Failure → Prop} {α : Type} {m : Machine} {good : α → Prop}

theorem fulfils_of_eq {x : Exec α} {r : Except Failure α} {n : Machine} (h : x m = (r, n))
    (hn : n.Sound) (hr : Yields good failure r) : Fulfils (regular failure) x m good := by
  refine ⟨by rw [h]; exact hn, fun a ha => ?_, fun e he => ?_⟩
  · rw [h] at ha
    cases ha
    exact hr
  · rw [h] at he
    cases he
    exact hr

theorem fulfils_onStore (operation : Store → Except Failure α × Store) (hm : m.Sound)
    (hw : ∀ e, e.Worded → failure e)
    (h : Yields good Failure.Worded (operation m.store).1 ∧ (operation m.store).2.Sound) :
    Fulfils (regular failure) (onStore operation) m good :=
  fulfils_of_eq rfl ⟨h.2, hm.functions⟩ (h.1.mono (fun _ ha => ha) hw)

end Exec

namespace Machine

variable {m : Machine} {name : Name}

theorem Sound.function? {f : Function} (hm : m.Sound) (hf : m.function? name = some f) :
    f.Written :=
  hm.functions f (List.mem_of_find?_eq_some hf)

theorem Sound.register {f : Function} (hm : m.Sound) (hf : f.Written) :
    Sound { m with functions := m.functions ++ [f] } := by
  refine ⟨hm.store, ?_⟩
  exact List.forall_mem_append.mpr ⟨hm.functions, List.forall_mem_singleton.mpr hf⟩

theorem writeData?_regular (console : Console) {v : Value} (hv : v.Regular) :
    ∃ console', console.writeData? v.content = some console' := by
  cases v with
  | foreign content => cases hv.2
  | entero | largo | decimal | booleano | cadena | null | loose => exact ⟨_, rfl⟩

theorem function_run (m : Machine) (hname : name.IsText) :
    Exec.function name m = (match m.function? name with
      | some f => (.ok f, m)
      | none => (.error (.fault (.functionMissing name) none), m)) := by
  obtain ⟨s, rfl⟩ := hname
  rfl

theorem checkFree_run (m : Machine) (hname : name.IsText) :
    Exec.checkFree name m = (match m.function? name with
      | some _ => (.error (.fault (.functionExists name) none), m)
      | none => (.ok (), m)) := by
  obtain ⟨s, rfl⟩ := hname
  rfl

theorem checkStack_run (m : Machine) :
    Exec.checkStack m =
      if m.stackFrames < -2147483648 ∨ 2147483647 < m.stackFrames then
        (.error (.stuck .hugeStack), m)
      else if m.stackFrames < 1 then (.error (.stuck .noStack), m)
      else if m.stackFrames ≤ m.stack.used then (.error (.stuck .deepStack), m)
      else (.ok (), m) := rfl

end Machine

theorem Move.run_fulfils {failure : Failure → Prop} (hw : ∀ e, e.Worded → failure e)
    (hu : failure .unwritten) {α : Type} (operation : Move α) (m : Machine)
    (h : operation.Regular failure) (hm : m.Sound) :
    Exec.Fulfils (regular failure) operation.run m operation.Result := by
  cases operation with
  | lookup name =>
    refine Exec.fulfils_of_eq rfl hm ?_
    exact (Store.lookup_yields hm.store h).mono (fun _ hvar => hvar) hw
  | declare name type value =>
    obtain ⟨hname, ⟨kind, rfl⟩, hvalue⟩ := h
    exact Exec.fulfils_onStore (fun s => s.declare name (.known kind) value) hm hw
      (Store.declare_yields hm.store hname kind hvalue)
  | assign name v =>
    exact Exec.fulfils_onStore (fun s => s.assign name v) hm hw
      (Store.assign_yields hm.store h.1 h.2)
  | readLine => exact Exec.fulfils_of_eq rfl ⟨hm.store, hm.functions⟩ trivial
  | print v =>
    obtain ⟨console, hc⟩ := Machine.writeData?_regular m.console h
    have hrun : (Move.print v).run m = (.ok (), { m with console }) := by
      simp only [Move.run, Exec.print, hc]
    exact Exec.fulfils_of_eq hrun ⟨hm.store, hm.functions⟩ trivial
  | note event =>
    obtain ⟨_, hrun⟩ | ⟨_, hrun⟩ := Exec.note_cases event m
    · exact Exec.fulfils_of_eq hrun hm hu
    · exact Exec.fulfils_of_eq hrun ⟨hm.store, hm.functions⟩ trivial
  | function name =>
    have hrun := Machine.function_run m h
    split at hrun
    · rename_i f hf
      exact Exec.fulfils_of_eq hrun hm (hm.function? hf)
    · exact Exec.fulfils_of_eq hrun hm (hw _ trivial)
  | checkFree name =>
    have hrun := Machine.checkFree_run m h
    split at hrun
    · exact Exec.fulfils_of_eq hrun hm (hw _ trivial)
    · exact Exec.fulfils_of_eq hrun hm trivial
  | register f =>
    have hrun := Machine.checkFree_run m h.1
    split at hrun
    · exact Exec.fulfils_of_eq (Exec.bind_error hrun) hm (hw _ trivial)
    · exact Exec.fulfils_of_eq (Exec.bind_ok hrun) (hm.register h.2) trivial
  | checkDepth name =>
    have hrun : (Move.checkDepth name).run m =
        (if m.limit ≤ m.calls then (.error (.fault (.tooDeep name m.limit) none), m)
          else (.ok (), m)) := rfl
    split at hrun
    · exact Exec.fulfils_of_eq hrun hm (hw _ trivial)
    · exact Exec.fulfils_of_eq hrun hm trivial
  | checkStack =>
    have hrun := Machine.checkStack_run m
    split at hrun
    · exact Exec.fulfils_of_eq hrun hm h.2.1
    · split at hrun
      · exact Exec.fulfils_of_eq hrun hm h.1
      · split at hrun
        · exact Exec.fulfils_of_eq hrun hm h.2.2
        · exact Exec.fulfils_of_eq hrun hm trivial

theorem Bracket.enter_sound (b : Bracket) (m : Machine) (hm : m.Sound) : (b.enter m).Sound := by
  cases b with
  | scope => exact ⟨hm.store.openScope, hm.functions⟩
  | call => exact ⟨hm.store, hm.functions⟩
  | tracing => exact hm

theorem Bracket.leave_sound (b : Bracket) (m : Machine) (hm : m.Sound) : (b.leave m).Sound := by
  cases b with
  | scope => exact ⟨hm.store.closeScope, hm.functions⟩
  | call => exact ⟨hm.store, hm.functions⟩
  | tracing => exact ⟨hm.store, hm.functions⟩

end Guion
