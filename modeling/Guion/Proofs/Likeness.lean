import Guion.Proofs.Depth
import Guion.Proofs.Discipline

namespace Guion

namespace Exec

variable {α β : Type} {excused : Failure → Prop} {R S : Machine → Machine → Prop}

/-- What the first computation comes to on a machine, the second one comes to on a related machine,
unless the first ends in a failure that is excused. -/
def Follows (excused : Failure → Prop) (R : Machine → Machine → Prop) (x x' : Exec α) : Prop :=
  ∀ m m', R m m' → (∀ e, (x m).1 = .error e → ¬ excused e) →
    (x' m').1 = (x m).1 ∧ R (x m).2 (x' m').2

namespace Follows

variable {x x' : Exec α} {f f' : α → Exec β}

theorem pure (a : α) : Follows excused R (Pure.pure a) (Pure.pure a : Exec α) := by
  intro m m' h _
  exact ⟨rfl, h⟩

theorem fail (e : Failure) : Follows excused R (Exec.fail e) (Exec.fail e : Exec α) := by
  intro m m' h _
  exact ⟨rfl, h⟩

theorem of_excused {e : Failure} (he : excused e) : Follows excused R (Exec.fail e) x' := by
  intro m m' _ hx
  exact absurd he (hx e rfl)

theorem bind_of (hx : Follows excused R x x')
    (hf : ∀ a m n, x m = (.ok a, n) → Follows excused R (f a) (f' a)) :
    Follows excused R (x >>= f) (x' >>= f') := by
  intro m m' h hok
  have hfst : ∀ e, (x m).1 = .error e → ¬ excused e := by
    intro e he
    exact hok e (Plan.bind_error_iff.mpr (.inl he))
  obtain ⟨heq, hR⟩ := hx m m' h hfst
  rcases hr : x m with ⟨e | a, n⟩ <;> rcases hr' : x' m' with ⟨e' | a', n'⟩ <;>
    rw [hr, hr'] at heq hR <;> cases heq
  · rw [Exec.bind_error hr, Exec.bind_error hr']
    exact ⟨rfl, hR⟩
  · rw [Exec.bind_ok hr] at hok
    rw [Exec.bind_ok hr, Exec.bind_ok hr']
    exact hf a m n hr n n' hR hok

theorem bind (hx : Follows excused R x x') (hf : ∀ a, Follows excused R (f a) (f' a)) :
    Follows excused R (x >>= f) (x' >>= f') :=
  hx.bind_of fun a _ _ _ => hf a

theorem between {enter enter' leave leave' : Machine → Machine} (hx : Follows excused S x x')
    (henter : ∀ m m', R m m' → S (enter m) (enter' m'))
    (hleave : ∀ m m', S m m' → R (leave m) (leave' m')) :
    Follows excused R (fun m => ((x (enter m)).1, leave (x (enter m)).2))
      (fun m => ((x' (enter' m)).1, leave' (x' (enter' m)).2)) := by
  intro m m' h hok
  obtain ⟨heq, hS⟩ := hx _ _ (henter m m' h) hok
  exact ⟨heq, hleave _ _ hS⟩

theorem located (hexcused : ∀ cause place, excused (.fault cause none) →
    excused (.fault cause place)) (pos : Pos) (hx : Follows excused R x x') :
    Follows excused R (Exec.located pos x) (Exec.located pos x') := by
  intro m m' h hok
  have hinner : ∀ e, (x m).1 = .error e → ¬ excused e := by
    intro e he hex
    refine hok (e.locate pos) (located_error.mpr ⟨e, he, rfl⟩) ?_
    rcases e with ⟨cause, _ | place⟩ | _ | _ | _ | _
    · exact hexcused cause _ hex
    all_goals exact hex
  obtain ⟨heq, hR⟩ := hx m m' h hinner
  rw [located_apply, located_apply, heq]
  exact ⟨rfl, hR⟩

end Follows

end Exec

/-- How two machines are alike while the same is done on both. The stores are compared by the number
of scopes that were opened since, and where `quiet` is set, nothing is declared outside these. -/
structure Likeness where
  store : Nat → Store → Store → Prop
  limit : Stack → Int → Int → Prop
  trace : Trace → Trace → Prop
  quiet : Bool
  excused : Failure → Prop

structure Machine.Like (L : Likeness) (scopes : Nat) (m m' : Machine) : Prop where
  store : L.store scopes m.store m'.store
  functions : m'.functions = m.functions
  calls : m'.calls = m.calls
  limit : L.limit m.stack m.limit m'.limit
  stack : m'.stack = m.stack
  console : m'.console = m.console
  trace : L.trace m.trace m'.trace

/-- Machines that agree in everything but what they have reported. -/
structure Machine.Agrees (m m' : Machine) : Prop where
  store : m'.store = m.store
  functions : m'.functions = m.functions
  calls : m'.calls = m.calls
  limit : m'.limit = m.limit
  stack : m'.stack = m.stack
  console : m'.console = m.console

/-- The store relation of a likeness holds on under the operations on stores, which find the same
in both. -/
structure Store.Congruence (R : Nat → Store → Store → Prop) (quiet : Bool) : Prop where
  find? : ∀ {k s s'} (name : Name), R k s s' → s'.find? name = s.find? name
  set : ∀ {k s s'} (name : Name) (var : Variable), R k s s' → R k (s.set name var) (s'.set name var)
  current : ∀ {k s s'}, (quiet = true → k ≠ 0) → R k s s' → s'.current = s.current
  insert : ∀ {k s s'} (name : Name) (var : Variable), (quiet = true → k ≠ 0) → R k s s' →
    R k (s.insert name var) (s'.insert name var)
  openScope : ∀ {k s s'}, R k s s' → R (k + 1) s.openScope s'.openScope
  closeScope : ∀ {k s s'}, R (k + 1) s s' → R k s.closeScope s'.closeScope

/-- The frames that a limit on calls asks for are granted on a stack. -/
structure Stack.Grants (stack : Stack) (limit : Int) : Prop where
  some : 1 ≤ stack.size + 30 * limit
  free : stack.used < stack.size + 30 * limit
  counted : stack.size + 30 * limit ≤ 2147483647

structure Likeness.Kept (L : Likeness) : Prop where
  store : Store.Congruence L.store L.quiet
  limit : ∀ {stack a b}, L.limit stack a b → a = b ∨
    (a ≤ b ∧ stack.Grants a ∧ stack.Grants b ∧ ∀ name, L.excused (.fault (.tooDeep name a) none))
  refuses : ∀ {t t'} (event : Event), L.trace t t' → t'.refuses event = t.refuses event ∨
    (t.refuses event = true ∧ L.excused .unwritten)
  note : ∀ {t t'} (event : Event), L.trace t t' → L.trace (t.note event) (t'.note event)
  close : ∀ {t t'}, L.trace t t' → L.trace t.close t'.close
  located : ∀ cause place, L.excused (.fault cause none) → L.excused (.fault cause place)

theorem Store.congruence_eq (quiet : Bool) : Congruence (fun _ s s' => s' = s) quiet where
  find? := by
    rintro k s _ name rfl
    rfl
  set := by
    rintro k s _ name var rfl
    rfl
  current := by
    rintro k s _ _ rfl
    rfl
  insert := by
    rintro k s _ name var _ rfl
    rfl
  openScope := by
    rintro k s _ rfl
    rfl
  closeScope := by
    rintro k s _ rfl
    rfl

namespace Store

variable {R : Nat → Store → Store → Prop} {quiet : Bool} {k : Nat} {s s' : Store} {α β : Type}

theorem lookup_congr {name : Name} (h : s'.find? name = s.find? name) :
    s'.lookup name = s.lookup name := by
  simp only [lookup, h]

theorem Congruence.declare (law : Congruence R quiet) (hk : quiet = true → k ≠ 0) (h : R k s s')
    (name : Name) (type : TypeName) (value : Option Value) :
    (s'.declare name type value).1 = (s.declare name type value).1 ∧
      R k (s.declare name type value).2 (s'.declare name type value).2 := by
  have hdeclared : s'.declared name type value = s.declared name type value := by
    simp only [declared, law.current hk h]
  simp only [Store.declare, hdeclared]
  split
  · exact ⟨rfl, law.insert name _ hk h⟩
  · exact ⟨rfl, h⟩

theorem Congruence.assign (law : Congruence R quiet) (h : R k s s') (name : Name) (v : Value) :
    (s'.assign name v).1 = (s.assign name v).1 ∧ R k (s.assign name v).2 (s'.assign name v).2 := by
  have hassigned : s'.assigned name v = s.assigned name v := by
    simp only [assigned, lookup_congr (law.find? name h)]
  simp only [Store.assign, hassigned]
  split
  · exact ⟨rfl, law.set name _ h⟩
  · exact ⟨rfl, h⟩

end Store

section Follows

variable {L : Likeness} {k : Nat} {α : Type}

namespace Exec

theorem follows_onStore {operation : Store → Except Failure α × Store}
    (h : ∀ s s', L.store k s s' →
      (operation s').1 = (operation s).1 ∧ L.store k (operation s).2 (operation s').2) :
    Follows L.excused (Machine.Like L k) (onStore operation) (onStore operation) := by
  intro m m' hm _
  obtain ⟨hfst, hstore⟩ := h m.store m'.store hm.store
  exact ⟨hfst, { hm with store := hstore }⟩

theorem follows_ofExcept (r : Except Failure α) :
    Follows L.excused (Machine.Like L k) (ofExcept r) (ofExcept r) := by
  cases r with
  | ok a => exact .pure a
  | error e => exact .fail e

theorem follows_function (name : Name) :
    Follows L.excused (Machine.Like L k) (function name) (function name) := by
  refine (follows_ofExcept _).bind fun _ => ?_
  intro m m' hm _
  simp only [Machine.function?, hm.functions]
  split <;> exact ⟨rfl, hm⟩

theorem follows_checkFree (name : Name) :
    Follows L.excused (Machine.Like L k) (checkFree name) (checkFree name) := by
  refine (follows_ofExcept _).bind fun _ => ?_
  intro m m' hm _
  simp only [Machine.function?, hm.functions]
  split <;> exact ⟨rfl, hm⟩

theorem follows_register (f : Function) :
    Follows L.excused (Machine.Like L k) (register f) (register f) := by
  intro m m' hm _
  exact ⟨rfl, { hm with functions := congrArg (· ++ [f]) hm.functions }⟩

theorem follows_readLine : Follows L.excused (Machine.Like L k) readLine readLine := by
  intro m m' hm _
  simp only [readLine, hm.console]
  exact ⟨trivial, { hm with console := rfl }⟩

theorem follows_print (v : Value) :
    Follows L.excused (Machine.Like L k) (print v) (print v) := by
  intro m m' hm _
  simp only [print, hm.console]
  split
  · exact ⟨rfl, { hm with console := rfl }⟩
  · exact ⟨rfl, hm⟩

theorem follows_note (law : L.Kept) (event : Event) :
    Follows L.excused (Machine.Like L k) (note event) (note event) := by
  intro m m' hm hok
  obtain heq | ⟨hrefuses, hexcused⟩ := law.refuses event hm.trace
  · simp only [note, heq]
    split
    · exact ⟨rfl, hm⟩
    · exact ⟨rfl, { hm with trace := law.note event hm.trace }⟩
  · exact absurd hexcused (hok _ (by simp [note, hrefuses]))

theorem follows_checkDepth (law : L.Kept) (name : Name) :
    Follows L.excused (Machine.Like L k) (checkDepth name) (checkDepth name) := by
  intro m m' hm hok
  simp only [checkDepth, hm.calls] at hok ⊢
  obtain heq | ⟨hle, _, _, hexcused⟩ := law.limit hm.limit
  · rw [← heq]
    split <;> exact ⟨rfl, hm⟩
  · by_cases hdeep : m.limit ≤ m.calls
    · rw [if_pos hdeep] at hok
      exact absurd (hexcused name) (hok _ rfl)
    · rw [if_neg hdeep, if_neg (by omega)]
      exact ⟨rfl, hm⟩

theorem checkStack_granted {m : Machine} (h : m.stack.Grants m.limit) :
    checkStack m = (.ok (), m) := by
  have hsome : 1 ≤ m.stackFrames := h.some
  have hfree : m.stack.used < m.stackFrames := h.free
  have hcounted : m.stackFrames ≤ 2147483647 := h.counted
  unfold checkStack
  rw [if_neg (by omega), if_neg (by omega), if_neg (by omega)]

theorem follows_checkStack (law : L.Kept) :
    Follows L.excused (Machine.Like L k) checkStack checkStack := by
  intro m m' hm _
  obtain heq | ⟨_, hgranted, hgranted', _⟩ := law.limit hm.limit
  · simp only [checkStack, Machine.stackFrames, hm.stack, heq]
    split_ifs <;> exact ⟨rfl, hm⟩
  · rw [checkStack_granted hgranted, checkStack_granted (hm.stack ▸ hgranted')]
    exact ⟨rfl, hm⟩

end Exec

theorem Move.run_follows (law : L.Kept) (operation : Move α)
    (h : L.quiet = true → k = 0 → operation.isDeclare = false) :
    Exec.Follows L.excused (Machine.Like L k) operation.run operation.run := by
  cases operation with
  | lookup name =>
    intro m m' hm _
    exact ⟨Store.lookup_congr (law.store.find? name hm.store), hm⟩
  | declare name type value =>
    have hk : L.quiet = true → k ≠ 0 := fun hq hk => nomatch h hq hk
    exact Exec.follows_onStore fun s s' hs => law.store.declare hk hs name type value
  | assign name v => exact Exec.follows_onStore fun s s' hs => law.store.assign hs name v
  | readLine => exact Exec.follows_readLine
  | print v => exact Exec.follows_print v
  | note event => exact Exec.follows_note law event
  | function name => exact Exec.follows_function name
  | checkFree name => exact Exec.follows_checkFree name
  | register f => exact (Exec.follows_checkFree f.name).bind fun _ => Exec.follows_register f
  | checkDepth name => exact Exec.follows_checkDepth law name
  | checkStack => exact Exec.follows_checkStack law

namespace Bracket

def scopes : Bracket → Nat → Nat
  | scope, k => k + 1
  | _, k => k

variable {m m' : Machine}

theorem enter_like (law : L.Kept) (b : Bracket) (h : m.Like L k m') :
    (b.enter m).Like L (b.scopes k) (b.enter m') := by
  cases b with
  | scope => exact { h with store := law.store.openScope h.store }
  | call => exact { h with calls := congrArg (· + 1) h.calls }
  | tracing => exact h

theorem leave_like (law : L.Kept) (b : Bracket) (h : m.Like L (b.scopes k) m') :
    (b.leave m).Like L k (b.leave m') := by
  cases b with
  | scope => exact { h with store := law.store.closeScope h.store }
  | call => exact { h with calls := congrArg (· - 1) h.calls }
  | tracing => exact { h with trace := law.close h.trace }

theorem around_follows (law : L.Kept) (b : Bracket) {x x' : Exec α}
    (h : Exec.Follows L.excused (Machine.Like L (b.scopes k)) x x') :
    Exec.Follows L.excused (Machine.Like L k) (b.around x) (b.around x') :=
  h.between (fun _ _ hm => b.enter_like law hm) fun _ _ hm => b.leave_like law hm

end Bracket

namespace Plan

theorem run_follows (law : L.Kept) {ev : Evaluator}
    (hev : ∀ (t : Task) (k : Nat), (L.quiet = true → k = 0 → t.Silent) →
      Exec.Follows L.excused (Machine.Like L k) (ev.answer t) (ev.answer t))
    (p : Plan α) (hp : L.quiet = true → k = 0 → p.Silent) :
    Exec.Follows L.excused (Machine.Like L k) (p.run ev) (p.run ev) := by
  induction p generalizing k with
  | done a => exact .pure a
  | fail e => exact .fail e
  | move operation next ih =>
    have hmove := operation.run_follows law (k := k) fun hq hk => (hp hq hk).1
    exact hmove.bind fun b => ih b fun hq hk => (hp hq hk).2 b
  | ask t next ih =>
    have hask := hev t k fun hq hk => (hp hq hk).1
    exact hask.bind fun a => ih a fun hq hk => (hp hq hk).2 a
  | within bracket inner next ihi ih =>
    cases bracket with
    | scope =>
      -- inside a scope of its own the plan may declare what it likes
      have hinner := ihi (k := k + 1) fun _ hk => nomatch hk
      exact (Bracket.scope.around_follows law hinner).bind fun b => ih b fun hq hk => hp hq hk b
    | call =>
      have hinner := ihi (k := k) fun hq hk => (hp hq hk).1
      exact (Bracket.call.around_follows law hinner).bind fun b =>
        ih b fun hq hk => (hp hq hk).2 b
    | tracing =>
      have hinner := ihi (k := k) fun hq hk => (hp hq hk).1
      exact (Bracket.tracing.around_follows law hinner).bind fun b =>
        ih b fun hq hk => (hp hq hk).2 b

end Plan

theorem Task.run_follows (law : L.Kept) (fuel : Nat) (t : Task)
    (ht : L.quiet = true → k = 0 → t.Silent) :
    Exec.Follows L.excused (Machine.Like L k) (t.run fuel) (t.run fuel) := by
  induction fuel generalizing t k with
  | zero =>
    have hzero : t.run 0 = Exec.fail .exhausted := by cases t <;> rfl
    rw [hzero]
    exact .fail _
  | succ fuel ih =>
    rw [run_succ]
    refine (Plan.run_follows law (fun u k hu => ?_) _ fun hq hk => (ht hq hk).plan fuel).located
      law.located t.pos
    rw [Evaluator.answer_upTo]
    exact ih u hu

/-- A run does the same on machines that are alike. -/
theorem run_follows (law : L.Kept) (hquiet : L.quiet = false) (fuel : Nat) (p : Program) :
    Exec.Follows L.excused (Machine.Like L k) (run fuel p) (run fuel p) := by
  have hnever : L.quiet ≠ true := by simp [hquiet]
  rw [← Plan.run_program]
  refine Plan.run_follows law (fun t k _ => ?_) _ fun hq => absurd hq hnever
  rw [Evaluator.answer_upTo]
  exact t.run_follows law fuel fun hq => absurd hq hnever

section Served

variable (law : L.Kept) (hquiet : L.quiet = false) {m m' : Machine}

include law hquiet

theorem Machine.executeAll_like (fuel : Nat) (body : List Stmt) (h : m.Like L k m')
    (hok : ∀ e, (m.executeAll (exec fuel) body).1.2 = some e → ¬ L.excused e) :
    (m'.executeAll (exec fuel) body).1 = (m.executeAll (exec fuel) body).1 ∧
      (m.executeAll (exec fuel) body).2.Like L k (m'.executeAll (exec fuel) body).2 := by
  induction body generalizing m m' with
  | nil => exact ⟨rfl, h⟩
  | cons s rest ih =>
    have hs := (Task.exec s).run_follows law fuel (k := k) fun hq => absurd hq (by simp [hquiet])
    have hfirst : ∀ e, (exec fuel s m).1 = .error e → ¬ L.excused e := by
      intro e he
      refine hok e ?_
      rw [executeAll, Exec.eq_of_fst he]
    obtain ⟨hfst, hsnd⟩ := hs m m' h hfirst
    change (exec fuel s m').1 = (exec fuel s m).1 at hfst
    change (exec fuel s m).2.Like L k (exec fuel s m').2 at hsnd
    rcases hr : exec fuel s m with ⟨e | signal, n⟩ <;>
      rcases hr' : exec fuel s m' with ⟨e' | signal', n'⟩ <;>
      rw [hr, hr'] at hfst hsnd <;> cases hfst
    · simp only [executeAll, hr, hr']
      exact ⟨trivial, hsnd⟩
    · simp only [executeAll, hr, hr'] at hok ⊢
      have hnext : n.Like L k n' := hsnd
      obtain ⟨hrest, hlike⟩ := ih hnext hok
      simp only [hrest]
      exact ⟨trivial, hlike⟩

/-- A request is answered the same on machines that are alike, unless it fails in a way that is
excused on the first one. -/
theorem Machine.serve_like (fuel : Nat) (r : Request) (h : m.Like L k m')
    (hok : ∀ e, (m.serve fuel r).1.failure? = some e → ¬ L.excused e) :
    (m'.serve fuel r).1 = (m.serve fuel r).1 ∧
      (m.serve fuel r).2.Like L k (m'.serve fuel r).2 := by
  cases r with
  | run p =>
    obtain ⟨hfst, hsnd⟩ := Guion.run_follows law hquiet fuel p m m' h fun e he =>
      hok e (Answer.failure?_ran.mpr he)
    exact ⟨congrArg Answer.ran hfst, hsnd⟩
  | evaluate e =>
    have he := (Task.eval e).run_follows law fuel (k := k) fun hq => absurd hq (by simp [hquiet])
    obtain ⟨hfst, hsnd⟩ := he m m' h fun f hf =>
      hok f (Answer.failure?_evaluated.mpr hf)
    exact ⟨congrArg Answer.evaluated hfst, hsnd⟩
  | execute body =>
    obtain ⟨hfst, hsnd⟩ := executeAll_like law hquiet fuel body h hok
    exact ⟨congrArg (fun x : List Signal × Option Failure => Answer.executed x.1 x.2) hfst, hsnd⟩

end Served

end Follows

end Guion
