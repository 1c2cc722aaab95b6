import Guion.Proofs.Calls
import Guion.Proofs.Verbosity

namespace Guion

/-- What an event makes of the calls open before it, innermost first. A return belongs to the
innermost of them, and no more than so many are open at once. -/
def Event.nest (bound : Int) (calls : List Name) : Event → Option (List Name)
  | called f _ => if calls.length < bound then some (f :: calls) else none
  | returned f _ =>
    match calls with
    | [] => none
    | innermost :: others => if innermost = f then some others else none
  | _ => some calls

/-- The calls left open by events, unless these are not well bracketed. -/
def nest (bound : Int) (calls : List Name) (events : List Event) : Option (List Name) :=
  events.foldlM (Event.nest bound) calls

def Event.isCall : Event → Bool
  | called _ _ => true
  | returned _ _ => true
  | _ => false

def Move.event? {α : Type} : Move α → Option Event
  | note event => some event
  | _ => none

/-- The call that an operation reports the end of. It is in progress until that is done. -/
def Move.ends {α : Type} : Move α → List Name
  | note (.returned f _) => [f]
  | _ => []

def Move.reportsCall {α : Type} (operation : Move α) : Bool :=
  operation.event?.any Event.isCall

/-- The calls that are in progress inside a bracket only, in a step that calls `callee`. -/
def Bracket.calls (callee : List Name) : Bracket → List Name
  | call => callee
  | _ => []

def Task.callee : Task → Machine → List Name
  | eval (.call _ name _), m => ((m.function? name).map Function.name).toList
  | _, _ => []

namespace Plan

variable {α β : Type}

/-- What is in progress where an outcome is a failure, and otherwise what is so after it. -/
def broken (r : Except Failure β × Machine) (here : List Name)
    (next : β → Machine → List Name) : List Name :=
  match r with
  | (.ok b, n) => next b n
  | (.error _, _) => here

/-- The calls in progress where a plan fails, outermost first, and none where it does not fail.
`course` tells those of a task that it hands on. -/
def active (ev : Evaluator) (callee : List Name) (course : Task → Machine → List Name) :
    {α : Type} → Plan α → Machine → List Name
  | _, done _, _ => []
  | _, fail _, _ => []
  | _, move operation next, m =>
    broken (operation.run m) operation.ends fun b n => (next b).active ev callee course n
  | _, ask t next, m =>
    broken (ev.answer t m) (course t m) fun a n => (next a).active ev callee course n
  | _, within bracket inner next, m =>
    broken (bracket.around (inner.run ev) m)
      (bracket.calls callee ++ inner.active ev callee course (bracket.enter m))
      fun b n => (next b).active ev callee course n

end Plan

/-- The calls in progress where a task fails. -/
def Task.active : Nat → Task → Machine → List Name
  | 0, _, _ => []
  | fuel + 1, t, m => (t.plan fuel).active (.upTo fuel) (t.callee m) (active fuel) m

/-- The calls in progress where a run fails. -/
def Program.active (fuel : Nat) (p : Program) (m : Machine) : List Name :=
  (Plan.program p).active (.upTo fuel) [] (Task.active fuel) m

section Nest

variable {bound : Int} {calls : List Name} {events more : List Event}

theorem nest_append : nest bound calls (events ++ more) =
    (nest bound calls events).bind fun open' => nest bound open' more :=
  List.foldlM_append

theorem nest_isCall {event : Event} (h : event.isCall = false) :
    nest bound calls [event] = some calls := by
  cases event with
  | called | returned => cases h
  | _ => rfl

theorem nest_called {f : Name} (vs : List Value) (h : calls.length < bound) :
    nest bound calls [.called f vs] = some (f :: calls) := by
  simp [nest, Event.nest, h]

theorem nest_returned (f : Name) (v : Value) :
    nest bound (f :: calls) [.returned f v] = some calls := by
  simp [nest, Event.nest]

theorem nest_returns (bound : Int) (calls : List Name) :
    nest bound calls (calls.map fun f => .returned f .null) = some [] := by
  induction calls with
  | nil => rfl
  | cons f calls ih =>
    have hcons : (f :: calls).map (fun f => Event.returned f .null) =
        [.returned f .null] ++ calls.map fun f => .returned f .null := rfl
    rw [hcons, nest_append, nest_returned]
    exact ih

end Nest

theorem Trace.events_note {t : Trace} {event : Event} (h : event.level ≤ t.verbosity) :
    (t.note event).events = t.events ++ [event] := by
  simp [note_reported h, events]

structure Machine.Tells (bound : Int) (m : Machine) : Prop where
  verbosity : 3 ≤ m.trace.verbosity
  limit : m.limit ≤ bound

structure Machine.Nests (bound : Int) (m n : Machine) (active : List Name) : Prop where
  level : m.Level n
  events : ∃ added, n.trace.events = m.trace.events ++ added ∧
    ∀ calls, calls.length = m.calls → nest bound calls added = some (active.reverse ++ calls)

namespace Machine

variable {bound : Int} {l m n : Machine} {active : List Name}

theorem Nests.of_trace (hlevel : m.Level n) (h : n.trace.events = m.trace.events) :
    m.Nests bound n [] :=
  ⟨hlevel, [], by simp [h], fun _ _ => rfl⟩

theorem Nests.refl (m : Machine) : m.Nests bound m [] :=
  .of_trace (.refl m) rfl

theorem Nests.trans (h : l.Nests bound m []) (h' : m.Nests bound n active) :
    l.Nests bound n active := by
  obtain ⟨hlevel, added, hadded, hnest⟩ := h
  obtain ⟨hlevel', added', hadded', hnest'⟩ := h'
  refine ⟨hlevel.trans hlevel', added ++ added', ?_, ?_⟩
  · rw [hadded', hadded, List.append_assoc]
  · intro calls hcalls
    rw [nest_append, hnest calls hcalls]
    exact hnest' calls (hcalls.trans hlevel.calls.symm)

theorem Nests.tells (h : m.Nests bound n active) (hm : m.Tells bound) : n.Tells bound :=
  ⟨h.level.verbosity ▸ hm.verbosity, h.level.limit ▸ hm.limit⟩

theorem Tells.enter (h : m.Tells bound) (b : Bracket) : (b.enter m).Tells bound := by
  cases b <;> exact ⟨h.verbosity, h.limit⟩

def noting (event : Event) (m : Machine) : Machine := { m with trace := m.trace.note event }

theorem level_noting (event : Event) (m : Machine) : m.Level (m.noting event) :=
  ⟨⟨rfl, rfl, m.trace.note_verbosity event, m.trace.note_lacking event⟩, rfl⟩

theorem Nests.called {f : Name} {vs : List Value} (hm : m.Tells bound) (hroom : m.calls < m.limit)
    (h : (Bracket.call.enter (m.noting (.called f vs))).Nests bound n active) :
    m.Nests bound (Bracket.call.leave n) (f :: active) := by
  obtain ⟨hlevel, added, hadded, hnest⟩ := h
  refine ⟨(m.level_noting _).trans (Bracket.call.leave_level hlevel), .called f vs :: added, ?_,
    fun calls hcalls => ?_⟩
  · have hevents : (m.trace.note (.called f vs)).events = m.trace.events ++ [.called f vs] :=
      Trace.events_note hm.verbosity
    have htrace : (Bracket.call.leave n).trace.events = n.trace.events := rfl
    rw [htrace, hadded, ← List.singleton_append, ← List.append_assoc, ← hevents]
    rfl
  · have hlimit := hm.limit
    have hbelow : (calls.length : Int) < bound := by omega
    have hinside : (f :: calls).length = (Bracket.call.enter (m.noting (.called f vs))).calls :=
      congrArg (· + 1) hcalls
    rw [← List.singleton_append, nest_append, nest_called vs hbelow]
    exact (hnest _ hinside).trans (by simp)

theorem Nests.returned {f : Name} (v : Value) (hm : m.Tells bound) (h : m.Nests bound n [f]) :
    m.Nests bound (n.noting (.returned f v)) [] := by
  have hn := h.tells hm
  obtain ⟨hlevel, added, hadded, hnest⟩ := h
  refine ⟨hlevel.trans (n.level_noting _), added ++ [.returned f v], ?_, fun calls hcalls => ?_⟩
  · have hevents : (n.trace.note (.returned f v)).events = n.trace.events ++ [.returned f v] :=
      Trace.events_note hn.verbosity
    exact hevents.trans (by rw [hadded, List.append_assoc])
  · rw [nest_append, hnest calls hcalls]
    exact nest_returned f v

end Machine

namespace Exec

variable {α β : Type} {bound : Int} {x : Exec α} {f : α → Exec β} {m : Machine}
  {here : List Name}

/-- The computation on `m` reports calls well bracketed. Where it ends well it leaves none of them
open, and where it fails those told. -/
structure Nests (bound : Int) (x : Exec α) (here : List Name) (m : Machine) : Prop where
  machine : m.Nests bound (x m).2 here
  ended : ∀ a, (x m).1 = .ok a → here = []

theorem Nests.pure (a : α) : Nests bound (pure a : Exec α) [] m :=
  ⟨.refl m, fun _ _ => rfl⟩

theorem Nests.fail (e : Failure) : Nests bound (fail e : Exec α) [] m :=
  ⟨.refl m, fun _ _ => rfl⟩

theorem Nests.bind {next : α → Machine → List Name} (hm : m.Tells bound)
    (hx : Nests bound x here m)
    (hf : ∀ a n, x m = (.ok a, n) → n.Tells bound → Nests bound (f a) (next a n) n) :
    Nests bound (x >>= f) (Plan.broken (x m) here next) m := by
  obtain ⟨hmachine, hended⟩ := hx
  rcases hr : x m with ⟨e | a, n⟩ <;> rw [hr] at hmachine hended
  · refine ⟨?_, ?_⟩
    · rw [bind_error hr]
      exact hmachine
    · rw [bind_error hr]
      nofun
  · obtain rfl := hended a rfl
    obtain ⟨hmachine', hended'⟩ := hf a n hr (hmachine.tells hm)
    refine ⟨?_, ?_⟩
    · rw [bind_ok hr]
      exact hmachine.trans hmachine'
    · rw [bind_ok hr]
      exact hended'

theorem Nests.located (pos : Pos) (hx : Nests bound x here m) :
    Nests bound (located pos x) here m := by
  refine ⟨?_, fun a ha => hx.ended a (located_ok.mp ha)⟩
  rw [located_apply]
  exact hx.machine

theorem Nests.around {bracket : Bracket} (hb : bracket ≠ .call)
    (hx : Nests bound x here (bracket.enter m)) : Nests bound (bracket.around x) here m := by
  obtain ⟨⟨hlevel, hevents⟩, hended⟩ := hx
  cases bracket with
  | scope => exact ⟨⟨Bracket.scope.leave_level hlevel, hevents⟩, hended⟩
  | tracing => exact ⟨⟨Bracket.tracing.leave_level hlevel, hevents⟩, hended⟩
  | call => exact absurd rfl hb

end Exec

namespace Move

variable {α : Type}

theorem run_trace (operation : Move α) (m : Machine) :
    (operation.run m).2.trace = m.trace ∨
      ∃ event, operation.event? = some event ∧
        (operation.run m).2.trace = m.trace.note event := by
  cases operation with
  | lookup name => exact .inl rfl
  | declare name type value => exact .inl rfl
  | assign name v => exact .inl rfl
  | readLine => exact .inl rfl
  | print v =>
    simp only [run, Exec.print]
    split <;> exact .inl rfl
  | note event =>
    obtain ⟨_, hrun⟩ | ⟨_, hrun⟩ := Exec.note_cases event m <;> rw [run, hrun]
    · exact .inl rfl
    · exact .inr ⟨event, rfl, rfl⟩
  | function name => exact .inl (congrArg Machine.trace (Exec.function_snd name m))
  | checkFree name => exact .inl (congrArg Machine.trace (Exec.checkFree_cases name m).1)
  | register f =>
    have hsame := (Exec.checkFree_cases f.name m).1
    rcases h : Exec.checkFree f.name m with ⟨e | u, n⟩ <;> rw [h] at hsame <;> subst hsame
    · rw [run, Exec.bind_error h]
      exact .inl rfl
    · rw [run, Exec.bind_ok h]
      exact .inl rfl
  | checkDepth name =>
    simp only [run, Exec.checkDepth]
    split <;> exact .inl rfl
  | checkStack =>
    simp only [run, Exec.checkStack]
    split_ifs <;> exact .inl rfl

theorem ends_eq_nil {operation : Move α} (h : operation.reportsCall = false) :
    operation.ends = [] := by
  cases operation with
  | note event =>
    cases event with
    | returned f v => cases h
    | _ => rfl
  | _ => rfl

theorem run_nests {bound : Int} (operation : Move α) (h : operation.reportsCall = false)
    (m : Machine) : Exec.Nests bound operation.run operation.ends m := by
  rw [ends_eq_nil h]
  have hlevel := operation.run_level m
  refine ⟨?_, fun _ _ => rfl⟩
  obtain htrace | ⟨event, hevent, htrace⟩ := operation.run_trace m
  · exact .of_trace hlevel (by rw [htrace])
  · have hcall : event.isCall = false := by simpa [reportsCall, hevent] using h
    by_cases hreported : event.level ≤ m.trace.verbosity
    · refine ⟨hlevel, [event], ?_, fun _ _ => nest_isCall hcall⟩
      rw [htrace, Trace.events_note hreported]
    · rw [Trace.note_ignored (by omega)] at htrace
      exact .of_trace hlevel (by rw [htrace])

end Move

namespace Plan

variable {α β : Type} {ev : Evaluator} {callee : List Name}
  {course : Task → Machine → List Name} {bound : Int} {m : Machine}

theorem active_bind (p : Plan α) (f : α → Plan β) (m : Machine) :
    (p >>= f).active ev callee course m =
      broken (p.run ev m) (p.active ev callee course m)
        fun a n => (f a).active ev callee course n := by
  change (p.bind f).active ev callee course m = _
  induction p generalizing m with
  | done a => rfl
  | fail e => rfl
  | move operation next ih =>
    simp only [bind, active, run]
    rcases hr : operation.run m with ⟨e | b, n⟩
    · rw [Exec.bind_error hr]
      rfl
    · rw [Exec.bind_ok hr]
      exact ih b f n
  | ask t next ih =>
    simp only [bind, active, run]
    rcases hr : ev.answer t m with ⟨e | a, n⟩
    · rw [Exec.bind_error hr]
      rfl
    · rw [Exec.bind_ok hr]
      exact ih a f n
  | within bracket inner next _ ih =>
    simp only [bind, active, run]
    rcases hr : bracket.around (inner.run ev) m with ⟨e | b, n⟩
    · rw [Exec.bind_error hr]
      rfl
    · rw [Exec.bind_ok hr]
      exact ih b f n

/-- Apart from the tasks that it hands on, the plan calls nothing and reports no call. -/
def Quiet : {α : Type} → Plan α → Prop
  | _, done _ => True
  | _, fail _ => True
  | _, move operation next => operation.reportsCall = false ∧ ∀ b, (next b).Quiet
  | _, ask _ next => ∀ a, (next a).Quiet
  | _, within bracket inner next => bracket ≠ .call ∧ inner.Quiet ∧ ∀ b, (next b).Quiet

section Quiet

theorem Quiet.bind {p : Plan α} {f : α → Plan β} (hp : p.Quiet) (hf : ∀ a, (f a).Quiet) :
    (p >>= f).Quiet := by
  change (p.bind f).Quiet
  induction p with
  | done a => exact hf a
  | fail e => trivial
  | move operation next ih => exact ⟨hp.1, fun b => ih b (hp.2 b) hf⟩
  | ask t next ih => exact fun a => ih a (hp a) hf
  | within bracket inner next _ ih => exact ⟨hp.1, hp.2.1, fun b => ih b (hp.2.2 b) hf⟩

theorem quiet_ofExcept (r : Except Failure α) : (ofExcept r).Quiet := by
  cases r <;> trivial

theorem quiet_perform {operation : Move α} (h : operation.reportsCall = false) :
    (perform operation).Quiet :=
  ⟨h, fun _ => trivial⟩

theorem quiet_value (e : Expr) : (value e).Quiet := fun _ => trivial

theorem quiet_signal (s : Stmt) : (signal s).Quiet := fun _ => trivial

theorem quiet_scope {inner : Plan α} (hi : inner.Quiet) : (inside .scope inner).Quiet :=
  ⟨nofun, hi, fun _ => trivial⟩

theorem quiet_values (es : List Expr) : (values es).Quiet := by
  induction es with
  | nil => trivial
  | cons e es ih => exact (quiet_value e).bind fun _ => ih.bind fun _ => trivial

theorem quiet_bindAll (params : List Param) (vs : List Value) : (bindAll params vs).Quiet := by
  induction params generalizing vs with
  | nil => trivial
  | cons p ps ih =>
    cases vs with
    | nil => trivial
    | cons v vs => exact (quiet_perform rfl).bind fun _ => ih vs

theorem quiet_body (f : Function) (vs : List Value) : (body f vs).Quiet :=
  (quiet_bindAll f.params vs).bind fun _ => quiet_signal f.body

theorem quiet_logical (op : LogicalOp) (left right : Expr) : (logical op left right).Quiet := by
  refine (quiet_value left).bind fun v => ?_
  split
  · trivial
  · trivial
  · refine (quiet_value right).bind fun w => ?_
    split <;> trivial
  · trivial

theorem quiet_eval {e : Expr} (he : ∀ pos name arguments, e ≠ .call pos name arguments) :
    (eval e).Quiet := by
  cases e with
  | literal pos l =>
    cases l with
    | integer n => exact quiet_ofExcept _
    | decimal | text | truth | foreign => trivial
  | name pos name =>
    refine (quiet_perform rfl).bind fun var => ?_
    split <;> trivial
  | assign pos name e => exact (quiet_value e).bind fun _ => quiet_perform rfl
  | logical pos op left right => exact quiet_logical op left right
  | binary pos op left right =>
    exact (quiet_value left).bind fun _ => (quiet_value right).bind fun _ => quiet_ofExcept _
  | unary pos op e => exact (quiet_value e).bind fun _ => quiet_ofExcept _
  | call pos name arguments => exact absurd rfl (he pos name arguments)
  | read pos => exact (quiet_perform rfl).bind fun _ => trivial
  | stuck why => trivial

theorem quiet_sequence (body : List Stmt) : (sequence body).Quiet := by
  induction body with
  | nil => trivial
  | cons s rest ih =>
    refine (quiet_signal s).bind fun signal => ?_
    split
    · exact ih
    · trivial

theorem quiet_condition (loop : Loop) (test : Expr) : (condition loop test).Quiet := by
  refine (quiet_value test).bind fun v => ?_
  split
  · trivial
  · exact (quiet_perform rfl).bind fun _ => trivial

theorem quiet_iterate {test : Plan Bool} (body : Stmt) {next : Plan Unit} (rounds : Nat)
    (ht : test.Quiet) (hn : next.Quiet) : (iterate test body next rounds).Quiet := by
  induction rounds with
  | zero => trivial
  | succ rounds ih =>
    refine ht.bind fun b => ?_
    split
    · refine (quiet_signal body).bind fun signal => ?_
      split
      · trivial
      · trivial
      · exact hn.bind fun _ => ih
    · trivial

theorem quiet_branch (test : Expr) (yes : Stmt) (no : Option Stmt) :
    (branch test yes no).Quiet := by
  refine (quiet_value test).bind fun v => ?_
  split
  · refine (quiet_perform rfl).bind fun _ => ?_
    split
    · exact quiet_signal yes
    · split
      · exact quiet_signal _
      · trivial
  · trivial

theorem quiet_initial (first : Option Expr) : (initial first).Quiet := by
  cases first with
  | none => trivial
  | some e => exact (quiet_value e).bind fun _ => trivial

theorem quiet_define (name : Name) (params : List Param) (body : Stmt) :
    (define name params body).Quiet := by
  refine (quiet_perform rfl).bind fun _ => ?_
  split
  · trivial
  · exact (quiet_perform rfl).bind fun _ => trivial

theorem quiet_exec (rounds : Nat) (s : Stmt) : (exec rounds s).Quiet := by
  cases s with
  | declare pos type name first =>
    refine (quiet_initial first).bind fun _ => (quiet_perform rfl).bind fun _ => ?_
    exact (quiet_perform rfl).bind fun _ => trivial
  | function pos name params body => exact quiet_define name params body
  | unusable pos name why => exact (quiet_perform rfl).bind fun _ => trivial
  | block pos body => exact quiet_scope (quiet_sequence body)
  | branch pos test yes no => exact quiet_branch test yes no
  | whileLoop pos test body => exact quiet_iterate body rounds (quiet_condition _ test) trivial
  | forLoop pos first test update body =>
    refine quiet_scope ((quiet_signal first).bind fun _ => ?_)
    exact quiet_iterate body rounds (quiet_condition _ test)
      ((quiet_value update).bind fun _ => trivial)
  | returns pos result => exact (quiet_initial result).bind fun _ => trivial
  | print pos e => exact (quiet_value e).bind fun _ => (quiet_perform rfl).bind fun _ => trivial
  | breaks | continues | stuck => trivial
  | expr pos e => exact (quiet_value e).bind fun _ => trivial

theorem quiet_statements (body : List Stmt) : (statements body).Quiet := by
  induction body with
  | nil => trivial
  | cons s rest ih =>
    refine (quiet_signal s).bind fun signal => ?_
    split
    · exact ih
    · exact quiet_perform rfl

theorem quiet_program (p : Program) : (program p).Quiet := by
  refine (quiet_perform rfl).bind fun _ => (quiet_perform rfl).bind fun _ => ?_
  have htraced : (traced p.body).Quiet :=
    (quiet_statements p.body).bind fun _ => quiet_perform rfl
  exact ⟨nofun, htraced, fun _ => trivial⟩

end Quiet

abbrev Nests (bound : Int) (ev : Evaluator) (callee : List Name)
    (course : Task → Machine → List Name) (p : Plan α) (m : Machine) : Prop :=
  Exec.Nests bound (p.run ev) (p.active ev callee course m) m

section Nests

variable (hev : ∀ (t : Task) (n : Machine), n.Tells bound →
  Exec.Nests bound (ev.answer t) (course t n) n)

theorem nests_bind {p : Plan α} {f : α → Plan β} (hm : m.Tells bound)
    (hp : p.Nests bound ev callee course m)
    (hf : ∀ a n, p.run ev m = (.ok a, n) → n.Tells bound →
      (f a).Nests bound ev callee course n) :
    (p >>= f).Nests bound ev callee course m := by
  rw [Nests, active_bind, run_bind]
  exact hp.bind hm hf

include hev

theorem Quiet.nests {p : Plan α} (hp : p.Quiet) (hm : m.Tells bound) :
    p.Nests bound ev callee course m := by
  induction p generalizing m with
  | done a => exact .pure a
  | fail e => exact .fail e
  | move operation next ih =>
    exact (operation.run_nests hp.1 m).bind hm fun b n _ hn => ih b (hp.2 b) hn
  | ask t next ih => exact (hev t m hm).bind hm fun a n _ hn => ih a (hp a) hn
  | within bracket inner next ihi ih =>
    obtain ⟨hb, hi, hnext⟩ := hp
    have hinner : Exec.Nests bound (bracket.around (inner.run ev))
        (bracket.calls callee ++ inner.active ev callee course (bracket.enter m)) m := by
      have hcalls : bracket.calls callee = [] := by
        cases bracket with
        | call => exact absurd rfl hb
        | scope | tracing => rfl
      rw [hcalls, List.nil_append]
      exact .around hb (ihi hi (hm.enter bracket))
    exact hinner.bind hm fun b n _ hn => ih b (hnext b) hn

variable (ev callee course) in
omit hev in
theorem return_nests {f : Name} {n : Machine} (v : Value) (hm : m.Tells bound)
    (h : m.Nests bound n [f]) :
    let back : Plan Value := move (.note (.returned f v)) fun _ => done v
    m.Nests bound (back.run ev n).2 (back.active ev callee course n) ∧
      ∀ w, (back.run ev n).1 = .ok w → back.active ev callee course n = [] := by
  intro back
  obtain ⟨_, hnote⟩ | ⟨_, hnote⟩ := Exec.note_cases (.returned f v) n
  · -- the return cannot be reported, and the call stays open
    have hmove : (Move.note (.returned f v)).run n = (.error .unwritten, n) := hnote
    simp only [back, run, active, broken, hmove, Exec.bind_error hmove]
    refine ⟨h, fun w hw => ?_⟩
    cases hw
  · have hmove : (Move.note (.returned f v)).run n = (.ok (), n.noting (.returned f v)) := hnote
    simp only [back, run, active, broken, hmove, Exec.bind_ok hmove]
    exact ⟨h.returned v hm, fun _ _ => trivial⟩

/-- What is left of a call that is granted: it is reported before its body is carried out, and its
return is after that unless the body fails. -/
theorem granted_nests {inner : Plan Signal} (hinner : inner.Quiet) (f : Name) (vs : List Value)
    (hm : m.Tells bound) (hroom : m.calls < m.limit) :
    (move (.note (.called f vs)) fun _ => within .call inner fun signal =>
      move (.note (.returned f signal.result)) fun _ => done signal.result).Nests bound ev [f]
        course m := by
  obtain ⟨_, hnote⟩ | ⟨_, hnote⟩ := Exec.note_cases (.called f vs) m
  · have hmove : (Move.note (.called f vs)).run m = (.error .unwritten, m) := hnote
    simp only [Nests, run, active, broken, hmove]
    refine ⟨?_, ?_⟩ <;> rw [Exec.bind_error hmove]
    · exact .refl m
    · intro v h
      cases h
  have hcalled : (m.noting (.called f vs)).Tells bound :=
    ⟨(m.trace.note_verbosity _).symm ▸ hm.verbosity, hm.limit⟩
  have hbody : inner.Nests bound ev [f] course (Bracket.call.enter (m.noting (.called f vs))) :=
    hinner.nests hev (hcalled.enter .call)
  obtain ⟨hmachine, hended⟩ := hbody
  have hmove : (Move.note (.called f vs)).run m = (.ok (), m.noting (.called f vs)) := hnote
  rcases hr : inner.run ev (Bracket.call.enter (m.noting (.called f vs))) with ⟨e | signal, n⟩ <;>
    rw [hr] at hmachine hended
  · have hcall : Bracket.call.around (inner.run ev) (m.noting (.called f vs)) =
        (.error e, Bracket.call.leave n) := by simp only [Bracket.around, hr]
    simp only [Nests, run, active, broken, hmove, hcall, Bracket.calls]
    refine ⟨?_, ?_⟩ <;> rw [Exec.bind_ok hmove, Exec.bind_error hcall]
    · exact hmachine.called hm hroom
    · intro signal h
      cases h
  · have hcall : Bracket.call.around (inner.run ev) (m.noting (.called f vs)) =
        (.ok signal, Bracket.call.leave n) := by simp only [Bracket.around, hr]
    rw [hended signal rfl] at hmachine
    obtain ⟨hback, hclosed⟩ :=
      return_nests ev [f] course signal.result hm (hmachine.called hm hroom)
    simp only [Nests, run, active, broken, hmove, hcall]
    refine ⟨?_, ?_⟩ <;> rw [Exec.bind_ok hmove, Exec.bind_ok hcall]
    · exact hback
    · exact hclosed

theorem enter_nests (f : Function) (vs : List Value) (hm : m.Tells bound) :
    (enter f vs).Nests bound ev [f.name] course m := by
  refine nests_bind hm ((quiet_perform rfl).nests hev hm) fun _ n hr hn => ?_
  obtain ⟨rfl, hroom⟩ : n = m ∧ m.calls < m.limit := by
    rw [run_perform, Move.run, Exec.checkDepth] at hr
    split at hr
    · cases hr
    · cases hr
      exact ⟨rfl, by omega⟩
  unfold noteCall
  split
  · exact .fail _
  · exact granted_nests hev (quiet_scope (quiet_body f vs)) f.name vs hn hroom

theorem call_nests (name : Name) (arguments : List Expr) (pos : Pos) (hm : m.Tells bound) :
    (call name arguments).Nests bound ev ((Task.eval (.call pos name arguments)).callee m) course
      m := by
  refine nests_bind hm ((quiet_perform rfl).nests hev hm) fun f n hr hn => ?_
  rw [run_perform] at hr
  have hfound : m.function? name = some f := Exec.function_found (congrArg Prod.fst hr)
  have hcallee : (Task.eval (.call pos name arguments)).callee m = [f.name] := by
    simp [Task.callee, hfound]
  rw [hcallee]
  refine nests_bind hn ((quiet_values arguments).nests hev hn) fun given q _ hq => ?_
  split
  · refine nests_bind hq ((quiet_ofExcept _).nests hev hq) fun vs l _ hl => ?_
    exact enter_nests hev f vs hl
  · exact .fail _

end Nests

end Plan

namespace Task

theorem plan_nests {ev : Evaluator} {course : Task → Machine → List Name} {bound : Int}
    {m : Machine} (hev : ∀ (t : Task) (n : Machine), n.Tells bound →
      Exec.Nests bound (ev.answer t) (course t n) n)
    (t : Task) (rounds : Nat) (hm : m.Tells bound) :
    (t.plan rounds).Nests bound ev (t.callee m) course m := by
  cases t with
  | exec s => exact (Plan.quiet_exec rounds s).nests hev hm
  | eval e =>
    by_cases he : ∃ pos name arguments, e = .call pos name arguments
    · obtain ⟨pos, name, arguments, rfl⟩ := he
      exact Plan.call_nests hev name arguments pos hm
    · refine (Plan.quiet_eval fun pos name arguments h => ?_).nests hev hm
      exact he ⟨pos, name, arguments, h⟩

theorem run_nests {bound : Int} (fuel : Nat) (t : Task) {m : Machine} (hm : m.Tells bound) :
    Exec.Nests bound (t.run fuel) (t.active fuel m) m := by
  induction fuel generalizing t m with
  | zero =>
    have hzero : t.run 0 = Exec.fail .exhausted := funext fun m => run_zero t m
    rw [hzero]
    exact .fail .exhausted
  | succ fuel ih =>
    rw [run_succ]
    refine (plan_nests (fun u n hn => ?_) t fuel hm).located t.pos
    rw [Evaluator.answer_upTo]
    exact ih u hn

end Task

end Guion
