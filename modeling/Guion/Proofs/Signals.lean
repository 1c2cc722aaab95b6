import Guion.Proofs.Discipline.Machine
import Guion.Proofs.Plan.Contract

namespace Guion

namespace Stmt

/-- The second statement stands in the first one outside the functions declared there, and, unless
`loops` is set, outside the loops. -/
inductive Exposes (loops : Bool) : Stmt → Stmt → Prop where
  | self (s : Stmt) : Exposes loops s s
  | block {pos : Pos} {body : List Stmt} {s t : Stmt} :
    s ∈ body → Exposes loops s t → Exposes loops (.block pos body) t
  | yes {pos : Pos} {test : Expr} {s t : Stmt} {no : Option Stmt} :
    Exposes loops s t → Exposes loops (.branch pos test s no) t
  | no {pos : Pos} {test : Expr} {yes s t : Stmt} :
    Exposes loops s t → Exposes loops (.branch pos test yes (some s)) t
  | whileLoop {pos : Pos} {test : Expr} {s t : Stmt} :
    loops = true → Exposes loops s t → Exposes loops (.whileLoop pos test s) t
  | first {pos : Pos} {test update : Expr} {s body t : Stmt} :
    loops = true → Exposes loops s t → Exposes loops (.forLoop pos s test update body) t
  | forLoop {pos : Pos} {test update : Expr} {initial s t : Stmt} :
    loops = true → Exposes loops s t → Exposes loops (.forLoop pos initial test update s) t

/-- A statement may end with a signal for which it has a jump that nothing in it catches. -/
def Gives (s : Stmt) : Signal → Prop
  | .normal => True
  | .broken => ∃ pos, s.Exposes false (.breaks pos)
  | .continued => ∃ pos, s.Exposes false (.continues pos)
  | .returned _ => ∃ pos value, s.Exposes true (.returns pos value)

/-- All jumps of a statement stay inside it: `romper` and `continuar` in loops or functions,
`retornar` in functions. -/
structure Enclosed (s : Stmt) : Prop where
  breaks : ∀ pos, ¬ s.Exposes false (.breaks pos)
  continues : ∀ pos, ¬ s.Exposes false (.continues pos)
  returns : ∀ pos value, ¬ s.Exposes true (.returns pos value)

def isLoop : Stmt → Bool
  | whileLoop _ _ _ => true
  | forLoop _ _ _ _ _ => true
  | _ => false

theorem Gives.mono {s t : Stmt} {signal : Signal}
    (h : ∀ loops jump, s.Exposes loops jump → t.Exposes loops jump) (hs : s.Gives signal) :
    t.Gives signal := by
  cases signal with
  | normal => trivial
  | broken | continued =>
    obtain ⟨pos, hs⟩ := hs
    exact ⟨pos, h _ _ hs⟩
  | returned v =>
    obtain ⟨pos, value, hs⟩ := hs
    exact ⟨pos, value, h _ _ hs⟩

theorem Enclosed.normal {s : Stmt} {signal : Signal} (h : s.Enclosed) (hs : s.Gives signal) :
    signal = .normal := by
  cases signal with
  | normal => rfl
  | broken =>
    obtain ⟨pos, hs⟩ := hs
    exact absurd hs (h.breaks pos)
  | continued =>
    obtain ⟨pos, hs⟩ := hs
    exact absurd hs (h.continues pos)
  | returned v =>
    obtain ⟨pos, value, hs⟩ := hs
    exact absurd hs (h.returns pos value)

theorem Gives.of_loop {s : Stmt} {signal : Signal} (hloop : s.isLoop = true)
    (hs : s.Gives signal) : signal = .normal ∨ ∃ v, signal = .returned v := by
  cases signal with
  | normal => exact .inl rfl
  | returned v => exact .inr ⟨v, rfl⟩
  | broken | continued =>
    obtain ⟨pos, hs⟩ := hs
    cases hs with
    | self => cases hloop
    | block | yes | no => cases hloop
    | whileLoop h | first h | forLoop h => cases h

end Stmt

/-- Statements end with signals that they have jumps for. Nothing else is asked. -/
def signalled : Contract where
  machine _ := True
  requires _ := True
  ensures _ _ := True
  task _ := True
  answer
    | .eval _, _ => True
    | .exec s, signal => s.Gives signal
  failure _ := True

namespace Plan

variable {α : Type}

theorem signalled_any (p : Plan α) : p.Meets signalled fun _ => True := by
  induction p with
  | done a => trivial
  | fail e => trivial
  | move operation next ih => exact ⟨trivial, fun b _ => ih b⟩
  | ask t next ih => exact ⟨trivial, fun a _ => ih a⟩
  | within bracket inner next ihi ih => exact ⟨_, ihi, fun b _ => ih b⟩

theorem signalled_signal (s : Stmt) : (signal s).Meets signalled s.Gives := Meets.signal trivial

theorem signalled_sequence (body : List Stmt) :
    (sequence body).Meets signalled fun signal =>
      signal = .normal ∨ ∃ s ∈ body, s.Gives signal := by
  induction body with
  | nil => exact .inl rfl
  | cons s rest ih =>
    refine (signalled_signal s).bind fun signal hs => ?_
    cases signal with
    | normal =>
      refine ih.imp fun signal h => h.imp_right ?_
      rintro ⟨t, ht, hgives⟩
      exact ⟨t, List.mem_cons_of_mem s ht, hgives⟩
    | broken | continued | returned v => exact .inr ⟨s, List.mem_cons_self, hs⟩

def Passed (body : Stmt) (signal : Signal) : Prop :=
  signal = .normal ∨ ∃ v, signal = .returned v ∧ body.Gives signal

theorem signalled_iterate (test : Plan Bool) (body : Stmt) (next : Plan Unit) (rounds : Nat) :
    (iterate test body next rounds).Meets signalled (Passed body) := by
  induction rounds with
  | zero => trivial
  | succ rounds ih =>
    refine (signalled_any test).bind fun b _ => ?_
    split
    · refine (signalled_signal body).bind fun signal hs => ?_
      cases signal with
      | broken => exact .inl rfl
      | returned v => exact .inr ⟨v, rfl, hs⟩
      | normal | continued => exact (signalled_any next).bind fun _ _ => ih
    · exact .inl rfl

theorem signalled_branch {pos : Pos} {test : Expr} {yes : Stmt} {no : Option Stmt} :
    (branch test yes no).Meets signalled (Stmt.branch pos test yes no).Gives := by
  refine (signalled_any (value test)).bind fun v _ => ?_
  split
  · refine (signalled_any _).bind fun _ _ => ?_
    split
    · exact (signalled_signal yes).imp fun signal hs => hs.mono fun _ _ h => .yes h
    · cases no with
      | none => trivial
      | some s => exact (signalled_signal s).imp fun signal hs => hs.mono fun _ _ h => .no h
  · trivial

/-- One case per kind of statement: what a step ends with, its statement has a jump for. -/
theorem signalled_exec (rounds : Nat) (s : Stmt) : (exec rounds s).Meets signalled s.Gives := by
  cases s with
  | declare pos type name first =>
    refine (signalled_any (initial first)).bind fun _ _ => (signalled_any _).bind fun _ _ => ?_
    exact (signalled_any _).bind fun _ _ => trivial
  | function pos name params body =>
    refine (signalled_any (perform _)).bind fun _ _ => ?_
    split
    · trivial
    · exact (signalled_any _).bind fun _ _ => trivial
  | unusable pos name why => exact (signalled_any (perform _)).bind fun _ _ => trivial
  | block pos body =>
    refine Meets.inside ((signalled_sequence body).imp ?_)
    rintro signal (rfl | ⟨s, hs, hgives⟩)
    · trivial
    -- what a part exposes, the block exposes
    · exact hgives.mono fun _ _ h => .block hs h
  | branch pos test yes no => exact signalled_branch
  | whileLoop pos test body =>
    refine (signalled_iterate _ body _ rounds).imp ?_
    rintro signal (rfl | ⟨v, rfl, place, value, h⟩)
    · trivial
    · exact ⟨place, value, .whileLoop rfl h⟩
  | forLoop pos first test update body =>
    refine Meets.inside ((signalled_any (signal first)).bind fun _ _ => ?_)
    refine (signalled_iterate _ body _ rounds).imp ?_
    rintro signal (rfl | ⟨v, rfl, place, value, h⟩)
    · trivial
    · exact ⟨place, value, .forLoop rfl h⟩
  | returns pos result =>
    exact (signalled_any (initial result)).bind fun v _ => ⟨pos, result, .self _⟩
  | print pos e =>
    exact (signalled_any (value e)).bind fun _ _ => (signalled_any _).bind fun _ _ => trivial
  | breaks pos => exact ⟨pos, .self _⟩
  | continues pos => exact ⟨pos, .self _⟩
  | expr pos e => exact (signalled_any (value e)).bind fun _ _ => trivial
  | stuck why => trivial

end Plan

theorem signalled_kept : signalled.Kept where
  move _ _ _ _ := ⟨trivial, fun _ _ => trivial, fun _ _ => trivial⟩
  enter _ _ _ := trivial
  leave _ _ _ := trivial
  plan fuel t _ := by
    cases t with
    | eval e => exact Plan.signalled_any (Plan.eval e)
    | exec s => exact Plan.signalled_exec fuel s
  exhausted := trivial
  located _ _ _ := trivial

theorem exec_gives {fuel : Nat} {s : Stmt} {m : Machine} {signal : Signal}
    (h : (exec fuel s m).1 = .ok signal) : s.Gives signal :=
  (Task.run_fulfils signalled_kept fuel (.exec s) m trivial trivial).result signal h

theorem Exec.checkStack_same {m n : Machine} (h : checkStack m = (.ok (), n)) : m = n := by
  unfold checkStack at h
  split at h
  · cases h
  · split at h
    · cases h
    · split at h <;> cases h
      rfl

namespace Plan

variable {ev : Evaluator} {m n : Machine} {v : Value}

theorem enter_result {f : Function} {vs : List Value}
    (h : (enter f vs).run ev m = (.ok v, n)) :
    ∃ q signal q', (enter f vs).Asks ev m (.exec f.body) q ∧
      ev.exec f.body q = (.ok signal, q') ∧ v = signal.result := by
  simp only [enter, run_bind, run_inside, Exec.bind_eq_ok] at h
  obtain ⟨_, m₁, hdepth, _, m₂, hnote, signal, m₃, hbody, _, m₄, _, hv⟩ := h
  have hcalled : ((body f vs).run ev (Bracket.scope.enter (Bracket.call.enter m₂))).1 =
      .ok signal := congrArg Prod.fst hbody
  rcases hrun : (body f vs).run ev (Bracket.scope.enter (Bracket.call.enter m₂)) with ⟨r, q'⟩
  rw [hrun] at hcalled
  subst hcalled
  simp only [body, run_bind, run_signal, Exec.bind_eq_ok] at hrun
  obtain ⟨_, q, hparams, hexec⟩ := hrun
  cases hv
  refine ⟨q, signal, q', ?_, hexec, rfl⟩
  refine asks_bind.mpr (.inr ⟨_, m₁, hdepth, asks_bind.mpr (.inr ⟨_, m₂, hnote, ?_⟩)⟩)
  refine asks_bind.mpr (.inl (.inl (.inl (asks_bind.mpr (.inr ⟨_, q, hparams, ?_⟩)))))
  exact .inl ⟨rfl, rfl⟩

theorem call_result {name : Name} {arguments : List Expr}
    (h : (call name arguments).run ev m = (.ok v, n)) :
    ∃ f q signal q', m.function? name = some f ∧ (call name arguments).Asks ev m (.exec f.body) q ∧
      ev.exec f.body q = (.ok signal, q') ∧ v = signal.result := by
  simp only [call, run_bind, Exec.bind_eq_ok] at h
  obtain ⟨f, m₁, hf, given, m₂, hgiven, h⟩ := h
  split at h
  · rename_i harity
    rw [run_bind] at h
    obtain ⟨vs, m₃, hvs, h⟩ := Exec.bind_eq_ok.mp h
    obtain ⟨q, signal, q', hasks, hexec, hv⟩ := enter_result h
    refine ⟨f, q, signal, q', ?_, ?_, hexec, hv⟩
    · rw [run_perform] at hf
      exact Exec.function_found (congrArg Prod.fst hf)
    · refine asks_bind.mpr (.inr ⟨f, m₁, hf, asks_bind.mpr (.inr ⟨given, m₂, hgiven, ?_⟩)⟩)
      rw [if_pos harity]
      exact asks_bind.mpr (.inr ⟨vs, m₃, hvs, hasks⟩)
  · cases h

end Plan

section Run

variable {fuel : Nat} {m n : Machine}

theorem runBody_enclosed {body : List Stmt} (h : ∀ s ∈ body, s.Enclosed)
    (hrun : runBody (exec fuel) body m = (.ok (), n)) :
    m.executeAll (exec fuel) body = ((List.replicate body.length .normal, none), n) := by
  induction body generalizing m with
  | nil =>
    cases hrun
    rfl
  | cons s rest ih =>
    obtain ⟨hs, hrest⟩ := List.forall_mem_cons.mp h
    obtain ⟨signal, q, hexec, hrun⟩ := Exec.bind_eq_ok.mp hrun
    obtain rfl : signal = .normal := hs.normal (exec_gives (congrArg Prod.fst hexec))
    simp only [Machine.executeAll, hexec, ih hrest hrun, List.length_cons, List.replicate_succ]

theorem run_enclosed {p : Program} (h : ∀ s ∈ p.body, s.Enclosed)
    (hrun : run fuel p m = (.ok (), n)) :
    ∃ q, ({ m with trace := m.trace.note (.started p.body.length) } : Machine).executeAll
        (exec fuel) p.body = ((List.replicate p.body.length .normal, none), q) ∧
      n = { q with trace := (q.trace.note .finished).close } := by
  obtain ⟨_, noted, hnote, hrun⟩ := Exec.bind_eq_ok.mp hrun
  obtain ⟨_, q, hstack, hrun⟩ := Exec.bind_eq_ok.mp hrun
  obtain rfl : noted = q := Exec.checkStack_same hstack
  rw [Exec.note_plain rfl] at hnote
  cases hnote
  rcases htraced : (runBody (exec fuel) p.body >>= fun _ => Exec.note .finished)
    { m with trace := m.trace.note (.started p.body.length) } with ⟨r, n'⟩
  simp only [runTraced, htraced] at hrun
  cases hrun
  obtain ⟨_, q, hbody, hfinished⟩ := Exec.bind_eq_ok.mp htraced
  rw [Exec.note_plain rfl] at hfinished
  cases hfinished
  exact ⟨q, runBody_enclosed h hbody, rfl⟩

end Run

/-- Control signals follow the syntax. A statement ends with `romper`, `continuar` or `retornar`
only where it has such a jump outside all loops and functions, for `retornar` outside all functions,
so a loop passes on a `retornar` at most. A called body's signal becomes the value of the call. And
a program whose jumps are all in loops or functions is run to its end, unless a statement fails. -/
theorem signals_from_jumps (fuel : Nat) (m : Machine) :
    (∀ s signal, (exec fuel s m).1 = .ok signal →
      (signal = .broken → ∃ pos, s.Exposes false (.breaks pos)) ∧
      (signal = .continued → ∃ pos, s.Exposes false (.continues pos)) ∧
      (∀ v, signal = .returned v → ∃ pos value, s.Exposes true (.returns pos value)) ∧
      (s.isLoop = true → signal = .normal ∨ ∃ v, signal = .returned v)) ∧
    (∀ pos name arguments v, (eval (fuel + 1) (.call pos name arguments) m).1 = .ok v →
      ∃ f q signal q', m.function? name = some f ∧
        (Plan.call name arguments).Asks (.upTo fuel) m (.exec f.body) q ∧
        exec fuel f.body q = (.ok signal, q') ∧ v = signal.result) ∧
    ∀ p : Program, (∀ s ∈ p.body, s.Enclosed) → (run fuel p m).1 = .ok () →
      ∃ q, ({ m with trace := m.trace.note (.started p.body.length) } : Machine).executeAll
          (exec fuel) p.body = ((List.replicate p.body.length .normal, none), q) ∧
        (run fuel p m).2 = { q with trace := (q.trace.note .finished).close } := by
  refine ⟨fun s signal h => ?_, fun pos name arguments v h => ?_, fun p h hrun => ?_⟩
  · have hgives := exec_gives h
    refine ⟨?_, ?_, ?_, fun hloop => hgives.of_loop hloop⟩
    · rintro rfl
      exact hgives
    · rintro rfl
      exact hgives
    · rintro v rfl
      exact hgives
  · have hcall : ((Plan.call name arguments).run (.upTo fuel) m).1 = .ok v := by
      rw [Plan.run_call]
      exact Exec.located_ok.mp h
    exact Plan.call_result (Exec.eq_of_fst hcall)
  · exact run_enclosed h (Exec.eq_of_fst hrun)

/-- A `romper` of a called function ends neither the loop nor the program of the caller. -/
theorem signals_from_jumps_called :
    ∃ p f, parse "f() \x7b romper; \x7d mientras (verdadero) \x7b f(); romper; \x7d imprimir 1;" =
        .ok p ∧ (∀ s ∈ p.body, s.Enclosed) ∧ (run 9 p (.start (.stream "") 0 9)).1 = .ok () ∧
      (∃ q, (Machine.start (.stream "") 0 9).executeAll (exec 9) p.body =
        ((List.replicate 3 .normal, none), q)) ∧
      (exec 9 f.body (.start (.stream "") 0 9)).1 = .ok .broken ∧
      (∃ pos, f.body.Exposes false (.breaks pos)) ∧
      (eval 9 (.call .none "f" []) { Machine.start (.stream "") 0 9 with functions := [f] }).1 =
        .ok .null ∧
      ∃ g q signal q', Machine.function?
          { Machine.start (.stream "") 0 9 with functions := [f] } "f" = some g ∧
        exec 8 g.body q = (.ok signal, q') ∧ .null = signal.result := by
  let f : Function := ⟨"f", [], .block (Mark.pos ⟨1, 5⟩) [.breaks (Mark.pos ⟨1, 7⟩)]⟩
  let body : List Stmt := [
    .function (Mark.pos ⟨1, 1⟩) f.name f.params f.body,
    .whileLoop (Mark.pos ⟨1, 17⟩) (.literal (Mark.pos ⟨1, 27⟩) (.truth true))
      (.block (Mark.pos ⟨1, 38⟩) [
        .expr (Mark.pos ⟨1, 40⟩) (.call (Mark.pos ⟨1, 40⟩) "f" []),
        .breaks (Mark.pos ⟨1, 45⟩)]),
    .print (Mark.pos ⟨1, 55⟩) (.literal (Mark.pos ⟨1, 64⟩) (.integer (.int 1)))]
  have hp : parse "f() \x7b romper; \x7d mientras (verdadero) \x7b f(); romper; \x7d imprimir 1;" =
      .ok ⟨Mark.pos ⟨1, 1⟩, body⟩ := by rfl
  have henclosed : ∀ s ∈ body, s.Enclosed := by
    simp only [body, List.forall_mem_cons]
    refine ⟨⟨nofun, nofun, nofun⟩, ⟨?_, ?_, ?_⟩, ⟨nofun, nofun, nofun⟩, nofun⟩
    · rintro pos (_ | _ | _ | _ | ⟨⟨⟩, _⟩)
    · rintro pos (_ | _ | _ | _ | ⟨⟨⟩, _⟩)
    · rintro pos value (_ | _ | _ | _ | ⟨_, _ | ⟨hs, h⟩⟩)
      simp only [List.mem_cons, List.not_mem_nil, or_false] at hs
      obtain rfl | rfl := hs <;> cases h
  have hrun : (run 9 ⟨Mark.pos ⟨1, 1⟩, body⟩ (.start (.stream "") 0 9)).1 = .ok () := by
    decide +kernel
  have hbroken : (exec 9 f.body (.start (.stream "") 0 9)).1 = .ok .broken := by decide +kernel
  have hcalled : (eval 9 (.call .none "f" [])
      { Machine.start (.stream "") 0 9 with functions := [f] }).1 = .ok .null := by decide +kernel
  obtain ⟨q, hall, _⟩ := (signals_from_jumps 9 _).2.2 _ henclosed hrun
  obtain ⟨g, q', signal, n, hg, _, hbody, hnull⟩ :=
    (signals_from_jumps 8 _).2.1 .none "f" [] .null hcalled
  exact ⟨_, f, hp, henclosed, hrun, ⟨q, hall⟩, hbroken,
    ((signals_from_jumps 9 _).1 f.body .broken hbroken).1 rfl, hcalled, g, q', signal, n, hg,
    hbody, hnull⟩

end Guion
