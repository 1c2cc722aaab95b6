import Guion.Proofs.Fresh
import Guion.Proofs.Relocation
import Mathlib.Data.List.Forall2

namespace Guion

/-- What a second run has in other places than a first one: the tasks that it has with changed
positions, by the change, and the places that stand for each other. -/
structure Counterparts where
  moves : (Pos → Pos) → Task → Prop
  places : Pos → Pos → Prop

/-- A task is moved with its parts, and to a place that stands for its own. -/
structure Counterparts.Kept (C : Counterparts) : Prop where
  part : ∀ {move t u}, C.moves move t → u ∈ t.parts → C.moves move u
  placed : ∀ {move t}, C.moves move t →
    Option.Rel C.places t.pos.place? (t.moved move).pos.place?

namespace Counterparts

variable (C : Counterparts)

inductive Failures : Failure → Failure → Prop where
  | fault {place place' : Option Pos} (cause : Fault) :
    Option.Rel C.places place place' → Failures (.fault cause place) (.fault cause place')
  | stuck (why : Stuck) : Failures (.stuck why) (.stuck why)
  | exhausted : Failures .exhausted .exhausted
  | unwritten : Failures .unwritten .unwritten

inductive Results {α : Type} (values : α → α → Prop) :
    Except Failure α → Except Failure α → Prop where
  | ok {a a' : α} : values a a' → Results values (.ok a) (.ok a')
  | error {e e' : Failure} : C.Failures e e' → Results values (.error e) (.error e')

def Functions (f f' : Function) : Prop :=
  ∃ move, C.moves move (.exec f.body) ∧ f' = f.moved move

/-- Machines that have functions that stand for each other, and agree in all else but in what they
have reported. -/
structure Machines (m m' : Machine) : Prop where
  store : m'.store = m.store
  functions : List.Forall₂ C.Functions m.functions m'.functions
  calls : m'.calls = m.calls
  limit : m'.limit = m.limit
  stack : m'.stack = m.stack
  console : m'.console = m.console
  trace : m.trace.Alike m'.trace

/-- Started on machines that stand for each other, two computations come to results and to machines
that do. -/
def Runs {α : Type} (values : α → α → Prop) (x x' : Exec α) : Prop :=
  ∀ m m', C.Machines m m' → C.Results values (x m).1 (x' m').1 ∧ C.Machines (x m).2 (x' m').2

end Counterparts

variable {C : Counterparts} {α β : Type} {values : α → α → Prop} {m m' : Machine}

namespace Counterparts

theorem Failures.fresh {e : Failure} (h : e.Fresh) : C.Failures e e := by
  cases e with
  | fault cause place =>
    obtain ⟨rfl, _⟩ := h
    exact .fault cause .none
  | stuck why => exact .stuck why
  | exhausted | overrun | unwritten => exact h.elim

theorem Failures.locate {e e' : Failure} {pos pos' : Pos} (h : C.Failures e e')
    (hpos : Option.Rel C.places pos.place? pos'.place?) :
    C.Failures (e.locate pos) (e'.locate pos') := by
  cases h with
  | fault cause hplace =>
    cases hplace with
    | some hplace => exact .fault cause (.some hplace)
    | none => exact .fault cause hpos
  | stuck why => exact .stuck why
  | exhausted => exact .exhausted
  | unwritten => exact .unwritten

theorem Results.fresh {r : Except Failure α} (h : FailsFresh r) : C.Results Eq r r := by
  cases r with
  | ok a => exact .ok rfl
  | error e => exact .error (.fresh h)

theorem Machines.function?_cases (h : C.Machines m m') (name : Name) :
    (m.function? name = none ∧ m'.function? name = none) ∨
      ∃ f f', m.function? name = some f ∧ m'.function? name = some f' ∧ C.Functions f f' := by
  unfold Machine.function?
  have hfunctions := h.functions
  generalize m.functions = fs at *
  generalize m'.functions = fs' at *
  induction hfunctions with
  | nil => exact .inl ⟨rfl, rfl⟩
  | @cons f f' _ _ hf _ ih =>
    obtain ⟨move, hmoves, rfl⟩ := hf
    cases hname : f.name.agrees name with
    | true =>
      have hmoved : (f.moved move).name.agrees name = true := hname
      exact .inr ⟨f, f.moved move, List.find?_cons_of_pos hname, List.find?_cons_of_pos hmoved,
        move, hmoves, rfl⟩
    | false =>
      have hmoved : (f.moved move).name.agrees name = false := hname
      simpa only [List.find?_cons, hname, hmoved] using ih

namespace Runs

theorem pure {a a' : α} (h : values a a') : C.Runs values (Pure.pure a) (Pure.pure a') :=
  fun _ _ hm => ⟨.ok h, hm⟩

theorem fail {e : Failure} (h : C.Failures e e) : C.Runs values (Exec.fail e) (Exec.fail e) :=
  fun _ _ hm => ⟨.error h, hm⟩

theorem fault (cause : Fault) : C.Runs values (Exec.fault cause) (Exec.fault cause) :=
  fail (.fault cause .none)

theorem stuck (why : Stuck) : C.Runs values (Exec.fail (.stuck why)) (Exec.fail (.stuck why)) :=
  fail (.stuck why)

theorem bind {others : β → β → Prop} {x x' : Exec α} {f f' : α → Exec β}
    (hx : C.Runs values x x') (hf : ∀ a a', values a a' → C.Runs others (f a) (f' a')) :
    C.Runs others (x >>= f) (x' >>= f') := by
  intro m m' hm
  obtain ⟨hresult, hmachines⟩ := hx m m' hm
  rcases hr : x m with ⟨r, n⟩
  rcases hr' : x' m' with ⟨r', n'⟩
  rw [hr, hr'] at hresult hmachines
  cases hresult with
  | ok ha =>
    rw [Exec.bind_ok hr, Exec.bind_ok hr']
    exact hf _ _ ha n n' hmachines
  | error he =>
    rw [Exec.bind_error hr, Exec.bind_error hr']
    exact ⟨.error he, hmachines⟩

theorem bind_same {others : β → β → Prop} {x x' : Exec α} {f f' : α → Exec β}
    (hx : C.Runs Eq x x') (hf : ∀ a, C.Runs others (f a) (f' a)) :
    C.Runs others (x >>= f) (x' >>= f') :=
  hx.bind fun a _ h => h ▸ hf a

theorem located {x x' : Exec α} {pos pos' : Pos} (hx : C.Runs values x x')
    (hpos : Option.Rel C.places pos.place? pos'.place?) :
    C.Runs values (Exec.located pos x) (Exec.located pos' x') := by
  intro m m' hm
  obtain ⟨hresult, hmachines⟩ := hx m m' hm
  rw [Exec.located_apply, Exec.located_apply]
  refine ⟨?_, hmachines⟩
  cases h : (x m).1 <;> cases h' : (x' m').1 <;> rw [h, h'] at hresult <;> cases hresult
  · exact .error (Failures.locate ‹_› hpos)
  · exact .ok ‹_›

theorem around (b : Bracket) {x x' : Exec α} (hx : C.Runs values x x') :
    C.Runs values (b.around x) (b.around x') := by
  intro m m' hm
  have henter : C.Machines (b.enter m) (b.enter m') := by
    cases b with
    | scope => exact { hm with store := congrArg Store.openScope hm.store }
    | call => exact { hm with calls := congrArg (· + 1) hm.calls }
    | tracing => exact hm
  obtain ⟨hresult, hn⟩ := hx _ _ henter
  refine ⟨hresult, ?_⟩
  cases b with
  | scope => exact { hn with store := congrArg Store.closeScope hn.store }
  | call => exact { hn with calls := congrArg (· - 1) hn.calls }
  | tracing => exact { hn with trace := hn.trace.close }

end Runs

section Operations

variable (C)

theorem runs_ofExcept {r : Except Failure α} (h : FailsFresh r) :
    C.Runs Eq (Exec.ofExcept r) (Exec.ofExcept r) := by
  cases r with
  | ok a => exact .pure rfl
  | error e => exact .fail (.fresh h)

theorem runs_note_quoting {event event' : Event} (hlevel : event'.level = event.level)
    (hquoted : event'.quoted = event.quoted) :
    C.Runs Eq (Exec.note event) (Exec.note event') := by
  intro m m' hm
  simp only [Exec.note, hm.trace.refuses hlevel hquoted]
  split
  · exact ⟨.error .unwritten, hm⟩
  · exact ⟨.ok rfl, { hm with trace := hm.trace.note event event' }⟩

theorem runs_note (event : Event) : C.Runs Eq (Exec.note event) (Exec.note event) :=
  C.runs_note_quoting rfl rfl

theorem runs_lookup (name : Name) : C.Runs Eq (Exec.lookup name) (Exec.lookup name) := by
  intro m m' hm
  simp only [Exec.lookup, hm.store]
  exact ⟨.fresh (Store.lookup_fresh m.store name), hm⟩

theorem runs_onStore {operation : Store → Except Failure α × Store}
    (h : ∀ s, FailsFresh (operation s).1) :
    C.Runs Eq (Exec.onStore operation) (Exec.onStore operation) := by
  intro m m' hm
  simp only [Exec.onStore, hm.store]
  exact ⟨.fresh (h m.store), { hm with store := rfl }⟩

theorem runs_declare (name : Name) (type : TypeName) (value : Option Value) :
    C.Runs Eq (Exec.declare name type value) (Exec.declare name type value) :=
  C.runs_onStore fun s => s.declare_fresh name type value

theorem runs_assign (name : Name) (value : Value) :
    C.Runs Eq (Exec.assign name value) (Exec.assign name value) :=
  C.runs_onStore fun s => s.assign_fresh name value

theorem runs_readLine : C.Runs Eq Exec.readLine Exec.readLine := by
  intro m m' hm
  simp only [Exec.readLine, hm.console]
  exact ⟨.ok rfl, { hm with console := rfl }⟩

theorem runs_print (v : Value) : C.Runs Eq (Exec.print v) (Exec.print v) := by
  intro m m' hm
  simp only [Exec.print, hm.console]
  split
  · exact ⟨.ok rfl, { hm with console := rfl }⟩
  · exact ⟨.error (.stuck _), hm⟩

theorem runs_checkDepth (name : Name) :
    C.Runs Eq (Exec.checkDepth name) (Exec.checkDepth name) := by
  intro m m' hm
  simp only [Exec.checkDepth, hm.limit, hm.calls]
  split
  · exact ⟨.error (.fresh ⟨rfl, rfl⟩), hm⟩
  · exact ⟨.ok rfl, hm⟩

theorem runs_function (name : Name) :
    C.Runs C.Functions (Exec.function name) (Exec.function name) := by
  refine (C.runs_ofExcept (Store.checkName_fresh name)).bind_same fun _ => ?_
  intro m m' hm
  obtain ⟨h, h'⟩ | ⟨f, f', h, h', hf⟩ := hm.function?_cases name
  · simp only [h, h']
    exact ⟨.error (.fresh ⟨rfl, rfl⟩), hm⟩
  · simp only [h, h']
    exact ⟨.ok hf, hm⟩

theorem runs_checkFree (name : Name) : C.Runs Eq (Exec.checkFree name) (Exec.checkFree name) := by
  refine (C.runs_ofExcept (Store.checkName_fresh name)).bind_same fun _ => ?_
  intro m m' hm
  obtain ⟨h, h'⟩ | ⟨f, f', h, h', _⟩ := hm.function?_cases name
  · simp only [h, h']
    exact ⟨.ok rfl, hm⟩
  · simp only [h, h']
    exact ⟨.error (.fresh ⟨rfl, rfl⟩), hm⟩

theorem runs_register {f f' : Function} (h : C.Functions f f') :
    C.Runs Eq (Exec.register f) (Exec.register f') :=
  fun _ _ hm => ⟨.ok rfl, { hm with functions := List.rel_append hm.functions (.cons h .nil) }⟩

theorem runs_noteCall (name : Name) (vs : List Value) :
    C.Runs Eq (Exec.noteCall name vs) (Exec.noteCall name vs) := by
  unfold Exec.noteCall
  split
  · exact .stuck .malformed
  · exact C.runs_note _

theorem runs_bindAll (params : List Param) (vs : List Value) :
    C.Runs Eq (Exec.bindAll params vs) (Exec.bindAll params vs) := by
  induction params generalizing vs with
  | nil => exact .pure rfl
  | cons p ps ih =>
    cases vs with
    | nil => exact .pure rfl
    | cons v vs => exact (C.runs_declare p.name p.type (some v)).bind_same fun _ => ih vs

end Operations

end Counterparts

section Moved

variable (move : Pos → Pos)

theorem Exec.bindAll_moved (params : List Param) (vs : List Value) :
    bindAll (params.map (Param.moved move)) vs = bindAll params vs := by
  induction params generalizing vs with
  | nil => rfl
  | cons p ps ih =>
    cases vs with
    | nil => rfl
    | cons v vs =>
      simp only [List.map_cons, bindAll, ih]
      rfl

theorem Exec.conformAll_moved (function : Name) (index : Nat) (params : List Param)
    (vs : List Value) : conformAll function index (params.map (Param.moved move)) vs =
      conformAll function index params vs := by
  induction params generalizing index vs with
  | nil => rfl
  | cons p ps ih =>
    cases vs with
    | nil => rfl
    | cons v vs =>
      simp only [List.map_cons, conformAll, ih]
      rfl

end Moved

structure Evaluator.Carries (ev : Evaluator) (C : Counterparts) : Prop where
  eval {move : Pos → Pos} {e : Expr} :
    C.moves move (.eval e) → C.Runs Eq (ev.eval e) (ev.eval (e.moved move))
  exec {move : Pos → Pos} {s : Stmt} :
    C.moves move (.exec s) → C.Runs Eq (ev.exec s) (ev.exec (s.moved move))

namespace Evaluator.Carries

variable {ev : Evaluator} {move : Pos → Pos} (hev : ev.Carries C)

include hev

theorem all {es : List Expr} (h : ∀ e ∈ es, C.moves move (.eval e)) :
    C.Runs Eq (Exec.all ev.eval es) (Exec.all ev.eval (es.map (Expr.moved move))) := by
  induction es with
  | nil => exact .pure rfl
  | cons e es ih =>
    rw [List.forall_mem_cons] at h
    exact (hev.eval h.1).bind_same fun v => (ih h.2).bind_same fun vs => .pure rfl

theorem enter {f : Function} (h : C.moves move (.exec f.body)) (vs : List Value) :
    C.Runs Eq (Exec.enter ev.exec f vs) (Exec.enter ev.exec (f.moved move) vs) := by
  have hbody : C.Runs Eq (do Exec.bindAll f.params vs; ev.exec f.body)
      (do Exec.bindAll (f.moved move).params vs; ev.exec (f.moved move).body) := by
    simp only [Function.moved, Exec.bindAll_moved]
    exact (C.runs_bindAll f.params vs).bind_same fun _ => hev.exec h
  refine (C.runs_checkDepth f.name).bind_same fun _ => ?_
  refine (C.runs_noteCall f.name vs).bind_same fun _ => ?_
  refine (Counterparts.Runs.around .call (.around .scope hbody)).bind_same fun signal => ?_
  exact (C.runs_note _).bind_same fun _ => .pure rfl

theorem call (name : Name) {arguments : List Expr} (h : ∀ e ∈ arguments, C.moves move (.eval e)) :
    C.Runs Eq (Exec.call ev name arguments)
      (Exec.call ev name (arguments.map (Expr.moved move))) := by
  refine (C.runs_function name).bind fun f f' hf => ?_
  obtain ⟨move', hbody, rfl⟩ := hf
  refine (hev.all h).bind_same fun given => ?_
  simp only [Function.moved, List.length_map, Exec.conformAll_moved]
  split
  · refine (C.runs_ofExcept (Exec.conformAll_fresh f.name 1 f.params given)).bind_same fun vs => ?_
    exact hev.enter hbody vs
  · exact .fault _

theorem logical (op : LogicalOp) {left right : Expr} (hl : C.moves move (.eval left))
    (hr : C.moves move (.eval right)) :
    C.Runs Eq (Exec.logical op (ev.eval left) (ev.eval right))
      (Exec.logical op (ev.eval (left.moved move)) (ev.eval (right.moved move))) := by
  refine (hev.eval hl).bind_same fun a => ?_
  split
  · exact .pure rfl
  · exact .pure rfl
  · refine (hev.eval hr).bind_same fun b => ?_
    split
    · exact .pure rfl
    · exact .fault _
  · exact .fault _

theorem sequence {body : List Stmt} (h : ∀ s ∈ body, C.moves move (.exec s)) :
    C.Runs Eq (Exec.sequence ev.exec body)
      (Exec.sequence ev.exec (body.map (Stmt.moved move))) := by
  induction body with
  | nil => exact .pure rfl
  | cons s rest ih =>
    rw [List.forall_mem_cons] at h
    refine (hev.exec h.1).bind_same fun signal => ?_
    cases signal with
    | normal => exact ih h.2
    | broken | continued | returned v => exact .pure rfl

theorem condition (loop : Loop) {test : Expr} (h : C.moves move (.eval test)) (pos pos' : Pos) :
    C.Runs Eq (Exec.condition loop pos (ev.eval test))
      (Exec.condition loop pos' (ev.eval (test.moved move))) := by
  refine (hev.eval h).bind_same fun v => ?_
  split
  · exact .pure rfl
  · refine Counterparts.Runs.bind_same ?_ fun _ => .pure rfl
    exact C.runs_note_quoting rfl rfl

omit hev in
theorem iterate {test test' : Exec Bool} {body body' : Exec Signal} {next next' : Exec Unit}
    (htest : C.Runs Eq test test') (hbody : C.Runs Eq body body') (hnext : C.Runs Eq next next')
    (rounds : Nat) :
    C.Runs Eq (Exec.iterate test body next rounds) (Exec.iterate test' body' next' rounds) := by
  induction rounds with
  | zero => exact .fail .exhausted
  | succ rounds ih =>
    refine htest.bind_same fun b => ?_
    split
    · refine hbody.bind_same fun signal => ?_
      split
      · exact .pure rfl
      · exact .pure rfl
      · exact hnext.bind_same fun _ => ih
    · exact .pure rfl

theorem branch {test : Expr} {yes : Stmt} {no : Option Stmt} (ht : C.moves move (.eval test))
    (hy : C.moves move (.exec yes)) (hn : ∀ s ∈ no, C.moves move (.exec s)) :
    C.Runs Eq (Exec.branch ev test yes no)
      (Exec.branch ev (test.moved move) (yes.moved move) (no.map (Stmt.moved move))) := by
  refine (hev.eval ht).bind_same fun v => ?_
  split
  · refine (C.runs_note _).bind_same fun _ => ?_
    split
    · exact hev.exec hy
    · cases no with
      | none => exact .pure rfl
      | some s => exact hev.exec (hn s rfl)
  · exact .fault _

theorem declareVariable (type : TypeName) (name : Name) {initial : Option Expr}
    (h : ∀ e ∈ initial, C.moves move (.eval e)) :
    C.Runs Eq (Exec.declareVariable ev type name initial)
      (Exec.declareVariable ev type name (initial.map (Expr.moved move))) := by
  have hrest : ∀ value, C.Runs Eq
      (do
        let var ← Exec.declare name type value
        Exec.note (.declared type name var.value)
        pure Signal.normal)
      (do
        let var ← Exec.declare name type value
        Exec.note (.declared type name var.value)
        pure Signal.normal) := fun value =>
    (C.runs_declare name type value).bind_same fun var =>
      (C.runs_note _).bind_same fun _ => .pure rfl
  cases initial with
  | none => exact hrest none
  | some e =>
    have he : C.Runs Eq (some <$> ev.eval e) (some <$> ev.eval (e.moved move)) :=
      (hev.eval (h e rfl)).bind_same fun v => .pure rfl
    exact he.bind_same hrest

omit hev in
theorem define (name : Name) (params : List Param) {body : Stmt} (h : C.moves move (.exec body)) :
    C.Runs Eq (Exec.define name params body)
      (Exec.define name (params.map (Param.moved move)) (body.moved move)) := by
  refine (C.runs_checkFree name).bind_same fun _ => ?_
  have hf : C.Functions ⟨name, params, body⟩ (Function.moved move ⟨name, params, body⟩) :=
    ⟨move, h, rfl⟩
  refine (C.runs_register hf).bind_same fun _ => ?_
  have hall : (params.map (Param.moved move)).all (·.type.isText) =
      params.all (·.type.isText) := by
    rw [List.all_map]
    rfl
  have htypes : (params.map (Param.moved move)).map (·.type) = params.map (·.type) := by
    rw [List.map_map]
    rfl
  rw [hall, htypes]
  split
  · exact Counterparts.Runs.bind_same (.stuck .malformed) fun _ =>
      (C.runs_note _).bind_same fun _ => .pure rfl
  · exact (C.runs_note _).bind_same fun _ => .pure rfl

theorem evalStep (law : C.Kept) {e : Expr} (h : C.moves move (.eval e)) :
    C.Runs Eq (Exec.evalStep ev e) (Exec.evalStep ev (e.moved move)) := by
  have hpart : ∀ {d : Expr}, .eval d ∈ (Task.eval e).parts → C.moves move (.eval d) :=
    fun hd => law.part h hd
  cases e with
  | literal pos l =>
    cases l with
    | integer n => exact C.runs_ofExcept (Value.ofLiteral_fresh n)
    | decimal | text | truth | foreign => exact .pure rfl
  | name pos name =>
    refine (C.runs_lookup name).bind_same fun var => ?_
    split
    · exact .pure rfl
    · exact .fault _
  | assign pos name value =>
    exact (hev.eval (hpart (by simp [Task.parts]))).bind_same fun v => C.runs_assign name v
  | logical pos op left right =>
    exact hev.logical op (hpart (by simp [Task.parts])) (hpart (by simp [Task.parts]))
  | binary pos op left right =>
    refine (hev.eval (hpart (by simp [Task.parts]))).bind_same fun a => ?_
    refine (hev.eval (hpart (by simp [Task.parts]))).bind_same fun b => ?_
    exact C.runs_ofExcept (Value.binary_fresh op a b)
  | unary pos op operand =>
    refine (hev.eval (hpart (by simp [Task.parts]))).bind_same fun v => ?_
    exact C.runs_ofExcept (Value.unary_fresh op v)
  | call pos function arguments =>
    rw [Expr.moved, Expr.movedAll_eq]
    exact hev.call function fun d hd => hpart (List.mem_map_of_mem hd)
  | read pos => exact C.runs_readLine.bind_same fun line => .pure rfl
  | stuck why => exact .stuck why

theorem execStep (law : C.Kept) (rounds : Nat) {s : Stmt} (h : C.moves move (.exec s)) :
    C.Runs Eq (Exec.execStep rounds ev s) (Exec.execStep rounds ev (s.moved move)) := by
  have hexpr : ∀ {e : Expr}, .eval e ∈ (Task.exec s).parts → C.moves move (.eval e) :=
    fun he => law.part h he
  have hstmt : ∀ {t : Stmt}, .exec t ∈ (Task.exec s).parts → C.moves move (.exec t) :=
    fun ht => law.part h ht
  cases s with
  | declare pos type name initial =>
    refine hev.declareVariable type name fun e he => hexpr ?_
    exact Task.mem_optional.mpr ⟨e, he, rfl⟩
  | function pos name params body => exact define name params (hstmt (by simp [Task.parts]))
  | unusable pos name why => exact (C.runs_checkFree name).bind_same fun _ => .stuck why
  | block pos body =>
    rw [Stmt.moved, Stmt.movedAll_eq]
    exact .around .scope (hev.sequence fun t ht => hstmt (List.mem_map_of_mem ht))
  | branch pos test yes no =>
    rw [Stmt.moved_branch]
    refine hev.branch (hexpr (by simp [Task.parts])) (hstmt (by simp [Task.parts])) ?_
    intro t ht
    exact hstmt (by simpa [Task.parts] using .inr ht)
  | whileLoop pos test body =>
    have htest := hev.condition .whileLoop (hexpr (e := test) (by simp [Task.parts])) test.pos
      (test.moved move).pos
    exact iterate htest (hev.exec (hstmt (by simp [Task.parts]))) (.pure rfl) rounds
  | forLoop pos initial test update body =>
    have htest := hev.condition .forLoop (hexpr (e := test) (by simp [Task.parts])) test.pos
      (test.moved move).pos
    have hupdate := hev.eval (hexpr (e := update) (by simp [Task.parts]))
    refine .around .scope ((hev.exec (hstmt (by simp [Task.parts]))).bind_same fun _ => ?_)
    exact iterate htest (hev.exec (hstmt (by simp [Task.parts])))
      (hupdate.bind_same fun _ => .pure rfl) rounds
  | returns pos value =>
    cases value with
    | none => exact .pure rfl
    | some e => exact (hev.eval (hexpr (by simp [Task.parts]))).bind_same fun v => .pure rfl
  | print pos value =>
    refine (hev.eval (hexpr (by simp [Task.parts]))).bind_same fun v => ?_
    exact (C.runs_print v).bind_same fun _ => .pure rfl
  | breaks pos => exact .pure rfl
  | continues pos => exact .pure rfl
  | expr pos value =>
    exact (hev.eval (hexpr (by simp [Task.parts]))).bind_same fun _ => .pure rfl
  | stuck why => exact .stuck why

end Evaluator.Carries

theorem Evaluator.carries_upTo (law : C.Kept) (fuel : Nat) : (upTo fuel).Carries C := by
  induction fuel with
  | zero => exact ⟨fun _ => .fail .exhausted, fun _ => .fail .exhausted⟩
  | succ fuel ih =>
    exact ⟨fun h => (ih.evalStep law h).located (law.placed h),
      fun h => (ih.execStep law fuel h).located (law.placed h)⟩

theorem runBody_moved (law : C.Kept) {move : Pos → Pos} (fuel : Nat) {body : List Stmt}
    (h : ∀ s ∈ body, C.moves move (.exec s)) :
    C.Runs Eq (runBody (exec fuel) body) (runBody (exec fuel) (body.map (Stmt.moved move))) := by
  induction body with
  | nil => exact .pure rfl
  | cons s rest ih =>
    rw [List.forall_mem_cons] at h
    refine ((Evaluator.carries_upTo law fuel).exec h.1).bind_same fun signal => ?_
    cases signal with
    | normal => exact ih h.2
    | broken | continued | returned v => exact C.runs_note_quoting rfl rfl

theorem runTraced_moved (law : C.Kept) {move : Pos → Pos} (fuel : Nat) {body : List Stmt}
    (h : ∀ s ∈ body, C.moves move (.exec s)) :
    C.Runs Eq (runTraced (exec fuel) body)
      (runTraced (exec fuel) (body.map (Stmt.moved move))) :=
  .around .tracing ((runBody_moved law fuel h).bind_same fun _ => C.runs_note _)

end Guion
