import Guion.Proofs.Likeness
import Guion.Proofs.Plan.Moves
import Guion.Proofs.Plan.Parts

namespace Guion

/-- A property of computations on machines that passes from computations to what is made of them. -/
structure Exec.Composes (Q : {α : Type} → Exec α → Machine → Prop) : Prop where
  pure : ∀ {α : Type} (a : α) (m : Machine), Q (Pure.pure a : Exec α) m
  fail : ∀ {α : Type} (e : Failure) (m : Machine), Q (Exec.fail e : Exec α) m
  bind : ∀ {α β : Type} {x : Exec α} {f : α → Exec β} {m : Machine}, Q x m →
    (∀ a n, x m = (.ok a, n) → Q (f a) n) → Q (x >>= f) m
  around : ∀ {α : Type} {x : Exec α} {m : Machine} (b : Bracket), Q x (b.enter m) →
    Q (b.around x) m
  located : ∀ {α : Type} {x : Exec α} {m : Machine} (pos : Pos), Q x m →
    Q (Exec.located pos x) m

section Composes

variable {Q : {α : Type} → Exec α → Machine → Prop} {C : Contract} (hQ : Exec.Composes Q)
  (law : C.Kept) (hmove : ∀ {α : Type} (operation : Move α) (m : Machine), C.requires operation →
    C.machine m → Q operation.run m)

include hQ law hmove

theorem Plan.run_composes {ev : Evaluator} (hfulfils : Plan.Answers C ev)
    (hev : ∀ t m, C.task t → C.machine m → Q (ev.answer t) m) {α : Type} (p : Plan α)
    {good : α → Prop} (hp : p.Meets C good) (m : Machine) (hm : C.machine m) :
    Q (p.run ev) m := by
  induction p generalizing m with
  | done a => exact hQ.pure a m
  | fail e => exact hQ.fail e m
  | move operation next ih =>
    refine hQ.bind (hmove operation m hp.1 hm) fun b n hr => ?_
    obtain ⟨hb, hn⟩ := (law.move operation m hp.1 hm).of_ok hr
    exact ih b (hp.2 b hb) n hn
  | ask t next ih =>
    refine hQ.bind (hev t m hp.1 hm) fun a n hr => ?_
    obtain ⟨ha, hn⟩ := (hfulfils t m hp.1 hm).of_ok hr
    exact ih a (hp.2 a ha) n hn
  | within bracket inner next ihi ih =>
    obtain ⟨mid, hi, hnext⟩ := hp
    have hin := law.enter bracket m hm
    refine hQ.bind (hQ.around bracket (ihi hi _ hin)) fun b n hr => ?_
    obtain ⟨hb, hn⟩ := ((run_fulfils law hfulfils inner hi _ hin).around law).of_ok hr
    exact ih b (hnext b hb) n hn

theorem Task.run_composes (fuel : Nat) (t : Task) (m : Machine) (ht : C.task t)
    (hm : C.machine m) : Q (t.run fuel) m := by
  induction fuel generalizing t m with
  | zero =>
    have hzero : t.run 0 = Exec.fail .exhausted := by cases t <;> rfl
    rw [hzero]
    exact hQ.fail _ m
  | succ fuel ih =>
    rw [run_succ]
    refine hQ.located t.pos ?_
    refine Plan.run_composes hQ law hmove (answers_upTo law fuel) (fun u n hu hn => ?_) _
      (law.plan fuel t ht) m hm
    rw [Evaluator.answer_upTo]
    exact ih u n hu hn

end Composes

/-- The name leads to none of the hidden variables. -/
structure Name.Apart (hidden : Name → Bool) (name : Name) : Prop where
  shown : hidden name = false
  agrees : ∀ key, hidden key = true → key.agrees name = false

/-- The variables of a frame under the names of a kind. -/
def Frame.only (keep : Name → Bool) (frame : Frame) : Frame :=
  frame.filter (keep ·.1)

/-- The variables of a store under the names of a kind, each in its frame. -/
def Store.only (keep : Name → Bool) (s : Store) : Store :=
  ⟨Frame.only keep s.globals, s.frames.map (Frame.only keep)⟩

def Machine.only (keep : Name → Bool) (m : Machine) : Machine :=
  { m with store := m.store.only keep }

def Machine.withStore (store : Store) (m : Machine) : Machine := { m with store }

theorem Machine.withStore_keepsCalls (store : Store) : KeepsCalls (withStore store) :=
  ⟨fun _ => rfl, fun _ => rfl, fun _ => rfl, fun _ => rfl, fun _ => rfl, fun _ _ => rfl⟩

section Apart

variable {hidden : Name → Bool} {name : Name} (h : name.Apart hidden)

include h

theorem Name.Apart.of_agrees {key : Name} (hkey : key.agrees name = true) :
    hidden key = false := by
  cases hk : hidden key with
  | false => rfl
  | true => rw [h.agrees key hk] at hkey; cases hkey

namespace Frame

theorem get?_only (frame : Frame) : (frame.only (!hidden ·)).get? name = frame.get? name := by
  have hsame : ∀ x : Name × Variable, (!hidden x.1 && x.1.agrees name) = x.1.agrees name := by
    intro x
    cases hx : x.1.agrees name with
    | false => exact Bool.and_false _
    | true => simp [h.of_agrees hx]
  simp only [get?, only, List.find?_filter, Bool.decide_and, Bool.decide_eq_true, hsame]

theorem set_only (var : Variable) (frame : Frame) :
    (frame.set name var).only (!hidden ·) = (frame.only (!hidden ·)).set name var := by
  induction frame with
  | nil => rfl
  | cons x rest ih =>
    obtain ⟨key, old⟩ := x
    by_cases hkey : key.agrees name = true
    · simp [set, only, hkey, h.of_agrees hkey]
    · rw [Bool.not_eq_true] at hkey
      cases hk : hidden key with
      | false => simpa [set, only, hkey, hk] using ih
      | true => simpa [set, only, hkey, hk] using ih

theorem set_hidden (var : Variable) (frame : Frame) :
    (frame.set name var).only hidden = frame.only hidden := by
  induction frame with
  | nil => rfl
  | cons x rest ih =>
    obtain ⟨key, old⟩ := x
    by_cases hkey : key.agrees name = true
    · simp [set, only, hkey, h.of_agrees hkey]
    · rw [Bool.not_eq_true] at hkey
      cases hk : hidden key with
      | false => simpa [set, only, hkey, hk] using ih
      | true => simpa [set, only, hkey, hk] using ih

end Frame

namespace Store

theorem find?_only (s : Store) : (s.only (!hidden ·)).find? name = s.find? name := by
  have hframe : (fun frame : Frame => frame.get? name) ∘ Frame.only (!hidden ·) =
      fun frame => frame.get? name := funext (Frame.get?_only h)
  simp only [find?, only, List.findSome?_map, hframe, Frame.get?_only h]

theorem current_only (s : Store) :
    ((s.only (!hidden ·)).current.get? name) = s.current.get? name := by
  obtain ⟨globals, _ | ⟨frame, rest⟩⟩ := s
  · exact Frame.get?_only h globals
  · exact Frame.get?_only h frame

theorem insert_only (var : Variable) (s : Store) :
    (s.insert name var).only (!hidden ·) = (s.only (!hidden ·)).insert name var := by
  obtain ⟨globals, _ | ⟨frame, rest⟩⟩ := s <;> simp [insert, only, Frame.only, h.shown]

theorem insert_hidden (var : Variable) (s : Store) :
    (s.insert name var).only hidden = s.only hidden := by
  obtain ⟨globals, _ | ⟨frame, rest⟩⟩ := s <;> simp [insert, only, Frame.only, h.shown]

theorem set_only (var : Variable) (s : Store) :
    (s.set name var).only (!hidden ·) = (s.only (!hidden ·)).set name var := by
  obtain ⟨globals, frames⟩ := s
  induction frames with
  | nil => simp [set, setIn, only, Frame.set_only h]
  | cons frame rest ih =>
    simp only [set, only] at ih
    simp only [set, setIn, only, List.map_cons, Frame.get?_only h]
    split
    · simp [Frame.set_only h]
    · rw [← ih]
      rfl

theorem set_hidden (var : Variable) (s : Store) : (s.set name var).only hidden = s.only hidden := by
  obtain ⟨globals, frames⟩ := s
  induction frames with
  | nil => simp [set, setIn, only, Frame.set_hidden h]
  | cons frame rest ih =>
    simp only [set, only, Store.mk.injEq] at ih
    simp only [set, setIn, only]
    split
    · simp [Frame.set_hidden h]
    · simp [ih]

end Store

namespace Store

/-- An operation on a store came to the same without the hidden variables, and it has done nothing
to these. -/
structure Spares (hidden : Name → Bool) (s : Store) {α : Type} (r r' : Except Failure α × Store) :
    Prop where
  result : r'.1 = r.1
  only : r'.2 = r.2.only (!hidden ·)
  kept : r.2.only hidden = s.only hidden

theorem lookup_only (s : Store) : (s.only (!hidden ·)).lookup name = s.lookup name :=
  lookup_congr (find?_only h s)

theorem declare_spares (type : TypeName) (value : Option Value) (s : Store) :
    Spares hidden s (s.declare name type value)
      ((s.only (!hidden ·)).declare name type value) := by
  have hdeclared : (s.only (!hidden ·)).declared name type value = s.declared name type value := by
    simp only [declared, current_only h]
  simp only [declare, hdeclared]
  split
  · exact ⟨rfl, (insert_only h _ s).symm, insert_hidden h _ s⟩
  · exact ⟨rfl, rfl, rfl⟩

theorem assign_spares (v : Value) (s : Store) :
    Spares hidden s (s.assign name v) ((s.only (!hidden ·)).assign name v) := by
  have hassigned : (s.only (!hidden ·)).assigned name v = s.assigned name v := by
    simp only [assigned, lookup_only h]
  simp only [assign, hassigned]
  split
  · exact ⟨rfl, (set_only h _ s).symm, set_hidden h _ s⟩
  · exact ⟨rfl, rfl, rfl⟩

end Store

end Apart

namespace Bracket

variable {m n : Machine}

theorem enter_only (b : Bracket) (keep : Name → Bool) (m : Machine) :
    b.enter (m.only keep) = (b.enter m).only keep := by
  cases b <;> rfl

theorem leave_only (b : Bracket) (keep : Name → Bool) (m : Machine) :
    b.leave (m.only keep) = (b.leave m).only keep := by
  cases b with
  | scope => simp [leave, Machine.only, Store.only, Store.closeScope, List.map_tail]
  | call => rfl
  | tracing => rfl

theorem leave_only_eq (b : Bracket) {keep : Name → Bool}
    (h : n.store.only keep = (b.enter m).store.only keep) :
    (b.leave n).store.only keep = m.store.only keep := by
  cases b with
  | scope =>
    have hclosed := congrArg Store.closeScope h
    simpa [enter, leave, Store.only, Store.closeScope, Store.openScope, List.map_tail] using hclosed
  | call => exact h
  | tracing => exact h

end Bracket

namespace Exec

variable {hidden : Name → Bool} {α β : Type}

/-- The computation does the same on `m` without the hidden variables, and leaves those as they
are. -/
structure Isolated (hidden : Name → Bool) {α : Type} (x : Exec α) (m : Machine) : Prop where
  only : x (m.only (!hidden ·)) = ((x m).1, (x m).2.only (!hidden ·))
  kept : (x m).2.store.only hidden = m.store.only hidden

theorem Isolated.bind {x : Exec α} {f : α → Exec β} {m : Machine} (hx : Isolated hidden x m)
    (hf : ∀ a n, x m = (.ok a, n) → Isolated hidden (f a) n) :
    Isolated hidden (x >>= f) m := by
  obtain ⟨honly, hkept⟩ := hx
  rcases hr : x m with ⟨e | a, n⟩ <;> rw [hr] at honly hkept
  · constructor
    · rw [Exec.bind_error honly, Exec.bind_error hr]
    · rw [Exec.bind_error hr]
      exact hkept
  · obtain ⟨hfonly, hfkept⟩ := hf a n hr
    constructor
    · rw [Exec.bind_ok honly, Exec.bind_ok hr]
      exact hfonly
    · rw [Exec.bind_ok hr, hfkept]
      exact hkept

theorem Isolated.around {x : Exec α} {m : Machine} (b : Bracket)
    (hx : Isolated hidden x (b.enter m)) : Isolated hidden (b.around x) m := by
  constructor
  · simp only [Bracket.around, b.enter_only, hx.only, b.leave_only]
  · exact b.leave_only_eq hx.kept

theorem isolated_composes (hidden : Name → Bool) : Composes (Isolated hidden) where
  pure a m := ⟨rfl, rfl⟩
  fail e m := ⟨rfl, rfl⟩
  bind hx hf := hx.bind hf
  around b hx := hx.around b
  located pos hx := by
    refine ⟨?_, ?_⟩
    · rw [located_apply, located_apply, hx.only]
    · rw [located_apply]
      exact hx.kept

theorem isolated_onStore {operation : Store → Except Failure α × Store} {m : Machine}
    (h : ∀ s, Store.Spares hidden s (operation s) (operation (s.only (!hidden ·)))) :
    Isolated hidden (onStore operation) m := by
  obtain ⟨hresult, honly, hkept⟩ := h m.store
  refine ⟨Prod.ext hresult ?_, hkept⟩
  simp only [onStore, Machine.only, honly]

theorem isolated_of_commutes {x : Exec α} (hx : ∀ store, Commutes (Machine.withStore store) x)
    (m : Machine) : Isolated hidden x m := by
  have hstore : (x m).2.store = m.store := congrArg (·.2.store) (hx m.store m)
  constructor
  · have honly : (x m).2.only (!hidden ·) =
        Machine.withStore (m.store.only (!hidden ·)) (x m).2 := by
      rw [Machine.only, hstore, Machine.withStore]
    rw [honly]
    exact hx (m.store.only (!hidden ·)) m
  · rw [hstore]

end Exec

/-- The names of variables that occur in a task, at any depth. -/
inductive Task.Mentions (name : Name) : Task → Prop where
  | here {t : Task} : name ∈ t.names → Mentions name t
  | inside {t u : Task} : u ∈ t.parts → Mentions name u → Mentions name t

/-- The names of variables that occur in the parameters or the body of a function. -/
def Function.Mentions (name : Name) (f : Function) : Prop :=
  name ∈ f.params.map Param.name ∨ (Task.exec f.body).Mentions name

/-- No name that occurs in the function leads to a hidden variable. -/
def Function.Apart (hidden : Name → Bool) (f : Function) : Prop :=
  ∀ name, f.Mentions name → name.Apart hidden

/-- The operations that touch no hidden variable and register functions of that kind only. -/
def Move.Apart (hidden : Name → Bool) : {α : Type} → Move α → Prop
  | _, lookup name => name.Apart hidden
  | _, declare name _ _ => name.Apart hidden
  | _, assign name _ => name.Apart hidden
  | _, register f => f.Apart hidden
  | _, _ => True

theorem Move.Apart.adds {hidden : Name → Bool} {α : Type} {operation : Move α}
    (h : operation.Apart hidden) : operation.Adds (Function.Apart hidden) := by
  cases operation with
  | register f => exact h
  | _ => trivial

theorem Move.run_isolated {hidden : Name → Bool} {α : Type} (operation : Move α) (m : Machine)
    (h : operation.Apart hidden) : Exec.Isolated hidden operation.run m := by
  cases operation with
  | lookup name => exact ⟨congrArg (·, _) (Store.lookup_only h m.store), rfl⟩
  | declare name type value =>
    exact Exec.isolated_onStore fun s => Store.declare_spares h type value s
  | assign name v => exact Exec.isolated_onStore fun s => Store.assign_spares h v s
  | readLine => exact ⟨rfl, rfl⟩
  | print v =>
    refine Exec.isolated_of_commutes (fun store n => ?_) m
    simp only [run, Exec.print, Machine.withStore]
    cases n.console.writeData? v.content <;> rfl
  | note event =>
    exact Exec.isolated_of_commutes
      (fun store => .note (Machine.withStore_keepsCalls store) event) m
  | function name =>
    exact Exec.isolated_of_commutes
      (fun store => .function (Machine.withStore_keepsCalls store) name) m
  | checkFree name =>
    exact Exec.isolated_of_commutes
      (fun store => .checkFree (Machine.withStore_keepsCalls store) name) m
  | register f =>
    refine Exec.isolated_of_commutes (fun store => ?_) m
    exact .bind (.checkFree (Machine.withStore_keepsCalls store) f.name) fun _ _ => rfl
  | checkDepth name =>
    exact Exec.isolated_of_commutes
      (fun store => .checkDepth (Machine.withStore_keepsCalls store) name) m
  | checkStack =>
    exact Exec.isolated_of_commutes
      (fun store => .checkStack (Machine.withStore_keepsCalls store)) m

def isolation (hidden : Name → Bool) : Contract where
  machine := Machine.Knows (Function.Apart hidden)
  requires := Move.Apart hidden
  ensures := Move.Finds (Function.Apart hidden)
  task t := ∀ name, t.Mentions name → name.Apart hidden
  answer _ _ := True
  failure _ := True

theorem isolation_open (hidden : Name → Bool) : (isolation hidden).Open where
  answer _ _ := trivial
  failure _ := trivial
  params hf p hp _ := hf p.name (.inl (List.mem_map_of_mem hp))
  body hf name hname := hf name (.inr hname)

theorem isolation_allows {hidden : Name → Bool} {t : Task} (ht : (isolation hidden).task t) :
    (isolation hidden).Allows t where
  move operation h := by
    cases operation with
    | lookup name | declare name _ _ | assign name _ => exact ht name (.here h)
    | register f =>
      obtain ⟨pos, rfl⟩ := h
      rintro name (hparam | hbody)
      · exact ht name (.here hparam)
      · exact ht name (.inside (Task.Defines.part ⟨pos, rfl⟩) hbody)
    | _ => trivial
  part u hu name hname := ht name (.inside hu hname)

theorem isolation_kept (hidden : Name → Bool) : (isolation hidden).Kept where
  move operation _ h hm :=
    ⟨operation.run_knows (Move.Apart.adds h) hm, fun _ hb => operation.run_finds hm hb,
      fun _ _ => trivial⟩
  enter b _ hm := b.enter_knows hm
  leave b _ hm := b.leave_knows hm
  plan fuel _ ht := Task.plan_allowed (isolation_open hidden) fuel (isolation_allows ht)
  exhausted := trivial
  located _ _ _ := trivial

/-- A task that mentions no hidden variable, itself or in the functions that can be called, runs as
if they were not there. -/
theorem Task.run_isolated {hidden : Name → Bool} (fuel : Nat) (t : Task) (m : Machine)
    (ht : ∀ name, t.Mentions name → name.Apart hidden)
    (hm : ∀ f ∈ m.functions, ∀ name, f.Mentions name → name.Apart hidden) :
    Exec.Isolated hidden (t.run fuel) m :=
  Task.run_composes (Exec.isolated_composes hidden) (isolation_kept hidden)
    (fun operation n h _ => operation.run_isolated n h) fuel t m ht hm

/-- Variables that nothing mentions do not matter. The store `s'` may hold others of them than that
of `m`, in any of its frames: the task comes to the same, leaves machines that differ in those
variables only, and leaves these as they were on either side. -/
theorem unmentioned_irrelevant (hidden : Name → Bool) (fuel : Nat) (t : Task) (m : Machine)
    (s' : Store) (ht : ∀ name, t.Mentions name → name.Apart hidden)
    (hm : ∀ f ∈ m.functions, ∀ name, f.Mentions name → name.Apart hidden)
    (hs : s'.only (!hidden ·) = m.store.only (!hidden ·)) :
    ∃ store', t.run fuel { m with store := s' } =
        ((t.run fuel m).1, { (t.run fuel m).2 with store := store' }) ∧
      store'.only (!hidden ·) = (t.run fuel m).2.store.only (!hidden ·) ∧
      (t.run fuel m).2.store.only hidden = m.store.only hidden ∧
      store'.only hidden = s'.only hidden := by
  have hfirst := t.run_isolated fuel m ht hm
  have hsecond := t.run_isolated fuel { m with store := s' } ht hm
  have hsame : Machine.only (!hidden ·) { m with store := s' } = m.only (!hidden ·) := by
    simp only [Machine.only, hs]
  have hboth := hsecond.only.symm.trans ((congrArg (t.run fuel) hsame).trans hfirst.only)
  rcases hr : t.run fuel m with ⟨r, n⟩
  rcases hr' : t.run fuel { m with store := s' } with ⟨r', n'⟩
  rw [hr, hr', Prod.mk.injEq] at hboth
  obtain ⟨rfl, honly⟩ := hboth
  simp only [Machine.only, Machine.mk.injEq] at honly
  obtain ⟨hshown, hfunctions, hcalls, hlimit, hconsole, htrace⟩ := honly
  refine ⟨n'.store, ?_, hshown, ?_, ?_⟩
  · simp only [← hfunctions, ← hcalls, ← hlimit, ← hconsole, ← htrace]
  · simpa [hr] using hfirst.kept
  · simpa [hr'] using hsecond.kept

theorem Name.apart_text {hidden s : String} (h : s ≠ hidden) :
    Name.Apart (· == .text hidden) s := by
  constructor
  · simpa using h
  · intro key hkey
    obtain rfl : key = .text hidden := by simpa using hkey
    simpa [Name.agrees] using h.symm

/-- A function that stores its argument in `y` is called. Of two variables `x` there is an `entero`
among the global ones of the first store, and a `cadena` in the innermost frame of the second. -/
theorem unmentioned_irrelevant_call :
    ∃ (m : Machine) (s' : Store) (store' : Store), s' ≠ m.store ∧
      (Task.eval (.call .none "f" [.name .none "y"])).run 4 { m with store := s' } =
        (.ok .null, { m with store := store' }) ∧
      ((Task.eval (.call .none "f" [.name .none "y"])).run 4 m).1 = .ok .null ∧
      store'.only (· == .text "x") = s'.only (· == .text "x") := by
  let f : Function := ⟨"f", [⟨.none, .known .entero, "n"⟩],
    .expr .none (.assign .none "y" (.name .none "n"))⟩
  let two : Variable := ⟨.known .entero, .entero 2, true⟩
  let m : Machine := { store := ⟨[("x", two), ("y", two)], [[]]⟩, functions := [f],
                       console := .stream "" }
  let s' : Store := ⟨[("y", two)], [[("x", ⟨.known .cadena, .cadena "a", true⟩)]]⟩
  have hname : ∀ name a, a ≠ "x" → (Task.eval (.name .none (.text a))).Mentions name →
      name.Apart (· == .text "x") := by
    rintro name a ha (h | ⟨hu, _⟩)
    · obtain rfl := List.mem_singleton.mp h
      exact Name.apart_text ha
    · cases hu
  have ht : ∀ name, (Task.eval (.call .none "f" [.name .none "y"])).Mentions name →
      name.Apart (· == .text "x") := by
    rintro name (h | ⟨hu, h⟩)
    · cases h
    · obtain rfl := List.mem_singleton.mp hu
      exact hname name "y" (by decide) h
  have hf : f.Apart (· == .text "x") := by
    rintro name (hparam | h | ⟨hu, h⟩)
    · obtain rfl := List.mem_singleton.mp hparam
      exact Name.apart_text (by decide)
    · cases h
    · obtain rfl := List.mem_singleton.mp hu
      obtain h | ⟨hu, h⟩ := h
      · obtain rfl := List.mem_singleton.mp h
        exact Name.apart_text (by decide)
      · obtain rfl := List.mem_singleton.mp hu
        exact hname name "n" (by decide) h
  have hm : ∀ g ∈ m.functions, ∀ name, g.Mentions name → name.Apart (· == .text "x") := by
    intro g hg
    obtain rfl := List.mem_singleton.mp hg
    exact hf
  obtain ⟨store', hrun, _, _, hkept⟩ :=
    unmentioned_irrelevant (· == .text "x") 4 _ m s' ht hm rfl
  have hfirst : (Task.eval (.call .none "f" [.name .none "y"])).run 4 m = (.ok .null, m) := by
    rfl
  rw [hfirst] at hrun
  exact ⟨m, s', store', by decide, hrun, congrArg Prod.fst hfirst, hkept⟩

end Guion
