import Guion.Proofs.Grammar.Parsing
import Guion.Proofs.Plan.Stack
import Guion.Proofs.Sound.Steps

namespace Guion

/-- Every step into a construct read from text keeps machines sound. -/
theorem regular_kept {failure : Failure → Prop} (hw : ∀ e, e.Worded → failure e)
    (hu : failure .unwritten) (hr : failure (.stuck .remainderOfInfinity))
    (hl : ∀ cause place, failure (.fault cause none) → failure (.fault cause place)) :
    (regular failure).Kept where
  move operation m h hm := Move.run_fulfils hw hu operation m h hm
  enter := Bracket.enter_sound
  leave := Bracket.leave_sound
  plan fuel t ht := by
    cases t with
    | eval e => exact Plan.eval_meets hw ht fun _ _ _ _ _ => hr
    | exec s => exact Plan.exec_meets hw fuel ht
  exhausted := hw _ trivial
  located := hl

/-- The ways in which a construct read from text may fail. -/
def Failure.Proper (e : Failure) : Prop :=
  e.Worded ∨ e = .unwritten ∨ e = .stuck .remainderOfInfinity

def Failure.Refusal (e : Failure) : Prop :=
  e = .stuck .noStack ∨ e = .stuck .hugeStack ∨ e = .stuck .deepStack

/-- The ways in which a program read from text may fail: as its constructs, or for the stack. -/
def Failure.Expected (e : Failure) : Prop :=
  e.Proper ∨ e.Refusal

theorem Failure.Proper.place {cause : Fault} (h : Proper (.fault cause none)) (place : Option Pos) :
    Proper (.fault cause place) := by
  obtain h | h | h := h
  · exact .inl h
  · cases h
  · cases h

theorem proper_kept : (regular Failure.Proper).Kept :=
  regular_kept (fun _ h => .inl h) (.inr (.inl rfl)) (.inr (.inr rfl))
    fun _ place h => h.place place

theorem expected_kept : (regular Failure.Expected).Kept := by
  refine regular_kept (fun _ h => .inl (.inl h)) (.inl (.inr (.inl rfl)))
    (.inl (.inr (.inr rfl))) ?_
  rintro cause place (h | h | h | h)
  · exact .inl (h.place place)
  · cases h
  · cases h
  · cases h

namespace Request

/-- A request with programs, or parts of programs, that were read from text. -/
def IsParsed : Request → Prop
  | run p => ∃ source, parse source = .ok p
  | evaluate e => ∃ source p, parse source = .ok p ∧ p.Contains (.eval e)
  | execute body => ∀ s ∈ body, ∃ source p, parse source = .ok p ∧ p.Contains (.exec s)

/-- A request with constructs that a text can contain. -/
def Written : Request → Prop
  | run p => p.Written
  | evaluate e => e.Written
  | execute body => ∀ s ∈ body, s.Written

variable {r : Request} {fuel : Nat} {m : Machine}

theorem program_meets {p : Program} (hp : p.Written) :
    (Plan.program p).Meets (regular Failure.Expected) fun _ => True :=
  Plan.program_meets hp (.inr (.inl rfl)) (.inr (.inr (.inl rfl))) (.inr (.inr (.inr rfl)))

theorem Written.within (h : r.Written) : r.Within (regular Failure.Expected) := by
  cases r with
  | run p => exact program_meets h
  | evaluate e => exact h
  | execute body => exact h

theorem IsParsed.written (h : r.IsParsed) : r.Written := by
  cases r with
  | run p =>
    obtain ⟨source, hp⟩ := h
    exact parse_written hp
  | evaluate e =>
    obtain ⟨source, p, hp, hc⟩ := h
    exact (parse_written hp).contains hc
  | execute body =>
    intro s hs
    obtain ⟨source, p, hp, hc⟩ := h s hs
    exact (parse_written hp).contains hc

theorem turn_within {body : List Stmt} (hb : ∀ s ∈ body, s.Written) (hm : m.Sound) {u : Task}
    {m' : Machine} (h : Turn fuel body m u m') : u.Written ∧ m'.Sound := by
  induction body generalizing m with
  | nil => exact h.elim
  | cons s rest ih =>
    have hs : Task.Written (.exec s) := hb s List.mem_cons_self
    obtain ⟨rfl, rfl⟩ | ⟨signal, n, he, h⟩ := h
    · exact ⟨hs, hm⟩
    · have hn := ((Task.run_fulfils expected_kept fuel (.exec s) m hs hm).of_ok he).2
      exact ih (fun s' hs' => hb s' (List.mem_cons_of_mem s hs')) hn h

theorem starts_within (hr : r.Written) (hm : m.Sound) {u : Task} {m' : Machine}
    (h : r.Starts fuel m u m') : u.Written ∧ m'.Sound := by
  cases r with
  | run p =>
    exact Plan.asks_within expected_kept (Task.answers_upTo expected_kept fuel) _ (program_meets hr)
      m hm h
  | evaluate e =>
    obtain ⟨rfl, rfl⟩ := h
    exact ⟨hr, hm⟩
  | execute body => exact turn_within hr hm h

theorem reaches_within (hr : r.Written) (hm : m.Sound) {k : Nat} {u : Task} {m' : Machine}
    (h : r.Reaches fuel m k u m') : u.Written ∧ m'.Sound := by
  obtain ⟨t, n, hs, h⟩ := h
  obtain ⟨ht, hn⟩ := starts_within hr hm hs
  exact Task.reaches_within expected_kept ht hn h

theorem serve_sound (hr : r.Written) (hm : m.Sound) : (m.serve fuel r).2.Sound :=
  (hr.within.serve expected_kept hm).1

theorem passes_within (hr : r.Written) (hm : m.Sound) {q : Machine} (h : r.Passes fuel m q) :
    q.Sound := by
  obtain (rfl | rfl | h) | ⟨k, u, m', h, hv⟩ := h
  · exact hm
  · exact serve_sound hr hm
  · cases r with
    | run p =>
      exact Plan.visits_within expected_kept (Task.answers_upTo expected_kept fuel) _
        (program_meets hr) m hm h
    | evaluate e => exact h.elim
    | execute body => exact h.elim
  · obtain ⟨hu, hm'⟩ := reaches_within hr hm h
    exact Task.visits_within expected_kept hu hm' hv

end Request

/-- The machines that sessions come to, whatever failed on the way, also for want of stack. -/
inductive Machine.Reachable : Machine → Prop where
  | start (console : Console) (verbosity limit : Int) (stack : Stack := {})
    (lacking : List Char := []) : Reachable (.start console verbosity limit stack lacking)
  | serve {m : Machine} {r : Request} (fuel : Nat) :
    Reachable m → r.IsParsed → Reachable (m.serve fuel r).2
  | serveOn {m : Machine} {r : Request} (frames : Frames) (fuel : Nat) :
    Reachable m → r.IsParsed → Reachable (m.serveOn frames fuel r).2

/-- What a contract says of machines holds of all that sessions come to. -/
theorem Machine.Reachable.within {C : Contract} (law : C.Kept) {m : Machine} (h : m.Reachable)
    (hstart : ∀ console verbosity limit stack lacking,
      C.machine (.start console verbosity limit stack lacking))
    (hparsed : ∀ r : Request, r.IsParsed → r.Within C) : C.machine m := by
  induction h with
  | start => exact hstart _ _ _ _ _
  | serve fuel _ hr ih => exact ((hparsed _ hr).serve law ih).1
  | serveOn frames fuel _ hr ih => exact (hparsed _ hr).serveOn law ih

theorem Machine.Reachable.sound {m : Machine} (h : m.Reachable) : m.Sound :=
  h.within expected_kept
    (fun _ _ _ _ _ => ⟨⟨fun _ h => (nomatch h), fun _ h => (nomatch h)⟩, fun _ h => (nomatch h)⟩)
    fun _ hr => hr.written.within

/-- Type soundness of sessions: at every point of every request every variable holds a value of its
declared type, or none, and every value and signal that a construct gives is in range. -/
theorem session_typed {m : Machine} (hm : m.Reachable) (fuel : Nat) {r : Request}
    (hr : r.IsParsed) :
    (∀ q, r.Passes fuel m q → q.store.Sound) ∧
      ∀ k u m', r.Reaches fuel m k u m' → ∀ a, (u.run k m').1 = .ok a → u.Regular a := by
  refine ⟨fun q hq => (Request.passes_within hr.written hm.sound hq).store, ?_⟩
  intro k u m' h a ha
  obtain ⟨hu, hm'⟩ := Request.reaches_within hr.written hm.sound h
  exact (Task.run_fulfils expected_kept k u m' hu hm').result a ha

/-- A sum beyond the range of its type is stored wrapped. -/
theorem session_typed_wrapped :
    ∃ p, parse "entero x = 2147483647 + 1;" = .ok p ∧
      (Machine.start (.stream "") 0 1000).Reachable ∧ (Request.run p).IsParsed ∧
      ((Machine.start (.stream "") 0 1000).serve 9 (.run p)).2.store.globals.map (·.2) =
        [⟨.known .entero, .entero (-2147483648), true⟩] ∧
      (∀ q, (Request.run p).Passes 9 (.start (.stream "") 0 1000) q → q.store.Sound) ∧
      ∀ k u m', (Request.run p).Reaches 9 (.start (.stream "") 0 1000) k u m' →
        ∀ a, (u.run k m').1 = .ok a → u.Regular a := by
  have hp : parse "entero x = 2147483647 + 1;" = .ok ⟨Mark.pos ⟨1, 1⟩,
      [.declare (Mark.pos ⟨1, 1⟩) (.known .entero) "x"
        (some (.binary (Mark.pos ⟨1, 12⟩) .add
          (.literal (Mark.pos ⟨1, 12⟩) (.integer (.int 2147483647)))
          (.literal (Mark.pos ⟨1, 25⟩) (.integer (.int 1)))))]⟩ := by rfl
  have hm : (Machine.start (.stream "") 0 1000).Reachable := .start _ _ _
  exact ⟨_, hp, hm, ⟨_, hp⟩, by rfl, session_typed hm 9 ⟨_, hp⟩⟩

end Guion
