import Guion.Proofs.Likeness
import Guion.Proofs.Reports

namespace Guion

/-- Two traces of the same run: the second one has what the first one has up to its level. -/
structure Trace.Nested (high low : Int) (t t' : Trace) : Prop where
  loud : t.verbosity = high
  quiet : t'.verbosity = low
  lacking : t'.lacking = t.lacking
  sink : t'.sink = t.sink
  entries : t'.entries = t.entries.filter (·.2.level ≤ low)

theorem Trace.note_reported {t : Trace} {event : Event} (h : event.level ≤ t.verbosity) :
    t.note event = { t with entries := (t.sink, event) :: t.entries } := if_pos h

theorem Trace.note_ignored {t : Trace} {event : Event} (h : t.verbosity < event.level) :
    t.note event = t := if_neg (by omega)

namespace Trace.Nested

variable {high low : Int} {t t' : Trace}

theorem note (hle : low ≤ high) (event : Event) (h : t.Nested high low t') :
    (t.note event).Nested high low (t'.note event) := by
  obtain ⟨rfl, rfl, hlacking, hsink, hentries⟩ := h
  by_cases hlow : event.level ≤ t'.verbosity
  · rw [note_reported hlow, note_reported (by omega)]
    refine ⟨rfl, rfl, hlacking, hsink, ?_⟩
    simp [hlow, hsink, hentries]
  · rw [note_ignored (t := t') (by omega)]
    by_cases hhigh : event.level ≤ t.verbosity
    · rw [note_reported hhigh]
      refine ⟨rfl, rfl, hlacking, hsink, ?_⟩
      simp [hlow, hentries]
    · rw [note_ignored (by omega)]
      exact ⟨rfl, rfl, hlacking, hsink, hentries⟩

theorem refuses (hle : low ≤ high) (event : Event) (h : t.Nested high low t') :
    t'.refuses event = t.refuses event ∨ t.refuses event = true := by
  obtain ⟨rfl, rfl, hlacking, _, _⟩ := h
  by_cases hlow : event.level ≤ t'.verbosity
  · have hhigh : event.level ≤ t.verbosity := by omega
    exact .inl (by simp only [Trace.refuses, hlacking, hlow, hhigh])
  · cases hrefuses : t.refuses event with
    | true => exact .inr rfl
    | false => exact .inl (by simp [Trace.refuses, hlow])

theorem close (h : t.Nested high low t') : t.close.Nested high low t'.close :=
  ⟨h.loud, h.quiet, h.lacking, rfl, h.entries⟩

end Trace.Nested

/-- Machines of which the second one reports less, and that differ in nothing else. What the first
one cannot write is excused. -/
def softer (high low : Int) : Likeness where
  store _ s s' := s' = s
  limit _ a b := a = b
  trace := Trace.Nested high low
  quiet := false
  excused e := e = .unwritten

theorem softer_kept {high low : Int} (hle : low ≤ high) : (softer high low).Kept where
  store := Store.congruence_eq false
  limit := .inl
  refuses event h := (h.refuses hle event).imp_right fun hrefuses => ⟨hrefuses, rfl⟩
  note event h := h.note hle event
  close h := h.close
  located := by
    intro cause place h
    cases h

/-- The answers to requests one after the other, each with the machine that it leaves. -/
def Machine.session (fuel : Nat) : Machine → List Request → List (Answer × Machine)
  | _, [] => []
  | m, r :: rest => m.serve fuel r :: (m.serve fuel r).2.session fuel rest

/-- No request of a session fails for a message that cannot be written. -/
def AllWritten (answers : List (Answer × Machine)) : Prop :=
  ∀ a ∈ answers, a.1.failure? ≠ some .unwritten

theorem Machine.session_like {high low : Int} (hle : low ≤ high) (fuel : Nat) {m m' : Machine}
    (h : m.Like (softer high low) 0 m') (requests : List Request)
    (hw : AllWritten (m.session fuel requests)) :
    List.Forall₂ (fun a b => b.1 = a.1 ∧ a.2.Like (softer high low) 0 b.2)
      (m.session fuel requests) (m'.session fuel requests) := by
  induction requests generalizing m m' with
  | nil => exact .nil
  | cons r rest ih =>
    obtain ⟨hfirst, hrest⟩ := List.forall_mem_cons.mp hw
    obtain ⟨hanswer, hlike⟩ := serve_like (softer_kept hle) rfl fuel r h fun e he hunwritten =>
      hfirst (hunwritten ▸ he)
    exact .cons ⟨hanswer, hlike⟩ (ih hlike hrest)

theorem Machine.session_written (fuel : Nat) {m : Machine} (hm : m.trace.Takes)
    (requests : List Request) : AllWritten (m.session fuel requests) := by
  induction requests generalizing m with
  | nil => exact fun _ h => nomatch h
  | cons r rest ih =>
    have hserve : reporting.machine (m.serve fuel r).2 ∧
        ∀ e, (m.serve fuel r).1.failure? = some e → reporting.failure e :=
      r.within_reporting.serve reporting_kept hm
    exact List.forall_mem_cons.mpr ⟨fun h => hserve.2 _ h rfl, ih hserve.1⟩

/-- Reporting changes nothing but the reports, as long as they can be written. Whatever is asked of
two machines that start with different verbosities, both give the same answer to every request and
then agree in all but the trace, and the quieter one has reported, in the same order and to the same
places, exactly what the louder one has reported up to its level; unless a request fails on the
louder one for a message that cannot be written. No request does where all characters can be
written, or where the louder one reports nothing that quotes any. -/
theorem verbosity_transparent {low high : Int} (hle : low ≤ high) (fuel : Nat) (console : Console)
    (limit : Int) (stack : Stack) (lacking : List Char) (requests : List Request) :
    (AllWritten ((Machine.start console high limit stack lacking).session fuel requests) →
      List.Forall₂
        (fun loud quiet => quiet.1 = loud.1 ∧ loud.2.Agrees quiet.2 ∧
          quiet.2.trace.entries = loud.2.trace.entries.filter (·.2.level ≤ low))
        ((Machine.start console high limit stack lacking).session fuel requests)
        ((Machine.start console low limit stack lacking).session fuel requests)) ∧
      (lacking = [] ∨ high < 2 →
        AllWritten ((Machine.start console high limit stack lacking).session fuel requests)) := by
  have hstart : (Machine.start console high limit stack lacking).Like (softer high low) 0
      (.start console low limit stack lacking) :=
    ⟨rfl, rfl, rfl, rfl, rfl, rfl, ⟨rfl, rfl, rfl, rfl, rfl⟩⟩
  refine ⟨fun hw => ?_, fun h =>
    Machine.session_written (m := .start console high limit stack lacking) fuel h requests⟩
  refine (Machine.session_like hle fuel hstart requests hw).imp ?_
  rintro a b ⟨hanswer, hlike⟩
  exact ⟨hanswer, ⟨hlike.store, hlike.functions, hlike.calls, hlike.limit.symm, hlike.stack,
    hlike.console⟩, hlike.trace.entries⟩

/-- A run that fails in a call reports the call to the louder machine only, and what comes after it
goes to the screen on both. -/
theorem verbosity_transparent_failing :
    ∃ p, parse "f() \x7b retornar 1 / 0; \x7d f();" = .ok p ∧ (1 : Int) ≤ 3 ∧
      AllWritten ((Machine.start (.stream "") 3 9).session 9 [.run p, .run ⟨.none, []⟩]) ∧
      List.Forall₂
        (fun loud quiet => quiet.1 = loud.1 ∧ loud.2.Agrees quiet.2 ∧
          quiet.2.trace.entries = loud.2.trace.entries.filter (·.2.level ≤ 1))
        ((Machine.start (.stream "") 3 9).session 9 [.run p, .run ⟨.none, []⟩])
        ((Machine.start (.stream "") 1 9).session 9 [.run p, .run ⟨.none, []⟩]) ∧
      ((Machine.start (.stream "") 3 9).session 9 [.run p, .run ⟨.none, []⟩]).map
          (·.2.trace.entries.reverse) =
        [[(.file, .started 2), (.file, .defined "f" []), (.file, .called "f" [])],
          [(.file, .started 2), (.file, .defined "f" []), (.file, .called "f" []),
            (.screen, .started 0), (.screen, .finished)]] := by
  have hp : parse "f() \x7b retornar 1 / 0; \x7d f();" = .ok ⟨Mark.pos ⟨1, 1⟩,
      [.function (Mark.pos ⟨1, 1⟩) "f" [] (.block (Mark.pos ⟨1, 5⟩)
        [.returns (Mark.pos ⟨1, 7⟩) (some (.binary (Mark.pos ⟨1, 16⟩) .div
          (.literal (Mark.pos ⟨1, 16⟩) (.integer (.int 1)))
          (.literal (Mark.pos ⟨1, 20⟩) (.integer (.int 0)))))]),
        .expr (Mark.pos ⟨1, 25⟩) (.call (Mark.pos ⟨1, 25⟩) "f" [])]⟩ := by rfl
  obtain ⟨hsame, hwritten⟩ :=
    @verbosity_transparent 1 3 (by decide) 9 (.stream "") 9 {} [] _
  exact ⟨_, hp, by decide, hwritten (.inl rfl), hsame (hwritten (.inl rfl)), by decide +kernel⟩

/-- A line that is read and cannot be written stops the run that reports the variable, and no
other. -/
example :
    let console : Console := .stream "\x7f"
    let body : List Stmt := [.declare .none (.known .cadena) "s" (some (.read .none))]
    (run 9 ⟨.none, body⟩ (.start console 2 9 {} ['\x7f'])).1 = .error .unwritten ∧
      (run 9 ⟨.none, body⟩ (.start console 1 9 {} ['\x7f'])).1 = .ok () := by
  decide +kernel

end Guion
