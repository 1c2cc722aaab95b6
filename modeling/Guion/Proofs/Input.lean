import Guion.Proofs.Depth
import Guion.Proofs.Plan.Moves

namespace Guion

/-- An evaluation of `leer()`: the console that it finds and what it gives. -/
structure Reading where
  console : Console
  result : Except Failure Value

/-- The text not yet read goes on for a whole line and its end. -/
def Reading.Terminated (x : Reading) : Prop :=
  '\n' ∈ x.console.pending

instance (x : Reading) : Decidable x.Terminated :=
  inferInstanceAs (Decidable ('\n' ∈ x.console.pending))

namespace Plan

variable {α β : Type}

def follow (r : Except Failure β × Machine) (next : β → Machine → List Reading) : List Reading :=
  match r with
  | (.ok b, n) => next b n
  | (.error _, _) => []

/-- The evaluations of `leer()` in the tasks that a plan hands on, in their order. `log` tells those
of each task. -/
def readings (ev : Evaluator) (log : Task → Machine → List Reading) :
    {α : Type} → Plan α → Machine → List Reading
  | _, done _, _ => []
  | _, fail _, _ => []
  | _, move operation next, m =>
    follow (operation.run m) fun b n => (next b).readings ev log n
  | _, ask t next, m =>
    log t m ++ follow (ev.answer t m) fun a n => (next a).readings ev log n
  | _, within bracket inner next, m =>
    inner.readings ev log (bracket.enter m) ++
      follow (bracket.around (inner.run ev) m) fun b n => (next b).readings ev log n

end Plan

/-- The evaluations of `leer()` in a task, those in the functions that it calls included. -/
def Task.readings : Nat → Task → Machine → List Reading
  | 0, _, _ => []
  | fuel + 1, eval (.read pos), m => [⟨m.console, (Guion.eval (fuel + 1) (.read pos) m).1⟩]
  | fuel + 1, t, m => (t.plan fuel).readings (.upTo fuel) (readings fuel) m

/-- The evaluations of `leer()` in a run. -/
def Program.readings (fuel : Nat) (p : Program) (m : Machine) : List Reading :=
  (Plan.program p).readings (.upTo fuel) (Task.readings fuel) m

/-- The machine with another text yet to be read. -/
def Machine.awaiting (cs : List Char) (m : Machine) : Machine :=
  { m with console := { m.console with pending := cs } }

theorem Machine.awaiting_awaiting (cs cs' : List Char) (m : Machine) :
    (m.awaiting cs).awaiting cs' = m.awaiting cs' := rfl

theorem Machine.awaiting_self (m : Machine) : m.awaiting m.console.pending = m := rfl

def Machine.withConsole (console : Console) (m : Machine) : Machine := { m with console }

theorem Machine.withConsole_keepsCalls (console : Console) : KeepsCalls (withConsole console) :=
  ⟨fun _ => rfl, fun _ => rfl, fun _ => rfl, fun _ => rfl, fun _ => rfl, fun _ _ => rfl⟩

namespace Console

/-- What a line without its newline is read as. -/
def lineRead (channel : Channel) (line : List Char) : String :=
  match channel with
  | .stream => String.ofList (withoutReturn line)
  | .terminal => String.ofList line

theorem lineRead_eq {channel : Channel} {line : List Char} (h : channel = .stream ∨ '\r' ∉ line) :
    lineRead channel line = String.ofList (withoutReturn line) := by
  cases channel with
  | stream => rfl
  | terminal =>
    have hline : '\r' ∉ line := h.resolve_left nofun
    have hlast : line.getLast? ≠ some '\r' := fun hl => hline (List.mem_of_getLast? hl)
    rw [withoutReturn, if_neg hlast]
    rfl

/-- A text of lines, each with its newline. -/
def textOf (lines : List (List Char)) : List Char :=
  lines.flatMap (· ++ ['\n'])

@[simp]
theorem textOf_append (lines more : List (List Char)) :
    textOf (lines ++ more) = textOf lines ++ textOf more :=
  List.flatMap_append

theorem writeData?_awaiting (c : Console) (data : Tree) (cs : List Char) :
    writeData? { c with pending := cs } data =
      (c.writeData? data).map fun c' => { c' with pending := cs } := by
  obtain ⟨_ | _, pending, written⟩ := c <;> cases data <;> rfl

theorem writeData?_channel {c c' : Console} {data : Tree} (h : c.writeData? data = some c') :
    c'.channel = c.channel := by
  obtain ⟨_ | _, pending, written⟩ := c <;> cases data <;> cases h <;> rfl

theorem splitLine_append {line : List Char} (hline : '\n' ∉ line) (rest : List Char) :
    splitLine (line ++ '\n' :: rest) = (line, rest) := by
  have hkeep : ∀ c ∈ line, (c != '\n') = true := by
    intro c hc
    exact bne_iff_ne.mpr fun heq => hline (heq ▸ hc)
  simp [splitLine, List.takeWhile_append_of_pos hkeep, List.dropWhile_append_of_pos hkeep]

theorem splitLine_terminated {cs : List Char} (h : '\n' ∈ cs) :
    ∃ line rest, '\n' ∉ line ∧ cs = line ++ '\n' :: rest ∧
      ∀ more, splitLine (line ++ '\n' :: more) = (line, more) := by
  obtain ⟨line, rest, rfl, hline⟩ := List.eq_append_cons_of_mem h
  exact ⟨line, rest, hline, rfl, splitLine_append hline⟩

end Console

namespace Bracket

theorem enter_console (b : Bracket) (m : Machine) : (b.enter m).console = m.console := by
  cases b <;> rfl

theorem leave_console (b : Bracket) (m : Machine) : (b.leave m).console = m.console := by
  cases b <;> rfl

theorem enter_awaiting (b : Bracket) (cs : List Char) (m : Machine) :
    b.enter (m.awaiting cs) = (b.enter m).awaiting cs := by
  cases b <;> rfl

theorem leave_awaiting (b : Bracket) (cs : List Char) (m : Machine) :
    b.leave (m.awaiting cs) = (b.leave m).awaiting cs := by
  cases b <;> rfl

end Bracket

namespace Exec

variable {α β : Type}

/-- The computation on `m` reads just the lines given, whatever text is to follow them, and `log`
tells what it makes of each. -/
structure Consumes (x : Exec α) (log : List Reading) (m : Machine) (lines : List (List Char)) :
    Prop where
  whole : ∀ line ∈ lines, '\n' ∉ line
  pending : m.console.pending = Console.textOf lines ++ (x m).2.console.pending
  channel : (x m).2.console.channel = m.console.channel
  any : ∀ cs, x (m.awaiting (Console.textOf lines ++ cs)) = ((x m).1, (x m).2.awaiting cs)
  yields : log.map Reading.result =
    lines.map fun line => .ok (.cadena (Console.lineRead m.console.channel line))

namespace Consumes

variable {x : Exec α} {m : Machine} {log : List Reading} {lines : List (List Char)}

theorem bind {f : α → Exec β} {next : α → Machine → List Reading} (hx : Consumes x log m lines)
    (hf : ∀ a n, x m = (.ok a, n) → ∃ more, Consumes (f a) (next a n) n more) :
    ∃ more, Consumes (x >>= f) (log ++ Plan.follow (x m) next) m (lines ++ more) := by
  obtain ⟨hwhole, hpending, hchannel, hany, hyields⟩ := hx
  rcases hr : x m with ⟨e | a, n⟩ <;> rw [hr] at hpending hchannel hany
  · refine ⟨[], by simpa using hwhole, ?_, ?_, ?_, by simpa [Plan.follow] using hyields⟩
    · rw [Exec.bind_error hr, List.append_nil]
      exact hpending
    · rw [Exec.bind_error hr]
      exact hchannel
    · intro cs
      rw [List.append_nil, Exec.bind_error (hany cs), Exec.bind_error hr]
  · obtain ⟨more, hmore⟩ := hf a n hr
    refine ⟨more, List.forall_mem_append.mpr ⟨hwhole, hmore.whole⟩, ?_, ?_, ?_, ?_⟩
    · rw [Exec.bind_ok hr, Console.textOf_append, List.append_assoc, ← hmore.pending]
      exact hpending
    · rw [Exec.bind_ok hr, hmore.channel]
      exact hchannel
    · intro cs
      rw [Console.textOf_append, List.append_assoc, Exec.bind_ok (hany _), Exec.bind_ok hr]
      exact hmore.any cs
    · have hn : n.console.channel = m.console.channel := hchannel
      simp only [Plan.follow, List.map_append, hyields, hmore.yields, hn]

theorem around (b : Bracket) (hx : Consumes x log (b.enter m) lines) :
    Consumes (b.around x) log m lines := by
  obtain ⟨hwhole, hpending, hchannel, hany, hyields⟩ := hx
  rw [b.enter_console] at hpending hchannel hyields
  refine ⟨hwhole, ?_, ?_, fun cs => ?_, hyields⟩
  · rw [Bracket.around, b.leave_console]
    exact hpending
  · rw [Bracket.around, b.leave_console]
    exact hchannel
  · simp only [Bracket.around, b.enter_awaiting, hany, b.leave_awaiting]

theorem located (pos : Pos) (hx : Consumes x log m lines) :
    Consumes (Exec.located pos x) log m lines := by
  obtain ⟨hwhole, hpending, hchannel, hany, hyields⟩ := hx
  refine ⟨hwhole, ?_, ?_, fun cs => ?_, hyields⟩
  · rw [located_apply]
    exact hpending
  · rw [located_apply]
    exact hchannel
  · rw [located_apply, located_apply, hany]

end Consumes

/-- The computation has nothing to do with the text yet to be read. -/
structure Deaf (x : Exec α) : Prop where
  any : ∀ cs, Commutes (Machine.awaiting cs) x
  channel : ∀ m, (x m).2.console.channel = m.console.channel

namespace Deaf

theorem consumes {x : Exec α} (hx : Deaf x) (m : Machine) : Consumes x [] m [] where
  whole := nofun
  pending := (congrArg (·.2.console.pending) (hx.any m.console.pending m)).symm
  channel := hx.channel m
  any cs := hx.any cs m
  yields := rfl

theorem of_commutes {x : Exec α} (hx : ∀ console, Commutes (Machine.withConsole console) x) :
    Deaf x := by
  have hconsole : ∀ m, (x m).2.console = m.console := fun m =>
    congrArg (·.2.console) (hx m.console m)
  refine ⟨fun cs m => ?_, fun m => congrArg Console.channel (hconsole m)⟩
  have hawaiting : (x m).2.awaiting cs =
      Machine.withConsole { m.console with pending := cs } (x m).2 := by
    rw [Machine.awaiting, hconsole, Machine.withConsole]
  rw [hawaiting]
  exact hx { m.console with pending := cs } m

theorem onStore (operation : Store → Except Failure α × Store) :
    Deaf (Exec.onStore operation) :=
  of_commutes fun _ _ => rfl

theorem print (v : Value) : Deaf (Exec.print v) := by
  constructor
  · intro cs m
    have hany := Console.writeData?_awaiting m.console v.content cs
    simp only [Exec.print, Machine.awaiting, hany]
    cases m.console.writeData? v.content <;> rfl
  · intro m
    simp only [Exec.print]
    cases h : m.console.writeData? v.content with
    | none => rfl
    | some console => exact Console.writeData?_channel h

end Deaf

end Exec

def Move.isReadLine {α : Type} : Move α → Bool
  | readLine => true
  | _ => false

theorem Move.run_deaf {α : Type} (operation : Move α) (h : operation.isReadLine = false) :
    Exec.Deaf operation.run := by
  cases operation with
  | readLine => cases h
  | lookup name => exact ⟨fun _ _ => rfl, fun _ => rfl⟩
  | declare name type value => exact Exec.Deaf.onStore fun s => s.declare name type value
  | assign name v => exact Exec.Deaf.onStore fun s => s.assign name v
  | print v => exact .print v
  | note event => exact .of_commutes fun c => .note (Machine.withConsole_keepsCalls c) event
  | function name => exact .of_commutes fun c => .function (Machine.withConsole_keepsCalls c) name
  | checkFree name => exact .of_commutes fun c => .checkFree (Machine.withConsole_keepsCalls c) name
  | register f =>
    refine .of_commutes fun c => ?_
    exact .bind (.checkFree (Machine.withConsole_keepsCalls c) f.name) fun _ _ => rfl
  | checkDepth name =>
    exact .of_commutes fun c => .checkDepth (Machine.withConsole_keepsCalls c) name
  | checkStack => exact .of_commutes fun c => .checkStack (Machine.withConsole_keepsCalls c)

def silence : Contract where
  machine _ := True
  requires operation := operation.isReadLine = false
  ensures _ _ := True
  task _ := True
  answer _ _ := True
  failure _ := True

theorem Task.plan_silent (fuel : Nat) {t : Task} (h : t.isRead = false) :
    (t.plan fuel).Allowed silence := by
  have hopen : silence.Open := ⟨fun _ _ => trivial, fun _ => trivial, fun _ _ _ _ => rfl,
    fun _ => trivial⟩
  refine t.plan_allowed hopen fuel ⟨fun operation ho => ?_, fun _ _ => trivial⟩
  cases operation with
  | readLine => exact absurd ho (by simp [Move.Of, h])
  | _ => rfl

theorem Plan.run_good {ev : Evaluator} {α : Type} {p : Plan α} {good : α → Prop}
    (hp : p.Meets silence good) {m n : Machine} {a : α} (h : p.run ev m = (.ok a, n)) : good a := by
  induction p generalizing m n with
  | done a' =>
    cases h
    exact hp
  | fail e => cases h
  | move operation next ih =>
    obtain ⟨b, q, _, h⟩ := Exec.bind_eq_ok.mp h
    exact ih b (hp.2 b trivial) h
  | ask t next ih =>
    obtain ⟨b, q, _, h⟩ := Exec.bind_eq_ok.mp h
    exact ih b (hp.2 b trivial) h
  | within bracket inner next ihi ih =>
    obtain ⟨mid, hi, hp⟩ := hp
    obtain ⟨b, q, hb, h⟩ := Exec.bind_eq_ok.mp h
    have hfst : (inner.run ev (bracket.enter m)).1 = .ok b := congrArg Prod.fst hb
    exact ih b (hp b (ihi hi (Exec.eq_of_fst hfst))) h

theorem Plan.run_consumes {ev : Evaluator} {log : Task → Machine → List Reading}
    (hev : ∀ t m, (∀ x ∈ log t m, x.Terminated) →
      ∃ lines, Exec.Consumes (ev.answer t) (log t m) m lines)
    {α : Type} (p : Plan α) (hp : p.Allowed silence) (m : Machine)
    (h : ∀ x ∈ p.readings ev log m, x.Terminated) :
    ∃ lines, Exec.Consumes (p.run ev) (p.readings ev log m) m lines := by
  induction p generalizing m with
  | done a => exact ⟨[], Exec.Deaf.consumes ⟨fun _ _ => rfl, fun _ => rfl⟩ m⟩
  | fail e => exact ⟨[], Exec.Deaf.consumes ⟨fun _ _ => rfl, fun _ => rfl⟩ m⟩
  | move operation next ih =>
    obtain ⟨more, hmore⟩ := ((operation.run_deaf hp.1).consumes m).bind fun b n hr => by
      simp only [readings, hr] at h
      exact ih b (hp.2 b trivial) n h
    exact ⟨_, hmore⟩
  | ask t next ih =>
    obtain ⟨ht, hnext⟩ := List.forall_mem_append.mp h
    obtain ⟨lines, hlines⟩ := hev t m ht
    obtain ⟨more, hmore⟩ := hlines.bind fun a n hr => by
      rw [hr] at hnext
      exact ih a (hp.2 a trivial) n hnext
    exact ⟨_, hmore⟩
  | within bracket inner next ihi ih =>
    obtain ⟨mid, hi, hp⟩ := hp
    obtain ⟨hinner, hnext⟩ := List.forall_mem_append.mp h
    obtain ⟨lines, hlines⟩ := ihi (hi.imp fun _ _ => trivial) _ hinner
    obtain ⟨more, hmore⟩ := (hlines.around bracket).bind fun b n hr => by
      rw [hr] at hnext
      have hfst : (inner.run ev (bracket.enter m)).1 = .ok b := congrArg Prod.fst hr
      exact ih b (hp b (run_good hi (Exec.eq_of_fst hfst))) n hnext
    exact ⟨_, hmore⟩

theorem Exec.readLine_consumes (fuel : Nat) (pos : Pos) (m : Machine)
    (h : '\n' ∈ m.console.pending) :
    ∃ lines, Consumes ((Task.eval (.read pos)).run (fuel + 1))
      ((Task.eval (.read pos)).readings (fuel + 1) m) m lines := by
  obtain ⟨line, rest, hline, hpending, hsplit⟩ := Console.splitLine_terminated h
  have hrun : ∀ more : List Char, Guion.eval (fuel + 1) (.read pos)
      (m.awaiting (line ++ '\n' :: more)) =
        (.ok (.cadena (Console.lineRead m.console.channel line)), m.awaiting more) := by
    intro more
    rw [Guion.eval_succ, Exec.located_apply]
    simp only [evalStep, readLine, bind, pure, Machine.awaiting, Console.readLine, hsplit]
    cases m.console.channel <;> rfl
  have hm := hrun rest
  rw [← hpending, Machine.awaiting_self] at hm
  have htext : ∀ cs, Console.textOf [line] ++ cs = line ++ '\n' :: cs := by simp [Console.textOf]
  refine ⟨[line], ⟨List.forall_mem_singleton.mpr hline, ?_, ?_, ?_, ?_⟩⟩
  · rw [Task.run, hm, htext]
    exact hpending
  · rw [Task.run, hm]
    rfl
  · intro cs
    rw [Task.run, hm, Machine.awaiting_awaiting, htext]
    exact hrun cs
  · simp only [Task.readings, hm, List.map_cons, List.map_nil]

theorem Task.isRead_iff {t : Task} : t.isRead = true ↔ ∃ pos, t = eval (.read pos) := by
  constructor
  · intro h
    cases t with
    | exec s => cases h
    | eval e =>
      cases e with
      | read pos => exact ⟨pos, rfl⟩
      | _ => cases h
  · rintro ⟨pos, rfl⟩
    rfl

/-- A task reads whole lines, whatever follows them, as long as its evaluations of `leer()` do. -/
theorem Task.run_consumes (fuel : Nat) (t : Task) (m : Machine)
    (h : ∀ x ∈ t.readings fuel m, x.Terminated) :
    ∃ lines, Exec.Consumes (t.run fuel) (t.readings fuel m) m lines := by
  induction fuel generalizing t m with
  | zero =>
    have hzero : t.run 0 = Exec.fail .exhausted := by cases t <;> rfl
    rw [hzero]
    exact ⟨[], Exec.Deaf.consumes ⟨fun _ _ => rfl, fun _ => rfl⟩ m⟩
  | succ fuel ih =>
    cases hread : t.isRead with
    | true =>
      obtain ⟨pos, rfl⟩ := isRead_iff.mp hread
      exact Exec.readLine_consumes fuel pos m (h _ List.mem_cons_self)
    | false =>
      have hlog : t.readings (fuel + 1) m =
          (t.plan fuel).readings (.upTo fuel) (readings fuel) m := by
        rw [readings]
        intro pos ht
        rw [isRead_iff.mpr ⟨pos, ht⟩] at hread
        cases hread
      rw [hlog] at h ⊢
      rw [run_succ]
      obtain ⟨lines, hlines⟩ := Plan.run_consumes (fun u n hu => by
        rw [Evaluator.answer_upTo]
        exact ih u n hu) _ (t.plan_silent fuel hread) m h
      exact ⟨lines, hlines.located t.pos⟩

/-- Unread input does not matter. Where a run reads just `p` of the text `p ++ r`, and each of its
evaluations of `leer()` reads a line with its end, then with any other text in place of `r` the run
is the same and leaves that text. The lines of `p` are what the evaluations give, in their order;
the text of a terminal has no carriage returns. -/
theorem unread_irrelevant (fuel : Nat) (program : Program) (m : Machine) (p r : List Char)
    (hstart : m.console.pending = p ++ r)
    (hend : (run fuel program m).2.console.pending = r)
    (hlines : ∀ x ∈ program.readings fuel m, x.Terminated) :
    (∀ r', run fuel program (m.awaiting (p ++ r')) =
      ((run fuel program m).1, (run fuel program m).2.awaiting r')) ∧
    ∃ lines, (∀ line ∈ lines, '\n' ∉ line) ∧ p = Console.textOf lines ∧
      (m.console.channel = .stream ∨ '\r' ∉ p →
        (program.readings fuel m).map Reading.result =
          lines.map fun line => .ok (.cadena (String.ofList (Console.withoutReturn line)))) := by
  obtain ⟨lines, hconsumes⟩ : ∃ lines, Exec.Consumes (run fuel program)
      (program.readings fuel m) m lines := by
    rw [← Plan.run_program]
    refine Plan.run_consumes (fun t n ht => ?_) _ ?_ m hlines
    · rw [Evaluator.answer_upTo]
      exact t.run_consumes fuel n ht
    · exact Plan.allowed_program (fun _ => rfl) rfl fun _ _ => trivial
  obtain ⟨hwhole, hpending, -, hany, hyields⟩ := hconsumes
  obtain rfl : p = Console.textOf lines := by
    rw [hend, hstart] at hpending
    exact List.append_cancel_right hpending
  refine ⟨hany, lines, hwhole, rfl, fun hreturn => ?_⟩
  rw [hyields]
  refine List.map_congr_left fun line hline => ?_
  rw [Console.lineRead_eq]
  refine hreturn.imp_right fun hp hmem => hp ?_
  exact List.mem_flatMap.mpr ⟨line, hline, List.mem_append_left _ hmem⟩

/-- Two lines are read of three, the first one with a carriage return before its newline. -/
theorem unread_irrelevant_two :
    ∃ program, parse "imprimir leer() + leer();" = .ok program ∧
      (∀ r', run 9 program ((Machine.start (.stream "a\r\nb\nc") 0 9).awaiting
          ("a\r\nb\n".toList ++ r')) =
        (.ok (), (run 9 program (.start (.stream "a\r\nb\nc") 0 9)).2.awaiting r')) ∧
      (program.readings 9 (.start (.stream "a\r\nb\nc") 0 9)).map Reading.result =
        [.ok (.cadena "a"), .ok (.cadena "b")] := by
  let program : Program := ⟨Mark.pos ⟨1, 1⟩,
    [.print (Mark.pos ⟨1, 1⟩) (.binary (Mark.pos ⟨1, 10⟩) .add (.read (Mark.pos ⟨1, 10⟩))
      (.read (Mark.pos ⟨1, 19⟩)))]⟩
  let m : Machine := .start (.stream "a\r\nb\nc") 0 9
  have hp : parse "imprimir leer() + leer();" = .ok program := by rfl
  have hread : program.readings 9 m =
      [⟨.stream "a\r\nb\nc", .ok (.cadena "a")⟩, ⟨.stream "b\nc", .ok (.cadena "b")⟩] := by rfl
  have hlines : ∀ x ∈ program.readings 9 m, x.Terminated := by
    rw [hread]
    exact List.forall_mem_cons.mpr ⟨by decide, List.forall_mem_singleton.mpr (by decide)⟩
  obtain ⟨hany, -⟩ := unread_irrelevant 9 program m "a\r\nb\n".toList ['c'] (by rfl) (by rfl) hlines
  exact ⟨program, hp, hany, by rw [hread]; rfl⟩

end Guion
