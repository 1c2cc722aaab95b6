import Guion.CommandLine.Report
import Guion.Proofs.Input
import Guion.Proofs.Isolation
import Guion.Proofs.Signals
import Guion.Proofs.Sound.Failures

namespace Guion

namespace Exec

variable {α β : Type}

/-- The computation takes a piece of the text yet to be read, and where it leaves any of the text,
it does not matter which. -/
def Takes (x : Exec α) (m : Machine) : Prop :=
  ∃ piece, m.console.pending = piece ++ (x m).2.console.pending ∧
    ((x m).2.console.pending ≠ [] →
      ∀ cs, x (m.awaiting (piece ++ cs)) = ((x m).1, (x m).2.awaiting cs))

theorem Deaf.takes {x : Exec α} (hx : Deaf x) (m : Machine) : Takes x m :=
  ⟨[], (hx.consumes m).pending, fun _ cs => hx.any cs m⟩

theorem Takes.bind {x : Exec α} {f : α → Exec β} {m : Machine} (hx : Takes x m)
    (hf : ∀ a n, x m = (.ok a, n) → Takes (f a) n) : Takes (x >>= f) m := by
  obtain ⟨piece, hpending, hany⟩ := hx
  rcases hr : x m with ⟨e | a, n⟩ <;> rw [hr] at hpending hany
  · rw [Takes, bind_error hr]
    refine ⟨piece, hpending, fun hn cs => ?_⟩
    rw [bind_error (hany hn cs)]
  · obtain ⟨more, hmore, hrest⟩ := hf a n hr
    rw [Takes, bind_ok hr]
    refine ⟨piece ++ more, ?_, fun hn cs => ?_⟩
    · rw [List.append_assoc, ← hmore]
      exact hpending
    · have hleft : n.console.pending ≠ [] := by
        rw [hmore]
        exact List.append_ne_nil_of_right_ne_nil more hn
      rw [List.append_assoc, bind_ok (hany hleft _)]
      exact hrest hn cs

theorem takes_composes : Composes Takes where
  pure a m := Deaf.takes ⟨fun _ _ => rfl, fun _ => rfl⟩ m
  fail e m := Deaf.takes ⟨fun _ _ => rfl, fun _ => rfl⟩ m
  bind := Takes.bind
  around := by
    rintro α x m b ⟨piece, hpending, hany⟩
    rw [b.enter_console] at hpending
    refine ⟨piece, ?_, fun hn cs => ?_⟩
    · rw [Bracket.around, b.leave_console]
      exact hpending
    · rw [Bracket.around, b.leave_console] at hn
      simp only [Bracket.around, b.enter_awaiting, hany hn, b.leave_awaiting]
  located := by
    rintro α x m pos ⟨piece, hpending, hany⟩
    refine ⟨piece, ?_, fun hn cs => ?_⟩
    · rw [located_apply]
      exact hpending
    · rw [located_apply] at hn
      rw [located_apply, located_apply, hany hn]

theorem readLine_takes (m : Machine) : Takes readLine m := by
  by_cases h : '\n' ∈ m.console.pending
  · obtain ⟨line, rest, _, hpending, hsplit⟩ := Console.splitLine_terminated h
    refine ⟨line ++ ['\n'], ?_, fun _ cs => ?_⟩
    · simp [readLine, Console.readLine, hpending, hsplit]
    · simp [readLine, Console.readLine, Machine.awaiting, hpending, hsplit]
  · have hkeep : ∀ c ∈ m.console.pending, (c != '\n') = true :=
      fun c hc => bne_iff_ne.mpr fun heq => h (heq ▸ hc)
    have hnone : (readLine m).2.console.pending = [] := by
      simp [readLine, Console.readLine, Console.splitLine, List.dropWhile_eq_nil_iff.mpr hkeep]
    exact ⟨m.console.pending, by rw [hnone, List.append_nil], fun hn => absurd hnone hn⟩

end Exec

theorem Move.run_takes {α : Type} (operation : Move α) (m : Machine) :
    Exec.Takes operation.run m := by
  cases h : operation.isReadLine with
  | false => exact (operation.run_deaf h).takes m
  | true =>
    cases operation with
    | readLine => exact Exec.readLine_takes m
    | _ => cases h

theorem run_takes (fuel : Nat) (p : Program) (m : Machine) : Exec.Takes (run fuel p) m := by
  have hmove : ∀ {α : Type} (operation : Move α) (m : Machine), signalled.requires operation →
      signalled.machine m → Exec.Takes operation.run m := fun operation m _ _ =>
    operation.run_takes m
  rw [← Plan.run_program]
  refine Plan.run_composes Exec.takes_composes signalled_kept hmove
    (Task.answers_upTo signalled_kept fuel) (fun t n _ _ => ?_) _ (Plan.signalled_any _) m trivial
  rw [Evaluator.answer_upTo]
  exact Task.run_composes Exec.takes_composes signalled_kept hmove fuel t n trivial trivial

namespace CommandLine

structure Contribution where
  stdout : String := ""
  stderr : String := ""
  trace : String := ""

def fresh (verbosity : Nat) (rest : List Char) : Machine :=
  .start ⟨.stream, rest, ""⟩ verbosity depthLimit

/-- What a line alone contributes, with the rest of the text to read from, and what it leaves of
that. -/
inductive Contributes (verbosity : Nat) (line rest : List Char) :
    Contribution → List Char → Prop where
  | blank : Text.strip line = [] → Contributes verbosity line rest {} rest
  | misread {e : ParseError} :
    Text.strip line ≠ [] → parse (String.ofList line) = .error e →
      Contributes verbosity line rest { stderr := "Error: " ++ e.report ++ "\n" } rest
  | ran {program : Program} {fuel : Nat} {m : Machine} :
    Text.strip line ≠ [] → parse (String.ofList line) = .ok program →
      run fuel program (fresh verbosity rest) = (.ok (), m) →
      Contributes verbosity line rest ⟨m.console.written, "", m.trace.textOf .file⟩
        m.console.pending
  | failed {program : Program} {fuel : Nat} {m : Machine} {cause : Fault} {place : Option Pos} :
    Text.strip line ≠ [] → parse (String.ofList line) = .ok program →
      run fuel program (fresh verbosity rest) = (.error (.fault cause place), m) →
      Contributes verbosity line rest
        ⟨m.console.written, "Error: " ++ cause.report place ++ "\n", m.trace.textOf .file⟩
        m.console.pending

/-- A session ends where its input does, and at the line that says so. -/
def Closes (text : List Char) : Prop :=
  text = [] ∨ Text.strip (takeLine text).1 = "salir".toList

/-- The lines of a session, with what they contribute, up to a text where the next line is due. -/
inductive Leads (verbosity : Nat) : List Char → List Contribution → List Char → Prop where
  | here (text : List Char) : Leads verbosity text [] text
  | line {text left last : List Char} {c : Contribution} {cs : List Contribution} :
    ¬ Closes text → Contributes verbosity (takeLine text).1 (takeLine text).2 c left →
      Leads verbosity left cs last → Leads verbosity text (c :: cs) last

/-- The run of the next line, if it makes a program, ends, and not with a remainder of infinity. -/
def Settles (verbosity : Nat) (text : List Char) : Prop :=
  Text.strip (takeLine text).1 ≠ [] →
    ∀ program, parse (String.ofList (takeLine text).1) = .ok program →
      ∃ fuel, (run fuel program (fresh verbosity (takeLine text).2)).1 ≠ .error .exhausted ∧
        (run fuel program (fresh verbosity (takeLine text).2)).1 ≠
          .error (.stuck .remainderOfInfinity)

/-- The report of a session whose lines contribute as told. -/
def sessionReport (verbosity : Nat) (cs : List Contribution) : Report where
  stdout := banner ++ String.join (cs.map (">>> " ++ ·.stdout)) ++ ">>> ¡Hasta luego!\n"
  stderr := String.join (cs.map (·.stderr))
  files := traceFiles verbosity (String.join (cs.map (·.trace)))

section Lines

theorem takeLine_append (text : List Char) : (takeLine text).1 ++ (takeLine text).2 = text :=
  List.take_append_drop _ text

theorem takeLine_terminated {line : List Char} (h : '\n' ∉ line) (rest : List Char) :
    takeLine (line ++ '\n' :: rest) = (line ++ ['\n'], rest) := by
  have hkeep : ∀ c ∈ line, (c != '\n') = true :=
    fun c hc => bne_iff_ne.mpr fun heq => h (heq ▸ hc)
  have htake : (line ++ '\n' :: rest).takeWhile (· != '\n') = line := by
    simp [List.takeWhile_append_of_pos hkeep]
  have hsplit : line ++ '\n' :: rest = (line ++ ['\n']) ++ rest := by simp
  rw [takeLine, htake, hsplit]
  exact Prod.ext (List.take_left' (by simp)) (List.drop_left' (by simp))

theorem takeLine_cases (text : List Char) : (takeLine text).2 = [] ∨
    ∃ line, '\n' ∉ line ∧ text = line ++ '\n' :: (takeLine text).2 := by
  by_cases h : '\n' ∈ text
  · obtain ⟨line, rest, htext, hline⟩ := List.eq_append_cons_of_mem h
    subst htext
    rw [takeLine_terminated hline]
    exact .inr ⟨line, hline, rfl⟩
  · have hkeep : ∀ c ∈ text, (c != '\n') = true :=
      fun c hc => bne_iff_ne.mpr fun heq => h (heq ▸ hc)
    refine .inl ?_
    simp [takeLine, List.takeWhile_eq_self_iff.mpr hkeep]

theorem takeLine_length {text : List Char} (h : text ≠ []) :
    (takeLine text).2.length < text.length := by
  have hpos := List.length_pos_iff.mpr h
  simp only [takeLine, List.length_drop]
  omega

theorem takeLine_fst_eq_nil {text : List Char} : (takeLine text).1 = [] ↔ text = [] := by
  constructor
  · intro h
    by_contra hne
    have hlength := takeLine_length hne
    have happend := takeLine_append text
    rw [h, List.nil_append] at happend
    rw [happend] at hlength
    exact Nat.lt_irrefl _ hlength
  · rintro rfl
    rfl

end Lines

variable {verbosity : Nat} {line rest left text last mid : List Char} {c c' : Contribution}
  {cs before : List Contribution}

namespace Contributes

theorem any (h : Contributes verbosity line rest c left) :
    ∃ piece, rest = piece ++ left ∧
      (left ≠ [] → ∀ x, Contributes verbosity line (piece ++ x) c x) := by
  cases h with
  | blank hblank => exact ⟨[], rfl, fun _ x => .blank hblank⟩
  | misread hline he => exact ⟨[], rfl, fun _ x => .misread hline he⟩
  | ran hline hp hrun =>
    obtain ⟨piece, hpending, hany⟩ := run_takes _ _ (fresh verbosity rest)
    rw [hrun] at hpending hany
    exact ⟨piece, hpending, fun hleft x => .ran hline hp (hany hleft x)⟩
  | failed hline hp hrun =>
    obtain ⟨piece, hpending, hany⟩ := run_takes _ _ (fresh verbosity rest)
    rw [hrun] at hpending hany
    exact ⟨piece, hpending, fun hleft x => .failed hline hp (hany hleft x)⟩

theorem length_le (h : Contributes verbosity line rest c left) : left.length ≤ rest.length := by
  obtain ⟨piece, rfl, _⟩ := h.any
  simp

theorem runLine (h : Contributes verbosity line rest c left) (hline : Text.strip line ≠ []) :
    ∃ bound, ∀ fuel, bound ≤ fuel → ∀ t : Transcript, t.pending = rest →
      CommandLine.runLine fuel verbosity line t =
        (.ok (), ⟨left, t.stdout ++ c.stdout, t.stderr ++ c.stderr, t.trace ++ c.trace⟩) := by
  cases h with
  | blank hblank => exact absurd hblank hline
  | misread _ he =>
    refine ⟨0, ?_⟩
    rintro fuel - t rfl
    simp [CommandLine.runLine, he, String.append_assoc]
  | @ran program bound m _ hp hrun =>
    refine ⟨bound, ?_⟩
    rintro fuel hfuel t rfl
    have hdeeper := run_deeper hfuel (by rw [hrun]; exact nofun)
    rw [hrun] at hdeeper
    simp only [fresh] at hdeeper
    simp [CommandLine.runLine, hp, hdeeper]
  | @failed program bound m cause place _ hp hrun =>
    refine ⟨bound, ?_⟩
    rintro fuel hfuel t rfl
    have hdeeper := run_deeper hfuel (by rw [hrun]; exact nofun)
    rw [hrun] at hdeeper
    simp only [fresh] at hdeeper
    simp [CommandLine.runLine, hp, hdeeper, String.append_assoc]

theorem unique {left' : List Char} (h : Contributes verbosity line rest c left)
    (h' : Contributes verbosity line rest c' left') : c = c' ∧ left = left' := by
  by_cases hline : Text.strip line = []
  · cases h with
    | blank =>
      cases h' with
      | blank => exact ⟨rfl, rfl⟩
      | misread hne | ran hne | failed hne => exact absurd hline hne
    | misread hne | ran hne | failed hne => exact absurd hline hne
  · obtain ⟨bound, hrun⟩ := h.runLine hline
    obtain ⟨bound', hrun'⟩ := h'.runLine hline
    have heq := (hrun (max bound bound') (by omega) ⟨rest, "", "", ""⟩ rfl).symm.trans
      (hrun' (max bound bound') (by omega) ⟨rest, "", "", ""⟩ rfl)
    simp only [String.empty_append, Prod.mk.injEq, Transcript.mk.injEq, true_and] at heq
    obtain ⟨hleft, hstdout, hstderr, htrace⟩ := heq
    cases c
    cases c'
    exact ⟨Contribution.mk.injEq .. ▸ ⟨hstdout, hstderr, htrace⟩, hleft⟩

end Contributes

theorem Settles.contributes (h : Settles verbosity text) :
    ∃ c left, Contributes verbosity (takeLine text).1 (takeLine text).2 c left := by
  by_cases hline : Text.strip (takeLine text).1 = []
  · exact ⟨_, _, .blank hline⟩
  cases hp : parse (String.ofList (takeLine text).1) with
  | error e => exact ⟨_, _, .misread hline hp⟩
  | ok program =>
    obtain ⟨fuel, hends, hremainder⟩ := h hline program hp
    have hsound : (fresh verbosity (takeLine text).2).Sound :=
      (Machine.Reachable.start _ _ _).sound
    have hframes : (fresh verbosity (takeLine text).2).stackFrames = 31000 := rfl
    have hused : (fresh verbosity (takeLine text).2).stack.used = 0 := rfl
    obtain ⟨hhuge, hno, hdeep⟩ := run_refused_iff fuel (parse_written hp) hsound
    rcases hrun : run fuel program (fresh verbosity (takeLine text).2) with ⟨e | _, m⟩
    · have hfst := congrArg Prod.fst hrun
      obtain (hworded | rfl | rfl) | rfl | rfl | rfl := run_expected (parse_written hp) hsound hfst
      · cases e with
        | fault cause place => exact ⟨_, _, .failed hline hp hrun⟩
        | exhausted => exact absurd hfst hends
        | stuck | overrun | unwritten => exact hworded.elim
      · exact absurd hfst (run_written (.inl rfl))
      · exact absurd hfst hremainder
      · have hnone := hno.mp hfst
        omega
      · have hmany := hhuge.mp hfst
        omega
      · have hfull := hdeep.mp hfst
        omega
    · exact ⟨_, _, .ran hline hp hrun⟩

namespace Leads

theorem trans {cs' : List Contribution} (h : Leads verbosity text cs mid)
    (h' : Leads verbosity mid cs' last) : Leads verbosity text (cs ++ cs') last := by
  induction h with
  | here => exact h'
  | line hopen hc _ ih => exact .line hopen hc (ih h')

theorem snoc (h : Leads verbosity text cs mid) (hopen : ¬ Closes mid)
    (hc : Contributes verbosity (takeLine mid).1 (takeLine mid).2 c left) :
    Leads verbosity text (cs ++ [c]) left :=
  h.trans (.line hopen hc (.here left))

theorem any (h : Leads verbosity text cs last) :
    ∃ piece, text = piece ++ last ∧ (last ≠ [] → ∀ x, Leads verbosity (piece ++ x) cs x) := by
  induction h with
  | here text => exact ⟨[], rfl, fun _ x => .here x⟩
  | @line text left last c cs hopen hc _ ih =>
    obtain ⟨taken, hrest, hline⟩ := hc.any
    obtain ⟨piece, rfl, hlines⟩ := ih
    refine ⟨(takeLine text).1 ++ taken ++ piece, ?_, fun hlast x => ?_⟩
    · rw [List.append_assoc, List.append_assoc, ← hrest, takeLine_append]
    · have hleft := List.append_ne_nil_of_right_ne_nil piece hlast
      -- Something follows the line, so it ends in a newline and is the same whatever follows.
      obtain hnone | ⟨line, hfree, htext⟩ := takeLine_cases text
      · rw [hrest] at hnone
        exact absurd hnone (List.append_ne_nil_of_right_ne_nil taken hleft)
      · have hend := takeLine_terminated hfree
        have hfst : (takeLine text).1 = line ++ ['\n'] := by rw [htext, hend]
        have hsame : takeLine (line ++ '\n' :: (taken ++ (piece ++ x))) =
            ((takeLine text).1, taken ++ (piece ++ x)) := by rw [hend, hfst]
        have hnew : (takeLine text).1 ++ taken ++ piece ++ x =
            line ++ '\n' :: (taken ++ (piece ++ x)) := by simp [hfst]
        rw [hnew]
        refine .line ?_ (by rw [hsame]; exact hline hleft _) (hlines hlast x)
        rintro (hnil | hsalir)
        · simp at hnil
        · rw [hsame] at hsalir
          exact hopen (.inr hsalir)

theorem through (h : Leads verbosity text before mid) (hall : Leads verbosity text cs last)
    (hlast : Closes last) : ∃ after, cs = before ++ after ∧ Leads verbosity mid after last := by
  induction h generalizing cs with
  | here => exact ⟨cs, rfl, hall⟩
  | line hopen hc _ ih =>
    cases hall with
    | here => exact absurd hlast hopen
    | line _ hc' hrest =>
      obtain ⟨rfl, rfl⟩ := hc.unique hc'
      obtain ⟨after, rfl, hafter⟩ := ih hrest
      exact ⟨after, rfl, hafter⟩

theorem interactLines (h : Leads verbosity text cs last) (hlast : Closes last) :
    ∃ bound, ∀ fuel, bound ≤ fuel → ∀ t : Transcript, t.pending = text →
      ∀ rounds, text.length < rounds → CommandLine.interactLines fuel verbosity rounds t =
        (.ok (), ⟨(takeLine last).2,
          t.stdout ++ String.join (cs.map (">>> " ++ ·.stdout)) ++ ">>> ¡Hasta luego!\n",
          t.stderr ++ String.join (cs.map (·.stderr)),
          t.trace ++ String.join (cs.map (·.trace))⟩) := by
  induction h with
  | here text =>
    refine ⟨0, ?_⟩
    rintro fuel - t rfl rounds hrounds
    obtain ⟨rounds, rfl⟩ : ∃ k, rounds = k + 1 := ⟨rounds - 1, by omega⟩
    have hclosed : (takeLine t.pending).1 = [] ∨
        Text.strip (takeLine t.pending).1 = "salir".toList :=
      hlast.imp_left takeLine_fst_eq_nil.mpr
    simp only [CommandLine.interactLines]
    rw [if_pos hclosed]
    simp [String.append_assoc]
  | @line text left last c cs hopen hc _ ih =>
    -- the fuel must do for this line and for all that follow
    obtain ⟨bound, hrest⟩ := ih hlast
    have hlength : left.length < text.length :=
      Nat.lt_of_le_of_lt hc.length_le (takeLine_length fun hnil => hopen (.inl hnil))
    have hgoes : ¬ ((takeLine text).1 = [] ∨ Text.strip (takeLine text).1 = "salir".toList) :=
      fun h => hopen (h.imp_left takeLine_fst_eq_nil.mp)
    by_cases hline : Text.strip (takeLine text).1 = []
    · obtain ⟨rfl, rfl⟩ := hc.unique (.blank hline)
      refine ⟨bound, ?_⟩
      rintro fuel hfuel t rfl rounds hrounds
      obtain ⟨rounds, rfl⟩ : ∃ k, rounds = k + 1 := ⟨rounds - 1, by omega⟩
      simp only [CommandLine.interactLines]
      rw [if_neg hgoes, if_pos hline, hrest fuel hfuel _ rfl rounds (by omega)]
      simp [String.append_assoc]
    · obtain ⟨bound', hrun⟩ := hc.runLine hline
      refine ⟨max bound bound', ?_⟩
      rintro fuel hfuel t rfl rounds hrounds
      obtain ⟨rounds, rfl⟩ : ∃ k, rounds = k + 1 := ⟨rounds - 1, by omega⟩
      simp only [CommandLine.interactLines]
      rw [if_neg hgoes, if_neg hline, hrun fuel (by omega) _ rfl]
      simp only
      rw [hrest fuel (by omega) _ rfl rounds (by omega)]
      simp [String.append_assoc]

theorem interact {stdin : String} (h : Leads verbosity (unifyLines stdin.toList) cs last)
    (hlast : Closes last) :
    ∃ bound, ∀ fuel, bound ≤ fuel →
      CommandLine.interact fuel verbosity stdin = sessionReport verbosity cs := by
  obtain ⟨bound, hlines⟩ := h.interactLines hlast
  refine ⟨bound, fun fuel hfuel => ?_⟩
  simp only [CommandLine.interact]
  rw [hlines fuel hfuel _ rfl _ (Nat.lt_succ_self _)]
  simp [sessionReport, Except.map]

end Leads

theorem exists_leads (h : ∀ before mid, Leads verbosity text before mid → ¬ Closes mid →
    Settles verbosity mid) : ∃ cs last, Leads verbosity text cs last ∧ Closes last := by
  -- each line leaves a shorter text, so the session comes to an end
  induction hn : text.length using Nat.strong_induction_on generalizing text with
  | _ n ih =>
    by_cases hopen : Closes text
    · exact ⟨[], text, .here text, hopen⟩
    · obtain ⟨c, left, hc⟩ := (h [] text (.here text) hopen).contributes
      have hlength : left.length < n := by
        have hline := takeLine_length fun hnil => hopen (.inl hnil)
        have hleft := hc.length_le
        omega
      obtain ⟨cs, last, hcs, hlast⟩ := ih _ hlength
        (fun before mid hmid => h (c :: before) mid (.line hopen hc hmid)) rfl
      exact ⟨c :: cs, last, .line hopen hc hcs, hlast⟩

theorem Contributes.settles
    (h : Contributes verbosity (takeLine text).1 (takeLine text).2 c left) :
    Settles verbosity text := by
  intro hline program hp
  cases h with
  | blank hblank => exact absurd hblank hline
  | misread _ he => cases he.symm.trans hp
  | ran _ hp' hrun | failed _ hp' hrun =>
    cases hp.symm.trans hp'
    exact ⟨_, by rw [hrun]; exact ⟨nofun, nofun⟩⟩

theorem Leads.settles (h : Leads verbosity text cs last) (hlast : Closes last) :
    ∀ before mid, Leads verbosity text before mid → ¬ Closes mid → Settles verbosity mid := by
  intro before mid hmid hopen
  obtain ⟨after, _, hafter⟩ := hmid.through h hlast
  cases hafter with
  | here => exact absurd hlast hopen
  | line _ hc _ => exact hc.settles

/-- Lines are independent. Where the run of each line of a session ends, the session does, and it
reports what its lines contribute, each of them run on a fresh machine that reads what the line
before has left. So a line that reads nothing may be inserted wherever a line is due: it adds its
own contribution, and all others stay as they are. And nothing after the line that ends the session
matters. -/
theorem lines_independent (verbosity : Nat) (stdin : String)
    (hends : ∀ before mid, Leads verbosity (unifyLines stdin.toList) before mid → ¬ Closes mid →
      Settles verbosity mid) :
    ∃ cs last, Leads verbosity (unifyLines stdin.toList) cs last ∧ Closes last ∧
      (∃ bound, ∀ fuel, bound ≤ fuel →
        interact fuel verbosity stdin = sessionReport verbosity cs) ∧
      (∀ before piece mid, unifyLines stdin.toList = piece ++ mid → mid ≠ [] →
        Leads verbosity (unifyLines stdin.toList) before mid →
        ∃ after, cs = before ++ after ∧
          ∀ line c stdin', '\n' ∉ line → Text.strip (line ++ ['\n']) ≠ "salir".toList →
            Contributes verbosity (line ++ ['\n']) mid c mid →
            unifyLines stdin'.toList = piece ++ (line ++ '\n' :: mid) →
            ∃ bound, ∀ fuel, bound ≤ fuel →
              interact fuel verbosity stdin' = sessionReport verbosity (before ++ c :: after)) ∧
      ∀ piece word rest rest' stdin', '\n' ∉ word → last = word ++ '\n' :: rest →
        unifyLines stdin.toList = piece ++ last →
        unifyLines stdin'.toList = piece ++ (word ++ '\n' :: rest') →
        ∃ bound, ∀ fuel, bound ≤ fuel →
          interact fuel verbosity stdin' = sessionReport verbosity cs := by
  obtain ⟨cs, last, hcs, hlast⟩ := exists_leads hends
  refine ⟨cs, last, hcs, hlast, hcs.interact hlast, ?_, ?_⟩
  · intro before piece mid htext hmid hbefore
    obtain ⟨after, rfl, hafter⟩ := hbefore.through hcs hlast
    refine ⟨after, rfl, fun line c stdin' hline hsalir hc htext' => ?_⟩
    obtain ⟨taken, htaken, hany⟩ := hbefore.any
    obtain rfl : taken = piece := List.append_cancel_right (htaken.symm.trans htext)
    have hopen : ¬ Closes (line ++ '\n' :: mid) := by
      rintro (hnil | hword)
      · simp at hnil
      · rw [takeLine_terminated hline] at hword
        exact hsalir hword
    have hinserted : Leads verbosity (line ++ '\n' :: mid) (c :: after) last := by
      refine .line hopen ?_ hafter
      rw [takeLine_terminated hline]
      exact hc
    have hwhole := (hany hmid (line ++ '\n' :: mid)).trans hinserted
    rw [← htext'] at hwhole
    exact hwhole.interact hlast
  · rintro piece word rest rest' stdin' hword rfl htext htext'
    obtain ⟨taken, htaken, hany⟩ := hcs.any
    obtain rfl : taken = piece := List.append_cancel_right (htaken.symm.trans htext)
    have hwhole := hany (by simp) (word ++ '\n' :: rest')
    rw [← htext'] at hwhole
    refine hwhole.interact (.inr ?_)
    have hsalir := hlast.resolve_left (by simp)
    rw [takeLine_terminated hword] at hsalir ⊢
    exact hsalir

/-- A line reads what follows it and the next one fails. A declaration between them, in a session of
three lines, changes neither. -/
theorem lines_independent_inserted :
    (∃ bound, ∀ fuel, bound ≤ fuel → interact fuel 0 "imprimir leer();\nuno\n2 / 0;\n" =
      sessionReport 0 [⟨"uno\n", "", ""⟩,
        ⟨"", "Error: línea 1, columna 1: División por cero\n", ""⟩]) ∧
    ∃ bound, ∀ fuel, bound ≤ fuel →
      interact fuel 0 "imprimir leer();\nuno\nentero x = 2;\n2 / 0;\n" =
        sessionReport 0 [⟨"uno\n", "", ""⟩, {},
          ⟨"", "Error: línea 1, columna 1: División por cero\n", ""⟩] := by
  let reads : Program := ⟨Mark.pos ⟨1, 1⟩, [.print (Mark.pos ⟨1, 1⟩) (.read (Mark.pos ⟨1, 10⟩))]⟩
  let divides : Program := ⟨Mark.pos ⟨1, 1⟩, [.expr (Mark.pos ⟨1, 1⟩)
    (.binary (Mark.pos ⟨1, 1⟩) .div (.literal (Mark.pos ⟨1, 1⟩) (.integer (.int 2)))
      (.literal (Mark.pos ⟨1, 5⟩) (.integer (.int 0))))]⟩
  let declares : Program := ⟨Mark.pos ⟨1, 1⟩, [.declare (Mark.pos ⟨1, 1⟩) (.known .entero) "x"
    (some (.literal (Mark.pos ⟨1, 12⟩) (.integer (.int 2))))]⟩
  have hreads : Contributes 0 "imprimir leer();\n".toList "uno\n2 / 0;\n".toList
      ⟨"uno\n", "", ""⟩ "2 / 0;\n".toList :=
    @Contributes.ran 0 _ _ reads 9 (run 9 reads (fresh 0 "uno\n2 / 0;\n".toList)).2
      (by decide) (by rfl) (Exec.eq_of_fst (by decide +kernel))
  have hdivides : Contributes 0 "2 / 0;\n".toList []
      ⟨"", "Error: línea 1, columna 1: División por cero\n", ""⟩ [] :=
    @Contributes.failed 0 _ _ divides 9 (run 9 divides (fresh 0 [])).2 .divisionByZero
      (some (Mark.pos ⟨1, 1⟩)) (by decide) (by rfl) (Exec.eq_of_fst (by decide +kernel))
  have hdeclares : Contributes 0 "entero x = 2;\n".toList "2 / 0;\n".toList {}
      "2 / 0;\n".toList :=
    @Contributes.ran 0 _ _ declares 9 (run 9 declares (fresh 0 "2 / 0;\n".toList)).2
      (by decide) (by rfl) (Exec.eq_of_fst (by decide +kernel))
  have hfirst : Leads 0 (unifyLines "imprimir leer();\nuno\n2 / 0;\n".toList)
      [⟨"uno\n", "", ""⟩] "2 / 0;\n".toList :=
    .line (by unfold Closes; decide) hreads (.here _)
  have hall := hfirst.snoc (by unfold Closes; decide) hdivides
  obtain ⟨cs, last, hcs, hlast, hreport, hinsert, _⟩ :=
    lines_independent 0 _ (hall.settles (.inl rfl))
  obtain ⟨after, rfl, hafter⟩ := hall.through hcs hlast
  cases hafter with
  | line hopen => exact absurd (.inl rfl) hopen
  | here =>
    obtain ⟨after, hafter, hinserted⟩ := hinsert _ "imprimir leer();\nuno\n".toList _
      (by decide) (by decide) hfirst
    obtain rfl := List.append_cancel_left ((List.append_nil _).symm.trans hafter)
    exact ⟨hreport, hinserted "entero x = 2;".toList {} _ (by decide) (by decide) hdeclares
      (by decide)⟩

end CommandLine

end Guion
