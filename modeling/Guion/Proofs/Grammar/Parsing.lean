import Guion.Proofs.Grammar.Lexing
import Guion.Proofs.Grammar.Steps
import Guion.Proofs.Grammar.Written

namespace Guion

open Grammar

theorem Splits.texts {mark : Mark} {cs : List Char} {ts : List Token} (h : Splits mark cs ts) :
    ∀ t ∈ ts, t.terminal.Matches t.text := by
  induction h with
  | nil => exact fun t ht => nomatch ht
  | layout _ _ ih => exact ih
  | token hm _ ih =>
    intro t ht
    obtain rfl | ht := List.mem_cons.mp ht
    · exact hm
    · exact ih t ht

namespace Parse

namespace State

theorem initial_spans : ({} : State).Spans [] :=
  ⟨_, [], [], rfl, .top .nil, .ready .start⟩

theorem run_spans {st last : State} {ts us : List Token} (hs : st.Spans ts)
    (hm : ∀ t ∈ us, t.terminal.Matches t.text) (h : us.foldlM next? st = some last) :
    last.Spans (ts ++ us) := by
  induction us generalizing st ts with
  | nil =>
    obtain rfl := Option.some.inj h
    rwa [List.append_nil]
  | cons t us ih =>
    rw [List.foldlM_cons] at h
    obtain ⟨st', hn, h⟩ := Option.bind_eq_some_iff.mp h
    have hs' := next?_spans hs (hm t List.mem_cons_self) hn
    have := ih hs' (fun u hu => hm u (List.mem_cons_of_mem t hu)) h
    rwa [List.append_assoc] at this

theorem program?_eq_some {st : State} {program : Program} (h : st.program? = some program) :
    ∃ last : State, (last = st ∨ ∃ s, st.focus = .orElse s ∧
        last = settle false st.before s st.around) ∧
      last.around = [] ∧ (∃ after, last.focus = .ready after) ∧
      program = ⟨(last.before.reverse.head?.map Stmt.pos).getD .none, last.before.reverse⟩ := by
  unfold program? at h
  dsimp only at h
  split at h
  next after hup hf =>
    cases h
    refine ⟨_, ?_, hup, ⟨after, hf⟩, rfl⟩
    split
    next s hs => exact .inr ⟨s, hs, rfl⟩
    next => exact .inl rfl
  next => cases h

theorem program?_derives {st : State} {ts : List Token} {program : Program} (hs : st.Spans ts)
    (h : st.program? = some program) :
    (Phrase.body program.body).Derives ts ∧ program.pos = start ts := by
  obtain ⟨last, hlast, hup, ⟨after, hf⟩, rfl⟩ := program?_eq_some h
  have ho : Opens last.before last.around .declaration ts := by
    obtain ⟨slot, us, vs, rfl, ho, hfocus⟩ := hs
    obtain rfl | ⟨s, hs, rfl⟩ := hlast
    · rw [hf] at hfocus
      cases hfocus
      rwa [List.append_nil]
    · rw [hs] at hfocus
      cases hfocus with
      | orElse hy _ => exact (settle_ready ho hy).1
  rw [hup] at ho
  cases ho with
  | top hb => exact ⟨hb, hb.starts.1⟩

end State

theorem scan_derives {fuel : Nat} {cs : List Char} {program : Program} {tokens : List Token}
    (h : scan fuel {} {} [] cs = .ok (program, tokens)) :
    Splits {} cs tokens ∧ (Phrase.body program.body).Derives tokens ∧
      program.pos = start tokens := by
  obtain ⟨ts, last, rfl, hs, hl, hp⟩ := scan_splits h
  exact ⟨hs, State.program?_derives (State.run_spans State.initial_spans hs.texts hl) hp⟩

end Parse

theorem scan_of_parse {source : String} {program : Program} (h : parse source = .ok program) :
    ∃ fuel tokens, Parse.scan fuel {} {} [] source.toList = .ok (program, tokens) := by
  rw [parse] at h
  split at h
  next => cases h
  next p tokens hs =>
    split at h
    next => cases h
    next =>
      cases h
      exact ⟨_, tokens, hs⟩

theorem parse_written {source : String} {program : Program} (h : parse source = .ok program) :
    program.Written := by
  obtain ⟨fuel, tokens, hs⟩ := scan_of_parse h
  exact (Parse.scan_derives hs).2.1.written

/-- A text that is read as a program is layout and tokens, and its program is the tree of a
derivation of all of these tokens in their order. -/
theorem parse_derives {source : String} {program : Program} (h : parse source = .ok program) :
    ∃ tokens, Splits {} source.toList tokens ∧ (Phrase.body program.body).Derives tokens ∧
      program.pos = start tokens := by
  obtain ⟨fuel, tokens, hs⟩ := scan_of_parse h
  exact ⟨tokens, Parse.scan_derives hs⟩

theorem parse_derives_nested :
    ∃ program, parse "si (a) si (b) x; sino (y);" = .ok program ∧
      (∃ tokens, Splits {} "si (a) si (b) x; sino (y);".toList tokens ∧
        (Phrase.body program.body).Derives tokens ∧ program.pos = start tokens) ∧
      program.body = [.branch (Mark.pos ⟨1, 1⟩) (.name (Mark.pos ⟨1, 5⟩) "a")
        (.branch (Mark.pos ⟨1, 8⟩) (.name (Mark.pos ⟨1, 12⟩) "b")
          (.expr (Mark.pos ⟨1, 15⟩) (.name (Mark.pos ⟨1, 15⟩) "x"))
          (some (.expr (Mark.pos ⟨1, 23⟩) (.name (Mark.pos ⟨1, 24⟩) "y")))) none] := by
  have h : parse "si (a) si (b) x; sino (y);" = .ok ⟨Mark.pos ⟨1, 1⟩,
      [.branch (Mark.pos ⟨1, 1⟩) (.name (Mark.pos ⟨1, 5⟩) "a")
        (.branch (Mark.pos ⟨1, 8⟩) (.name (Mark.pos ⟨1, 12⟩) "b")
          (.expr (Mark.pos ⟨1, 15⟩) (.name (Mark.pos ⟨1, 15⟩) "x"))
          (some (.expr (Mark.pos ⟨1, 23⟩) (.name (Mark.pos ⟨1, 24⟩) "y")))) none]⟩ := by rfl
  exact ⟨_, h, parse_derives h, rfl⟩

end Guion
