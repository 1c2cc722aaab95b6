import Guion.Proofs.Grammar.Completion
import Guion.Proofs.Grammar.Cursor

namespace Guion

namespace Parse

namespace Cursor

variable {d : Cursor} {ts : List Token} {x : List Char}

/-- What the scanner went over is the beginning of a program. -/
theorem Scans.extended {cs : List Char} (h : (start cs).Scans ts d) (hx : cs = x ++ d.text)
    (hshort : ∀ t ∈ ts, isTooLong t = false) :
    ∃ (t : String) (program : Program), parse (String.ofList x ++ t) = .ok program := by
  obtain ⟨piece, hover⟩ := h.over
  have hspaced : Spaced d.state.ending ('\n' :: Lexeme.joined d.state.ending) :=
    .space rfl (.joined d.state.ending)
  obtain ⟨mark, rest, hcut, hspaced'⟩ : ∃ mark rest,
      Scans ⟨{}, {}, x ++ '\n' :: Lexeme.joined d.state.ending⟩ ts ⟨d.state, mark, rest⟩ ∧
        Spaced d.state.ending rest := by
    obtain hcut | ⟨-, mark, hcut⟩ :=
      h.cut (a := '\n') (y := []) rfl hx rfl (.inr rfl) (by simp)
    · exact ⟨_, _, hcut, hspaced⟩
    · exact ⟨mark, _, hcut, hspaced.dropWhile (State.ending_proper d.state)⟩
  obtain ⟨ws, hws, hscan⟩ := hspaced'.scanned (State.ending_proper d.state) mark
  obtain ⟨last, program, hread, hprogram⟩ :=
    hover.reads.completed hover.splits.texts (State.ending_terminals d.state hws)
  obtain ⟨fuel, hf, heq⟩ := scan_of_scans hcut (Nat.lt_succ_self _)
  have hok := (heq []).trans (hscan fuel d.state last (ts.reverse ++ []) program hf
    (hover.reads.begun (.inr rfl)) hread hprogram)
  simp only [List.append_nil, List.reverse_reverse, Nat.succ_eq_add_one] at hok
  have hlong : (ts ++ ws).find? isTooLong = none := by
    rw [List.find?_eq_none]
    intro t ht
    rw [Bool.not_eq_true]
    obtain ht | ht := List.mem_append.mp ht
    · exact hshort t ht
    · exact State.ending_short d.state (hws ▸ List.mem_map_of_mem ht)
  refine ⟨String.ofList ('\n' :: Lexeme.joined d.state.ending), program, ?_⟩
  simp only [parse, ← String.ofList_append, String.toList_ofList, hok, hlong]

end Cursor

end Parse

theorem Misreading.At.ne_nil {cause : Misreading} {cs : List Char} (h : cause.At cs) : cs ≠ [] := by
  cases h with
  | unexpected hm => simp [hm.ne_nil]
  | unknown => simp

open Parse

theorem parse_fails {source : String} {e : ParseError} (h : parse source = .error e)
    (hshort : ∀ ts d, (Cursor.start source.toList).Scans ts d → ∀ t ∈ ts, isTooLong t = false) :
    ∃ ts d, (Cursor.start source.toList).Scans ts d ∧ d.Fails ts.reverse e := by
  obtain ⟨ts, d, hscans, hresult⟩ :=
    Cursor.scan_result (.start source.toList) [] (Nat.lt_succ_self _)
  refine ⟨ts, d, hscans, ?_⟩
  obtain ⟨program, _, _, hok⟩ | ⟨err, herr, hfails⟩ := hresult
  · have hlong : ts.find? isTooLong = none := by
      rw [List.find?_eq_none]
      exact fun t ht => by simp [hshort ts d hscans t ht]
    simp only [Cursor.start, Nat.succ_eq_add_one, List.reverse_nil, List.nil_append] at hok
    simp [parse, hok, hlong] at h
  · simp only [Cursor.start, Nat.succ_eq_add_one] at herr
    simp only [parse, herr] at h
    cases h
    simpa using hfails

theorem Parse.Cursor.Scans.ne_nil_of_ended {cs : List Char} {ts : List Token} {d : Cursor}
    (h : (Cursor.start cs).Scans ts d) (hd : d.state.program? = none) : ts ≠ [] := by
  rintro rfl
  obtain ⟨_, hover⟩ := h.over
  rw [show d.state = {} from (Option.some.inj hover.reads).symm] at hd
  cases hd

/-- The reported syntax error is the first one: it stands inside the text, and what stands before it
begins a program. A text that ends too early is reported at its last token, and all of it begins a
program. -/
theorem parse_error_first {source : String} {e : ParseError} (h : parse source = .error e)
    (hdigits : ∀ ts d, (Cursor.start source.toList).Scans ts d →
      ∀ t ∈ ts, t.terminal = .integer → t.text.length ≤ Double.digitLimit) :
    ∃ k, k < source.toList.length ∧ e.mark = some (Mark.after (source.toList.take k)) ∧
      ((e.cause.At (source.toList.drop k) ∧
          ∃ t program, parse (String.ofList (source.toList.take k) ++ t) = .ok program) ∨
        (e.cause = .unexpected [] ∧
          (∃ ts last d, (Cursor.start source.toList).Scans (ts ++ [last]) d ∧ d.text = [] ∧
            e.mark = some last.mark ∧ last.text <+: source.toList.drop k) ∧
          ∃ t program, parse (source ++ t) = .ok program)) := by
  have hshort : ∀ ts d, (Cursor.start source.toList).Scans ts d →
      ∀ t ∈ ts, isTooLong t = false := by
    intro ts d hscans t ht
    have hle := hdigits ts d hscans t ht
    simpa [isTooLong] using hle
  obtain ⟨ts, d, hscans, hfails⟩ := parse_fails h hshort
  obtain ⟨piece, hover⟩ := hscans.over
  cases hfails with
  | @misread st mark cs _ cause hat =>
    have hsource : source.toList = piece ++ cs := hover.text
    have hextended := hscans.extended hsource (hshort ts _ hscans)
    have hmark : mark = Mark.after piece := hover.mark.trans (Mark.advance_eq_after piece)
    have hlength := List.length_pos_iff.mpr hat.ne_nil
    refine ⟨piece.length, ?_, ?_, .inl ⟨?_, ?_⟩⟩
    · rw [hsource, List.length_append]
      omega
    · rw [hsource, List.take_left, hmark]
    · rwa [hsource, List.drop_left]
    · rwa [hsource, List.take_left]
  | @ended st mark _ hprogram =>
    have hsource : source.toList = piece := by simpa [Cursor.start] using hover.text
    have hextended := hscans.extended (List.append_nil _).symm (hshort ts _ hscans)
    rw [String.ofList_toList] at hextended
    obtain ⟨init, last, rfl⟩ : ∃ init last, ts = init ++ [last] :=
      ⟨_, _, (List.dropLast_concat_getLast (hscans.ne_nil_of_ended hprogram)).symm⟩
    have hlast : last ∈ init ++ [last] := by simp
    obtain ⟨before, rest, hsplit, hmark⟩ := hover.splits.located last hlast
    have hlength := List.length_pos_iff.mpr (hover.splits.texts last hlast).ne_nil
    rw [← hsource] at hsplit
    refine ⟨before.length, ?_, ?_, .inr ⟨rfl, ⟨init, last, _, hscans, rfl, by simp, ?_⟩, hextended⟩⟩
    · rw [hsplit, List.length_append, List.length_append]
      omega
    · rw [hsplit, List.take_left, ← Mark.advance_eq_after]
      simp [hmark, Cursor.start]
    · rw [hsplit, List.drop_left]
      exact List.prefix_append _ _

/-- The second argument of a call is missing. The call can be finished. -/
theorem parse_error_first_argument :
    parse "si (a) x = f(1, ;" = .error ⟨.unexpected [';'], some ⟨1, 17⟩⟩ ∧
      ∃ k, some ⟨1, 17⟩ = some (Mark.after ("si (a) x = f(1, ;".toList.take k)) ∧
        ∃ t program,
          parse (String.ofList ("si (a) x = f(1, ;".toList.take k) ++ t) = .ok program := by
  have h : parse "si (a) x = f(1, ;" = .error ⟨.unexpected [';'], some ⟨1, 17⟩⟩ := by rfl
  obtain ⟨k, _, hmark, ⟨_, hextended⟩ | ⟨hcause, _⟩⟩ :=
    parse_error_first h fun ts d hscans t ht _ => (hscans.length_le t ht).trans (by decide)
  · exact ⟨h, k, hmark, hextended⟩
  · cases hcause

end Guion
