import Guion.Parse
import Guion.Proofs.Grammar
import Mathlib.Data.List.TakeWhile

namespace Guion

open Double (isDigit)

theorem take_span (p : Char → Bool) (cs : List Char) :
    cs.take (cs.takeWhile p).length = cs.takeWhile p :=
  (List.prefix_iff_eq_take.mp (List.takeWhile_prefix p)).symm

theorem commentEnd?_eq_some {cs : List Char} {n : Nat} (h : commentEnd? cs = some n) :
    ∃ inner, cs.take n = inner ++ ['*', '/'] ∧ ¬ ['*', '/'] <:+: inner ++ ['*'] := by
  fun_induction commentEnd? cs generalizing n with
  | case1 cs =>
    obtain rfl := Option.some.inj h
    exact ⟨[], rfl, by decide⟩
  | case2 c cs hc ih =>
    obtain ⟨k, hk, rfl⟩ := Option.map_eq_some_iff.mp h
    obtain ⟨inner, ht, hi⟩ := ih hk
    refine ⟨c :: inner, by simp [ht], ?_⟩
    rw [List.cons_append, List.infix_cons_iff]
    rintro (hp | hp)
    · obtain ⟨rfl, hs⟩ := List.cons_prefix_cons.mp hp
      have hs' : ['/'] <+: cs.take k := hs.trans ⟨['/'], by simp [ht]⟩
      obtain ⟨rest, rfl⟩ := hs'.trans (List.take_prefix k cs)
      exact hc rest rfl rfl
    · exact hi hp
  | case3 => cases h

theorem layout?_isLayout {cs : List Char} {n : Nat} (h : layout? cs = some n) :
    IsLayout (cs.take n) := by
  unfold layout? at h
  split at h
  next cs =>
    obtain ⟨k, hk, rfl⟩ := Option.map_eq_some_iff.mp h
    obtain ⟨inner, ht, hi⟩ := commentEnd?_eq_some hk
    simpa [ht] using IsLayout.block hi
  next cs =>
    obtain rfl := Option.some.inj h
    rw [Nat.add_comm, List.take_succ_cons, List.take_succ_cons, take_span]
    exact .line fun c hc => by simpa using List.mem_takeWhile_imp hc
  next c cs _ _ =>
    split at h
    next hc =>
      obtain rfl := Option.some.inj h
      rw [Nat.add_comm, List.take_succ_cons, take_span]
      refine .space (List.cons_ne_nil _ _) fun d hd => ?_
      obtain rfl | hd := List.mem_cons.mp hd
      · exact hc
      · exact List.mem_takeWhile_imp hd
    next => cases h
  next => cases h

theorem integer_matches {cs : List Char} (h : integerLength cs ≠ 0) :
    Terminal.integer.Matches (cs.take (integerLength cs)) := by
  unfold integerLength at h ⊢
  rw [take_span]
  exact .integer (fun hn => h (by rw [hn]; rfl)) fun _ => List.mem_takeWhile_imp

theorem name_matches {cs : List Char} (h : nameLength cs ≠ 0) :
    Terminal.name.Matches (cs.take (nameLength cs)) := by
  unfold nameLength at h ⊢
  split
  next c cs =>
    split
    next hc =>
      rw [Nat.add_comm, List.take_succ_cons, take_span]
      exact .name hc fun _ => List.mem_takeWhile_imp
    next hc => simp [hc] at h
  next => exact absurd rfl h

theorem decimal_matches {cs : List Char} {n : Nat} (h : decimalLength? cs = some n) :
    Terminal.decimal.Matches (cs.take n) := by
  unfold decimalLength? at h
  dsimp only at h
  split at h
  next rest hr =>
    split at h
    next => cases h
    next hne =>
      rw [not_or] at hne
      obtain rfl := Option.some.inj h
      rw [Nat.add_assoc, List.take_add, hr, Nat.add_comm 1, List.take_succ_cons]
      exact .decimal (integer_matches hne.1) (integer_matches hne.2)
  next => cases h

theorem text_matches {cs : List Char} {n : Nat} (h : textLength? cs = some n) :
    Terminal.text.Matches (cs.take n) := by
  unfold textLength? at h
  split at h
  next cs =>
    dsimp only at h
    split at h
    next rest hr =>
      obtain rfl := Option.some.inj h
      rw [List.take_succ_cons, List.take_add, take_span, hr]
      exact .text fun c hc => by simpa using List.mem_takeWhile_imp hc
    next => cases h
  next => cases h

theorem word_matches {accepts : Terminal → Bool} {word : List Char}
    (h : Terminal.name.Matches word) : (wordTerminal accepts word).Matches word := by
  unfold wordTerminal
  split
  next k hk =>
    have hw := List.find?_some hk
    rw [Bool.and_eq_true, beq_iff_eq] at hw
    exact hw.2 ▸ .keyword k
  next => exact h

theorem take_of_isPrefixOf {ds cs : List Char} (h : ds.isPrefixOf cs) : cs.take ds.length = ds :=
  (List.prefix_iff_eq_take.mp (List.isPrefixOf_iff_prefix.mp h)).symm

theorem lexeme?_matches {accepts : Terminal → Bool} {cs : List Char} {terminal : Terminal} {n : Nat}
    (h : lexeme? accepts cs = some (terminal, n)) : terminal.Matches (cs.take n) := by
  unfold lexeme? at h
  split at h
  next k hk =>
    cases h
    exact decimal_matches (Option.ite_none_right_eq_some.mp hk).2
  next =>
    split at h
    next hn =>
      cases h
      exact word_matches (name_matches hn.2)
    next =>
      split at h
      next k hk =>
        cases h
        exact text_matches (Option.ite_none_right_eq_some.mp hk).2
      next =>
        split at h
        next hi =>
          cases h
          exact integer_matches hi.2
        next =>
          split at h
          next _ k hk =>
            cases h
            have hp := List.find?_some hk
            rw [Bool.and_eq_true] at hp
            rw [take_of_isPrefixOf hp.2]
            exact .keyword k
          next _ _ s _ hs =>
            cases h
            have hp := List.find?_some hs
            rw [Bool.and_eq_true] at hp
            rw [take_of_isPrefixOf hp.2]
            exact .symbol s
          next => cases h

namespace Parse

/-- What the scanner reads is layout and tokens, and the states that it goes through are those of
its tokens. -/
theorem scan_splits {fuel : Nat} {st : State} {mark : Mark} {seen : List Token} {cs : List Char}
    {program : Program} {tokens : List Token}
    (h : scan fuel st mark seen cs = .ok (program, tokens)) :
    ∃ ts last, tokens = seen.reverse ++ ts ∧ Splits mark cs ts ∧
      ts.foldlM State.next? st = some last ∧ last.program? = some program := by
  induction fuel generalizing st mark seen cs with
  | zero => cases h
  | succ fuel ih =>
    unfold scan at h
    split at h
    -- layout is passed over, and the state stays
    next n hn =>
      obtain ⟨ts, last, ht, hs, hl, hp⟩ := ih h
      refine ⟨ts, last, ht, ?_, hl, hp⟩
      rw [← List.take_append_drop n cs]
      exact .layout (layout?_isLayout hn) hs
    next hn =>
      split at h
      next =>
        split at h
        next p hp =>
          cases h
          exact ⟨[], st, by simp, .nil, rfl, hp⟩
        next => cases h
      next c cs =>
        split at h
        next terminal n hx =>
          dsimp only at h
          split at h
          next st' hst =>
            obtain ⟨ts, last, ht, hs, hl, hp⟩ := ih h
            refine ⟨⟨terminal, (c :: cs).take n, mark⟩ :: ts, last, by simp [ht], ?_, ?_, hp⟩
            · have ht := Splits.token (t := ⟨terminal, (c :: cs).take n, mark⟩)
                (lexeme?_matches hx) hs
              rwa [List.take_append_drop] at ht
            · rw [List.foldlM_cons, hst]
              exact hl
          next => cases h
        next => split at h <;> cases h

end Parse

end Guion
