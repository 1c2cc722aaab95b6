import Guion.Proofs.Grammar.State

namespace Guion.Parse

open Grammar

theorem literal?_decimal {whole fraction : List Char} {mark : Mark}
    (h : ∀ d ∈ whole, Double.isDigit d) :
    literal? ⟨.decimal, whole ++ '.' :: fraction, mark⟩ =
      some (.decimal (Double.ofDigits whole fraction 0)) := by
  have hw : (whole ++ '.' :: fraction).takeWhile Double.isDigit = whole := by
    rw [List.takeWhile_append_of_pos h, List.takeWhile_cons_of_neg (by decide), List.append_nil]
  simp [literal?, hw, List.drop_length_add_append]

theorem literal?_denotes {t : Token} {l : Literal} (hm : t.terminal.Matches t.text)
    (h : literal? t = some l) : Denotes t l := by
  obtain ⟨terminal, text, mark⟩ := t
  cases hm with
  | name => cases h
  | integer =>
    cases h
    exact .integer rfl
  | decimal hw _ =>
    cases hw with
    | integer _ hw =>
      cases (literal?_decimal hw).symm.trans h
      exact .decimal rfl rfl hw
  | text hi =>
    cases h
    exact .text rfl (by simp)
  | keyword k =>
    cases k with
    | verdadero =>
      cases h
      exact .verdadero rfl
    | falso =>
      cases h
      exact .falso rfl
    | _ => cases h
  | symbol => cases h

theorem need_of_beginsExpr {pending : List Pending} (h : beginsExpr pending) :
    need pending = 0 := by
  unfold beginsExpr at h
  split at h
  · cases h
  · cases h
  next h1 h2 =>
    cases pending with
    | nil => rfl
    | cons p rest =>
      cases p with
      | right op left => exact absurd rfl (h1 op left rest)
      | unary op start => exact absurd rfl (h2 op start rest)
      | _ => rfl

section

variable {slot : Category} {hole : Hole} {pending : List Pending} {t : Token} {focus : Focus}
  {us vs : List Token}

theorem operand?_spans (hh : hole.Spans slot us) (hp : Awaits pending vs)
    (hm : t.terminal.Matches t.text) (h : operand? hole pending t = some focus) :
    focus.Spans slot (us ++ (vs ++ [t])) := by
  rw [operand?] at h
  split at h
  next l hl =>
    cases h
    exact .operand hh hp (.primary (.literal (literal?_denotes hm hl))) .closed
  next =>
    split at h
    next op hop =>
      cases h
      exact .want .operand hh (.unary hp (mem_signs hop))
    next =>
      split at h
      next ht =>
        cases h
        exact .operand hh hp (.primary (.name ht)) (.name ht need_of_beginsExpr)
      next ht =>
        cases h
        exact .want .operand hh (.group hp ht)
      next ht =>
        cases h
        exact .leer hh hp ht
      next => cases h

theorem statement?_spans (hslot : slot.holds .statement) (h : statement? t = some focus) :
    focus.Spans slot [t] := by
  rw [statement?] at h
  split at h <;> cases h
  next ht => exact .si hslot ht
  next ht => exact .mientras hslot ht
  next ht => exact .para hslot ht
  next ht => exact .returning hslot ht
  next ht => exact .want .operand (.printed hslot ht) .nil
  next ht => exact .romper hslot ht
  next ht => exact .continuar hslot ht

end

theorem typeOf?_eq_some {t : Token} {kind : Kind} (h : typeOf? t = some kind) :
    t.terminal = .keyword (.type kind) := by
  rw [typeOf?] at h
  split at h
  next ht =>
    cases h
    exact ht
  next => cases h

theorem Before.snoc {before : List Param} {kind : Kind} {u v : Token} {us : List Token}
    (h : Before before us)
    (hu : u.terminal = .keyword (.type kind)) (hv : v.terminal = .name) :
    Parameters (⟨u.mark.pos, .known kind, textOf v⟩ :: before).reverse (us ++ [u, v]) := by
  cases h with
  | none => exact .one hu hv
  | some hp ht => simpa [textOf] using Parameters.next hp ht hu hv

namespace State

variable {st next : State} {slot : Category} {s : Stmt} {e : Operand} {hole : Hole}
  {pending : List Pending} {t : Token} {ts us vs ws : List Token}

theorem spans_focus {focus : Focus} (ho : Opens st.before st.around slot ts)
    (hf : focus.Spans slot us) : { st with focus := focus : State }.Spans (ts ++ us) :=
  ⟨slot, ts, us, rfl, ho, hf⟩

theorem finish_spans (ho : Opens st.before st.around slot ts) (hslot : slot.holds .statement)
    (hs : (Phrase.one .statement s).Derives us) (hclosed : s.endsOpen = false) :
    (st.finish s).Spans (ts ++ us) :=
  settle_spans ho (hs.widen hslot) hclosed

theorem declared_spans {owner : Owner} (ho : Opens st.before st.around slot ts)
    (hw : owner.Spans slot us) (hs : (Phrase.one .binding s).Derives vs) :
    (st.declared owner s).Spans (ts ++ (us ++ vs)) := by
  cases hw with
  | body =>
    have hr : (settle true st.before s st.around).Ready (ts ++ vs) :=
      settle_declaration ho (.binding hs)
    exact ⟨_, ts ++ vs, [], by simp, hr.1, .ready .declaration⟩
  | head hslot ht hu =>
    have hf := Focus.Spans.want .afterDeclaration (.forTest hslot (.intro ht hu hs)) .nil
    rw [List.append_nil] at hf
    exact spans_focus ho hf

theorem openBlock_spans (ho : Opens st.before st.around slot ts) (hslot : slot.holds .block)
    (ht : t.terminal = .symbol .braceOpen) : (st.openBlock t.mark).Spans (ts ++ [t]) := by
  have h : Opens st.before (.block t.mark [] :: st.around) .declaration (ts ++ [t]) :=
    .block ho hslot ht .nil
  exact ⟨_, _, [], by simp, h, .ready .opened⟩

theorem closeBlock?_spans (ho : Opens st.before st.around slot ts)
    (ht : t.terminal = .symbol .braceClose) (h : st.closeBlock? = some next) :
    next.Spans (ts ++ [t]) := by
  rw [closeBlock?] at h
  split at h
  next start done up hup =>
    cases h
    rw [hup] at ho
    cases ho with
    | block ho hslot hopen hd =>
      have hb := (Phrase.Derives.braces hopen hd ht).widen hslot
      rw [List.append_assoc]
      exact settle_spans ho hb rfl
  next => cases h

theorem wanted?_spans (ho : Opens st.before st.around slot ts) (hh : hole.Spans slot us)
    (hp : Awaits pending vs) (hm : t.terminal.Matches t.text)
    (h : st.wanted? hole pending t = some next) : next.Spans (ts ++ (us ++ (vs ++ [t]))) := by
  obtain ⟨focus, hf, rfl⟩ := Option.map_eq_some_iff.mp h
  exact spans_focus ho (operand?_spans hh hp hm hf)

theorem inStatement?_spans (ho : Opens st.before st.around slot ts) (hslot : slot.holds .statement)
    (hm : t.terminal.Matches t.text) (h : st.inStatement? t = some next) :
    next.Spans (ts ++ [t]) := by
  rw [inStatement?] at h
  split at h
  next ht =>
    cases h
    exact openBlock_spans ho (Category.holds_block hslot) ht
  next =>
    obtain ⟨focus, hf, rfl⟩ := Option.map_eq_some_iff.mp h
    obtain hf | ⟨_, hf⟩ := Option.or_eq_some_iff.mp hf
    · exact spans_focus ho (statement?_spans hslot hf)
    · exact spans_focus ho (operand?_spans (.statement hslot) .nil hm hf)

theorem inBody?_spans (ho : Opens st.before st.around .declaration ts)
    (hm : t.terminal.Matches t.text) (h : st.inBody? t = some next) : next.Spans (ts ++ [t]) := by
  rw [inBody?] at h
  split at h
  next kind hk =>
    cases h
    exact spans_focus ho (.typed .body (typeOf?_eq_some hk))
  next =>
    split at h
    next ht =>
      cases h
      exact spans_focus ho (.firstName ht)
    next =>
      split at h
      next ht => exact closeBlock?_spans ho ht h
      next => exact inStatement?_spans ho rfl hm h

theorem atSemicolon?_spans (ho : Opens st.before st.around slot ts) (hh : hole.Spans slot us)
    (he : e.Spans 0 vs) (ht : t.terminal = .symbol .semicolon)
    (h : st.atSemicolon? hole e = some next) : next.Spans (ts ++ (us ++ (vs ++ [t]))) := by
  have hd := he.at_layer .assignment
  cases hh with
  | statement hslot =>
    cases h
    rw [← he.begins.start]
    exact finish_spans ho hslot (.expr hd ht) rfl
  | printed hslot hw =>
    cases h
    exact finish_spans ho hslot (.print hw hd ht) rfl
  | returned hslot hw =>
    cases h
    exact finish_spans ho hslot (.returns hw hd ht) rfl
  | initial hw hk hn ha =>
    cases h
    simpa [textOf] using declared_spans ho hw (.initial hk hn ha hd ht)
  | forTest hslot hi =>
    cases h
    simpa using spans_focus ho (.want .operand (.forUpdate hslot (.intro hi hd ht)) .nil)
  | branchTest => cases h
  | whileTest => cases h
  | forUpdate => cases h

theorem atClose?_spans (ho : Opens st.before st.around slot ts) (hh : hole.Spans slot us)
    (he : e.Spans 0 vs) (ht : t.terminal = .symbol .parenClose)
    (h : st.atClose? hole e = some next) : next.Spans (ts ++ (us ++ (vs ++ [t]))) := by
  have hd := he.at_layer .assignment
  cases hh with
  | branchTest hslot hw hu =>
    cases h
    exact ⟨_, _, [], by simp, .yes ho hslot (.intro hw hu hd ht), .statement⟩
  | whileTest hslot hw hu =>
    cases h
    exact ⟨_, _, [], by simp, .whileBody ho hslot (.intro hw hu hd ht), .statement⟩
  | forUpdate hslot hb =>
    cases h
    exact ⟨_, _, [], by simp, .forBody ho hslot (.intro hb hd ht), .statement⟩
  | statement => cases h
  | printed => cases h
  | returned => cases h
  | initial => cases h
  | forTest => cases h

theorem close?_spans (ho : Opens st.before st.around slot ts) (hh : hole.Spans slot us)
    (hr : Remains 0 vs (collapse pending e)) (ht : t.terminal = .symbol .parenClose)
    (h : st.close? hole pending e = some next) : next.Spans (ts ++ (us ++ (vs ++ [t]))) := by
  obtain ⟨ps, es, rfl, hp, he⟩ := hr
  have hd := he.at_layer .assignment
  rw [close?] at h
  split at h
  next start rest e' hc =>
    rw [hc] at hp he hd
    cases h
    cases hp with
    | group hp hopen =>
      have hg := Operand.Spans.primary (.group hopen hd ht)
      simpa using spans_focus ho (.operand hh hp hg .closed)
  next name start before rest e' hc =>
    rw [hc] at hp he hd
    cases h
    cases hp with
    | call hp hn hopen hb =>
      have hg := Operand.Spans.primary (.call hn hopen (hb.arguments he) ht)
      simpa [textOf] using spans_focus ho (.operand hh hp hg .closed)
  next e' hc =>
    rw [hc] at hp he
    cases hp
    exact atClose?_spans ho hh he ht h
  next => cases h

theorem nextArgument?_spans (ho : Opens st.before st.around slot ts) (hh : hole.Spans slot us)
    (hr : Remains 0 vs (collapse pending e)) (ht : t.terminal = .symbol .comma)
    (h : st.nextArgument? hole pending e = some next) :
    next.Spans (ts ++ (us ++ (vs ++ [t]))) := by
  obtain ⟨ps, es, rfl, hp, he⟩ := hr
  rw [nextArgument?] at h
  split at h
  next name start before rest e' hc =>
    rw [hc] at hp he
    cases h
    cases hp with
    | call hp hn hopen hb =>
      have ha := Awaits.call hp hn hopen (.some (hb.arguments he) ht)
      simpa using spans_focus ho (.want .operand hh ha)
  next => cases h

theorem endExpr?_spans (ho : Opens st.before st.around slot ts) (hh : hole.Spans slot us)
    (hr : Remains 0 vs (collapse pending e)) (ht : t.terminal = .symbol .semicolon)
    (h : st.endExpr? hole pending e = some next) : next.Spans (ts ++ (us ++ (vs ++ [t]))) := by
  obtain ⟨ps, es, rfl, hp, he⟩ := hr
  rw [endExpr?] at h
  split at h
  next e' hc =>
    rw [hc] at hp he
    cases hp
    exact atSemicolon?_spans ho hh he ht h
  next => cases h

theorem afterName?_spans {name : String} {assignable : Bool}
    (ho : Opens st.before st.around slot ts) (hh : hole.Spans slot us) (hp : Awaits pending vs)
    (hb : Begins ws e.start) (hf : (Form.name name assignable).Spans pending ws)
    (h : st.afterName? name assignable e hole pending t = some next) :
    next.Spans (ts ++ (us ++ (vs ++ (ws ++ [t])))) := by
  obtain ⟨start, expr⟩ := e
  cases hf with
  | name hn hneed =>
    cases hb
    rw [afterName?] at h
    split at h
    next ht =>
      cases h
      exact spans_focus ho (.want .firstArgument hh (.call hp hn ht .none))
    next =>
      split at h
      next ht =>
        cases h
        exact spans_focus ho (.want .operand hh (.assign hp (hneed ht.2) hn ht.1))
      next => cases h

theorem afterOperand?_spans {form : Form} (ho : Opens st.before st.around slot ts)
    (hh : hole.Spans slot us) (hp : Awaits pending vs) (he : e.Spans 9 ws)
    (hf : form.Spans pending ws) (h : st.afterOperand? form e hole pending t = some next) :
    next.Spans (ts ++ (us ++ (vs ++ (ws ++ [t])))) := by
  have hneed := hp.need_le
  have hr := collapse_remains hp (he.mono (by omega))
  unfold afterOperand? at h
  split at h
  next op hop =>
    obtain ⟨rest, hc, rfl⟩ := Option.map_eq_some_iff.mp h
    simpa using spans_focus ho (.want .operand hh (connect?_awaits hop hc hp he))
  next =>
    split at h
    next ht => simpa using close?_spans ho hh hr ht h
    next =>
      split at h
      next ht => simpa using nextArgument?_spans ho hh hr ht h
      next =>
        split at h
        next ht => simpa using endExpr?_spans ho hh hr ht h
        next =>
          split at h
          next => exact afterName?_spans ho hh hp he.begins hf h
          next => cases h

theorem afterYes?_spans {yes : Stmt} (ho : Opens st.before st.around .statement ts)
    (hy : (Phrase.one .statement yes).Derives us) (hclosed : yes.endsOpen = false)
    (hm : t.terminal.Matches t.text) (h : st.afterYes? yes t = some next) :
    next.Spans (ts ++ (us ++ [t])) := by
  rw [afterYes?] at h
  split at h
  next ht =>
    split at h
    next start test up hup =>
      cases h
      rw [hup] at ho
      cases ho with
      | yes ho hslot hh =>
        exact ⟨_, _, [], by simp, .no ho hslot hh hy hclosed ht, .statement⟩
    next => cases h
  next =>
    rw [← List.append_assoc]
    exact inBody?_spans (settle_ready ho hy).1 hm h

theorem afterNamed?_spans {owner : Owner} {kind : Kind} {u v : Token}
    (ho : Opens st.before st.around slot ts) (hw : owner.Spans slot us)
    (hk : u.terminal = .keyword (.type kind)) (hn : v.terminal = .name)
    (h : st.afterNamed? owner u.mark kind (textOf v) t = some next) :
    next.Spans (ts ++ (us ++ [u, v, t])) := by
  rw [afterNamed?] at h
  split at h
  next ht =>
    cases h
    exact declared_spans ho hw (.declare hk hn ht)
  next =>
    split at h
    next ht =>
      cases h
      simpa using spans_focus ho (.want .operand (.initial hw hk hn ht) .nil)
    next => cases h

theorem afterFirstOpen?_spans {u v : Token} (ho : Opens st.before st.around .declaration ts)
    (hu : u.terminal = .name) (hv : v.terminal = .symbol .parenOpen)
    (hm : t.terminal.Matches t.text)
    (h : st.afterFirstOpen? u.mark (textOf u) t = some next) : next.Spans (ts ++ [u, v, t]) := by
  rw [afterFirstOpen?] at h
  split at h
  next ht =>
    cases h
    exact spans_focus ho (.firstEmpty hu hv ht)
  next =>
    split at h
    next kind hk =>
      cases h
      exact spans_focus ho (.paramType hu hv .none (typeOf?_eq_some hk))
    next =>
      exact wanted?_spans ho (.statement rfl) (.call .nil hu hv .none) hm h

theorem openFunction_spans {mark : Mark} {name : String} {params : List Param}
    (ho : Opens st.before st.around .declaration ts) (hs : Signature mark name params us)
    (ht : t.terminal = .symbol .braceOpen) :
    (st.openFunction mark name params t.mark).Spans (ts ++ (us ++ [t])) := by
  rw [← List.append_assoc]
  exact openBlock_spans (.function ho hs) rfl ht

theorem afterParam?_spans {u v : Token} {before : List Param}
    (ho : Opens st.before st.around .declaration ts) (hu : u.terminal = .name)
    (hv : v.terminal = .symbol .parenOpen) (hp : Parameters before.reverse us)
    (h : st.afterParam? u.mark (textOf u) before t = some next) :
    next.Spans (ts ++ (u :: v :: (us ++ [t]))) := by
  rw [afterParam?] at h
  split at h
  next ht =>
    cases h
    exact spans_focus ho (.param hu hv (.some hp ht))
  next =>
    split at h
    next ht =>
      cases h
      exact spans_focus ho (.functionHead (.params hu hv hp ht))
    next => cases h

theorem firstArgument?_spans (ho : Opens st.before st.around slot ts) (hh : hole.Spans slot us)
    (hp : Awaits pending vs) (hm : t.terminal.Matches t.text)
    (h : st.firstArgument? hole pending t = some next) :
    next.Spans (ts ++ (us ++ (vs ++ [t]))) := by
  unfold firstArgument? at h
  split at h
  next name start rest =>
    split at h
    next ht =>
      cases h
      cases hp with
      | call hp hn hopen hb =>
        obtain rfl := hb.eq_nil
        have hc := Operand.Spans.primary (.callNone hn hopen ht)
        simpa [textOf] using spans_focus ho (.operand hh hp hc .closed)
    next => exact wanted?_spans ho hh hp hm h
  next => cases h

theorem expect?_eq_some {terminal : Terminal} (h : expect? terminal st t = some next) :
    t.terminal = terminal ∧ next = st := by
  rw [expect?] at h
  split at h
  next ht =>
    cases h
    exact ⟨ht, rfl⟩
  next => cases h

/-- One token: what was read with it is what was read before and the token. -/
theorem next?_spans (hs : st.Spans ts) (hm : t.terminal.Matches t.text)
    (h : st.next? t = some next) : next.Spans (ts ++ [t]) := by
  obtain ⟨before, around, focus⟩ := st
  obtain ⟨slot, us, vs, rfl, ho, hf⟩ := hs
  rw [List.append_assoc]
  rw [next?] at h
  cases hf with
  | ready => exact inBody?_spans ho hm h
  | orElse hy hclosed => exact afterYes?_spans ho hy hclosed hm h
  | statement => exact inStatement?_spans ho rfl hm h
  | typed hw hk =>
    obtain ⟨ht, rfl⟩ := expect?_eq_some h
    simpa using spans_focus ho (.named hw hk ht)
  | named hw hk hn => simpa using afterNamed?_spans ho hw hk hn h
  | si hslot hw =>
    obtain ⟨ht, rfl⟩ := expect?_eq_some h
    have hh := Focus.Spans.want .operand (.branchTest hslot hw ht) .nil
    exact spans_focus ho hh
  | mientras hslot hw =>
    obtain ⟨ht, rfl⟩ := expect?_eq_some h
    have hh := Focus.Spans.want .operand (.whileTest hslot hw ht) .nil
    exact spans_focus ho hh
  | para hslot hw =>
    obtain ⟨ht, rfl⟩ := expect?_eq_some h
    exact spans_focus ho (.forHead (.head hslot hw ht))
  | forHead hw =>
    obtain ⟨kind, hk, rfl⟩ := Option.map_eq_some_iff.mp h
    exact spans_focus ho (.typed hw (typeOf?_eq_some hk))
  | romper hslot hw =>
    obtain ⟨ht, rfl⟩ := expect?_eq_some h
    exact finish_spans ho hslot (.breaks hw ht) rfl
  | continuar hslot hw =>
    obtain ⟨ht, rfl⟩ := expect?_eq_some h
    exact finish_spans ho hslot (.continues hw ht) rfl
  | returning hslot hw =>
    dsimp only at h
    split at h
    next ht =>
      cases h
      exact finish_spans ho hslot (.returnsNone hw ht) rfl
    next => exact wanted?_spans ho (.returned hslot hw) .nil hm h
  | firstName hn =>
    dsimp only at h
    split at h
    -- behind the bracket parameters may follow as well as arguments
    next ht =>
      cases h
      exact spans_focus ho (.firstOpen hn ht)
    next =>
      exact afterOperand?_spans ho (.statement rfl) .nil (.primary (.name hn))
        (.name hn fun _ => rfl) h
  | firstOpen hn hu => exact afterFirstOpen?_spans ho hn hu hm h
  | firstEmpty hn hu hv =>
    dsimp only at h
    split at h
    next ht =>
      cases h
      exact openFunction_spans ho (.empty hn hu hv) ht
    next =>
      exact afterOperand?_spans ho (.statement rfl) .nil (.primary (.callNone hn hu hv)) .closed h
  | param hn hu hb =>
    obtain ⟨kind, hk, rfl⟩ := Option.map_eq_some_iff.mp h
    exact spans_focus ho (.paramType hn hu hb (typeOf?_eq_some hk))
  | paramType hn hu hb hk =>
    obtain ⟨ht, rfl⟩ := expect?_eq_some h
    simpa using spans_focus ho (.paramName hn hu (hb.snoc hk ht))
  | paramName hn hu hp => exact afterParam?_spans ho hn hu hp h
  | functionHead hsig =>
    obtain ⟨ht, rfl⟩ := expect?_eq_some h
    exact openFunction_spans ho hsig ht
  | want want hh hp =>
    rw [List.append_assoc]
    cases want with
    | firstArgument => exact firstArgument?_spans ho hh hp hm h
    | operand => exact wanted?_spans ho hh hp hm h
    | afterDeclaration => exact wanted?_spans ho hh hp hm h
  | leer hh hp hw =>
    obtain ⟨ht, rfl⟩ := expect?_eq_some h
    simpa using spans_focus ho (.reader hh hp hw ht)
  | reader hh hp hw hu =>
    obtain ⟨ht, rfl⟩ := expect?_eq_some h
    simpa using spans_focus ho (.operand hh hp (.primary (.read hw hu ht)) .closed)
  | operand hh hp he hform => simpa using afterOperand?_spans ho hh hp he hform h

end State

end Guion.Parse
