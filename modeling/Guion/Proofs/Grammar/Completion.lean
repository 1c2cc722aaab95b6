import Guion.Proofs.Grammar.Scanning
import Guion.Proofs.Printing

namespace Guion

namespace Parse

open Grammar

def idle : List Terminal := [.keyword .romper, .symbol .semicolon]

def closers : List Pending → List Terminal
  | .group _ :: rest => .symbol .parenClose :: closers rest
  | .call _ _ _ :: rest => .symbol .parenClose :: closers rest
  | _ :: rest => closers rest
  | [] => []

def braces : List Enclosing → List Terminal
  | .block _ _ :: up => .symbol .braceClose :: braces up
  | _ :: up => braces up
  | [] => []

def Owner.rest : Owner → List Terminal
  | .body => []
  | .head _ => .name :: .symbol .semicolon :: .name :: .symbol .parenClose :: idle

def Hole.rest : Hole → List Terminal
  | .initial owner _ _ _ => .symbol .semicolon :: owner.rest
  | .branchTest _ | .whileTest _ | .forUpdate _ _ _ => .symbol .parenClose :: idle
  | .forTest _ _ => .symbol .semicolon :: .name :: .symbol .parenClose :: idle
  | _ => [.symbol .semicolon]

def Focus.rest : Focus → List Terminal
  | .ready _ | .statement => idle
  | .orElse _ => []
  | .typed owner _ _ => .name :: .symbol .semicolon :: owner.rest
  | .named owner _ _ _ => .symbol .semicolon :: owner.rest
  | .head .para start =>
    .symbol .parenOpen :: .keyword (.type .entero) :: .name :: .symbol .semicolon ::
      (Owner.head start).rest
  | .head _ _ => .symbol .parenOpen :: .name :: .symbol .parenClose :: idle
  | .forHead start =>
    .keyword (.type .entero) :: .name :: .symbol .semicolon :: (Owner.head start).rest
  | .jump _ | .returning _ | .firstName _ _ | .firstEmpty _ _ => [.symbol .semicolon]
  | .firstOpen _ _ => [.symbol .parenClose, .symbol .semicolon]
  | .param _ _ _ =>
    [.keyword (.type .entero), .name, .symbol .parenClose, .symbol .braceOpen, .symbol .braceClose]
  | .paramType _ _ _ _ _ =>
    [.name, .symbol .parenClose, .symbol .braceOpen, .symbol .braceClose]
  | .paramName _ _ _ => [.symbol .parenClose, .symbol .braceOpen, .symbol .braceClose]
  | .functionHead _ _ _ => [.symbol .braceOpen, .symbol .braceClose]
  | .want _ hole pending => .name :: (closers pending ++ hole.rest)
  | .reader false _ hole pending =>
    .symbol .parenOpen :: .symbol .parenClose :: (closers pending ++ hole.rest)
  | .reader true _ hole pending => .symbol .parenClose :: (closers pending ++ hole.rest)
  | .operand _ _ hole pending => closers pending ++ hole.rest

/-- Tokens that make a program of what was read. -/
def State.completion (st : State) : List Terminal :=
  st.focus.rest ++ braces st.around

section

variable {ts us vs ws : List Token} {slot : Category} {mark : Mark} {s : Stmt} {e : Operand}

/-- Closing brackets finish an expression: what waits for the operand takes it, since it binds
tightly enough. -/
theorem Awaits.completed {pending : List Pending} (h : Awaits pending us)
    (he : e.Spans (need pending) vs) (hws : ws.map Token.terminal = closers pending) :
    ∃ whole, (Term.expr .assignment whole).Derives (us ++ (vs ++ ws)) := by
  induction h generalizing e vs ws with
  | nil =>
    obtain rfl := List.map_eq_nil_iff.mp hws
    exact ⟨e.expr, by simpa using he.at_layer .assignment⟩
  | right hr hn hop hl ih =>
    rw [need, Layer.level_of_mem hop] at he
    simpa using ih ((Operand.Spans.join hop hl he).mono hn) hws
  | unary hr hop ih =>
    simpa using ih ((Operand.Spans.sign hop he).mono hr.need_le) hws
  | assign hr hn ht hu ih =>
    simpa using ih ((Operand.Spans.assign ht hu he).mono (Nat.le_of_eq hn)) hws
  | group hr ht ih =>
    obtain ⟨u, ws, rfl, hu, hws⟩ := List.map_eq_cons_iff.mp hws
    have hgroup := Operand.Spans.primary (.group ht (he.at_layer .assignment) hu)
    have hneed := hr.need_le
    simpa using ih (hgroup.mono (by omega)) hws
  | call hr ht hu hb ih =>
    obtain ⟨v, ws, rfl, hv, hws⟩ := List.map_eq_cons_iff.mp hws
    have hcall := Operand.Spans.primary (.call ht hu (hb.arguments he) hv)
    have hneed := hr.need_le
    simpa using ih (hcall.mono (by omega)) hws

theorem name_derives {t : Token} (ht : t.terminal = .name) :
    (Term.expr .assignment (.name t.mark.pos (String.ofList t.text))).Derives [t] :=
  (Term.Derives.name ht).loosen (by decide)

theorem call_derives {t u v : Token} (ht : t.terminal = .name)
    (hu : u.terminal = .symbol .parenOpen) (hv : v.terminal = .symbol .parenClose) :
    (Term.expr .assignment (.call t.mark.pos (String.ofList t.text) [])).Derives [t, u, v] :=
  (Term.Derives.callNone ht hu hv).loosen (by decide)

theorem idle_derives (hws : ws.map Token.terminal = idle) :
    ∃ s, (Phrase.one .statement s).Derives ws := by
  simp only [idle, List.map_eq_cons_iff, List.map_eq_nil_iff] at hws
  obtain ⟨t, _, rfl, ht, u, _, rfl, hu, rfl⟩ := hws
  exact ⟨_, .breaks ht hu⟩

theorem Tested.si_completed {test : Expr} (h : Tested .si mark test ts)
    (hws : ws.map Token.terminal = idle) : ∃ s, (Phrase.one .statement s).Derives (ts ++ ws) := by
  obtain ⟨s, hs⟩ := idle_derives hws
  exact ⟨_, h.branch hs⟩

theorem Tested.mientras_completed {test : Expr} (h : Tested .mientras mark test ts)
    (hws : ws.map Token.terminal = idle) : ∃ s, (Phrase.one .statement s).Derives (ts ++ ws) := by
  obtain ⟨s, hs⟩ := idle_derives hws
  exact ⟨_, h.whileLoop hs⟩

theorem Bounded.completed {test update : Expr} (h : Bounded mark s test ts)
    (he : (Term.expr .assignment update).Derives us)
    (hws : ws.map Token.terminal = .symbol .parenClose :: idle) :
    ∃ s, (Phrase.one .statement s).Derives (ts ++ (us ++ ws)) := by
  obtain ⟨t, ws, rfl, ht, hws⟩ := List.map_eq_cons_iff.mp hws
  obtain ⟨body, hbody⟩ := idle_derives hws
  exact ⟨_, by simpa using (Stepped.intro h he ht).forLoop hbody⟩

theorem Declared.completed {test : Expr} (h : Declared mark s ts)
    (he : (Term.expr .assignment test).Derives us)
    (hws : ws.map Token.terminal = .symbol .semicolon :: .name :: .symbol .parenClose :: idle) :
    ∃ s, (Phrase.one .statement s).Derives (ts ++ (us ++ ws)) := by
  obtain ⟨t, ws, rfl, ht, hws⟩ := List.map_eq_cons_iff.mp hws
  obtain ⟨u, ws, rfl, hu, hws⟩ := List.map_eq_cons_iff.mp hws
  obtain ⟨s, hs⟩ := (Bounded.intro h he ht).completed (name_derives hu) hws
  exact ⟨s, by simpa using hs⟩

theorem Owner.Spans.completed {owner : Owner} (h : owner.Spans slot ts)
    (hs : (Phrase.one .binding s).Derives us) (hws : ws.map Token.terminal = owner.rest) :
    ∃ s, (Phrase.one slot s).Derives (ts ++ (us ++ ws)) := by
  cases h with
  | body =>
    obtain rfl := List.map_eq_nil_iff.mp hws
    exact ⟨s, by simpa using Phrase.Derives.binding hs⟩
  | head hslot ht hu =>
    obtain ⟨v, ws, rfl, hv, hws⟩ := List.map_eq_cons_iff.mp hws
    obtain ⟨s, hs⟩ := (Declared.intro ht hu hs).completed (name_derives hv) hws
    exact ⟨s, by simpa using hs.widen hslot⟩

theorem Hole.Spans.completed {hole : Hole} {whole : Expr} (h : hole.Spans slot ts)
    (he : (Term.expr .assignment whole).Derives us) (hws : ws.map Token.terminal = hole.rest) :
    ∃ s, (Phrase.one slot s).Derives (ts ++ (us ++ ws)) := by
  cases h with
  | statement hslot =>
    obtain ⟨t, rfl, ht⟩ := List.map_eq_singleton_iff.mp hws
    exact ⟨_, (Phrase.Derives.expr he ht).widen hslot⟩
  | printed hslot hp =>
    obtain ⟨t, rfl, ht⟩ := List.map_eq_singleton_iff.mp hws
    exact ⟨_, (Phrase.Derives.print hp he ht).widen hslot⟩
  | returned hslot hr =>
    obtain ⟨t, rfl, ht⟩ := List.map_eq_singleton_iff.mp hws
    exact ⟨_, (Phrase.Derives.returns hr he ht).widen hslot⟩
  | initial ho ht hu hv =>
    obtain ⟨w, ws, rfl, hw, hws⟩ := List.map_eq_cons_iff.mp hws
    obtain ⟨s, hs⟩ := ho.completed (.initial ht hu hv he hw) hws
    exact ⟨s, by simpa using hs⟩
  | branchTest hslot ht hu =>
    obtain ⟨v, ws, rfl, hv, hws⟩ := List.map_eq_cons_iff.mp hws
    obtain ⟨s, hs⟩ := (Tested.intro ht hu he hv).si_completed hws
    exact ⟨s, by simpa using hs.widen hslot⟩
  | whileTest hslot ht hu =>
    obtain ⟨v, ws, rfl, hv, hws⟩ := List.map_eq_cons_iff.mp hws
    obtain ⟨s, hs⟩ := (Tested.intro ht hu he hv).mientras_completed hws
    exact ⟨s, by simpa using hs.widen hslot⟩
  | forTest hslot hd =>
    obtain ⟨s, hs⟩ := hd.completed he hws
    exact ⟨s, hs.widen hslot⟩
  | forUpdate hslot hb =>
    obtain ⟨s, hs⟩ := hb.completed he hws
    exact ⟨s, hs.widen hslot⟩

theorem Awaits.statement_completed {hole : Hole} {pending : List Pending} (hh : hole.Spans slot ts)
    (hp : Awaits pending us) (he : e.Spans 9 vs)
    (hws : ws.map Token.terminal = closers pending ++ hole.rest) :
    ∃ s, (Phrase.one slot s).Derives (ts ++ (us ++ (vs ++ ws))) := by
  obtain ⟨xs, ys, rfl, hxs, hys⟩ := List.map_eq_append_iff.mp hws
  have hneed := hp.need_le
  obtain ⟨whole, hwhole⟩ := hp.completed (he.mono (by omega)) hxs
  obtain ⟨s, hs⟩ := hh.completed hwhole hys
  exact ⟨s, by simpa using hs⟩

theorem Signature.completed {name : String} {params : List Param}
    (h : Signature mark name params ts)
    (hws : ws.map Token.terminal = [.symbol .braceOpen, .symbol .braceClose]) :
    ∃ s, (Phrase.one .declaration s).Derives (ts ++ ws) := by
  simp only [List.map_eq_cons_iff, List.map_eq_nil_iff] at hws
  obtain ⟨t, _, rfl, ht, u, _, rfl, hu, rfl⟩ := hws
  exact ⟨_, h.function (.braces ht .nil hu)⟩

theorem Focus.Spans.completed {focus : Focus} (h : focus.Spans slot ts)
    (hws : ws.map Token.terminal = focus.rest) :
    ∃ s, (Phrase.one slot s).Derives (ts ++ ws) := by
  cases h with
  | ready after =>
    obtain ⟨s, hs⟩ := idle_derives hws
    exact ⟨s, .statement hs⟩
  | orElse hs _ =>
    obtain rfl := List.map_eq_nil_iff.mp hws
    exact ⟨_, by simpa using hs⟩
  | statement => exact idle_derives hws
  | typed ho ht =>
    obtain ⟨u, ws, rfl, hu, hws⟩ := List.map_eq_cons_iff.mp hws
    obtain ⟨v, ws, rfl, hv, hws⟩ := List.map_eq_cons_iff.mp hws
    obtain ⟨s, hs⟩ := ho.completed (.declare ht hu hv) hws
    exact ⟨s, by simpa using hs⟩
  | named ho ht hu =>
    obtain ⟨v, ws, rfl, hv, hws⟩ := List.map_eq_cons_iff.mp hws
    obtain ⟨s, hs⟩ := ho.completed (.declare ht hu hv) hws
    exact ⟨s, by simpa using hs⟩
  | si hslot ht =>
    obtain ⟨u, ws, rfl, hu, hws⟩ := List.map_eq_cons_iff.mp hws
    obtain ⟨v, ws, rfl, hv, hws⟩ := List.map_eq_cons_iff.mp hws
    exact (Hole.Spans.branchTest hslot ht hu).completed (name_derives hv) hws
  | mientras hslot ht =>
    obtain ⟨u, ws, rfl, hu, hws⟩ := List.map_eq_cons_iff.mp hws
    obtain ⟨v, ws, rfl, hv, hws⟩ := List.map_eq_cons_iff.mp hws
    exact (Hole.Spans.whileTest hslot ht hu).completed (name_derives hv) hws
  | para hslot ht =>
    obtain ⟨u, ws, rfl, hu, hws⟩ := List.map_eq_cons_iff.mp hws
    obtain ⟨v, ws, rfl, hv, hws⟩ := List.map_eq_cons_iff.mp hws
    obtain ⟨w, ws, rfl, hw, hws⟩ := List.map_eq_cons_iff.mp hws
    obtain ⟨z, ws, rfl, hz, hws⟩ := List.map_eq_cons_iff.mp hws
    exact (Owner.Spans.head hslot ht hu).completed (.declare hv hw hz) hws
  | forHead ho =>
    obtain ⟨t, ws, rfl, ht, hws⟩ := List.map_eq_cons_iff.mp hws
    obtain ⟨u, ws, rfl, hu, hws⟩ := List.map_eq_cons_iff.mp hws
    obtain ⟨v, ws, rfl, hv, hws⟩ := List.map_eq_cons_iff.mp hws
    exact ho.completed (.declare ht hu hv) hws
  | romper hslot ht =>
    obtain ⟨u, rfl, hu⟩ := List.map_eq_singleton_iff.mp hws
    exact ⟨_, (Phrase.Derives.breaks ht hu).widen hslot⟩
  | continuar hslot ht =>
    obtain ⟨u, rfl, hu⟩ := List.map_eq_singleton_iff.mp hws
    exact ⟨_, (Phrase.Derives.continues ht hu).widen hslot⟩
  | returning hslot ht =>
    obtain ⟨u, rfl, hu⟩ := List.map_eq_singleton_iff.mp hws
    exact ⟨_, (Phrase.Derives.returnsNone ht hu).widen hslot⟩
  | firstName ht => exact (Hole.Spans.statement rfl).completed (name_derives ht) hws
  | firstOpen ht hu =>
    obtain ⟨v, ws, rfl, hv, hws⟩ := List.map_eq_cons_iff.mp hws
    exact (Hole.Spans.statement rfl).completed (call_derives ht hu hv) hws
  | firstEmpty ht hu hv => exact (Hole.Spans.statement rfl).completed (call_derives ht hu hv) hws
  | param ht hu hb =>
    obtain ⟨v, ws, rfl, hv, hws⟩ := List.map_eq_cons_iff.mp hws
    obtain ⟨w, ws, rfl, hw, hws⟩ := List.map_eq_cons_iff.mp hws
    obtain ⟨z, ws, rfl, hz, hws⟩ := List.map_eq_cons_iff.mp hws
    obtain ⟨s, hs⟩ := (Signature.params ht hu (hb.snoc hv hw) hz).completed hws
    exact ⟨s, by simpa using hs⟩
  | paramType ht hu hb hv =>
    obtain ⟨w, ws, rfl, hw, hws⟩ := List.map_eq_cons_iff.mp hws
    obtain ⟨z, ws, rfl, hz, hws⟩ := List.map_eq_cons_iff.mp hws
    obtain ⟨s, hs⟩ := (Signature.params ht hu (hb.snoc hv hw) hz).completed hws
    exact ⟨s, by simpa using hs⟩
  | paramName ht hu hp =>
    obtain ⟨z, ws, rfl, hz, hws⟩ := List.map_eq_cons_iff.mp hws
    obtain ⟨s, hs⟩ := (Signature.params ht hu hp hz).completed hws
    exact ⟨s, by simpa using hs⟩
  | functionHead hs => exact hs.completed hws
  | want _ hh hp =>
    obtain ⟨t, ws, rfl, ht, hws⟩ := List.map_eq_cons_iff.mp hws
    obtain ⟨s, hs⟩ := hp.statement_completed hh (.primary (.name ht)) hws
    exact ⟨s, by simpa using hs⟩
  | leer hh hp ht =>
    obtain ⟨u, ws, rfl, hu, hws⟩ := List.map_eq_cons_iff.mp hws
    obtain ⟨v, ws, rfl, hv, hws⟩ := List.map_eq_cons_iff.mp hws
    obtain ⟨s, hs⟩ := hp.statement_completed hh (.primary (.read ht hu hv)) hws
    exact ⟨s, by simpa using hs⟩
  | reader hh hp ht hu =>
    obtain ⟨v, ws, rfl, hv, hws⟩ := List.map_eq_cons_iff.mp hws
    obtain ⟨s, hs⟩ := hp.statement_completed hh (.primary (.read ht hu hv)) hws
    exact ⟨s, by simpa using hs⟩
  | operand hh hp he _ =>
    obtain ⟨s, hs⟩ := hp.statement_completed hh he hws
    exact ⟨s, by simpa using hs⟩

theorem Opens.completed {before : List Stmt} {around : List Enclosing}
    (h : Opens before around slot ts) (hs : (Phrase.one slot s).Derives us)
    (hws : ws.map Token.terminal = braces around) :
    ∃ ss, (Phrase.body ss).Derives (ts ++ (us ++ ws)) := by
  induction h generalizing s us ws with
  | top hb =>
    obtain rfl := List.map_eq_nil_iff.mp hws
    exact ⟨_, by simpa using Phrase.Derives.snoc hb hs⟩
  | block ho hslot ht hd ih =>
    obtain ⟨u, ws, rfl, hu, hws⟩ := List.map_eq_cons_iff.mp hws
    have hblock := Phrase.Derives.braces ht (.snoc hd hs) hu
    simpa using ih (hblock.widen hslot) hws
  | function ho hh ih => simpa using ih (hh.function hs) hws
  | yes ho hslot hh ih => simpa using ih ((hh.branch hs).widen hslot) hws
  | no ho hslot hh hy hc ht ih =>
    simpa using ih ((hh.branchElse hy hc ht hs).widen hslot) hws
  | whileBody ho hslot hh ih => simpa using ih ((hh.whileLoop hs).widen hslot) hws
  | forBody ho hslot hh ih => simpa using ih ((hh.forLoop hs).widen hslot) hws

theorem State.Spans.completed {st : State} (h : st.Spans ts)
    (hws : ws.map Token.terminal = st.completion) :
    ∃ ss, (Phrase.body ss).Derives (ts ++ ws) := by
  obtain ⟨slot, us, vs, rfl, ho, hf⟩ := h
  obtain ⟨xs, ys, rfl, hxs, hys⟩ := List.map_eq_append_iff.mp hws
  obtain ⟨s, hs⟩ := hf.completed hxs
  obtain ⟨ss, hss⟩ := ho.completed hs hys
  exact ⟨ss, by simpa using hss⟩

/-- In every state that tokens lead to there are tokens that make a program of them. -/
theorem State.Reads.completed {st : State} (h : State.Reads {} ts st)
    (hts : ∀ t ∈ ts, t.terminal.Matches t.text) (hws : ws.map Token.terminal = st.completion) :
    ∃ last program, st.Reads ws last ∧ last.program? = some program := by
  have hspans : st.Spans ts := State.run_spans State.initial_spans hts h
  obtain ⟨ss, hss⟩ := hspans.completed hws
  obtain ⟨last, hread, hprogram⟩ := hss.reads_program
  exact ⟨last, _, h.rest hread, hprogram⟩

end

end Parse

def Terminal.spelling : Terminal → Lexeme
  | name => ⟨.name, ['x']⟩
  | integer => ⟨.integer, ['0']⟩
  | decimal => ⟨.decimal, ['0', '.', '0']⟩
  | text => ⟨.text, ['"', '"']⟩
  | keyword k => .ofKeyword k
  | symbol s => .ofSymbol s

namespace Terminal

@[simp]
theorem spelling_terminal (c : Terminal) : c.spelling.terminal = c := by
  cases c <;> rfl

theorem spelling_proper (c : Terminal) : c.spelling.Proper := by
  have hzero : Terminal.integer.Matches ['0'] := by
    refine .integer (by decide) fun d hd => ?_
    obtain rfl := List.mem_singleton.mp hd
    rfl
  cases c with
  | name =>
    refine ⟨.name (by decide) nofun, fun _ k => ?_⟩
    cases k with
    | type kind => cases kind <;> decide
    | _ => decide
  | integer => exact ⟨hzero, nofun⟩
  | decimal => exact ⟨.decimal hzero hzero, nofun⟩
  | text =>
    have hempty : Terminal.text.Matches ('"' :: ([] ++ ['"'])) := .text (by simp)
    exact ⟨hempty, nofun⟩
  | keyword k => exact ⟨.keyword k, nofun⟩
  | symbol s => exact ⟨.symbol s, nofun⟩

end Terminal

namespace Parse.State

def ending (st : State) : List Lexeme := st.completion.map Terminal.spelling

theorem ending_proper (st : State) : ∀ l ∈ st.ending, l.Proper := by
  intro l hl
  obtain ⟨c, _, rfl⟩ := List.mem_map.mp hl
  exact c.spelling_proper

theorem ending_short (st : State) {t : Token} (h : t.lexeme ∈ st.ending) : isTooLong t = false := by
  obtain ⟨c, _, hc⟩ := List.mem_map.mp h
  have hterminal : t.terminal = c := (congrArg Lexeme.terminal hc).symm.trans c.spelling_terminal
  have htext : t.text = c.spelling.text := congrArg Lexeme.text hc.symm
  rw [isTooLong, hterminal, htext]
  cases c <;> rfl

theorem ending_terminals (st : State) {ts : List Token} (h : ts.map Token.lexeme = st.ending) :
    ts.map Token.terminal = st.completion := by
  have hterminals := congrArg (List.map Lexeme.terminal) h
  simpa [ending, Token.lexeme, Function.comp_def] using hterminals

end Parse.State

end Guion
