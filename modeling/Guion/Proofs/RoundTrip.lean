import Guion.Proofs.Grammar.Scanning
import Guion.Proofs.Printing

namespace Guion

open Grammar
open Parse (Connective)

namespace Lexeme

structure Fit (l : Lexeme) : Prop where
  proper : l.Proper
  short : l.terminal = .integer → l.text.length ≤ Double.digitLimit

@[simp]
theorem fit_ofSymbol (s : Symbol) : (ofSymbol s).Fit :=
  ⟨⟨.symbol s, nofun⟩, nofun⟩

@[simp]
theorem fit_ofKeyword (k : Keyword) : (ofKeyword k).Fit :=
  ⟨⟨.keyword k, nofun⟩, nofun⟩

theorem fit_ofName {name : Name} (h : name.Writable) : (ofName name).Fit := by
  refine ⟨h, ?_⟩
  cases name <;> exact nofun

theorem fit_ofType {type : TypeName} (h : type.Writable) : (ofType type).Fit := by
  obtain ⟨kind, rfl⟩ := h
  exact fit_ofKeyword _

theorem fit_ofLiteral {writing : Writing} {l : Literal} (h : l.Writable writing) :
    (ofLiteral writing l).Fit := by
  cases l with
  | integer n =>
    obtain ⟨k, rfl, hk⟩ := h
    have hdigits : ∀ d ∈ Nat.toDigits 10 k, Double.isDigit d = true :=
      fun d => Double.isDigit_of_mem_toDigits
    refine ⟨⟨.integer (Double.toDigits_ne_nil k) hdigits, nofun⟩, fun _ => ?_⟩
    exact Double.length_toDigits_le (by decide) hk
  | decimal x => exact ⟨⟨.decimal h.1 h.2.1, nofun⟩, nofun⟩
  | text s => exact ⟨⟨.text h, nofun⟩, nofun⟩
  | truth b => cases b <;> exact fit_ofKeyword _
  | foreign t => exact h.elim

theorem fit_ofLogical {op : LogicalOp} (h : op.Known) : (ofLogical op).Fit := by
  cases op with
  | or => exact fit_ofKeyword _
  | and => exact fit_ofKeyword _
  | other symbol => exact absurd rfl (h symbol)

theorem fit_ofBinary {op : BinaryOp} (h : op.Known) : (ofBinary op).Fit := by
  cases op with
  | other symbol => exact absurd rfl (h symbol)
  | _ => exact fit_ofSymbol _

theorem fit_ofUnary {op : UnaryOp} (h : op.Known) : (ofUnary op).Fit := by
  cases op with
  | not => exact fit_ofKeyword _
  | other symbol => exact absurd rfl (h symbol)
  | _ => exact fit_ofSymbol _

end Lexeme

theorem ofLogical_mem {op : LogicalOp} (h : op.Known) :
    ((Lexeme.ofLogical op).terminal, .logical op) ∈
      (Layer.ofConnective (.logical op)).operators := by
  cases op with
  | other symbol => exact absurd rfl (h symbol)
  | _ => decide

theorem ofBinary_mem {op : BinaryOp} (h : op.Known) :
    ((Lexeme.ofBinary op).terminal, .binary op) ∈ (Layer.ofConnective (.binary op)).operators := by
  cases op with
  | other symbol => exact absurd rfl (h symbol)
  | _ => decide

theorem ofUnary_mem {op : UnaryOp} (h : op.Known) : ((Lexeme.ofUnary op).terminal, op) ∈ signs := by
  cases op with
  | other symbol => exact absurd rfl (h symbol)
  | _ => decide

theorem next?_above {layer : Layer} {t : Terminal} {op : Connective}
    (h : (t, op) ∈ layer.operators) : layer.next? = some layer.above := by
  cases layer <;> first | rfl | cases h

theorem terminal_of_lexeme {t : Token} {l : Lexeme} (h : t.lexeme = l) :
    t.terminal = l.terminal := congrArg Lexeme.terminal h

theorem text_of_lexeme {t : Token} {l : Lexeme} (h : t.lexeme = l) : t.text = l.text :=
  congrArg Lexeme.text h

theorem name_of_lexeme {t : Token} {name : Name} (hn : name.Writable)
    (h : t.lexeme = .ofName name) : t.terminal = .name ∧ String.ofList t.text = name := by
  cases name with
  | text s =>
    refine ⟨terminal_of_lexeme h, ?_⟩
    rw [text_of_lexeme h]
    simp [Lexeme.ofName]
  | other t =>
    obtain ⟨hmatch, _⟩ := hn
    cases hmatch

namespace Expr

/-- The lexemes can be read, and tokens that have them are those of the expression, at a layer. -/
structure Derivable (layer : Layer) (e : Expr) (ls : List Lexeme) : Prop where
  fit : ∀ l ∈ ls, l.Fit
  derives : ∀ ts : List Token, ts.map Token.lexeme = ls →
    ∃ e' : Expr, (Term.expr layer e').Derives ts ∧ e'.erase = e.erase

variable {layer : Layer} {e : Expr} {ls : List Lexeme}

theorem Derivable.loosen {other : Layer} (h : e.Derivable other ls)
    (hr : layer.rank ≤ other.rank) : e.Derivable layer ls := by
  refine ⟨h.fit, fun ts hts => ?_⟩
  obtain ⟨e', he, herase⟩ := h.derives ts hts
  exact ⟨e', he.loosen hr, herase⟩

theorem Derivable.group (h : e.Derivable .assignment ls) :
    e.Derivable .primary (.ofSymbol .parenOpen :: (ls ++ [.ofSymbol .parenClose])) := by
  refine ⟨?_, fun ts hts => ?_⟩
  · simp only [List.forall_mem_append, List.forall_mem_cons]
    exact ⟨Lexeme.fit_ofSymbol _, h.fit, Lexeme.fit_ofSymbol _, nofun⟩
  · obtain ⟨t, ts, rfl, ht, hts⟩ := List.map_eq_cons_iff.mp hts
    obtain ⟨ts, us, rfl, hs, hus⟩ := List.map_eq_append_iff.mp hts
    obtain ⟨u, us, rfl, hu, hus⟩ := List.map_eq_cons_iff.mp hus
    obtain rfl := List.map_eq_nil_iff.mp hus
    obtain ⟨e', he, herase⟩ := h.derives ts hs
    exact ⟨e', .group (terminal_of_lexeme ht) he (terminal_of_lexeme hu), herase⟩

theorem Derivable.bracketed (h : e.Derivable .assignment ls) (n : Nat) :
    e.Derivable .primary (Lexeme.bracketed (n + 1) ls) := by
  induction n with
  | zero => exact h.group
  | succ n ih => exact (ih.loosen (Nat.zero_le _)).group

theorem Derivable.enclose (h : e.Derivable e.layer ls) (style : Style) (layer : Layer) :
    e.Derivable layer (style.enclose layer e ls) := by
  have hbrackets (n : Nat) : e.Derivable layer (Lexeme.bracketed (n + 1) ls) :=
    ((h.loosen (Nat.zero_le _)).bracketed n).loosen layer.rank_le
  rw [Style.enclose]
  by_cases hrank : layer.rank ≤ e.layer.rank
  · rw [if_pos hrank, Nat.add_zero]
    cases (style []).brackets with
    | zero => exact h.loosen hrank
    | succ n => exact hbrackets n
  · rw [if_neg hrank]
    exact hbrackets _

theorem denotes_of_lexeme {writing : Writing} {l : Literal} (h : l.Writable writing) {t : Token}
    (ht : t.lexeme = .ofLiteral writing l) : Denotes t l := by
  have hterminal := terminal_of_lexeme ht
  have htext := text_of_lexeme ht
  cases l with
  | integer n =>
    obtain ⟨k, rfl, _⟩ := h
    have hdenotes := Denotes.integer hterminal
    rw [htext] at hdenotes
    simpa [Lexeme.ofLiteral, Number.integer?, Double.digitsValue_toDigits] using hdenotes
  | decimal x =>
    obtain ⟨hwhole, _, rfl⟩ := h
    cases hwhole with
    | integer _ hdigits => exact .decimal hterminal htext hdigits
  | text s =>
    have hdenotes := Denotes.text hterminal htext
    rwa [String.ofList_toList] at hdenotes
  | truth b =>
    cases b with
    | true => exact .verdadero hterminal
    | false => exact .falso hterminal
  | foreign t => exact h.elim

theorem literal_derivable {writing : Writing} {l : Literal} (pos : Pos) (h : l.Writable writing) :
    (Expr.literal pos l).Derivable .primary [.ofLiteral writing l] := by
  refine ⟨by simpa using Lexeme.fit_ofLiteral h, fun ts hts => ?_⟩
  obtain ⟨t, ts, rfl, ht, hts⟩ := List.map_eq_cons_iff.mp hts
  obtain rfl := List.map_eq_nil_iff.mp hts
  exact ⟨_, .literal (denotes_of_lexeme h ht), rfl⟩

theorem name_derivable {s : Name} (pos : Pos) (h : s.Writable) :
    (Expr.name pos s).Derivable .primary [.ofName s] := by
  refine ⟨by simpa using Lexeme.fit_ofName h, fun ts hts => ?_⟩
  obtain ⟨t, ts, rfl, ht, hts⟩ := List.map_eq_cons_iff.mp hts
  obtain rfl := List.map_eq_nil_iff.mp hts
  obtain ⟨hterminal, hname⟩ := name_of_lexeme h ht
  exact ⟨_, .name hterminal, by rw [hname]; rfl⟩

theorem assign_derivable {s : Name} (pos : Pos) (h : s.Writable)
    (he : e.Derivable .assignment ls) :
    (Expr.assign pos s e).Derivable .assignment (.ofName s :: .ofSymbol .assign :: ls) := by
  refine ⟨by simpa [Lexeme.fit_ofName h] using he.fit, fun ts hts => ?_⟩
  obtain ⟨t, ts, rfl, ht, hts⟩ := List.map_eq_cons_iff.mp hts
  obtain ⟨u, ts, rfl, hu, hts⟩ := List.map_eq_cons_iff.mp hts
  obtain ⟨hterminal, hname⟩ := name_of_lexeme h ht
  obtain ⟨e', he', herase⟩ := he.derives ts hts
  refine ⟨_, .assign hterminal (terminal_of_lexeme hu) he', ?_⟩
  simp only [erase, hname, herase]

theorem erase_node (pos : Pos) (left right : Expr) (op : Connective) :
    (node pos left right op).erase = node .none left.erase right.erase op := by
  cases op <;> rfl

theorem join_derivable (pos : Pos) (op : Connective) {l : Lexeme} {left right : Expr}
    {rs : List Lexeme} (hfit : l.Fit) (hop : (l.terminal, op) ∈ layer.operators)
    (hl : left.Derivable layer.left ls) (hr : right.Derivable layer.above rs) :
    (node pos left right op).Derivable layer (ls ++ l :: rs) := by
  refine ⟨?_, fun ts hts => ?_⟩
  · simp only [List.forall_mem_append, List.forall_mem_cons]
    exact ⟨hl.fit, hfit, hr.fit⟩
  · obtain ⟨ts, us, rfl, hs, hus⟩ := List.map_eq_append_iff.mp hts
    obtain ⟨t, us, rfl, ht, hus⟩ := List.map_eq_cons_iff.mp hus
    obtain ⟨left', hleft, hlerase⟩ := hl.derives ts hs
    obtain ⟨right', hright, hrerase⟩ := hr.derives us hus
    rw [← terminal_of_lexeme ht] at hop
    refine ⟨_, .join (next?_above hop) hop hleft hright, ?_⟩
    rw [erase_node, erase_node, hlerase, hrerase]

theorem unary_derivable {op : UnaryOp} (pos : Pos) (hop : op.Known) (he : e.Derivable .unary ls) :
    (Expr.unary pos op e).Derivable .unary (.ofUnary op :: ls) := by
  refine ⟨by simpa [Lexeme.fit_ofUnary hop] using he.fit, fun ts hts => ?_⟩
  obtain ⟨t, ts, rfl, ht, hts⟩ := List.map_eq_cons_iff.mp hts
  obtain ⟨e', he', herase⟩ := he.derives ts hts
  have hmem := ofUnary_mem hop
  rw [← terminal_of_lexeme ht] at hmem
  exact ⟨_, .sign hmem he', by simp only [erase, herase]⟩

theorem read_derivable (pos : Pos) : (Expr.read pos).Derivable .primary
    [.ofKeyword .leer, .ofSymbol .parenOpen, .ofSymbol .parenClose] := by
  refine ⟨by simp, fun ts hts => ?_⟩
  obtain ⟨t, ts, rfl, ht, hts⟩ := List.map_eq_cons_iff.mp hts
  obtain ⟨u, ts, rfl, hu, hts⟩ := List.map_eq_cons_iff.mp hts
  obtain ⟨v, ts, rfl, hv, hts⟩ := List.map_eq_cons_iff.mp hts
  obtain rfl := List.map_eq_nil_iff.mp hts
  exact ⟨_, .read (terminal_of_lexeme ht) (terminal_of_lexeme hu) (terminal_of_lexeme hv), rfl⟩

theorem callNone_derivable {s : Name} (pos : Pos) (h : s.Writable) :
    (Expr.call pos s []).Derivable .primary
      [.ofName s, .ofSymbol .parenOpen, .ofSymbol .parenClose] := by
  refine ⟨by simpa using Lexeme.fit_ofName h, fun ts hts => ?_⟩
  obtain ⟨t, ts, rfl, ht, hts⟩ := List.map_eq_cons_iff.mp hts
  obtain ⟨u, ts, rfl, hu, hts⟩ := List.map_eq_cons_iff.mp hts
  obtain ⟨v, ts, rfl, hv, hts⟩ := List.map_eq_cons_iff.mp hts
  obtain rfl := List.map_eq_nil_iff.mp hts
  obtain ⟨hterminal, hname⟩ := name_of_lexeme h ht
  refine ⟨_, .callNone hterminal (terminal_of_lexeme hu) (terminal_of_lexeme hv), ?_⟩
  simp only [erase, hname]

structure Continues (es : List Expr) (ls : List Lexeme) : Prop where
  fit : ∀ l ∈ ls, l.Fit
  derives : ∀ (ts us : List Token) (before : List Expr), ts.map Token.lexeme = ls →
    (Term.arguments before).Derives us →
      ∃ es', (Term.arguments (before ++ es')).Derives (us ++ ts) ∧ eraseAll es' = eraseAll es

theorem continues_nil : Continues [] [] := by
  refine ⟨by simp, fun ts us before hts h => ?_⟩
  obtain rfl := List.map_eq_nil_iff.mp hts
  exact ⟨[], by simpa using h, rfl⟩

theorem Continues.cons {es : List Expr} {rest : List Lexeme} (he : e.Derivable .assignment ls)
    (hes : Continues es rest) : Continues (e :: es) (.ofSymbol .comma :: (ls ++ rest)) := by
  refine ⟨?_, fun ts us before hts h => ?_⟩
  · simp only [List.forall_mem_append, List.forall_mem_cons]
    exact ⟨Lexeme.fit_ofSymbol _, he.fit, hes.fit⟩
  · obtain ⟨t, ts, rfl, ht, hts⟩ := List.map_eq_cons_iff.mp hts
    obtain ⟨ts, vs, rfl, hs, hvs⟩ := List.map_eq_append_iff.mp hts
    obtain ⟨e', he', herase⟩ := he.derives ts hs
    have hnext := Term.Derives.nextArgument h (terminal_of_lexeme ht) he'
    obtain ⟨es', hes', heserase⟩ := hes.derives vs _ _ hvs hnext
    refine ⟨e' :: es', by simpa using hes', ?_⟩
    simp only [eraseAll, herase, heserase]

theorem call_derivable {s : Name} {es : List Expr} {rest : List Lexeme} (pos : Pos)
    (h : s.Writable) (he : e.Derivable .assignment ls) (hes : Continues es rest) :
    (Expr.call pos s (e :: es)).Derivable .primary (.ofName s :: .ofSymbol .parenOpen ::
      (ls ++ (rest ++ [.ofSymbol .parenClose]))) := by
  refine ⟨?_, fun ts hts => ?_⟩
  · simp only [List.forall_mem_append, List.forall_mem_cons]
    exact ⟨Lexeme.fit_ofName h, Lexeme.fit_ofSymbol _, he.fit, hes.fit, Lexeme.fit_ofSymbol _,
      nofun⟩
  · obtain ⟨t, ts, rfl, ht, hts⟩ := List.map_eq_cons_iff.mp hts
    obtain ⟨u, ts, rfl, hu, hts⟩ := List.map_eq_cons_iff.mp hts
    obtain ⟨ts, us, rfl, hs, hus⟩ := List.map_eq_append_iff.mp hts
    obtain ⟨us, vs, rfl, hrest, hvs⟩ := List.map_eq_append_iff.mp hus
    obtain ⟨v, vs, rfl, hv, hvs⟩ := List.map_eq_cons_iff.mp hvs
    obtain rfl := List.map_eq_nil_iff.mp hvs
    obtain ⟨hterminal, hname⟩ := name_of_lexeme h ht
    obtain ⟨e', he', herase⟩ := he.derives ts hs
    obtain ⟨es', hes', heserase⟩ := hes.derives us _ _ hrest (.argument he')
    have hcall := Term.Derives.call hterminal (terminal_of_lexeme hu) hes' (terminal_of_lexeme hv)
    rw [List.append_assoc] at hcall
    refine ⟨_, hcall, ?_⟩
    simp only [erase, hname, List.cons_append, List.nil_append, eraseAll, herase, heserase]

mutual

theorem lexemes_derivable (style : Style) :
    (e : Expr) → e.Writable style → e.Derivable e.layer (e.lexemes style)
  | .literal pos _, h => literal_derivable pos h
  | .name pos _, h => name_derivable pos h
  | .assign pos _ e, h =>
    assign_derivable pos h.1 ((lexemes_derivable (style.inside 0) e h.2).enclose _ _)
  | .logical pos op left right, h =>
    join_derivable pos (.logical op) (Lexeme.fit_ofLogical h.1) (ofLogical_mem h.1)
      ((lexemes_derivable (style.inside 0) left h.2.1).enclose _ _)
      ((lexemes_derivable (style.inside 1) right h.2.2).enclose _ _)
  | .binary pos op left right, h =>
    join_derivable pos (.binary op) (Lexeme.fit_ofBinary h.1) (ofBinary_mem h.1)
      ((lexemes_derivable (style.inside 0) left h.2.1).enclose _ _)
      ((lexemes_derivable (style.inside 1) right h.2.2).enclose _ _)
  | .unary pos _ e, h =>
    unary_derivable pos h.1 ((lexemes_derivable (style.inside 0) e h.2).enclose _ _)
  | .call pos _ [], h => callNone_derivable pos h.1
  | .call pos _ (e :: es), h =>
    call_derivable pos h.1 ((lexemes_derivable (style.inside 0) e h.2.1).enclose _ _)
      (laterLexemes_continues (style.inside 1) es h.2.2)
  | .read pos, _ => read_derivable pos
  | .stuck _, h => h.elim

theorem laterLexemes_continues (style : Style) :
    (es : List Expr) → AllWritable style es → Continues es (laterLexemes style es)
  | [], _ => continues_nil
  | e :: es, h =>
    .cons ((lexemes_derivable (style.inside 0) e h.1).enclose _ _)
      (laterLexemes_continues (style.inside 1) es h.2)

end

theorem whole_derivable {style : Style} (h : e.Writable style) :
    e.Derivable .assignment (e.whole style) :=
  (lexemes_derivable style e h).enclose style .assignment

end Expr

theorem later_parameters {ps : List Param} (hps : ∀ p ∈ ps, p.Writable) {ts us : List Token}
    {before : List Param} (hts : ts.map Token.lexeme = Param.laterLexemes ps)
    (h : Parameters before us) :
    ∃ ps', Parameters (before ++ ps') (us ++ ts) ∧ ps'.map Param.erase = ps.map Param.erase := by
  induction ps generalizing ts us before with
  | nil =>
    obtain rfl := List.map_eq_nil_iff.mp hts
    exact ⟨[], by simpa using h, rfl⟩
  | cons p ps ih =>
    obtain ⟨⟨⟨kind, htype⟩, hname⟩, hps⟩ := List.forall_mem_cons.mp hps
    obtain ⟨t, ts, rfl, ht, hts⟩ := List.map_eq_cons_iff.mp hts
    obtain ⟨u, ts, rfl, hu, hts⟩ := List.map_eq_cons_iff.mp hts
    obtain ⟨v, ts, rfl, hv, hts⟩ := List.map_eq_cons_iff.mp hts
    obtain ⟨hterminal, hvname⟩ := name_of_lexeme hname hv
    rw [htype] at hu
    have hnext := h.next (terminal_of_lexeme ht) (terminal_of_lexeme hu) hterminal
    obtain ⟨ps', hps', herase⟩ := ih hps hts hnext
    refine ⟨⟨u.mark.pos, .known kind, String.ofList v.text⟩ :: ps', by simpa using hps', ?_⟩
    simp [Param.erase, herase, hvname, htype]

theorem all_parameters {p : Param} {ps : List Param} (hp : p.Writable)
    (hps : ∀ p ∈ ps, p.Writable) {ts : List Token}
    (hts : ts.map Token.lexeme = Param.allLexemes (p :: ps)) :
    ∃ ps', Parameters ps' ts ∧ ps'.map Param.erase = (p :: ps).map Param.erase := by
  obtain ⟨⟨kind, htype⟩, hname⟩ := hp
  obtain ⟨t, ts, rfl, ht, hts⟩ := List.map_eq_cons_iff.mp hts
  obtain ⟨u, ts, rfl, hu, hts⟩ := List.map_eq_cons_iff.mp hts
  obtain ⟨hterminal, huname⟩ := name_of_lexeme hname hu
  rw [htype] at ht
  obtain ⟨ps', hps', herase⟩ :=
    later_parameters hps hts (.one (terminal_of_lexeme ht) hterminal)
  refine ⟨_, hps', ?_⟩
  simp [Param.erase, herase, huname, htype]

namespace Param

theorem lexemes_fit {p : Param} (h : p.Writable) : ∀ l ∈ p.lexemes, l.Fit := by
  simp [lexemes, Lexeme.fit_ofType h.1, Lexeme.fit_ofName h.2]

theorem laterLexemes_fit {ps : List Param} (h : ∀ p ∈ ps, p.Writable) :
    ∀ l ∈ laterLexemes ps, l.Fit := by
  induction ps with
  | nil => exact nofun
  | cons p ps ih =>
    obtain ⟨hp, hps⟩ := List.forall_mem_cons.mp h
    simp only [laterLexemes, List.forall_mem_append, List.forall_mem_cons]
    exact ⟨Lexeme.fit_ofSymbol _, lexemes_fit hp, ih hps⟩

theorem allLexemes_fit {ps : List Param} (h : ∀ p ∈ ps, p.Writable) :
    ∀ l ∈ allLexemes ps, l.Fit := by
  cases ps with
  | nil => exact nofun
  | cons p ps =>
    obtain ⟨hp, hps⟩ := List.forall_mem_cons.mp h
    exact List.forall_mem_append.mpr ⟨lexemes_fit hp, laterLexemes_fit hps⟩

end Param

namespace Stmt

def category : Stmt → Category
  | .declare _ _ _ _ => .binding
  | .function _ _ _ _ => .declaration
  | .block _ _ => .block
  | _ => .statement

/-- The lexemes can be read, and tokens that have them are those of the statement. -/
structure Derivable (category : Category) (s : Stmt) (ls : List Lexeme) : Prop where
  fit : ∀ l ∈ ls, l.Fit
  derives : ∀ ts : List Token, ts.map Token.lexeme = ls →
    ∃ s' : Stmt, (Phrase.one category s').Derives ts ∧ s'.erase = s.erase

variable {s yes no body : Stmt} {e test update : Expr} {ls rs us vs : List Lexeme}

theorem Derivable.widen {slot category : Category} (h : s.Derivable category ls)
    (hslot : slot.holds category) : s.Derivable slot ls := by
  refine ⟨h.fit, fun ts hts => ?_⟩
  obtain ⟨s', hs, herase⟩ := h.derives ts hts
  exact ⟨s', hs.widen hslot, herase⟩

theorem Derivable.plain (h : s.Derivable s.category ls) (hs : s.IsPlain) :
    s.Derivable .statement ls := by
  refine h.widen ?_
  cases s with
  | declare | function | unusable => exact hs.elim
  | _ => rfl

theorem Derivable.asBlock (h : s.Derivable s.category ls) (hs : s.IsBlock) :
    s.Derivable .block ls := by
  cases s with
  | block => exact h
  | _ => exact hs.elim

theorem Derivable.asBinding (h : s.Derivable s.category ls) (hs : s.IsBinding) :
    s.Derivable .binding ls := by
  cases s with
  | declare => exact h
  | _ => exact hs.elim

theorem endsOpen_erase : (s : Stmt) → s.erase.endsOpen = s.endsOpen
  | .branch _ _ _ none => rfl
  | .branch _ _ _ (some no) => endsOpen_erase no
  | .whileLoop _ _ body => endsOpen_erase body
  | .forLoop _ _ _ _ body => endsOpen_erase body
  | .declare _ _ _ _ => rfl
  | .function _ _ _ _ => rfl
  | .unusable _ _ _ => rfl
  | .block _ _ => rfl
  | .returns _ _ => rfl
  | .print _ _ => rfl
  | .breaks _ => rfl
  | .continues _ => rfl
  | .expr _ _ => rfl
  | .stuck _ => rfl

theorem declare_derivable {type : TypeName} {name : Name} (pos : Pos) (ht : type.Writable)
    (hn : name.Writable) : (Stmt.declare pos type name none).Derivable .binding
      [.ofType type, .ofName name, .ofSymbol .semicolon] := by
  refine ⟨by simp [Lexeme.fit_ofType ht, Lexeme.fit_ofName hn], fun ts hts => ?_⟩
  obtain ⟨kind, rfl⟩ := ht
  obtain ⟨t, ts, rfl, ht, hts⟩ := List.map_eq_cons_iff.mp hts
  obtain ⟨u, ts, rfl, hu, hts⟩ := List.map_eq_cons_iff.mp hts
  obtain ⟨v, ts, rfl, hv, hts⟩ := List.map_eq_cons_iff.mp hts
  obtain rfl := List.map_eq_nil_iff.mp hts
  obtain ⟨hterminal, hname⟩ := name_of_lexeme hn hu
  refine ⟨_, .declare (terminal_of_lexeme ht) hterminal (terminal_of_lexeme hv), ?_⟩
  simp only [erase, hname]

theorem initial_derivable {type : TypeName} {name : Name} (pos : Pos) (ht : type.Writable)
    (hn : name.Writable) (he : e.Derivable .assignment ls) :
    (Stmt.declare pos type name (some e)).Derivable .binding (.ofType type :: .ofName name ::
      .ofSymbol .assign :: (ls ++ [.ofSymbol .semicolon])) := by
  refine ⟨?_, fun ts hts => ?_⟩
  · simp only [List.forall_mem_append, List.forall_mem_cons]
    exact ⟨Lexeme.fit_ofType ht, Lexeme.fit_ofName hn, Lexeme.fit_ofSymbol _, he.fit,
      Lexeme.fit_ofSymbol _, nofun⟩
  · obtain ⟨kind, rfl⟩ := ht
    obtain ⟨t, ts, rfl, ht, hts⟩ := List.map_eq_cons_iff.mp hts
    obtain ⟨u, ts, rfl, hu, hts⟩ := List.map_eq_cons_iff.mp hts
    obtain ⟨v, ts, rfl, hv, hts⟩ := List.map_eq_cons_iff.mp hts
    obtain ⟨ts, ws, rfl, hs, hws⟩ := List.map_eq_append_iff.mp hts
    obtain ⟨w, ws, rfl, hw, hws⟩ := List.map_eq_cons_iff.mp hws
    obtain rfl := List.map_eq_nil_iff.mp hws
    obtain ⟨hterminal, hname⟩ := name_of_lexeme hn hu
    obtain ⟨e', he', herase⟩ := he.derives ts hs
    refine ⟨_, .initial (terminal_of_lexeme ht) hterminal (terminal_of_lexeme hv) he'
      (terminal_of_lexeme hw), ?_⟩
    simp only [erase, hname, Option.map_some, herase]

theorem function_derivable {name : Name} {params : List Param} (pos : Pos) (hn : name.Writable)
    (hp : ∀ p ∈ params, p.Writable) (hb : body.Derivable .block ls) :
    (Stmt.function pos name params body).Derivable .declaration (.ofName name ::
      .ofSymbol .parenOpen :: (Param.allLexemes params ++ .ofSymbol .parenClose :: ls)) := by
  refine ⟨?_, fun ts hts => ?_⟩
  · simp only [List.forall_mem_append, List.forall_mem_cons]
    exact ⟨Lexeme.fit_ofName hn, Lexeme.fit_ofSymbol _, Param.allLexemes_fit hp,
      Lexeme.fit_ofSymbol _, hb.fit⟩
  · obtain ⟨t, ts, rfl, ht, hts⟩ := List.map_eq_cons_iff.mp hts
    obtain ⟨u, ts, rfl, hu, hts⟩ := List.map_eq_cons_iff.mp hts
    obtain ⟨ts, ws, rfl, hs, hws⟩ := List.map_eq_append_iff.mp hts
    obtain ⟨v, ws, rfl, hv, hws⟩ := List.map_eq_cons_iff.mp hws
    obtain ⟨hterminal, hname⟩ := name_of_lexeme hn ht
    obtain ⟨body', hbody, herase⟩ := hb.derives ws hws
    cases params with
    | nil =>
      obtain rfl := List.map_eq_nil_iff.mp hs
      refine ⟨_, .functionNone hterminal (terminal_of_lexeme hu) (terminal_of_lexeme hv) hbody, ?_⟩
      simp only [erase, hname, List.map_nil, herase]
    | cons p ps =>
      obtain ⟨hp, hps⟩ := List.forall_mem_cons.mp hp
      obtain ⟨ps', hps', hpserase⟩ := all_parameters hp hps hs
      refine ⟨_, .function hterminal (terminal_of_lexeme hu) hps' (terminal_of_lexeme hv) hbody, ?_⟩
      simp only [erase, hname, hpserase, herase]

structure BodyDerivable (ss : List Stmt) (ls : List Lexeme) : Prop where
  fit : ∀ l ∈ ls, l.Fit
  derives : ∀ (ts us : List Token) (before : List Stmt), ts.map Token.lexeme = ls →
    (Phrase.body before).Derives us →
      ∃ ss', (Phrase.body (before ++ ss')).Derives (us ++ ts) ∧ eraseAll ss' = eraseAll ss

theorem bodyDerivable_nil : BodyDerivable [] [] := by
  refine ⟨nofun, fun ts us before hts h => ?_⟩
  obtain rfl := List.map_eq_nil_iff.mp hts
  exact ⟨[], by simpa using h, rfl⟩

theorem BodyDerivable.cons {ss : List Stmt} (hs : s.Derivable .declaration ls)
    (hss : BodyDerivable ss rs) : BodyDerivable (s :: ss) (ls ++ rs) := by
  refine ⟨List.forall_mem_append.mpr ⟨hs.fit, hss.fit⟩, fun ts us before hts h => ?_⟩
  obtain ⟨ts, vs, rfl, hts, hvs⟩ := List.map_eq_append_iff.mp hts
  obtain ⟨s', hs', herase⟩ := hs.derives ts ‹_›
  obtain ⟨ss', hss', hsserase⟩ := hss.derives vs _ _ hvs (.snoc h hs')
  refine ⟨s' :: ss', by simpa using hss', ?_⟩
  simp only [eraseAll, herase, hsserase]

theorem block_derivable {ss : List Stmt} (pos : Pos) (h : BodyDerivable ss ls) :
    (Stmt.block pos ss).Derivable .block
      (.ofSymbol .braceOpen :: (ls ++ [.ofSymbol .braceClose])) := by
  refine ⟨?_, fun ts hts => ?_⟩
  · simp only [List.forall_mem_append, List.forall_mem_cons]
    exact ⟨Lexeme.fit_ofSymbol _, h.fit, Lexeme.fit_ofSymbol _, nofun⟩
  · obtain ⟨t, ts, rfl, ht, hts⟩ := List.map_eq_cons_iff.mp hts
    obtain ⟨ts, us, rfl, hs, hus⟩ := List.map_eq_append_iff.mp hts
    obtain ⟨u, us, rfl, hu, hus⟩ := List.map_eq_cons_iff.mp hus
    obtain rfl := List.map_eq_nil_iff.mp hus
    obtain ⟨ss', hss, herase⟩ := h.derives ts [] [] hs .nil
    refine ⟨_, .braces (terminal_of_lexeme ht) hss (terminal_of_lexeme hu), ?_⟩
    simp only [erase, List.nil_append, herase]

theorem branch_derivable (pos : Pos) (ht : test.Derivable .assignment ls)
    (hy : yes.Derivable .statement rs) : (Stmt.branch pos test yes none).Derivable .statement
      (.ofKeyword .si :: .ofSymbol .parenOpen :: (ls ++ .ofSymbol .parenClose :: rs)) := by
  refine ⟨?_, fun ts hts => ?_⟩
  · simp only [List.forall_mem_append, List.forall_mem_cons]
    exact ⟨Lexeme.fit_ofKeyword _, Lexeme.fit_ofSymbol _, ht.fit, Lexeme.fit_ofSymbol _, hy.fit⟩
  · obtain ⟨t, ts, rfl, hsi, hts⟩ := List.map_eq_cons_iff.mp hts
    obtain ⟨u, ts, rfl, hu, hts⟩ := List.map_eq_cons_iff.mp hts
    obtain ⟨ts, ws, rfl, hs, hws⟩ := List.map_eq_append_iff.mp hts
    obtain ⟨v, ws, rfl, hv, hws⟩ := List.map_eq_cons_iff.mp hws
    obtain ⟨test', htest, hterase⟩ := ht.derives ts hs
    obtain ⟨yes', hyes, hyerase⟩ := hy.derives ws hws
    refine ⟨_, .branch (terminal_of_lexeme hsi) (terminal_of_lexeme hu) htest
      (terminal_of_lexeme hv) hyes, ?_⟩
    simp only [erase, hterase, hyerase]

theorem branchElse_derivable (pos : Pos) (ht : test.Derivable .assignment ls)
    (hy : yes.Derivable .statement rs) (hclosed : yes.endsOpen = false)
    (hn : no.Derivable .statement us) :
    (Stmt.branch pos test yes (some no)).Derivable .statement
      (.ofKeyword .si :: .ofSymbol .parenOpen ::
        (ls ++ .ofSymbol .parenClose :: (rs ++ .ofKeyword .sino :: us))) := by
  refine ⟨?_, fun ts hts => ?_⟩
  · simp only [List.forall_mem_append, List.forall_mem_cons]
    exact ⟨Lexeme.fit_ofKeyword _, Lexeme.fit_ofSymbol _, ht.fit, Lexeme.fit_ofSymbol _, hy.fit,
      Lexeme.fit_ofKeyword _, hn.fit⟩
  · obtain ⟨t, ts, rfl, hsi, hts⟩ := List.map_eq_cons_iff.mp hts
    obtain ⟨u, ts, rfl, hu, hts⟩ := List.map_eq_cons_iff.mp hts
    obtain ⟨ts, ws, rfl, hs, hws⟩ := List.map_eq_append_iff.mp hts
    obtain ⟨v, ws, rfl, hv, hws⟩ := List.map_eq_cons_iff.mp hws
    obtain ⟨ws, xs, rfl, hws', hxs⟩ := List.map_eq_append_iff.mp hws
    obtain ⟨x, xs, rfl, hx, hxs⟩ := List.map_eq_cons_iff.mp hxs
    obtain ⟨test', htest, hterase⟩ := ht.derives ts hs
    obtain ⟨yes', hyes, hyerase⟩ := hy.derives ws hws'
    obtain ⟨no', hno, hnerase⟩ := hn.derives xs hxs
    have hopen : yes'.endsOpen = false := by
      rw [← endsOpen_erase, hyerase, endsOpen_erase, hclosed]
    refine ⟨_, .branchElse (terminal_of_lexeme hsi) (terminal_of_lexeme hu) htest
      (terminal_of_lexeme hv) hyes hopen (terminal_of_lexeme hx) hno, ?_⟩
    simp only [erase, hterase, hyerase, hnerase]

theorem whileLoop_derivable (pos : Pos) (ht : test.Derivable .assignment ls)
    (hb : body.Derivable .statement rs) : (Stmt.whileLoop pos test body).Derivable .statement
      (.ofKeyword .mientras :: .ofSymbol .parenOpen :: (ls ++ .ofSymbol .parenClose :: rs)) := by
  refine ⟨?_, fun ts hts => ?_⟩
  · simp only [List.forall_mem_append, List.forall_mem_cons]
    exact ⟨Lexeme.fit_ofKeyword _, Lexeme.fit_ofSymbol _, ht.fit, Lexeme.fit_ofSymbol _, hb.fit⟩
  · obtain ⟨t, ts, rfl, hword, hts⟩ := List.map_eq_cons_iff.mp hts
    obtain ⟨u, ts, rfl, hu, hts⟩ := List.map_eq_cons_iff.mp hts
    obtain ⟨ts, ws, rfl, hs, hws⟩ := List.map_eq_append_iff.mp hts
    obtain ⟨v, ws, rfl, hv, hws⟩ := List.map_eq_cons_iff.mp hws
    obtain ⟨test', htest, hterase⟩ := ht.derives ts hs
    obtain ⟨body', hbody, hberase⟩ := hb.derives ws hws
    refine ⟨_, .whileLoop (terminal_of_lexeme hword) (terminal_of_lexeme hu) htest
      (terminal_of_lexeme hv) hbody, ?_⟩
    simp only [erase, hterase, hberase]

theorem forLoop_derivable {initial : Stmt} (pos : Pos) (hi : initial.Derivable .binding ls)
    (ht : test.Derivable .assignment rs) (hu : update.Derivable .assignment us)
    (hb : body.Derivable .statement vs) :
    (Stmt.forLoop pos initial test update body).Derivable .statement
      (.ofKeyword .para :: .ofSymbol .parenOpen :: (ls ++ (rs ++ .ofSymbol .semicolon ::
        (us ++ .ofSymbol .parenClose :: vs)))) := by
  refine ⟨?_, fun ts hts => ?_⟩
  · simp only [List.forall_mem_append, List.forall_mem_cons]
    exact ⟨Lexeme.fit_ofKeyword _, Lexeme.fit_ofSymbol _, hi.fit, ht.fit, Lexeme.fit_ofSymbol _,
      hu.fit, Lexeme.fit_ofSymbol _, hb.fit⟩
  · obtain ⟨t, ts, rfl, hword, hts⟩ := List.map_eq_cons_iff.mp hts
    obtain ⟨o, ts, rfl, ho, hts⟩ := List.map_eq_cons_iff.mp hts
    obtain ⟨is, ts, rfl, his, hts'⟩ := List.map_eq_append_iff.mp hts
    obtain ⟨ts, ws, rfl, htest, hws⟩ := List.map_eq_append_iff.mp hts'
    obtain ⟨v, ws, rfl, hv, hws⟩ := List.map_eq_cons_iff.mp hws
    obtain ⟨ws, xs, rfl, hupdate, hxs⟩ := List.map_eq_append_iff.mp hws
    obtain ⟨w, xs, rfl, hw, hxs⟩ := List.map_eq_cons_iff.mp hxs
    obtain ⟨initial', hinitial, hierase⟩ := hi.derives is his
    obtain ⟨test', htest', hterase⟩ := ht.derives ts htest
    obtain ⟨update', hupdate', huerase⟩ := hu.derives ws hupdate
    obtain ⟨body', hbody, hberase⟩ := hb.derives xs hxs
    refine ⟨_, .forLoop (terminal_of_lexeme hword) (terminal_of_lexeme ho) hinitial htest'
      (terminal_of_lexeme hv) hupdate' (terminal_of_lexeme hw) hbody, ?_⟩
    simp only [erase, hierase, hterase, huerase, hberase]

theorem returnsNone_derivable (pos : Pos) : (Stmt.returns pos none).Derivable .statement
    [.ofKeyword .retornar, .ofSymbol .semicolon] := by
  refine ⟨by simp, fun ts hts => ?_⟩
  obtain ⟨t, ts, rfl, ht, hts⟩ := List.map_eq_cons_iff.mp hts
  obtain ⟨u, ts, rfl, hu, hts⟩ := List.map_eq_cons_iff.mp hts
  obtain rfl := List.map_eq_nil_iff.mp hts
  exact ⟨_, .returnsNone (terminal_of_lexeme ht) (terminal_of_lexeme hu), rfl⟩

theorem ended_derivable {word : Keyword} (he : e.Derivable .assignment ls)
    (h : ∀ (t u : Token) (ts : List Token) (e' : Expr), t.terminal = .keyword word →
      (Term.expr .assignment e').Derives ts → u.terminal = .symbol .semicolon →
      e'.erase = e.erase →
      ∃ s', (Phrase.one .statement s').Derives (t :: (ts ++ [u])) ∧ s'.erase = s.erase) :
    s.Derivable .statement (.ofKeyword word :: (ls ++ [.ofSymbol .semicolon])) := by
  refine ⟨?_, fun ts hts => ?_⟩
  · simp only [List.forall_mem_append, List.forall_mem_cons]
    exact ⟨Lexeme.fit_ofKeyword _, he.fit, Lexeme.fit_ofSymbol _, nofun⟩
  · obtain ⟨t, ts, rfl, ht, hts⟩ := List.map_eq_cons_iff.mp hts
    obtain ⟨ts, us, rfl, hs, hus⟩ := List.map_eq_append_iff.mp hts
    obtain ⟨u, us, rfl, hu, hus⟩ := List.map_eq_cons_iff.mp hus
    obtain rfl := List.map_eq_nil_iff.mp hus
    obtain ⟨e', he', herase⟩ := he.derives ts hs
    exact h t u ts e' (terminal_of_lexeme ht) he' (terminal_of_lexeme hu) herase

theorem returns_derivable (pos : Pos) (he : e.Derivable .assignment ls) :
    (Stmt.returns pos (some e)).Derivable .statement
      (.ofKeyword .retornar :: (ls ++ [.ofSymbol .semicolon])) := by
  refine ended_derivable he fun t u ts e' ht he' hu herase => ⟨_, .returns ht he' hu, ?_⟩
  simp only [erase, Option.map_some, herase]

theorem print_derivable (pos : Pos) (he : e.Derivable .assignment ls) :
    (Stmt.print pos e).Derivable .statement
      (.ofKeyword .imprimir :: (ls ++ [.ofSymbol .semicolon])) := by
  refine ended_derivable he fun t u ts e' ht he' hu herase => ⟨_, .print ht he' hu, ?_⟩
  simp only [erase, herase]

theorem breaks_derivable (pos : Pos) : (Stmt.breaks pos).Derivable .statement
    [.ofKeyword .romper, .ofSymbol .semicolon] := by
  refine ⟨by simp, fun ts hts => ?_⟩
  obtain ⟨t, ts, rfl, ht, hts⟩ := List.map_eq_cons_iff.mp hts
  obtain ⟨u, ts, rfl, hu, hts⟩ := List.map_eq_cons_iff.mp hts
  obtain rfl := List.map_eq_nil_iff.mp hts
  exact ⟨_, .breaks (terminal_of_lexeme ht) (terminal_of_lexeme hu), rfl⟩

theorem continues_derivable (pos : Pos) : (Stmt.continues pos).Derivable .statement
    [.ofKeyword .continuar, .ofSymbol .semicolon] := by
  refine ⟨by simp, fun ts hts => ?_⟩
  obtain ⟨t, ts, rfl, ht, hts⟩ := List.map_eq_cons_iff.mp hts
  obtain ⟨u, ts, rfl, hu, hts⟩ := List.map_eq_cons_iff.mp hts
  obtain rfl := List.map_eq_nil_iff.mp hts
  exact ⟨_, .continues (terminal_of_lexeme ht) (terminal_of_lexeme hu), rfl⟩

theorem expr_derivable (pos : Pos) (he : e.Derivable .assignment ls) :
    (Stmt.expr pos e).Derivable .statement (ls ++ [.ofSymbol .semicolon]) := by
  refine ⟨?_, fun ts hts => ?_⟩
  · simp only [List.forall_mem_append, List.forall_mem_cons]
    exact ⟨he.fit, Lexeme.fit_ofSymbol _, nofun⟩
  · obtain ⟨ts, us, rfl, hs, hus⟩ := List.map_eq_append_iff.mp hts
    obtain ⟨u, us, rfl, hu, hus⟩ := List.map_eq_cons_iff.mp hus
    obtain rfl := List.map_eq_nil_iff.mp hus
    obtain ⟨e', he', herase⟩ := he.derives ts hs
    exact ⟨_, .expr he' (terminal_of_lexeme hu), by simp only [erase, herase]⟩

mutual

/-- The lexemes of a statement are those of its own category. -/
theorem lexemes_derivable (style : Style) :
    (s : Stmt) → s.Writable style → s.Derivable s.category (s.lexemes style)
  | .declare pos _ _ none, h => declare_derivable pos h.1 h.2.1
  | .declare pos _ _ (some e), h =>
    initial_derivable pos h.1 h.2.1 (Expr.whole_derivable (h.2.2 e rfl))
  | .function pos _ _ body, h =>
    function_derivable pos h.1 h.2.1
      ((lexemes_derivable (style.inside 0) body h.2.2.2).asBlock h.2.2.1)
  | .unusable _ _ _, h => h.elim
  | .block pos body, h => block_derivable pos (allLexemes_derivable (style.inside 0) body h)
  | .branch pos _ yes none, h =>
    branch_derivable pos (Expr.whole_derivable h.1)
      ((lexemes_derivable (style.inside 1) yes h.2.2).plain h.2.1)
  | .branch pos _ yes (some no), h =>
    branchElse_derivable pos (Expr.whole_derivable h.1)
      ((lexemes_derivable (style.inside 1) yes h.2.2.1).plain h.2.1) h.2.2.2.1
      ((lexemes_derivable (style.inside 2) no h.2.2.2.2.2).plain h.2.2.2.2.1)
  | .whileLoop pos _ body, h =>
    whileLoop_derivable pos (Expr.whole_derivable h.1)
      ((lexemes_derivable (style.inside 1) body h.2.2).plain h.2.1)
  | .forLoop pos initial _ _ body, h =>
    forLoop_derivable pos ((lexemes_derivable (style.inside 0) initial h.2.1).asBinding h.1)
      (Expr.whole_derivable h.2.2.1) (Expr.whole_derivable h.2.2.2.1)
      ((lexemes_derivable (style.inside 3) body h.2.2.2.2.2).plain h.2.2.2.2.1)
  | .returns pos none, _ => returnsNone_derivable pos
  | .returns pos (some e), h => returns_derivable pos (Expr.whole_derivable (h e rfl))
  | .print pos _, h => print_derivable pos (Expr.whole_derivable h)
  | .breaks pos, _ => breaks_derivable pos
  | .continues pos, _ => continues_derivable pos
  | .expr pos _, h => expr_derivable pos (Expr.whole_derivable h)
  | .stuck _, h => h.elim

theorem allLexemes_derivable (style : Style) :
    (ss : List Stmt) → AllWritable style ss → BodyDerivable ss (allLexemes style ss)
  | [], _ => bodyDerivable_nil
  | s :: ss, h =>
    .cons ((lexemes_derivable (style.inside 0) s h.1).widen rfl)
      (allLexemes_derivable (style.inside 1) ss h.2)

end

end Stmt

/-- Completeness of the parser: a program that is written as lexemes with white space between them,
with the brackets that it needs and any others, is read back, up to positions. -/
theorem parse_lexemes {style : Style} {p : Program} (hp : p.Writable style) {cs : List Char}
    (hcs : Spaced (p.lexemes style) cs) :
    ∃ q, parse (String.ofList cs) = .ok q ∧ q.erase = p.erase := by
  have hbody := Stmt.allLexemes_derivable style p.body hp
  obtain ⟨ts, hts, hscan⟩ := hcs.scanned (fun l hl => (hbody.fit l hl).proper) {}
  obtain ⟨ss, hss, herase⟩ := hbody.derives ts [] [] hts .nil
  obtain ⟨last, hread, hlast⟩ := hss.reads_program
  have hparsed := hscan (cs.length + 1) {} last [] _ (Nat.lt_succ_self _) (.inr rfl) hread hlast
  have hshort : ts.find? Parse.isTooLong = none := by
    rw [List.find?_eq_none]
    intro t ht hlong
    have hmem : t.lexeme ∈ p.lexemes style := hts ▸ List.mem_map_of_mem ht
    have hfit := hbody.fit t.lexeme hmem
    simp only [Parse.isTooLong, Bool.and_eq_true, beq_iff_eq, decide_eq_true_eq] at hlong
    have hle : t.text.length ≤ Double.digitLimit := hfit.short hlong.1
    omega
  rw [List.nil_append] at hlast hparsed
  have hparse : parse (String.ofList cs) = .ok ⟨(ss.head?.map Stmt.pos).getD .none, ss⟩ := by
    simp only [parse, String.toList_ofList, hparsed, List.reverse_nil, List.nil_append, hshort]
  exact ⟨_, hparse, by simp only [Program.erase, herase]⟩

/-- A sum under a power needs brackets. Here every expression has one pair more than it needs. -/
theorem parse_lexemes_power :
    ∃ (style : Style) (p : Program), p.Writable style ∧
      Spaced (p.lexemes style) "imprimir ( ( ( ( 1 ) + ( 2.50 ) ) ) ^ ( x ) ) ; ".toList ∧
      ∃ q, parse (String.ofList "imprimir ( ( ( ( 1 ) + ( 2.50 ) ) ) ^ ( x ) ) ; ".toList) = .ok q ∧
        q.erase = p.erase := by
  let style : Style := fun _ => ⟨1, ['2'], ['5', '0']⟩
  let p : Program := ⟨.none, [.print .none (.binary .none .pow
    (.binary .none .add (.literal .none (.integer (.int 1)))
      (.literal .none (.decimal (Double.ofDigits ['2'] ['5', '0'] 0))))
    (.name .none "x"))]⟩
  have hx : Name.Writable "x" := by
    refine ⟨.name (by decide) nofun, fun _ k => ?_⟩
    cases k with
    | type kind => cases kind <;> decide
    | _ => decide
  have hone : (Literal.integer (.int 1)).Writable (style []) :=
    ⟨1, rfl, Nat.one_lt_pow (by decide) (by decide)⟩
  have hp : p.Writable style :=
    ⟨⟨nofun, ⟨nofun, hone, .integer (by decide) (List.all_eq_true.mp (by decide)),
      .integer (by decide) (List.all_eq_true.mp (by decide)), rfl⟩, hx⟩, trivial⟩
  have hcs : Spaced (p.lexemes style)
      "imprimir ( ( ( ( 1 ) + ( 2.50 ) ) ) ^ ( x ) ) ; ".toList := Spaced.joined (p.lexemes style)
  exact ⟨style, p, hp, hcs, parse_lexemes hp hcs⟩

end Guion
