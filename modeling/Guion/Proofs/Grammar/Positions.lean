import Guion.Proofs.Grammar.Placed
import Guion.Proofs.Printing
import Guion.Proofs.Replay
import Mathlib.Data.List.Induction

namespace Guion

open Grammar
open Parse (Connective)

/-- Everything in a program that has a position. -/
inductive Node where
  | program (p : Program)
  | param (q : Param)
  | task (t : Task)

def Literal.terminal : Literal → Terminal
  | integer _ => .integer
  | decimal _ => .decimal
  | truth true => .keyword .verdadero
  | truth false => .keyword .falso
  | _ => .text

def TypeName.terminal (type : TypeName) : Terminal := (Lexeme.ofType type).terminal

@[simp]
theorem TypeName.terminal_known (kind : Kind) :
    (known kind).terminal = .keyword (.type kind) := rfl

def gapsOf (opening separator closing : List Terminal) : Nat → List (List Terminal)
  | 0 => [opening ++ closing]
  | n + 1 => opening :: (List.replicate n separator ++ [closing])

namespace Node

def pos : Node → Pos
  | program p => p.pos
  | param q => q.pos
  | task t => t.pos

/-- The nodes directly inside one, in their order. -/
def children : Node → List Node
  | program p => p.body.map fun s => task (.exec s)
  | param _ => []
  | task (.exec (.function _ _ params body)) => params.map param ++ [task (.exec body)]
  | task t => t.parts.map task

/-- The tokens of a node itself: those before its first child, those between its children and those
after the last one. What no text contains has none. -/
def gaps : Node → List (List Terminal)
  | program p => gapsOf [] [] [] p.body.length
  | param q => [[q.type.terminal, .name]]
  | task (.eval e) =>
    match e with
    | .literal _ l => [[l.terminal]]
    | .name _ _ => [[.name]]
    | .assign _ _ _ => [[.name, .symbol .assign], []]
    | .logical _ op _ _ => [[], [(Lexeme.ofLogical op).terminal], []]
    | .binary _ op _ _ => [[], [(Lexeme.ofBinary op).terminal], []]
    | .unary _ op _ => [[(Lexeme.ofUnary op).terminal], []]
    | .call _ _ arguments =>
      gapsOf [.name, .symbol .parenOpen] [.symbol .comma] [.symbol .parenClose] arguments.length
    | .read _ => [[.keyword .leer, .symbol .parenOpen, .symbol .parenClose]]
    | .stuck _ => []
  | task (.exec s) =>
    match s with
    | .declare _ type _ none => [[type.terminal, .name, .symbol .semicolon]]
    | .declare _ type _ (some _) =>
      [[type.terminal, .name, .symbol .assign], [.symbol .semicolon]]
    | .function _ _ params _ =>
      gapsOf [.name, .symbol .parenOpen] [.symbol .comma] [.symbol .parenClose] params.length ++
        [[]]
    | .block _ body => gapsOf [.symbol .braceOpen] [] [.symbol .braceClose] body.length
    | .branch _ _ _ none => [[.keyword .si, .symbol .parenOpen], [.symbol .parenClose], []]
    | .branch _ _ _ (some _) =>
      [[.keyword .si, .symbol .parenOpen], [.symbol .parenClose], [.keyword .sino], []]
    | .whileLoop _ _ _ => [[.keyword .mientras, .symbol .parenOpen], [.symbol .parenClose], []]
    | .forLoop _ _ _ _ _ =>
      [[.keyword .para, .symbol .parenOpen], [], [.symbol .semicolon], [.symbol .parenClose], []]
    | .returns _ none => [[.keyword .retornar, .symbol .semicolon]]
    | .returns _ (some _) => [[.keyword .retornar], [.symbol .semicolon]]
    | .print _ _ => [[.keyword .imprimir], [.symbol .semicolon]]
    | .breaks _ => [[.keyword .romper, .symbol .semicolon]]
    | .continues _ => [[.keyword .continuar, .symbol .semicolon]]
    | .expr _ _ => [[], [.symbol .semicolon]]
    | .unusable _ _ _ | .stuck _ => []

end Node

inductive Bracketed (own : List Token) : List Token → Prop where
  | bare : Bracketed own own
  | group {t u : Token} {ts : List Token} :
    t.terminal = .symbol .parenOpen → Bracketed own ts → u.terminal = .symbol .parenClose →
      Bracketed own (t :: (ts ++ [u]))

def Node.Spans : Node → List Token → List Token → Prop
  | task (.eval _), own, whole => Bracketed own whole
  | _, own, whole => whole = own

inductive Covers (owns : Node → List Token → Prop) :
    List (List Terminal) → List Node → List Token → Prop where
  | gap {gap : List Terminal} {ts : List Token} :
    ts.map Token.terminal = gap → Covers owns [gap] [] ts
  | part {gaps : List (List Terminal)} {nodes : List Node} {ts own whole us : List Token}
    {n : Node} {gap : List Terminal} :
    Covers owns gaps nodes ts → owns n own → n.Spans own whole → us.map Token.terminal = gap →
      Covers owns (gaps ++ [gap]) (nodes ++ [n]) (ts ++ (whole ++ us))

/-- The tokens are a node's own text, and those inside it the own texts of the nodes inside it. Each
of the nodes stands where the first token of its own text does. -/
inductive Node.Owns : Node → List Token → Prop where
  | intro {n : Node} {own : List Token} :
    Covers Node.Owns n.gaps n.children own → n.pos = start own → Owns n own

namespace Covers

variable {owns : Node → List Token → Prop} {gaps : List (List Terminal)} {nodes : List Node}
  {n : Node} {ts own whole : List Token}

theorem first (ts : List Token) : Covers owns [ts.map Token.terminal] [] ts :=
  .gap rfl

theorem next (h : Covers owns gaps nodes ts) (hn : owns n own) (hw : n.Spans own whole)
    (us : List Token) :
    Covers owns (gaps ++ [us.map Token.terminal]) (nodes ++ [n]) (ts ++ (whole ++ us)) :=
  .part h hn hw rfl

end Covers

theorem Node.Owns.of_covers {n : Node} {gaps : List (List Terminal)} {ts own : List Token}
    (h : Covers Node.Owns gaps n.children ts) (hgaps : gaps = n.gaps) (hts : ts = own)
    (hpos : n.pos = start own) : n.Owns own := by
  subst hgaps hts
  exact .intro h hpos

def Listed (separator : List Terminal) (nodes : List Node) (ts : List Token) : Prop :=
  ∀ os cs : List Token, Covers Node.Owns
    (gapsOf (os.map Token.terminal) separator (cs.map Token.terminal) nodes.length) nodes
    (os ++ (ts ++ cs))

namespace Listed

variable {separator : List Terminal} {nodes : List Node} {n : Node} {ts own whole : List Token}

theorem gapsOf_succ {opening closing : List Terminal} {k : Nat} (h : k ≠ 0 ∨ separator = []) :
    gapsOf opening separator closing (k + 1) =
      gapsOf opening separator separator k ++ [closing] := by
  cases k with
  | zero =>
    obtain rfl := h.resolve_left (absurd rfl)
    simp [gapsOf]
  | succ k => simp [gapsOf, List.replicate_succ']

theorem nil : Listed separator [] [] := by
  intro os cs
  exact .gap (by simp)

theorem one (hn : n.Owns own) (hw : n.Spans own whole) : Listed separator [n] whole := by
  intro os cs
  exact (Covers.first os).next hn hw cs

theorem snoc (h : Listed separator nodes ts) (hne : nodes ≠ [] ∨ separator = []) (us : List Token)
    (hus : us.map Token.terminal = separator) (hn : n.Owns own) (hw : n.Spans own whole) :
    Listed separator (nodes ++ [n]) (ts ++ (us ++ whole)) := by
  intro os cs
  have hbefore := h os us
  rw [hus] at hbefore
  have hall := hbefore.next hn hw cs
  rw [← gapsOf_succ (hne.imp_left (by simp))] at hall
  simpa using hall

end Listed

namespace Grammar

/-- The tokens that a term is derived from are own texts of nodes, with brackets around them. -/
def Term.Owned (ts : List Token) : Term → Prop
  | expr _ e => ∃ own, (Node.task (.eval e)).Owns own ∧ Bracketed own ts
  | arguments es => es ≠ [] ∧ Listed [.symbol .comma] (es.map fun e => .task (.eval e)) ts

def terminalOf : Connective → Terminal
  | .logical op => (Lexeme.ofLogical op).terminal
  | .binary op => (Lexeme.ofBinary op).terminal

theorem operators_terminal (layer : Layer) : ∀ x ∈ layer.operators, x.1 = terminalOf x.2 := by
  cases layer <;> decide

theorem gaps_node (pos : Pos) (left right : Expr) (op : Connective) :
    (Node.task (.eval (node pos left right op))).gaps = [[], [terminalOf op], []] := by
  cases op <;> rfl

theorem children_node (pos : Pos) (left right : Expr) (op : Connective) :
    (Node.task (.eval (node pos left right op))).children =
      [.task (.eval left), .task (.eval right)] := by
  cases op <;> rfl

theorem pos_node (pos : Pos) (left right : Expr) (op : Connective) :
    (Node.task (.eval (node pos left right op))).pos = pos := by
  cases op <;> rfl

theorem Denotes.terminal {t : Token} {l : Literal} (h : Denotes t l) : t.terminal = l.terminal := by
  cases h <;> assumption

theorem signs_terminal {terminal : Terminal} {op : UnaryOp} (h : (terminal, op) ∈ signs) :
    (Lexeme.ofUnary op).terminal = terminal := by
  simp only [signs, List.mem_cons, Prod.mk.injEq, List.not_mem_nil, or_false] at h
  obtain ⟨rfl, rfl⟩ | ⟨rfl, rfl⟩ | ⟨rfl, rfl⟩ := h <;> rfl

theorem Term.Derives.owned {term : Term} {ts : List Token} (h : term.Derives ts) :
    term.Owned ts := by
  induction h with
  | tighter _ _ ih => exact ih
  | @assign t u e ts ht hu _ ih =>
    obtain ⟨own, hown, hwhole⟩ := ih
    have hcovers := (Covers.first [t, u]).next hown hwhole []
    exact ⟨_, .of_covers hcovers (by simp [Node.gaps, ht, hu]) (by simp) rfl, .bare⟩
  | @join layer above t op left right ls rs _ hop hl _ ihl ihr =>
    obtain ⟨own, hown, hwhole⟩ := ihl
    obtain ⟨own', hown', hwhole'⟩ := ihr
    have hcovers := ((Covers.first []).next hown hwhole [t]).next hown' hwhole' []
    refine ⟨_, .intro ?_ ?_, .bare⟩
    · rw [gaps_node, children_node, ← operators_terminal layer _ hop]
      simpa using hcovers
    · rw [pos_node, start_append hl.ne_nil]
  | @sign t op e ts hop _ ih =>
    obtain ⟨own, hown, hwhole⟩ := ih
    have hcovers := (Covers.first [t]).next hown hwhole []
    exact ⟨_, .of_covers hcovers (by simp [Node.gaps, signs_terminal hop]) (by simp) rfl, .bare⟩
  | literal hl => exact ⟨_, .intro (.gap (by simp [hl.terminal])) rfl, .bare⟩
  | name ht => exact ⟨_, .intro (.gap (by simp [ht])) rfl, .bare⟩
  | read ht hu hv => exact ⟨_, .intro (.gap (by simp [ht, hu, hv])) rfl, .bare⟩
  | callNone ht hu hv => exact ⟨_, .intro (.gap (by simp [ht, hu, hv])) rfl, .bare⟩
  | @call t u v es ts ht hu _ hv ih =>
    have hcovers := ih.2 [t, u] [v]
    rw [List.length_map] at hcovers
    refine ⟨_, .intro ?_ rfl, .bare⟩
    simpa [ht, hu, hv, Node.gaps, Node.children, Task.parts, Function.comp_def] using hcovers
  | group ht _ hu ih =>
    obtain ⟨own, hown, hwhole⟩ := ih
    exact ⟨own, hown, .group ht hwhole hu⟩
  | argument _ ih =>
    obtain ⟨own, hown, hwhole⟩ := ih
    exact ⟨by simp, .one hown hwhole⟩
  | @nextArgument t es e ts us _ ht _ ihs ih =>
    obtain ⟨own, hown, hwhole⟩ := ih
    obtain ⟨hne, hlisted⟩ := ihs
    refine ⟨by simp, ?_⟩
    have hall := hlisted.snoc (.inl (by simpa using hne)) [t] (by simp [ht]) hown hwhole
    simpa using hall

theorem Parameters.listed {ps : List Param} {ts : List Token} (h : Parameters ps ts) :
    ps ≠ [] ∧ Listed [.symbol .comma] (ps.map .param) ts := by
  induction h with
  | one ht hu =>
    exact ⟨by simp, .one (.intro (.gap (by simp [ht, hu])) rfl) rfl⟩
  | @next t u v kind ps ts _ ht hu hv ih =>
    obtain ⟨hne, hlisted⟩ := ih
    have hown : (Node.param ⟨u.mark.pos, .known kind, String.ofList v.text⟩).Owns [u, v] :=
      .intro (.gap (by simp [hu, hv])) rfl
    refine ⟨by simp, ?_⟩
    have hall := hlisted.snoc (.inl (by simpa using hne)) [t] (by simp [ht]) hown rfl
    simpa using hall

def Phrase.Owned (ts : List Token) : Phrase → Prop
  | one _ s => (Node.task (.exec s)).Owns ts
  | body ss => Listed [] (ss.map fun s => .task (.exec s)) ts

theorem Phrase.Derives.owned {phrase : Phrase} {ts : List Token} (h : phrase.Derives ts) :
    phrase.Owned ts := by
  induction h with
  | nil => exact .nil
  | snoc _ _ ihb ihs =>
    have hall := ihb.snoc (.inr rfl) [] rfl ihs rfl
    simpa [Phrase.Owned] using hall
  | binding _ ih => exact ih
  | statement _ ih => exact ih
  | block _ ih => exact ih
  | declare ht hu hv => exact .intro (.gap (by simp [ht, hu, hv])) rfl
  | @initial t u v w kind e ts ht hu hv he hw =>
    obtain ⟨own, hown, hwhole⟩ := he.owned
    have hcovers := (Covers.first [t, u, v]).next hown hwhole [w]
    exact .of_covers hcovers (by simp [Node.gaps, ht, hu, hv, hw]) (by simp) rfl
  | @functionNone t u v body ts ht hu hv _ ih =>
    have hcovers := (Covers.first [t, u, v]).next ih rfl []
    exact .of_covers hcovers (by simp [Node.gaps, gapsOf, ht, hu, hv]) (by simp) rfl
  | @function t u v ps body ts us ht hu hps hv _ ih =>
    have hparams := hps.listed.2 [t, u] [v]
    rw [List.length_map] at hparams
    have hcovers := hparams.next ih rfl []
    refine .intro ?_ rfl
    simpa [Node.gaps, Node.children, ht, hu, hv] using hcovers
  | @braces t u ss ts ht _ hu ih =>
    have hcovers := ih [t] [u]
    rw [List.length_map] at hcovers
    refine .intro ?_ rfl
    simpa [Node.gaps, Node.children, Task.parts, Function.comp_def, ht, hu] using hcovers
  | @branch t u v e s ts us ht hu he hv _ ih =>
    obtain ⟨own, hown, hwhole⟩ := he.owned
    have hcovers := ((Covers.first [t, u]).next hown hwhole [v]).next ih rfl []
    exact .of_covers hcovers (by simp [Node.gaps, ht, hu, hv]) (by simp) rfl
  | @branchElse t u v w e yes no ts us vs ht hu he hv _ _ hw _ ihy ihn =>
    obtain ⟨own, hown, hwhole⟩ := he.owned
    have hyes := ((Covers.first [t, u]).next hown hwhole [v]).next ihy rfl [w]
    have hcovers := hyes.next ihn rfl []
    exact .of_covers hcovers (by simp [Node.gaps, ht, hu, hv, hw]) (by simp) rfl
  | @whileLoop t u v e s ts us ht hu he hv _ ih =>
    obtain ⟨own, hown, hwhole⟩ := he.owned
    have hcovers := ((Covers.first [t, u]).next hown hwhole [v]).next ih rfl []
    exact .of_covers hcovers (by simp [Node.gaps, ht, hu, hv]) (by simp) rfl
  | @forLoop t u v w initial body test update ts us vs ws ht hu _ htest hv hupdate hw _ ihi ihb =>
    obtain ⟨own, hown, hwhole⟩ := htest.owned
    obtain ⟨own', hown', hwhole'⟩ := hupdate.owned
    have hhead := ((Covers.first [t, u]).next ihi rfl []).next hown hwhole [v]
    have hcovers := (hhead.next hown' hwhole' [w]).next ihb rfl []
    exact .of_covers hcovers (by simp [Node.gaps, ht, hu, hv, hw]) (by simp) rfl
  | returnsNone ht hu => exact .intro (.gap (by simp [ht, hu])) rfl
  | @returns t u e ts ht he hu =>
    obtain ⟨own, hown, hwhole⟩ := he.owned
    have hcovers := (Covers.first [t]).next hown hwhole [u]
    exact .of_covers hcovers (by simp [Node.gaps, ht, hu]) (by simp) rfl
  | @print t u e ts ht he hu =>
    obtain ⟨own, hown, hwhole⟩ := he.owned
    have hcovers := (Covers.first [t]).next hown hwhole [u]
    exact .of_covers hcovers (by simp [Node.gaps, ht, hu]) (by simp) rfl
  | breaks ht hu => exact .intro (.gap (by simp [ht, hu])) rfl
  | continues ht hu => exact .intro (.gap (by simp [ht, hu])) rfl
  | @expr t e ts he ht =>
    obtain ⟨own, hown, hwhole⟩ := he.owned
    have hcovers := (Covers.first []).next hown hwhole [t]
    exact .of_covers hcovers (by simp [Node.gaps, ht]) (by simp) (start_append he.ne_nil _).symm

end Grammar

namespace Mark

/-- The place after a text: its newlines count for the line, and what follows the last of them for
the column. -/
def after (cs : List Char) : Mark :=
  ⟨cs.count '\n' + 1, (cs.reverse.takeWhile (· != '\n')).length + 1⟩

theorem advance_append (mark : Mark) (cs ds : List Char) :
    mark.advance (cs ++ ds) = (mark.advance cs).advance ds :=
  List.foldl_append

theorem advance_eq_after (cs : List Char) : Mark.advance {} cs = after cs := by
  induction cs using List.reverseRecOn with
  | nil => rfl
  | append_singleton cs c ih =>
    rw [advance_append, ih]
    by_cases hc : c = '\n'
    · simp [advance, next, after, hc]
    · simp [advance, next, after, hc]

def Before (a b : Mark) : Prop :=
  a.line < b.line ∨ a.line = b.line ∧ a.column < b.column

theorem before_next (mark : Mark) (c : Char) : mark.Before (mark.next c) := by
  unfold next
  split
  · exact .inl (Nat.lt_succ_self _)
  · exact .inr ⟨rfl, Nat.lt_succ_self _⟩

theorem Before.trans {a b c : Mark} (hab : a.Before b) (hbc : b.Before c) : a.Before c := by
  unfold Before at *
  omega

theorem before_advance (mark : Mark) {cs : List Char} (h : cs ≠ []) :
    mark.Before (mark.advance cs) := by
  induction cs generalizing mark with
  | nil => exact absurd rfl h
  | cons c cs ih =>
    by_cases hcs : cs = []
    · subst hcs
      exact mark.before_next c
    · exact (mark.before_next c).trans (ih (mark.next c) hcs)

theorem advance_eq_or_before (mark : Mark) (cs : List Char) :
    mark.advance cs = mark ∨ mark.Before (mark.advance cs) := by
  by_cases hcs : cs = []
  · subst hcs
    exact .inl rfl
  · exact .inr (mark.before_advance hcs)

end Mark

namespace Splits

variable {mark : Mark} {cs : List Char} {ts : List Token}

theorem located (h : Splits mark cs ts) : ∀ t ∈ ts, ∃ before after,
    cs = before ++ (t.text ++ after) ∧ t.mark = mark.advance before := by
  induction h with
  | nil => exact fun t ht => nomatch ht
  | @layout mark piece cs ts _ _ ih =>
    intro t ht
    obtain ⟨before, after, rfl, hmark⟩ := ih t ht
    exact ⟨piece ++ before, after, by simp, hmark.trans (mark.advance_append piece before).symm⟩
  | @token u cs ts _ _ ih =>
    intro t ht
    obtain rfl | ht := List.mem_cons.mp ht
    · exact ⟨[], cs, rfl, rfl⟩
    · obtain ⟨before, after, rfl, hmark⟩ := ih t ht
      exact ⟨u.text ++ before, after, by simp,
        hmark.trans (u.mark.advance_append u.text before).symm⟩

theorem not_before (h : Splits mark cs ts) : ∀ t ∈ ts, t.mark = mark ∨ mark.Before t.mark := by
  intro t ht
  obtain ⟨before, after, _, hmark⟩ := h.located t ht
  rw [hmark]
  exact mark.advance_eq_or_before before

theorem increasing (h : Splits mark cs ts) : ts.Pairwise fun t u => t.mark.Before u.mark := by
  induction h with
  | nil => exact .nil
  | layout _ _ ih => exact ih
  | @token t cs ts ht hrest ih =>
    refine .cons (fun u hu => ?_) ih
    have hnext := t.mark.before_advance ht.ne_nil
    obtain heq | hbefore := hrest.not_before u hu
    · rw [heq]
      exact hnext
    · exact hnext.trans hbefore

end Splits

/-- The line of one position comes before that of another one, or it is the same line and the column
does. -/
def Pos.Precedes (a b : Pos) : Prop :=
  ∃ m n : Mark, a = m.pos ∧ b = n.pos ∧ m.Before n

theorem Bracketed.isInfix {own whole : List Token} (h : Bracketed own whole) : own <:+: whole := by
  induction h with
  | bare => exact List.infix_refl own
  | @group t u ts _ _ _ ih =>
    exact ih.trans ⟨[t], [u], rfl⟩

theorem Node.Spans.isInfix {n : Node} {own whole : List Token} (h : n.Spans own whole) :
    own <:+: whole := by
  unfold Spans at h
  split at h
  · exact h.isInfix
  · exact h ▸ List.infix_refl own

theorem Node.children_ne_program {n c : Node} (hc : c ∈ n.children) (p : Program) :
    c ≠ .program p := by
  rintro rfl
  unfold children at hc
  split at hc <;> simp at hc

namespace Covers

variable {owns : Node → List Token → Prop} {gaps : List (List Terminal)} {nodes : List Node}
  {ts : List Token}

theorem length_le (h : Covers owns gaps nodes ts) :
    gaps ≠ [] ∧ gaps.flatten.length ≤ ts.length := by
  induction h with
  | gap hts => simp [← hts]
  | part _ _ _ hus ih =>
    refine ⟨by simp, ?_⟩
    simp only [List.flatten_append, List.length_append, List.flatten_singleton, ← hus,
      List.length_map]
    omega

theorem inside (h : Covers owns gaps nodes ts) :
    ∀ n ∈ nodes, ∃ own, own <:+: ts ∧ owns n own := by
  induction h with
  | gap => exact fun n hn => nomatch hn
  | @part gaps nodes ts own whole us n gap _ hown hspans _ ih =>
    refine List.forall_mem_append.mpr ⟨fun m hm => ?_, List.forall_mem_singleton.mpr ?_⟩
    · obtain ⟨own', hinside, hm⟩ := ih m hm
      exact ⟨own', hinside.trans (List.prefix_append _ _).isInfix, hm⟩
    · exact ⟨own, hspans.isInfix.trans ⟨ts, us, by simp⟩, hown⟩

theorem ordered (h : Covers owns gaps nodes ts)
    (hat : ∀ n ∈ nodes, ∀ own, owns n own → ∃ t ∈ own, n.pos = t.mark.pos)
    (hts : ts.Pairwise fun t u => t.mark.Before u.mark) :
    nodes.Pairwise fun n n' => n.pos.Precedes n'.pos := by
  induction h with
  | gap => exact .nil
  | @part gaps nodes ts own whole us n gap hcovers hown hspans _ ih =>
    obtain ⟨hnodes, hn⟩ := List.forall_mem_append.mp hat
    obtain ⟨hfirst, _, hacross⟩ := List.pairwise_append.mp hts
    refine List.pairwise_append.mpr ⟨ih hnodes hfirst, List.pairwise_singleton _ _, ?_⟩
    intro m hm n' hn'
    obtain rfl := List.mem_singleton.mp hn'
    obtain ⟨own', hinside, hm'⟩ := hcovers.inside m hm
    obtain ⟨t, ht, hmpos⟩ := hnodes m hm own' hm'
    obtain ⟨u, hu, hnpos⟩ := List.forall_mem_singleton.mp hn own hown
    have hu' : u ∈ whole ++ us := List.mem_append_left _ (hspans.isInfix.subset hu)
    exact ⟨t.mark, u.mark, hmpos, hnpos, hacross t (hinside.subset ht) u hu'⟩

end Covers

namespace Node

theorem gapsOf_flatten_ne_nil {opening : List Terminal} (separator closing : List Terminal)
    (n : Nat) (h : opening ≠ []) : (gapsOf opening separator closing n).flatten ≠ [] := by
  cases n <;> simp [gapsOf, h]

theorem gaps_flatten_ne_nil {n : Node} (hn : ∀ p, n ≠ program p) (h : n.gaps ≠ []) :
    n.gaps.flatten ≠ [] := by
  cases n with
  | program p => exact absurd rfl (hn p)
  | param q => simp [gaps]
  | task t =>
    cases t with
    | eval e =>
      cases e with
      | call pos name arguments => exact gapsOf_flatten_ne_nil _ _ _ (by simp)
      | stuck why => exact absurd rfl h
      | _ => simp [gaps]
    | exec s =>
      cases s with
      | function pos name params body =>
        have hparams := gapsOf_flatten_ne_nil [.symbol .comma] [.symbol .parenClose] params.length
          (List.cons_ne_nil Terminal.name [.symbol .parenOpen])
        simpa [gaps] using hparams
      | block pos body => exact gapsOf_flatten_ne_nil _ _ _ (by simp)
      | unusable pos name why => exact absurd rfl h
      | stuck why => exact absurd rfl h
      | declare pos type name initial => cases initial <;> simp [gaps]
      | branch pos test yes no => cases no <;> simp [gaps]
      | returns pos value => cases value <;> simp [gaps]
      | _ => simp [gaps]

theorem Owns.ne_nil {n : Node} {own : List Token} (hn : ∀ p, n ≠ program p) (h : n.Owns own) :
    own ≠ [] := by
  obtain ⟨hcovers, _⟩ := h
  obtain ⟨hne, hlength⟩ := hcovers.length_le
  have hpos := List.length_pos_iff.mpr (gaps_flatten_ne_nil hn hne)
  exact List.ne_nil_of_length_pos (Nat.lt_of_lt_of_le hpos hlength)

theorem Owns.first {n : Node} {own : List Token} (h : n.Owns own) (hne : own ≠ []) :
    ∃ t ts, own = t :: ts ∧ n.pos = t.mark.pos := by
  obtain ⟨t, ts, rfl⟩ := List.exists_cons_of_ne_nil hne
  obtain ⟨_, hpos⟩ := h
  exact ⟨t, ts, rfl, hpos⟩

/-- The nodes inside one, at any depth, and the node itself. -/
inductive Within (root : Node) : Node → Prop where
  | self : Within root root
  | child {n c : Node} : Within root n → c ∈ n.children → Within root c

theorem Within.eq_or {root n : Node} (h : root.Within n) : n = root ∨ ∀ p, n ≠ program p := by
  cases h with
  | self => exact .inl rfl
  | child _ hc => exact .inr (children_ne_program hc)

theorem Owns.within {root n : Node} {tokens : List Token} (h : root.Owns tokens)
    (hn : root.Within n) : ∃ own, own <:+: tokens ∧ n.Owns own := by
  induction hn with
  | self => exact ⟨tokens, List.infix_refl _, h⟩
  | child _ hc ih =>
    obtain ⟨own, hinside, hcovers, _⟩ := ih
    obtain ⟨own', hinside', howns⟩ := hcovers.inside _ hc
    exact ⟨own', hinside'.trans hinside, howns⟩

section Ordered

variable {n : Node} {own : List Token} (h : n.Owns own)
  (hts : own.Pairwise fun t u => t.mark.Before u.mark)

include h hts

theorem Owns.children_ordered : n.children.Pairwise fun c d => c.pos.Precedes d.pos := by
  obtain ⟨hcovers, _⟩ := h
  refine hcovers.ordered (fun c hc own' hown => ?_) hts
  obtain ⟨t, ts, rfl, hpos⟩ := hown.first (hown.ne_nil (children_ne_program hc))
  exact ⟨t, List.mem_cons_self, hpos⟩

theorem Owns.not_before {c : Node} (hc : c ∈ n.children) :
    c.pos = n.pos ∨ n.pos.Precedes c.pos := by
  obtain ⟨hcovers, hpos⟩ := h
  obtain ⟨own', hinside, hown⟩ := hcovers.inside c hc
  obtain ⟨u, us, rfl, hcpos⟩ := hown.first (hown.ne_nil (children_ne_program hc))
  have hu : u ∈ own := hinside.subset List.mem_cons_self
  obtain ⟨t, ts, rfl⟩ := List.exists_cons_of_ne_nil (List.ne_nil_of_mem hu)
  obtain rfl | hu := List.mem_cons.mp hu
  · exact .inl (hcpos.trans hpos.symm)
  · exact .inr ⟨t.mark, u.mark, hpos, hcpos, List.rel_of_pairwise_cons hts hu⟩

end Ordered

end Node

theorem Grammar.start_eq_none {ts : List Token} (h : ∀ t ∈ ts, 1 ≤ t.mark.line) :
    start ts = .none ↔ ts = [] := by
  cases ts with
  | nil => exact iff_of_true rfl rfl
  | cons t ts =>
    refine iff_of_false (fun hnone => ?_) (List.cons_ne_nil _ _)
    have hline : (t.mark.line : Int) = 0 := by
      simpa [start, Mark.pos, Pos.none] using congrArg Pos.line hnone
    have hpos := h t List.mem_cons_self
    omega

/-- Positions are faithful. A text that is read is layout and tokens, each token counted to its
place. Every node of the program has a text of its own among the tokens and stands at its first
token; only an empty program stands nowhere. No node stands before the one that it is inside, and
the nodes directly inside one stand after one another. -/
theorem positions_faithful {source : String} {p : Program} (h : parse source = .ok p) :
    ∃ tokens, Splits {} source.toList tokens ∧
      (∀ t ∈ tokens, ∃ before after, source.toList = before ++ (t.text ++ after) ∧
        t.mark = Mark.after before) ∧
      (Node.program p).Owns tokens ∧
      ∀ n, (Node.program p).Within n →
        (∃ own, own <:+: tokens ∧ n.Owns own ∧ n.pos = start own) ∧
        (n.pos = .none ↔ n = .program p ∧ p.body = []) ∧
        (∀ c ∈ n.children, c.pos = n.pos ∨ n.pos.Precedes c.pos) ∧
        n.children.Pairwise fun c d => c.pos.Precedes d.pos := by
  obtain ⟨tokens, hsplit, hbody, hpos⟩ := parse_derives h
  have hlisted : Listed [] (p.body.map fun s => .task (.exec s)) tokens := hbody.owned
  have hroot : (Node.program p).Owns tokens := by
    have hcovers := hlisted [] []
    rw [List.length_map] at hcovers
    exact .of_covers hcovers rfl (by simp) hpos
  refine ⟨tokens, hsplit, fun t ht => ?_, hroot, fun n hn => ?_⟩
  · obtain ⟨before, after, hsource, hmark⟩ := hsplit.located t ht
    exact ⟨before, after, hsource, hmark.trans (Mark.advance_eq_after before)⟩
  · obtain ⟨own, hinside, hown⟩ := hroot.within hn
    have hsorted := hsplit.increasing.sublist hinside.sublist
    have hstart : n.pos = start own := by
      obtain ⟨_, hstart⟩ := hown
      exact hstart
    refine ⟨⟨own, hinside, hown, hstart⟩, ?_, fun c hc => hown.not_before hsorted hc,
      hown.children_ordered hsorted⟩
    have hlines : ∀ t ∈ own, 1 ≤ t.mark.line := fun t ht =>
      hsplit.line_le t (hinside.subset ht)
    obtain rfl | hother := hn.eq_or
    · have hempty : p.body = [] ↔ tokens = [] := hbody.starts.2
      rw [Node.pos, hpos, start_eq_none hsplit.line_le, hempty]
      simp
    · rw [hstart, start_eq_none hlines]
      exact iff_of_false (hown.ne_nil hother) fun hroot => hother p hroot.1

/-- Brackets around the first operand count for the product, those around the whole statement's
expression do not. -/
theorem positions_faithful_brackets :
    ∃ p tokens, parse "((1 + 2) * 3);" = .ok p ∧ (Node.program p).Owns tokens ∧
      p.body = [.expr (Mark.pos ⟨1, 1⟩) (.binary (Mark.pos ⟨1, 2⟩) .mul
        (.binary (Mark.pos ⟨1, 3⟩) .add (.literal (Mark.pos ⟨1, 3⟩) (.integer (.int 1)))
          (.literal (Mark.pos ⟨1, 7⟩) (.integer (.int 2))))
        (.literal (Mark.pos ⟨1, 12⟩) (.integer (.int 3))))] := by
  have h : parse "((1 + 2) * 3);" = .ok ⟨Mark.pos ⟨1, 1⟩,
      [.expr (Mark.pos ⟨1, 1⟩) (.binary (Mark.pos ⟨1, 2⟩) .mul
        (.binary (Mark.pos ⟨1, 3⟩) .add (.literal (Mark.pos ⟨1, 3⟩) (.integer (.int 1)))
          (.literal (Mark.pos ⟨1, 7⟩) (.integer (.int 2))))
        (.literal (Mark.pos ⟨1, 12⟩) (.integer (.int 3))))]⟩ := by rfl
  obtain ⟨tokens, _, _, howns, _⟩ := positions_faithful h
  exact ⟨_, tokens, h, howns, rfl⟩

end Guion
