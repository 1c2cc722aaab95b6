import Guion.Parse.Step
import Guion.Proofs.Grammar

namespace Guion

namespace Grammar

open Parse (Connective)

namespace Layer

def rank : Layer → Nat
  | assignment => 0
  | disjunction => 1
  | conjunction => 2
  | equality => 3
  | relational => 4
  | additive => 5
  | power => 6
  | multiplicative => 7
  | unary => 8
  | primary => 9

def ofConnective : Connective → Layer
  | .logical .or => disjunction
  | .logical _ => conjunction
  | .binary .equal | .binary .notEqual => equality
  | .binary .less | .binary .lessEqual | .binary .greater | .binary .greaterEqual => relational
  | .binary .add | .binary .sub => additive
  | .binary .pow => power
  | .binary _ => multiplicative

theorem rank_le (layer : Layer) : layer.rank ≤ 9 := by
  cases layer <;> decide

theorem eq_of_rank {layer other : Layer} (h : layer.rank = other.rank) : layer = other := by
  cases layer <;> cases other <;> first | rfl | cases h

theorem exists_next (layer : Layer) (h : layer.rank < 9) :
    ∃ above, layer.next? = some above ∧ above.rank = layer.rank + 1 := by
  cases layer with
  | primary => exact absurd h (by decide)
  | _ => exact ⟨_, rfl, rfl⟩

theorem level_of_mem {layer : Layer} {t : Terminal} {op : Connective}
    (h : (t, op) ∈ layer.operators) : op.level = layer.rank := by
  cases layer <;> simp [operators] at h <;> grind [Connective.level, rank]

theorem level_lt {layer : Layer} {t : Terminal} {op : Connective}
    (h : (t, op) ∈ layer.operators) : op.level < 8 := by
  rw [level_of_mem h]
  cases layer <;> first | decide | cases h

theorem eq_pow {layer : Layer} {t : Terminal} {op : Connective} (h : (t, op) ∈ layer.operators)
    (hr : layer.rank = 6) : op = .binary .pow := by
  obtain rfl : layer = power := eq_of_rank hr
  exact (Prod.mk.inj (List.mem_singleton.mp h)).2

theorem left_of_ne_pow {layer : Layer} {t : Terminal} {op : Connective}
    (h : (t, op) ∈ layer.operators) (hne : op ≠ .binary .pow) : layer.left = layer := by
  cases layer with
  | power => exact absurd (eq_pow h rfl) hne
  | _ => rfl

theorem mem_operators {t : Terminal} {op : Connective} (h : Connective.ofTerminal? t = some op) :
    (t, op) ∈ (ofConnective op).operators := by
  unfold Connective.ofTerminal? at h
  split at h <;> cases h <;> decide

end Layer

theorem mem_signs {t : Terminal} {op : UnaryOp} (h : Parse.UnaryOp.ofTerminal? t = some op) :
    (t, op) ∈ signs := by
  unfold Parse.UnaryOp.ofTerminal? at h
  split at h <;> cases h <;> decide

theorem Term.Derives.loosen {layer other : Layer} {e : Expr} {ts : List Token}
    (h : layer.rank ≤ other.rank) (he : (Term.expr other e).Derives ts) :
    (Term.expr layer e).Derives ts := by
  induction hn : other.rank - layer.rank generalizing layer with
  | zero => exact Layer.eq_of_rank (show layer.rank = other.rank by omega) ▸ he
  | succ n ih =>
    have := other.rank_le
    obtain ⟨above, hnext, hrank⟩ := layer.exists_next (show layer.rank < 9 by omega)
    exact .tighter hnext (ih (by omega) (by omega))

def Begins (ts : List Token) (mark : Mark) : Prop :=
  ts.head?.map Token.mark = some mark

theorem Begins.append {ts us : List Token} {mark : Mark} (h : Begins ts mark) :
    Begins (ts ++ us) mark := by
  cases ts with
  | nil => cases h
  | cons t ts => exact h

theorem Begins.start {ts : List Token} {mark : Mark} (h : Begins ts mark) :
    start ts = mark.pos := by
  cases ts with
  | nil => cases h
  | cons t ts =>
    cases h
    rfl

end Grammar

namespace Parse

open Grammar

/-- An operand was read from tokens and binds at least as tightly as a rank. -/
structure Operand.Spans (rank : Nat) (e : Operand) (ts : List Token) : Prop where
  derives : ∃ layer : Layer, rank ≤ layer.rank ∧ (Term.expr layer e.expr).Derives ts
  begins : Begins ts e.start

namespace Operand.Spans

variable {rank : Nat} {e : Operand} {ts : List Token}

theorem mono {other : Nat} (h : e.Spans rank ts) (hr : other ≤ rank) : e.Spans other ts := by
  obtain ⟨layer, hl, hd⟩ := h.derives
  exact ⟨⟨layer, Nat.le_trans hr hl, hd⟩, h.begins⟩

theorem at_layer (layer : Layer) (h : e.Spans layer.rank ts) :
    (Term.expr layer e.expr).Derives ts := by
  obtain ⟨other, hl, hd⟩ := h.derives
  exact hd.loosen hl

theorem primary {e : Expr} {t : Token} (h : (Term.expr .primary e).Derives (t :: ts)) :
    Operand.Spans 9 ⟨t.mark, e⟩ (t :: ts) :=
  ⟨⟨.primary, Nat.le_refl _, h⟩, rfl⟩

theorem join {layer : Layer} {t : Token} {op : Connective} {left right : Operand}
    {ls rs : List Token} (hop : (t.terminal, op) ∈ layer.operators)
    (hl : left.Spans layer.left.rank ls) (hr : right.Spans (layer.rank + 1) rs) :
    (op.join left right).Spans layer.rank (ls ++ t :: rs) := by
  obtain ⟨above, hnext, hrank⟩ := layer.exists_next (by
    obtain ⟨other, ho, _⟩ := hr.derives
    have := other.rank_le
    omega)
  rw [← hrank] at hr
  have h := Term.Derives.join hnext hop (hl.at_layer layer.left) (hr.at_layer above)
  rw [hl.begins.start] at h
  refine ⟨⟨layer, Nat.le_refl _, ?_⟩, hl.begins.append⟩
  cases op <;> exact h

theorem sign {t : Token} {op : UnaryOp} (hop : (t.terminal, op) ∈ signs) (h : e.Spans 8 ts) :
    Operand.Spans 8 ⟨t.mark, .unary t.mark.pos op e.expr⟩ (t :: ts) :=
  ⟨⟨.unary, Nat.le_refl _, .sign hop (h.at_layer .unary)⟩, rfl⟩

theorem assign {t u : Token} (ht : t.terminal = .name) (hu : u.terminal = .symbol .assign)
    (h : e.Spans 0 ts) :
    Operand.Spans 0 ⟨t.mark, .assign t.mark.pos (textOf t) e.expr⟩ (t :: u :: ts) :=
  ⟨⟨.assignment, Nat.le_refl _, .assign ht hu (h.at_layer .assignment)⟩, rfl⟩

end Operand.Spans

def need : List Pending → Nat
  | .right op _ :: _ => op.level + 1
  | .unary _ _ :: _ => 8
  | _ => 0

inductive Earlier : List Expr → List Token → Prop where
  | none : Earlier [] []
  | some {t : Token} {before : List Expr} {ts : List Token} :
    (Term.arguments before.reverse).Derives ts → t.terminal = .symbol .comma →
      Earlier before (ts ++ [t])

theorem Earlier.arguments {before : List Expr} {e : Operand} {ts us : List Token}
    (h : Earlier before ts) (he : e.Spans 0 us) :
    (Term.arguments (e.expr :: before).reverse).Derives (ts ++ us) := by
  have hd := he.at_layer .assignment
  cases h with
  | none => exact .argument hd
  | some hb ht => simpa using Term.Derives.nextArgument hb ht hd

theorem arguments_ne_nil {es : List Expr} {ts : List Token} (h : (Term.arguments es).Derives ts) :
    es ≠ [] := by
  cases h <;> simp

theorem Earlier.eq_nil {ts : List Token} (h : Earlier [] ts) : ts = [] := by
  cases h with
  | none => rfl
  | some ha _ => exact absurd rfl (arguments_ne_nil ha)

/-- The tokens that what is pending was read from. An operator waits below one that binds more
tightly, so the operand it gets is of the layer that it needs. -/
inductive Awaits : List Pending → List Token → Prop where
  | nil : Awaits [] []
  | right {layer : Layer} {t : Token} {op : Connective} {left : Operand} {rest : List Pending}
    {ts ls : List Token} :
    Awaits rest ts → need rest ≤ layer.rank → (t.terminal, op) ∈ layer.operators →
      left.Spans layer.left.rank ls → Awaits (.right op left :: rest) (ts ++ (ls ++ [t]))
  | unary {t : Token} {op : UnaryOp} {rest : List Pending} {ts : List Token} :
    Awaits rest ts → (t.terminal, op) ∈ signs → Awaits (.unary op t.mark :: rest) (ts ++ [t])
  | assign {t u : Token} {rest : List Pending} {ts : List Token} :
    Awaits rest ts → need rest = 0 → t.terminal = .name → u.terminal = .symbol .assign →
      Awaits (.assign (textOf t) t.mark :: rest) (ts ++ [t, u])
  | group {t : Token} {rest : List Pending} {ts : List Token} :
    Awaits rest ts → t.terminal = .symbol .parenOpen → Awaits (.group t.mark :: rest) (ts ++ [t])
  | call {t u : Token} {before : List Expr} {rest : List Pending} {ts us : List Token} :
    Awaits rest ts → t.terminal = .name → u.terminal = .symbol .parenOpen → Earlier before us →
      Awaits (.call (textOf t) t.mark before :: rest) (ts ++ (t :: u :: us))

theorem Awaits.need_le {pending : List Pending} {ts : List Token} (h : Awaits pending ts) :
    need pending ≤ 8 := by
  cases h with
  | right _ _ hop _ =>
    have := Layer.level_lt hop
    simp only [need]
    omega
  | _ => simp [need]

def Remains (rank : Nat) (ts : List Token) (left : List Pending × Operand) : Prop :=
  ∃ us vs, ts = us ++ vs ∧ Awaits left.1 us ∧ left.2.Spans rank vs

theorem reduce_remains (level : Nat) {pending : List Pending} {e : Operand} {ts es : List Token}
    (hlevel : level ≤ 8) (hp : Awaits pending ts) (he : e.Spans (max level (need pending)) es) :
    Remains level (ts ++ es) (reduce level pending e) ∧
      need (reduce level pending e).1 ≤ level := by
  have hstop : e.Spans level es := he.mono (Nat.le_max_left _ _)
  induction hp generalizing e es with
  | nil => exact ⟨⟨_, _, rfl, .nil, hstop⟩, Nat.zero_le _⟩
  | right hr hn hop hl ih =>
    have hrank := Layer.level_of_mem hop
    rw [reduce]
    split
    -- what is below an operator needs no more than the operator's own layer
    next h =>
      have hj := Operand.Spans.join hop hl (he.mono (by rw [need]; omega))
      simpa using ih (hj.mono (by omega)) (hj.mono (by omega))
    next h =>
      refine ⟨⟨_, _, rfl, .right hr hn hop hl, hstop⟩, ?_⟩
      rw [need]
      omega
  | unary hr hop ih =>
    have hneed := hr.need_le
    have hs := Operand.Spans.sign hop (he.mono (by rw [need]; omega))
    simpa [reduce] using ih (hs.mono (by omega)) (hs.mono hlevel)
  | assign hr hn ht hu => exact ⟨⟨_, _, rfl, .assign hr hn ht hu, hstop⟩, Nat.zero_le _⟩
  | group hr ht => exact ⟨⟨_, _, rfl, .group hr ht, hstop⟩, Nat.zero_le _⟩
  | call hr ht hu hb => exact ⟨⟨_, _, rfl, .call hr ht hu hb, hstop⟩, Nat.zero_le _⟩

theorem collapse_remains {pending : List Pending} {e : Operand} {ts es : List Token}
    (hp : Awaits pending ts) (he : e.Spans (need pending) es) :
    Remains 0 (ts ++ es) (collapse pending e) := by
  induction hp generalizing e es with
  | nil => exact ⟨_, _, rfl, .nil, he⟩
  -- the operand binds tightly enough for what waits for it, and the join for what is below
  | right hr hn hop hl ih =>
    rw [need, Layer.level_of_mem hop] at he
    simpa [collapse] using ih ((Operand.Spans.join hop hl he).mono hn)
  | unary hr hop ih =>
    simpa [collapse] using ih ((Operand.Spans.sign hop he).mono hr.need_le)
  | assign hr hn ht hu ih =>
    simpa [collapse] using ih ((Operand.Spans.assign ht hu he).mono (Nat.le_of_eq hn))
  | group hr ht => exact ⟨_, _, rfl, .group hr ht, he⟩
  | call hr ht hu hb => exact ⟨_, _, rfl, .call hr ht hu hb, he⟩

/-- A power that waits for its right operand is the only thing of its level. -/
theorem need_le_of_not_pow {rest : List Pending} {ts : List Token} (hr : Awaits rest ts)
    (h : need rest ≤ 7) (hne : ∀ left up, rest ≠ .right (.binary .pow) left :: up) :
    need rest ≤ 6 := by
  cases hr with
  | @right layer t op left rest ts ls hr hn hop hl =>
    have hrank := Layer.level_of_mem hop
    have hpow : layer.rank ≠ 6 := fun h6 => hne left rest (by rw [Layer.eq_pow hop h6])
    rw [need] at h ⊢
    omega
  | _ => simp [need] at h ⊢

theorem connect?_awaits {op : Connective} {t : Token} {pending rest : List Pending} {e : Operand}
    {ts es : List Token} (hop : Connective.ofTerminal? t.terminal = some op)
    (h : connect? op pending e = some rest) (hp : Awaits pending ts) (he : e.Spans 9 es) :
    Awaits rest (ts ++ es ++ [t]) := by
  have hmem := Layer.mem_operators hop
  have hlt := Layer.level_lt hmem
  have hneed := hp.need_le
  unfold connect? at h
  split at h
  next =>
    obtain ⟨⟨us, vs, hts, hus, hvs⟩, hn⟩ := reduce_remains 7 (by omega) hp
      (he.mono (by omega))
    split at h
    next => cases h
    next left e' hne hred =>
      cases h
      rw [hred] at hus hvs hn
      rw [hts, List.append_assoc]
      have hn' : need left ≤ Layer.power.rank := need_le_of_not_pow hus hn hne
      exact .right hus hn' hmem hvs
  next hpow =>
    obtain ⟨⟨us, vs, hts, hus, hvs⟩, hn⟩ := reduce_remains op.level (by omega) hp
      (he.mono (by omega))
    cases h
    rw [hts, List.append_assoc]
    have hrank := Layer.level_of_mem hmem
    have hleft : (Layer.ofConnective op).left.rank = op.level := by
      rw [Layer.left_of_ne_pow hmem hpow, hrank]
    exact .right hus (hrank ▸ hn) hmem (hvs.mono (Nat.le_of_eq hleft))

end Parse

end Guion
