import Guion.Proofs.Grammar.Pending

namespace Guion

namespace Grammar

def Category.holds : Category → Category → Bool
  | .declaration, _ => true
  | .statement, .statement => true
  | .statement, .block => true
  | .block, .block => true
  | _, _ => false

theorem Phrase.Derives.widen {slot category : Category} {s : Stmt} {ts : List Token}
    (hs : (Phrase.one category s).Derives ts) (h : slot.holds category) :
    (Phrase.one slot s).Derives ts := by
  cases slot with
  | declaration =>
    cases category with
    | declaration => exact hs
    | binding => exact .binding hs
    | statement => exact .statement hs
    | block => exact .statement (.block hs)
  | statement =>
    cases category with
    | statement => exact hs
    | block => exact .block hs
    | _ => cases h
  | block =>
    cases category with
    | block => exact hs
    | _ => cases h
  | binding => cases h

theorem Category.holds_block {slot : Category} (h : slot.holds .statement) :
    slot.holds .block := by
  cases slot <;> first | rfl | cases h

end Grammar

namespace Parse

open Grammar

inductive Tested (word : Keyword) : Mark → Expr → List Token → Prop where
  | intro {t u v : Token} {e : Expr} {ts : List Token} :
    t.terminal = .keyword word → u.terminal = .symbol .parenOpen →
      (Term.expr .assignment e).Derives ts → v.terminal = .symbol .parenClose →
      Tested word t.mark e (t :: u :: (ts ++ [v]))

inductive Signature : Mark → String → List Param → List Token → Prop where
  | empty {t u v : Token} :
    t.terminal = .name → u.terminal = .symbol .parenOpen → v.terminal = .symbol .parenClose →
      Signature t.mark (textOf t) [] [t, u, v]
  | params {t u v : Token} {ps : List Param} {ts : List Token} :
    t.terminal = .name → u.terminal = .symbol .parenOpen → Parameters ps ts →
      v.terminal = .symbol .parenClose → Signature t.mark (textOf t) ps (t :: u :: (ts ++ [v]))

inductive Declared : Mark → Stmt → List Token → Prop where
  | intro {t u : Token} {s : Stmt} {ts : List Token} :
    t.terminal = .keyword .para → u.terminal = .symbol .parenOpen →
      (Phrase.one .binding s).Derives ts → Declared t.mark s (t :: u :: ts)

inductive Bounded : Mark → Stmt → Expr → List Token → Prop where
  | intro {mark : Mark} {t : Token} {s : Stmt} {e : Expr} {ts us : List Token} :
    Declared mark s ts → (Term.expr .assignment e).Derives us → t.terminal = .symbol .semicolon →
      Bounded mark s e (ts ++ (us ++ [t]))

inductive Stepped : Mark → Stmt → Expr → Expr → List Token → Prop where
  | intro {mark : Mark} {t : Token} {s : Stmt} {test update : Expr} {ts us : List Token} :
    Bounded mark s test ts → (Term.expr .assignment update).Derives us →
      t.terminal = .symbol .parenClose → Stepped mark s test update (ts ++ (us ++ [t]))

section

variable {word : Keyword} {mark : Mark} {name : String} {params : List Param} {e test update : Expr}
  {s initial yes : Stmt} {t : Token} {ts us vs : List Token}

theorem Signature.function (h : Signature mark name params ts)
    (hs : (Phrase.one .block s).Derives us) :
    (Phrase.one .declaration (.function mark.pos name params s)).Derives (ts ++ us) := by
  cases h with
  | empty ht hu hv => exact .functionNone ht hu hv hs
  | params ht hu hp hv => simpa [textOf] using Phrase.Derives.function ht hu hp hv hs

theorem Tested.branch (h : Tested .si mark e ts) (hs : (Phrase.one .statement s).Derives us) :
    (Phrase.one .statement (.branch mark.pos e s none)).Derives (ts ++ us) := by
  obtain ⟨ht, hu, he, hv⟩ := h
  simpa using Phrase.Derives.branch ht hu he hv hs

theorem Tested.branchElse (h : Tested .si mark e ts) (hy : (Phrase.one .statement yes).Derives us)
    (hclosed : yes.endsOpen = false) (ht : t.terminal = .keyword .sino)
    (hs : (Phrase.one .statement s).Derives vs) :
    (Phrase.one .statement (.branch mark.pos e yes (some s))).Derives
      (ts ++ (us ++ t :: vs)) := by
  obtain ⟨ht', hu, he, hv⟩ := h
  simpa using Phrase.Derives.branchElse ht' hu he hv hy hclosed ht hs

theorem Tested.whileLoop (h : Tested .mientras mark e ts)
    (hs : (Phrase.one .statement s).Derives us) :
    (Phrase.one .statement (.whileLoop mark.pos e s)).Derives (ts ++ us) := by
  obtain ⟨ht, hu, he, hv⟩ := h
  simpa using Phrase.Derives.whileLoop ht hu he hv hs

theorem Stepped.forLoop (h : Stepped mark initial test update ts)
    (hs : (Phrase.one .statement s).Derives us) :
    (Phrase.one .statement (.forLoop mark.pos initial test update s)).Derives (ts ++ us) := by
  obtain ⟨⟨⟨ht, hu, hi⟩, htest, hv⟩, hup, hw⟩ := h
  simpa using Phrase.Derives.forLoop ht hu hi htest hv hup hw hs

end

/-- The tokens before a statement that is to be of the given category. -/
inductive Opens : List Stmt → List Enclosing → Category → List Token → Prop where
  | top {before : List Stmt} {ts : List Token} :
    (Phrase.body before.reverse).Derives ts → Opens before [] .declaration ts
  | block {before done : List Stmt} {around : List Enclosing} {slot : Category} {t : Token}
    {ts us : List Token} :
    Opens before around slot ts → slot.holds .block → t.terminal = .symbol .braceOpen →
      (Phrase.body done.reverse).Derives us →
      Opens before (.block t.mark done :: around) .declaration (ts ++ t :: us)
  | function {before : List Stmt} {around : List Enclosing} {mark : Mark} {name : String}
    {params : List Param} {ts us : List Token} :
    Opens before around .declaration ts → Signature mark name params us →
      Opens before (.function mark name params :: around) .block (ts ++ us)
  | yes {before : List Stmt} {around : List Enclosing} {slot : Category} {mark : Mark} {e : Expr}
    {ts us : List Token} :
    Opens before around slot ts → slot.holds .statement → Tested .si mark e us →
      Opens before (.yes mark e :: around) .statement (ts ++ us)
  | no {before : List Stmt} {around : List Enclosing} {slot : Category} {mark : Mark} {e : Expr}
    {yes : Stmt} {t : Token} {ts us vs : List Token} :
    Opens before around slot ts → slot.holds .statement → Tested .si mark e us →
      (Phrase.one .statement yes).Derives vs → yes.endsOpen = false →
      t.terminal = .keyword .sino →
      Opens before (.no mark e yes :: around) .statement (ts ++ (us ++ (vs ++ [t])))
  | whileBody {before : List Stmt} {around : List Enclosing} {slot : Category} {mark : Mark}
    {e : Expr} {ts us : List Token} :
    Opens before around slot ts → slot.holds .statement → Tested .mientras mark e us →
      Opens before (.whileBody mark e :: around) .statement (ts ++ us)
  | forBody {before : List Stmt} {around : List Enclosing} {slot : Category} {mark : Mark}
    {initial : Stmt} {test update : Expr} {ts us : List Token} :
    Opens before around slot ts → slot.holds .statement → Stepped mark initial test update us →
      Opens before (.forBody mark initial test update :: around) .statement (ts ++ us)

inductive Owner.Spans : Owner → Category → List Token → Prop where
  | body : Owner.Spans .body .declaration []
  | head {slot : Category} {t u : Token} :
    slot.holds .statement → t.terminal = .keyword .para → u.terminal = .symbol .parenOpen →
      Owner.Spans (.head t.mark) slot [t, u]

inductive Hole.Spans : Hole → Category → List Token → Prop where
  | statement {slot : Category} : slot.holds .statement → Hole.Spans .statement slot []
  | printed {slot : Category} {t : Token} :
    slot.holds .statement → t.terminal = .keyword .imprimir → Hole.Spans (.printed t.mark) slot [t]
  | returned {slot : Category} {t : Token} :
    slot.holds .statement → t.terminal = .keyword .retornar → Hole.Spans (.returned t.mark) slot [t]
  | initial {slot : Category} {owner : Owner} {t u v : Token} {kind : Kind} {ts : List Token} :
    owner.Spans slot ts → t.terminal = .keyword (.type kind) → u.terminal = .name →
      v.terminal = .symbol .assign →
      Hole.Spans (.initial owner t.mark kind (textOf u)) slot (ts ++ [t, u, v])
  | branchTest {slot : Category} {t u : Token} :
    slot.holds .statement → t.terminal = .keyword .si → u.terminal = .symbol .parenOpen →
      Hole.Spans (.branchTest t.mark) slot [t, u]
  | whileTest {slot : Category} {t u : Token} :
    slot.holds .statement → t.terminal = .keyword .mientras → u.terminal = .symbol .parenOpen →
      Hole.Spans (.whileTest t.mark) slot [t, u]
  | forTest {slot : Category} {mark : Mark} {s : Stmt} {ts : List Token} :
    slot.holds .statement → Declared mark s ts → Hole.Spans (.forTest mark s) slot ts
  | forUpdate {slot : Category} {mark : Mark} {s : Stmt} {e : Expr} {ts : List Token} :
    slot.holds .statement → Bounded mark s e ts → Hole.Spans (.forUpdate mark s e) slot ts

inductive Before : List Param → List Token → Prop where
  | none : Before [] []
  | some {t : Token} {before : List Param} {ts : List Token} :
    Parameters before.reverse ts → t.terminal = .symbol .comma → Before before (ts ++ [t])

inductive Form.Spans (pending : List Pending) : Form → List Token → Prop where
  | name {t : Token} {assignable : Bool} :
    t.terminal = .name → (assignable → need pending = 0) →
      Form.Spans pending (.name (textOf t) assignable) [t]
  | closed {ts : List Token} : Form.Spans pending .closed ts

inductive Focus.Spans : Focus → Category → List Token → Prop where
  | ready (after : Boundary) : Focus.Spans (.ready after) .declaration []
  | orElse {s : Stmt} {ts : List Token} :
    (Phrase.one .statement s).Derives ts → s.endsOpen = false →
      Focus.Spans (.orElse s) .statement ts
  | statement : Focus.Spans .statement .statement []
  | typed {slot : Category} {owner : Owner} {t : Token} {kind : Kind} {ts : List Token} :
    owner.Spans slot ts → t.terminal = .keyword (.type kind) →
      Focus.Spans (.typed owner t.mark kind) slot (ts ++ [t])
  | named {slot : Category} {owner : Owner} {t u : Token} {kind : Kind} {ts : List Token} :
    owner.Spans slot ts → t.terminal = .keyword (.type kind) → u.terminal = .name →
      Focus.Spans (.named owner t.mark kind (textOf u)) slot (ts ++ [t, u])
  | si {slot : Category} {t : Token} :
    slot.holds .statement → t.terminal = .keyword .si → Focus.Spans (.head .si t.mark) slot [t]
  | mientras {slot : Category} {t : Token} :
    slot.holds .statement → t.terminal = .keyword .mientras →
      Focus.Spans (.head .mientras t.mark) slot [t]
  | para {slot : Category} {t : Token} :
    slot.holds .statement → t.terminal = .keyword .para → Focus.Spans (.head .para t.mark) slot [t]
  | forHead {slot : Category} {mark : Mark} {ts : List Token} :
    (Owner.head mark).Spans slot ts → Focus.Spans (.forHead mark) slot ts
  | romper {slot : Category} {t : Token} :
    slot.holds .statement → t.terminal = .keyword .romper →
      Focus.Spans (.jump (.breaks t.mark.pos)) slot [t]
  | continuar {slot : Category} {t : Token} :
    slot.holds .statement → t.terminal = .keyword .continuar →
      Focus.Spans (.jump (.continues t.mark.pos)) slot [t]
  | returning {slot : Category} {t : Token} :
    slot.holds .statement → t.terminal = .keyword .retornar →
      Focus.Spans (.returning t.mark) slot [t]
  | firstName {t : Token} :
    t.terminal = .name → Focus.Spans (.firstName t.mark (textOf t)) .declaration [t]
  | firstOpen {t u : Token} :
    t.terminal = .name → u.terminal = .symbol .parenOpen →
      Focus.Spans (.firstOpen t.mark (textOf t)) .declaration [t, u]
  | firstEmpty {t u v : Token} :
    t.terminal = .name → u.terminal = .symbol .parenOpen → v.terminal = .symbol .parenClose →
      Focus.Spans (.firstEmpty t.mark (textOf t)) .declaration [t, u, v]
  | param {t u : Token} {before : List Param} {ts : List Token} :
    t.terminal = .name → u.terminal = .symbol .parenOpen → Before before ts →
      Focus.Spans (.param t.mark (textOf t) before) .declaration (t :: u :: ts)
  | paramType {t u v : Token} {before : List Param} {kind : Kind} {ts : List Token} :
    t.terminal = .name → u.terminal = .symbol .parenOpen → Before before ts →
      v.terminal = .keyword (.type kind) →
      Focus.Spans (.paramType t.mark (textOf t) before v.mark kind) .declaration
        (t :: u :: (ts ++ [v]))
  | paramName {t u : Token} {before : List Param} {ts : List Token} :
    t.terminal = .name → u.terminal = .symbol .parenOpen → Parameters before.reverse ts →
      Focus.Spans (.paramName t.mark (textOf t) before) .declaration (t :: u :: ts)
  | functionHead {mark : Mark} {name : String} {params : List Param} {ts : List Token} :
    Signature mark name params ts →
      Focus.Spans (.functionHead mark name params) .declaration ts
  | want {slot : Category} {hole : Hole} {pending : List Pending} {ts us : List Token}
    (want : Want) :
    hole.Spans slot ts → Awaits pending us → Focus.Spans (.want want hole pending) slot (ts ++ us)
  | leer {slot : Category} {hole : Hole} {pending : List Pending} {t : Token} {ts us : List Token} :
    hole.Spans slot ts → Awaits pending us → t.terminal = .keyword .leer →
      Focus.Spans (.reader false t.mark hole pending) slot (ts ++ (us ++ [t]))
  | reader {slot : Category} {hole : Hole} {pending : List Pending} {t u : Token}
    {ts us : List Token} :
    hole.Spans slot ts → Awaits pending us → t.terminal = .keyword .leer →
      u.terminal = .symbol .parenOpen →
      Focus.Spans (.reader true t.mark hole pending) slot (ts ++ (us ++ [t, u]))
  | operand {slot : Category} {form : Form} {e : Operand} {hole : Hole} {pending : List Pending}
    {ts us vs : List Token} :
    hole.Spans slot ts → Awaits pending us → e.Spans 9 vs → form.Spans pending vs →
      Focus.Spans (.operand form e hole pending) slot (ts ++ (us ++ vs))

namespace State

/-- The tokens that a state was reached by. -/
def Spans (st : State) (ts : List Token) : Prop :=
  ∃ slot us vs, ts = us ++ vs ∧ Opens st.before st.around slot us ∧ st.focus.Spans slot vs

/-- A state in which a declaration is due. -/
def Ready (st : State) (ts : List Token) : Prop :=
  Opens st.before st.around .declaration ts ∧ ∃ after, st.focus = .ready after

theorem Ready.spans {st : State} {ts : List Token} (h : st.Ready ts) : st.Spans ts := by
  obtain ⟨ho, after, hf⟩ := h
  exact ⟨_, ts, [], by simp, ho, hf ▸ .ready after⟩

variable {hold : Bool} {before : List Stmt} {s : Stmt} {around : List Enclosing}
  {ts us : List Token}

theorem settle_declaration (ho : Opens before around .declaration ts)
    (hs : (Phrase.one .declaration s).Derives us) :
    (settle hold before s around).Ready (ts ++ us) := by
  cases ho with
  | top hb => exact ⟨.top (by simpa [settle] using Phrase.Derives.snoc hb hs), _, rfl⟩
  | block ho hslot ht hd =>
    have hd' := Phrase.Derives.snoc hd hs
    rw [← List.reverse_cons] at hd'
    exact ⟨by simpa [settle] using Opens.block ho hslot ht hd', _, rfl⟩

/-- A finished statement ends those that it is the last part of, up to a `si` that a `sino` may
follow. What is held there does not end in an open `si`. -/
theorem settle_cases {slot : Category} (ho : Opens before around slot ts)
    (hs : (Phrase.one slot s).Derives us) (hclosed : hold → s.endsOpen = false) :
    (settle hold before s around).Ready (ts ++ us) ∨
      hold ∧ (settle hold before s around).Spans (ts ++ us) := by
  induction ho generalizing s us with
  | top hb => exact .inl (settle_declaration (.top hb) hs)
  | block ho hslot ht hd => exact .inl (settle_declaration (.block ho hslot ht hd) hs)
  | function ho hh ih =>
    rw [settle, List.append_assoc]
    exact ih (hh.function hs) fun _ => rfl
  | yes ho hslot hh ih =>
    rw [settle]
    split
    -- what is held has no open `si` of its own to take the `sino`
    next hhold => exact .inr ⟨hhold, _, _, _, rfl, .yes ho hslot hh, .orElse hs (hclosed hhold)⟩
    next hhold =>
      rw [List.append_assoc]
      exact ih ((hh.branch hs).widen hslot) fun h => absurd h hhold
  | no ho hslot hh hy hc ht ih =>
    rw [settle]
    simpa using ih ((hh.branchElse hy hc ht hs).widen hslot) hclosed
  | whileBody ho hslot hh ih =>
    rw [settle, List.append_assoc]
    exact ih ((hh.whileLoop hs).widen hslot) hclosed
  | forBody ho hslot hh ih =>
    rw [settle, List.append_assoc]
    exact ih ((hh.forLoop hs).widen hslot) hclosed

theorem settle_spans {slot : Category} (ho : Opens before around slot ts)
    (hs : (Phrase.one slot s).Derives us) (hclosed : s.endsOpen = false) :
    (settle true before s around).Spans (ts ++ us) := by
  obtain h | ⟨_, h⟩ := settle_cases ho hs fun _ => hclosed
  · exact h.spans
  · exact h

theorem settle_ready {slot : Category} (ho : Opens before around slot ts)
    (hs : (Phrase.one slot s).Derives us) : (settle false before s around).Ready (ts ++ us) := by
  obtain h | ⟨hhold, _⟩ := settle_cases ho hs fun (hhold : false) => nomatch hhold
  · exact h
  · cases hhold

end State

end Parse

end Guion
