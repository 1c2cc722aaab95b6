import Guion.Proofs.Grammar

namespace Guion.Grammar

open Parse (Connective)

theorem start_append {ts : List Token} (h : ts ≠ []) (us : List Token) :
    start (ts ++ us) = start ts := by
  cases ts with
  | nil => exact absurd rfl h
  | cons t ts => rfl

theorem Term.Derives.ne_nil {term : Term} {ts : List Token} (h : term.Derives ts) : ts ≠ [] := by
  induction h with
  | tighter _ _ ih => exact ih
  | argument _ ih => exact ih
  | join => simp
  | nextArgument => simp
  | _ => exact List.cons_ne_nil _ _

/-- A statement stands where its first token does, and a body where its first statement does. -/
def Phrase.Starts : Phrase → List Token → Prop
  | one _ s, ts => ts ≠ [] ∧ s.pos = start ts
  | body ss, ts => (ss.head?.map Stmt.pos).getD .none = start ts ∧ (ss = [] ↔ ts = [])

theorem Phrase.Derives.starts {phrase : Phrase} {ts : List Token} (h : phrase.Derives ts) :
    phrase.Starts ts := by
  induction h with
  | nil => exact ⟨rfl, by simp⟩
  | @snoc ss s ts us hb hs ihb ihs =>
    refine ⟨?_, by simp [ihs.1]⟩
    cases ss with
    | nil =>
      obtain rfl := ihb.2.mp rfl
      exact ihs.2
    | cons first rest =>
      have hne : ts ≠ [] := fun hn => List.cons_ne_nil first rest (ihb.2.mpr hn)
      rw [start_append hne]
      exact ihb.1
  | binding _ ih => exact ih
  | statement _ ih => exact ih
  | block _ ih => exact ih
  | expr he _ => exact ⟨by simp, (start_append he.ne_nil _).symm⟩
  | _ => exact ⟨List.cons_ne_nil _ _, rfl⟩

def Term.Written : Term → Prop
  | expr _ e => e.Written
  | arguments es => ∀ e ∈ es, e.Written

theorem Denotes.written {t : Token} {l : Literal} (h : Denotes t l) : l.Written := by
  cases h with
  | integer => exact .integer _
  | decimal => exact .decimal _
  | text => exact .text _
  | verdadero => exact .truth true
  | falso => exact .truth false

theorem known_of_mem_signs {t : Terminal} {op : UnaryOp} (h : (t, op) ∈ signs) : op.Known := by
  intro symbol hop
  subst hop
  simp [signs] at h

theorem node_written {layer : Layer} {t : Terminal} {op : Connective} {pos : Pos}
    {left right : Expr} (h : (t, op) ∈ layer.operators) (hl : left.Written) (hr : right.Written) :
    (node pos left right op).Written := by
  cases op with
  | logical op =>
    refine .logical (fun symbol hop => ?_) hl hr
    subst hop
    cases layer <;> simp [Layer.operators] at h
  | binary op =>
    refine .binary (fun symbol hop => ?_) hl hr
    subst hop
    cases layer <;> simp [Layer.operators] at h

theorem Term.Derives.written {term : Term} {ts : List Token} (h : term.Derives ts) :
    term.Written := by
  induction h with
  | tighter _ _ ih => exact ih
  | assign _ _ _ ih => exact .assign _ ih
  | join _ hop _ _ ihl ihr => exact node_written hop ihl ihr
  | sign hop _ ih => exact .unary (known_of_mem_signs hop) ih
  | literal hl => exact .literal hl.written
  | name => exact .name _
  | read => exact .read
  | callNone => exact .call _ (by simp)
  | call _ _ _ _ ih => exact .call _ ih
  | group _ _ _ ih => exact ih
  | argument _ ih => exact List.forall_mem_singleton.mpr ih
  | nextArgument _ _ _ ihs ih =>
    exact List.forall_mem_append.mpr ⟨ihs, List.forall_mem_singleton.mpr ih⟩

theorem Parameters.written {ps : List Param} {ts : List Token} (h : Parameters ps ts) :
    ∀ p ∈ ps, p.Written := by
  induction h with
  | one => exact List.forall_mem_singleton.mpr ⟨⟨_, rfl⟩, _, rfl⟩
  | next _ _ _ _ ih =>
    refine List.forall_mem_append.mpr ⟨ih, ?_⟩
    exact List.forall_mem_singleton.mpr ⟨⟨_, rfl⟩, _, rfl⟩

def Phrase.Written : Phrase → Prop
  | one .declaration s => s.Written
  | one .binding s =>
    s.Written ∧ ∃ (pos : Pos) (kind : Kind) (name : String) (initial : Option Expr),
      s = .declare pos (.known kind) name initial
  | one .statement s => s.Written ∧ s.IsPlain
  | one .block s => ∃ pos ss, s = .block pos ss ∧ ∀ s ∈ ss, s.Written
  | body ss => ∀ s ∈ ss, s.Written

theorem Phrase.Derives.written {phrase : Phrase} {ts : List Token} (h : phrase.Derives ts) :
    phrase.Written := by
  induction h with
  | nil => exact fun s hs => nomatch hs
  | snoc _ _ ihb ihs =>
    exact List.forall_mem_append.mpr ⟨ihb, List.forall_mem_singleton.mpr ihs⟩
  | binding _ ih => exact ih.1
  | statement _ ih => exact ih.1
  | block _ ih =>
    obtain ⟨pos, ss, rfl, hss⟩ := ih
    exact ⟨.block hss, trivial⟩
  | declare => exact ⟨.declare _ _ (by simp), _, _, _, _, rfl⟩
  | initial _ _ _ he _ =>
    exact ⟨.declare _ _ fun e h => Option.some.inj h ▸ he.written, _, _, _, _, rfl⟩
  | functionNone _ _ _ _ ih =>
    obtain ⟨pos, ss, rfl, hss⟩ := ih
    exact .function _ (by simp) hss
  | function _ _ hp _ _ ih =>
    obtain ⟨pos, ss, rfl, hss⟩ := ih
    exact .function _ hp.written hss
  | braces _ _ _ ih => exact ⟨_, _, rfl, ih⟩
  | branch _ _ he _ _ ih => exact ⟨.branch he.written ih.1 ih.2 (by simp) (by simp), trivial⟩
  | branchElse _ _ he _ _ hc _ _ ihy ihn =>
    refine ⟨.branch he.written ihy.1 ihy.2 ?_ ?_, trivial⟩
    · exact fun s hs => Option.some.inj hs ▸ ihn.1
    · exact fun s hs => ⟨Option.some.inj hs ▸ ihn.2, hc⟩
  | whileLoop _ _ he _ _ ih => exact ⟨.whileLoop he.written ih.1 ih.2, trivial⟩
  | forLoop _ _ _ ht _ hu _ _ ihi ihb =>
    obtain ⟨hi, pos, kind, name, initial, rfl⟩ := ihi
    exact ⟨.forLoop hi ht.written hu.written ihb.1 ihb.2, trivial⟩
  | returnsNone => exact ⟨.returns (by simp), trivial⟩
  | returns _ he _ => exact ⟨.returns fun e h => Option.some.inj h ▸ he.written, trivial⟩
  | print _ he _ => exact ⟨.print he.written, trivial⟩
  | breaks => exact ⟨.breaks, trivial⟩
  | continues => exact ⟨.continues, trivial⟩
  | expr he _ => exact ⟨.expr he.written, trivial⟩

end Guion.Grammar
