import Guion.Proofs.Grammar.Parsing
import Guion.Proofs.Plan.Parts

namespace Guion

open Grammar
open Parse (Connective)

namespace Task.Throughout

variable {property : Task → Prop}

theorem leaf {t : Task} (h : property t) (hp : t.parts = []) : t.Throughout property :=
  .intro h (by simp [hp])

theorem single {t u : Task} (h : property t) (hp : t.parts = [u]) (hu : u.Throughout property) :
    t.Throughout property :=
  .intro h (by simpa [hp] using hu)

theorem pair {t u v : Task} (h : property t) (hp : t.parts = [u, v]) (hu : u.Throughout property)
    (hv : v.Throughout property) : t.Throughout property :=
  .intro h (by simpa [hp] using ⟨hu, hv⟩)

theorem mono {other : Task → Prop} {t : Task} (hmono : ∀ u, property u → other u)
    (h : t.Throughout property) : t.Throughout other := by
  induction h with
  | intro ht _ ih => exact .intro (hmono _ ht) ih

theorem contains {p : Program} {t : Task}
    (hp : ∀ s ∈ p.body, (Task.exec s).Throughout property) (ht : p.Contains t) :
    t.Throughout property := by
  induction ht with
  | top hs => exact hp _ hs
  | part _ hu ih => exact ih.part hu

end Task.Throughout

def Task.At (place : Pos → Prop) (t : Task) : Prop := place t.pos

def Task.Fits (place : Pos → Prop) (literal : Literal → Prop) : Task → Prop
  | eval (.literal pos l) => place pos ∧ literal l
  | exec (.function pos _ params _) => place pos ∧ ∀ q ∈ params, place q.pos
  | t => place t.pos

theorem Task.Fits.at_pos {place : Pos → Prop} {literal : Literal → Prop} {t : Task}
    (h : t.Fits place literal) : t.At place := by
  unfold Fits at h
  split at h
  · exact h.1
  · exact h.1
  · exact h

theorem Task.Fits.mono {place : Pos → Prop} {literal other : Literal → Prop} {t : Task}
    (h : t.Fits place literal)
    (hmono : ∀ pos l, t = eval (.literal pos l) → literal l → other l) : t.Fits place other := by
  unfold Fits at h ⊢
  split at h
  · exact ⟨h.1, hmono _ _ rfl h.2⟩
  · exact h
  · exact h

namespace Grammar

variable {place : Pos → Prop} {literal : Literal → Prop}

def Fits (place : Pos → Prop) (literal : Literal → Prop) (t : Token) : Prop :=
  place t.mark.pos ∧ ∀ l, Denotes t l → literal l

theorem start_at {ts : List Token} (hne : ts ≠ []) (h : ∀ t ∈ ts, Fits place literal t) :
    place (start ts) := by
  cases ts with
  | nil => exact absurd rfl hne
  | cons t ts => exact (h t List.mem_cons_self).1

/-- What holds of the places and literals of all tokens holds of those of all parts. -/
def Term.Placed (place : Pos → Prop) (literal : Literal → Prop) : Term → Prop
  | expr _ e => (Task.eval e).Throughout (Task.Fits place literal)
  | arguments es => ∀ e ∈ es, (Task.eval e).Throughout (Task.Fits place literal)

theorem node_placed {pos : Pos} {left right : Expr} (op : Connective) (hpos : place pos)
    (hl : (Task.eval left).Throughout (Task.Fits place literal))
    (hr : (Task.eval right).Throughout (Task.Fits place literal)) :
    (Task.eval (node pos left right op)).Throughout (Task.Fits place literal) := by
  cases op with
  | logical op => exact .pair hpos rfl hl hr
  | binary op => exact .pair hpos rfl hl hr

theorem Term.Derives.placed {term : Term} {ts : List Token} (h : term.Derives ts)
    (hts : ∀ t ∈ ts, Fits place literal t) : term.Placed place literal := by
  induction h with
  | tighter _ _ ih => exact ih hts
  | assign _ _ _ ih =>
    simp only [List.forall_mem_cons] at hts
    exact .single hts.1.1 rfl (ih hts.2.2)
  | join _ _ hl _ ihl ihr =>
    simp only [List.forall_mem_append, List.forall_mem_cons] at hts
    exact node_placed _ (start_at hl.ne_nil hts.1) (ihl hts.1) (ihr hts.2.2)
  | sign _ _ ih =>
    simp only [List.forall_mem_cons] at hts
    exact .single hts.1.1 rfl (ih hts.2)
  | literal hl =>
    obtain ⟨hplace, hliteral⟩ := hts _ List.mem_cons_self
    exact .leaf ⟨hplace, hliteral _ hl⟩ rfl
  | name => exact .leaf (hts _ List.mem_cons_self).1 rfl
  | read => exact .leaf (hts _ List.mem_cons_self).1 rfl
  | callNone => exact .leaf (hts _ List.mem_cons_self).1 rfl
  | call _ _ _ _ ih =>
    simp only [List.forall_mem_append, List.forall_mem_cons] at hts
    refine .intro hts.1.1 fun u hu => ?_
    obtain ⟨e, he, rfl⟩ := List.mem_map.mp hu
    exact ih hts.2.2.1 e he
  | group _ _ _ ih =>
    simp only [List.forall_mem_append, List.forall_mem_cons] at hts
    exact ih hts.2.1
  | argument _ ih => exact List.forall_mem_singleton.mpr (ih hts)
  | nextArgument _ _ _ ihs ih =>
    simp only [List.forall_mem_append, List.forall_mem_cons] at hts
    exact List.forall_mem_append.mpr ⟨ihs hts.1, List.forall_mem_singleton.mpr (ih hts.2.2)⟩

theorem Parameters.placed {ps : List Param} {ts : List Token} (h : Parameters ps ts)
    (hts : ∀ t ∈ ts, Fits place literal t) : ∀ p ∈ ps, place p.pos := by
  induction h with
  | one => exact List.forall_mem_singleton.mpr (hts _ List.mem_cons_self).1
  | next _ _ _ _ ih =>
    simp only [List.forall_mem_append, List.forall_mem_cons] at hts
    exact List.forall_mem_append.mpr ⟨ih hts.1, List.forall_mem_singleton.mpr hts.2.2.1.1⟩

def Phrase.Placed (place : Pos → Prop) (literal : Literal → Prop) : Phrase → Prop
  | one _ s => (Task.exec s).Throughout (Task.Fits place literal)
  | body ss => ∀ s ∈ ss, (Task.exec s).Throughout (Task.Fits place literal)

theorem Phrase.Derives.placed {phrase : Phrase} {ts : List Token} (h : phrase.Derives ts)
    (hts : ∀ t ∈ ts, Fits place literal t) : phrase.Placed place literal := by
  induction h with
  | nil => exact fun s hs => nomatch hs
  | snoc _ _ ihb ihs =>
    simp only [List.forall_mem_append] at hts
    exact List.forall_mem_append.mpr ⟨ihb hts.1, List.forall_mem_singleton.mpr (ihs hts.2)⟩
  | binding _ ih => exact ih hts
  | statement _ ih => exact ih hts
  | block _ ih => exact ih hts
  | declare => exact .leaf (hts _ List.mem_cons_self).1 rfl
  | initial _ _ _ he _ =>
    simp only [List.forall_mem_append, List.forall_mem_cons] at hts
    exact .single hts.1.1 rfl (he.placed hts.2.2.2.1)
  | functionNone _ _ _ _ ih =>
    simp only [List.forall_mem_cons] at hts
    exact .single ⟨hts.1.1, nofun⟩ rfl (ih hts.2.2.2)
  | function _ _ hps _ _ ih =>
    simp only [List.forall_mem_append, List.forall_mem_cons] at hts
    exact .single ⟨hts.1.1, hps.placed hts.2.2.1⟩ rfl (ih hts.2.2.2.2)
  | braces _ _ _ ih =>
    simp only [List.forall_mem_append, List.forall_mem_cons] at hts
    refine .intro hts.1.1 fun u hu => ?_
    obtain ⟨s, hs, rfl⟩ := List.mem_map.mp hu
    exact ih hts.2.1 s hs
  | branch _ _ he _ _ ih =>
    simp only [List.forall_mem_append, List.forall_mem_cons] at hts
    exact .pair hts.1.1 rfl (he.placed hts.2.2.1) (ih hts.2.2.2.2)
  | branchElse _ _ he _ _ _ _ _ ihy ihn =>
    simp only [List.forall_mem_append, List.forall_mem_cons] at hts
    refine .intro hts.1.1 (List.forall_mem_cons.mpr ⟨he.placed hts.2.2.1, ?_⟩)
    refine List.forall_mem_cons.mpr ⟨ihy hts.2.2.2.2.1, ?_⟩
    exact List.forall_mem_singleton.mpr (ihn hts.2.2.2.2.2.2)
  | whileLoop _ _ he _ _ ih =>
    simp only [List.forall_mem_append, List.forall_mem_cons] at hts
    exact .pair hts.1.1 rfl (he.placed hts.2.2.1) (ih hts.2.2.2.2)
  | forLoop _ _ _ ht _ hu _ _ ihi ihb =>
    simp only [List.forall_mem_append, List.forall_mem_cons] at hts
    obtain ⟨h₁, _, h₂, h₃, _, h₄, _, h₅⟩ := hts
    refine .intro h₁.1 (List.forall_mem_cons.mpr ⟨ihi h₂, ?_⟩)
    refine List.forall_mem_cons.mpr ⟨ht.placed h₃, ?_⟩
    exact List.forall_mem_cons.mpr ⟨hu.placed h₄, List.forall_mem_singleton.mpr (ihb h₅)⟩
  | returnsNone => exact .leaf (hts _ List.mem_cons_self).1 rfl
  | returns _ he _ =>
    simp only [List.forall_mem_append, List.forall_mem_cons] at hts
    exact .single hts.1.1 rfl (he.placed hts.2.1)
  | print _ he _ =>
    simp only [List.forall_mem_append, List.forall_mem_cons] at hts
    exact .single hts.1.1 rfl (he.placed hts.2.1)
  | breaks => exact .leaf (hts _ List.mem_cons_self).1 rfl
  | continues => exact .leaf (hts _ List.mem_cons_self).1 rfl
  | expr he _ =>
    simp only [List.forall_mem_append, List.forall_mem_cons] at hts
    exact .single (start_at he.ne_nil hts.1) rfl (he.placed hts.1)

end Grammar

theorem Mark.line_le_advance (mark : Mark) (cs : List Char) :
    mark.line ≤ (mark.advance cs).line := by
  induction cs generalizing mark with
  | nil => exact Nat.le_refl _
  | cons c cs ih =>
    have hnext : mark.line ≤ (mark.next c).line := by
      unfold next
      split
      · exact Nat.le_succ _
      · exact Nat.le_refl _
    exact Nat.le_trans hnext (ih (mark.next c))

theorem Mark.column_advance {mark : Mark} (h : 1 ≤ mark.column) (cs : List Char) :
    1 ≤ (mark.advance cs).column := by
  induction cs generalizing mark with
  | nil => exact h
  | cons c cs ih =>
    have hnext : 1 ≤ (mark.next c).column := by
      unfold next
      split
      · exact Nat.le_refl _
      · exact Nat.le_add_left 1 _
    exact ih hnext

theorem Splits.line_le {mark : Mark} {cs : List Char} {ts : List Token} (h : Splits mark cs ts) :
    ∀ t ∈ ts, mark.line ≤ t.mark.line := by
  induction h with
  | nil => exact fun t ht => nomatch ht
  | layout _ _ ih =>
    intro t ht
    exact Nat.le_trans (Mark.line_le_advance _ _) (ih t ht)
  | token _ _ ih =>
    intro t ht
    obtain rfl | ht := List.mem_cons.mp ht
    · exact Nat.le_refl _
    · exact Nat.le_trans (Mark.line_le_advance _ _) (ih t ht)

theorem Splits.column_pos {mark : Mark} {cs : List Char} {ts : List Token} (h : Splits mark cs ts)
    (hmark : 1 ≤ mark.column) : ∀ t ∈ ts, 1 ≤ t.mark.column := by
  induction h with
  | nil => exact fun t ht => nomatch ht
  | layout _ _ ih => exact ih (Mark.column_advance hmark _)
  | token _ _ ih => exact List.forall_mem_cons.mpr ⟨hmark, ih (Mark.column_advance hmark _)⟩

def Pos.IsPlace (pos : Pos) : Prop := pos.line.isTrue = true

theorem Mark.isPlace_pos {mark : Mark} (h : 1 ≤ mark.line) : mark.pos.IsPlace := by
  have hne : mark.line ≠ 0 := by omega
  simp [Pos.IsPlace, pos, Tree.isTrue, hne]

theorem exists_tokens {source : String} {p : Program} (h : parse source = .ok p) :
    ∃ tokens, Splits {} source.toList tokens ∧ (Phrase.body p.body).Derives tokens ∧
      p.pos = start tokens ∧ ∀ t ∈ tokens, Parse.isTooLong t = false := by
  rw [parse] at h
  split at h
  next => cases h
  next p' tokens hs =>
    split at h
    next => cases h
    next hshort =>
      cases h
      obtain ⟨hsplit, hbody, hpos⟩ := Parse.scan_derives hs
      exact ⟨tokens, hsplit, hbody, hpos, by simpa using hshort⟩

/-- A position in a text. -/
def Pos.Marked (pos : Pos) : Prop :=
  ∃ mark : Mark, 1 ≤ mark.line ∧ 1 ≤ mark.column ∧ pos = mark.pos

theorem Pos.Marked.given? {pos : Pos} (h : pos.Marked) : pos.given? = some pos := by
  obtain ⟨mark, hline, hcolumn, rfl⟩ := h
  have hplace : mark.pos.line.isTrue = true := Mark.isPlace_pos hline
  have hne : mark.column ≠ 0 := by omega
  have hshown : mark.pos.column.isTrue = true := by simp [Mark.pos, Tree.isTrue, hne]
  simp only [Pos.given?, hplace, hshown]

/-- All parts of a program that was read are positioned in its text. -/
theorem parse_marked {source : String} {p : Program} (h : parse source = .ok p) :
    ∀ s ∈ p.body, (Task.exec s).Throughout (Task.At Pos.Marked) := by
  obtain ⟨tokens, hsplit, hbody, _⟩ := exists_tokens h
  have htokens : ∀ t ∈ tokens, Fits Pos.Marked (fun _ => True) t := by
    intro t ht
    exact ⟨⟨t.mark, hsplit.line_le t ht, hsplit.column_pos (Nat.le_refl 1) t ht, rfl⟩,
      fun _ _ => trivial⟩
  intro s hs
  exact (hbody.placed htokens s hs).mono fun _ hu => hu.at_pos

theorem parse_placed {source : String} {p : Program} (h : parse source = .ok p) :
    ∀ s ∈ p.body, (Task.exec s).Throughout (Task.At Pos.IsPlace) := by
  intro s hs
  refine (parse_marked h s hs).mono ?_
  rintro u ⟨mark, hline, _, hpos⟩
  rw [Task.At, hpos]
  exact Mark.isPlace_pos hline

end Guion
