import Guion.Store
import Mathlib.Data.List.Forall2

namespace Guion

/-- What may become of a variable: its type stays, and once it has a value it keeps one. -/
structure Variable.Continues (old new : Variable) : Prop where
  type : new.type = old.type
  initialized : old.initialized = true → new.initialized = true

/-- The same names in the same order, each with what became of its variable. -/
def Frame.Kept (old new : Frame) : Prop :=
  List.Forall₂ (fun a b => b.1 = a.1 ∧ a.2.Continues b.2) old new

/-- The same frames with the same names. -/
structure Store.Kept (old new : Store) : Prop where
  globals : old.globals.Kept new.globals
  frames : List.Forall₂ Frame.Kept old.frames new.frames

def Store.extend (s : Store) (vars : Frame) : Store :=
  match s.frames with
  | [] => { s with globals := s.globals ++ vars }
  | frame :: rest => { s with frames := (frame ++ vars) :: rest }

/-- The same frames with the same names, and perhaps further ones at the end of the current
frame. -/
def Store.Grown (old new : Store) : Prop :=
  ∃ vars, (old.extend vars).Kept new

theorem bind_eq_ok {α β : Type} {x : Except Failure α} {f : α → Except Failure β} {b : β}
    (h : x >>= f = .ok b) : ∃ a, x = .ok a ∧ f a = .ok b := by
  cases x with
  | error e => cases h
  | ok a => exact ⟨a, rfl, h⟩

theorem forall₂_trans {α : Type} {R : α → α → Prop} (hR : ∀ a b c, R a b → R b c → R a c)
    {as bs cs : List α} (hab : List.Forall₂ R as bs) (hbc : List.Forall₂ R bs cs) :
    List.Forall₂ R as cs := by
  induction hab generalizing cs with
  | nil => exact hbc
  | cons h _ ih =>
    cases hbc with
    | cons h' hbc => exact .cons (hR _ _ _ h h') (ih hbc)

theorem Variable.Continues.refl (var : Variable) : var.Continues var := ⟨rfl, id⟩

theorem Variable.Continues.trans {u v w : Variable} (huv : u.Continues v) (hvw : v.Continues w) :
    u.Continues w :=
  ⟨hvw.type.trans huv.type, fun h => hvw.initialized (huv.initialized h)⟩

namespace Frame

theorem Kept.refl (frame : Frame) : frame.Kept frame :=
  List.forall₂_same.mpr fun entry _ => ⟨rfl, .refl entry.2⟩

theorem Kept.trans {a b c : Frame} (hab : a.Kept b) (hbc : b.Kept c) : a.Kept c :=
  forall₂_trans (fun _ _ _ h h' => ⟨h'.1.trans h.1, h.2.trans h'.2⟩) hab hbc

theorem Kept.append {a b : Frame} (h : a.Kept b) (vars : Frame) : Kept (a ++ vars) (b ++ vars) := by
  unfold Kept at *
  induction h with
  | nil => exact Kept.refl vars
  | cons h _ ih => exact .cons h ih

theorem kept_set {name : Name} {old new : Variable} {frame : Frame}
    (hget : frame.get? name = some old) (h : old.Continues new) :
    frame.Kept (frame.set name new) := by
  induction frame with
  | nil => cases hget
  | cons entry rest ih =>
    simp only [get?, List.find?_cons] at hget
    simp only [Frame.set]
    split
    · rename_i hname
      simp only [hname, Option.map_some, Option.some.injEq] at hget
      refine .cons ⟨rfl, ?_⟩ (Kept.refl rest)
      rw [hget]
      exact h
    · rename_i hname
      simp only [hname] at hget
      exact .cons ⟨rfl, .refl entry.2⟩ (ih hget)

end Frame

namespace Store

theorem Kept.refl (s : Store) : s.Kept s :=
  ⟨.refl s.globals, List.forall₂_same.mpr fun frame _ => .refl frame⟩

theorem Kept.trans {r s t : Store} (hrs : r.Kept s) (hst : s.Kept t) : r.Kept t :=
  ⟨hrs.globals.trans hst.globals,
    forall₂_trans (fun _ _ _ h h' => h.trans h') hrs.frames hst.frames⟩

theorem Kept.length_eq {s t : Store} (h : s.Kept t) : t.frames.length = s.frames.length :=
  h.frames.length_eq.symm

theorem extend_nil (s : Store) : s.extend [] = s := by
  obtain ⟨globals, frames⟩ := s
  cases frames <;> simp [extend]

theorem extend_extend (s : Store) (vars more : Frame) :
    (s.extend vars).extend more = s.extend (vars ++ more) := by
  obtain ⟨globals, frames⟩ := s
  cases frames <;> simp [extend]

theorem extend_length (s : Store) (vars : Frame) :
    (s.extend vars).frames.length = s.frames.length := by
  obtain ⟨globals, frames⟩ := s
  cases frames <;> rfl

theorem Kept.extend {s t : Store} (h : s.Kept t) (vars : Frame) :
    (s.extend vars).Kept (t.extend vars) := by
  obtain ⟨globals, frames⟩ := s
  obtain ⟨globals', frames'⟩ := t
  obtain ⟨hglobals, hframes⟩ := h
  cases hframes with
  | nil => exact ⟨hglobals.append vars, .nil⟩
  | cons hfirst hrest => exact ⟨hglobals, .cons (hfirst.append vars) hrest⟩

theorem Kept.grown {s t : Store} (h : s.Kept t) : s.Grown t :=
  ⟨[], by rw [extend_nil]; exact h⟩

theorem Grown.trans {r s t : Store} (hrs : r.Grown s) (hst : s.Grown t) : r.Grown t := by
  obtain ⟨vars, hrs⟩ := hrs
  obtain ⟨more, hst⟩ := hst
  refine ⟨vars ++ more, ?_⟩
  rw [← extend_extend]
  exact (hrs.extend more).trans hst

theorem Grown.length_eq {s t : Store} (h : s.Grown t) : t.frames.length = s.frames.length := by
  obtain ⟨vars, h⟩ := h
  rw [h.length_eq, extend_length]

theorem Grown.at_rest {s t : Store} (h : s.Grown t) (hs : s.frames = []) : t.frames = [] := by
  apply List.length_eq_zero_iff.mp
  rw [h.length_eq, hs]
  rfl

theorem Grown.closeScope {s t : Store} (h : s.openScope.Grown t) : s.Kept t.closeScope := by
  obtain ⟨vars, hglobals, hframes⟩ := h
  obtain ⟨globals', frames'⟩ := t
  simp only [openScope, Store.extend] at hglobals hframes
  cases hframes with
  | cons _ hrest => exact ⟨hglobals, hrest⟩

theorem kept_set {s : Store} {name : Name} {old new : Variable} (hfind : s.find? name = some old)
    (h : old.Continues new) : s.Kept (s.set name new) := by
  obtain ⟨globals, frames⟩ := s
  unfold Store.set
  induction frames with
  | nil => exact ⟨Frame.kept_set hfind h, .nil⟩
  | cons first rest ih =>
    simp only [find?, List.findSome?_cons] at hfind ih
    simp only [setIn]
    split
    · rename_i hsome
      obtain ⟨var, hvar⟩ := Option.isSome_iff_exists.mp hsome
      simp only [hvar, Option.some_or, Option.some.injEq] at hfind
      subst hfind
      exact ⟨.refl globals, .cons (Frame.kept_set hvar h)
        (List.forall₂_same.mpr fun frame _ => .refl frame)⟩
    · rename_i hnone
      have hget : first.get? name = none := Option.not_isSome_iff_eq_none.mp hnone
      rw [hget] at hfind
      obtain ⟨hg, hf⟩ := ih hfind
      exact ⟨hg, .cons (.refl first) hf⟩

theorem lookup_ok {s : Store} {name : Name} {var : Variable} (h : s.lookup name = .ok var) :
    s.find? name = some var := by
  obtain ⟨_, _, h⟩ := bind_eq_ok h
  split at h
  · cases h
    assumption
  · cases h

theorem declare_ok {s t : Store} {name : Name} {type : TypeName} {value : Option Value}
    {var : Variable} (h : s.declare name type value = (.ok var, t)) :
    s.declared name type value = .ok var ∧ t = s.insert name var := by
  unfold declare at h
  split at h
  · cases h
    exact ⟨by assumption, rfl⟩
  · cases h

theorem assign_ok {s t : Store} {name : Name} {v w : Value} (h : s.assign name v = (.ok w, t)) :
    ∃ var, s.find? name = some var ∧ Value.conform var.type v (.assignment name) = .ok w ∧
      t = s.set name ⟨var.type, w, true⟩ := by
  unfold assign at h
  split at h
  · rename_i hv
    obtain ⟨var, hl, hv⟩ := bind_eq_ok hv
    obtain ⟨w, hw, hv⟩ := bind_eq_ok hv
    cases hv
    cases h
    exact ⟨var, lookup_ok hl, hw, rfl⟩
  · cases h

theorem declare_error {s t : Store} {name : Name} {type : TypeName} {value : Option Value}
    {e : Failure} (h : s.declare name type value = (.error e, t)) :
    s.declared name type value = .error e ∧ t = s := by
  unfold declare at h
  split at h
  · cases h
  · cases h
    exact ⟨by assumption, rfl⟩

theorem assign_error {s t : Store} {name : Name} {v : Value} {e : Failure}
    (h : s.assign name v = (.error e, t)) : s.assigned name v = .error e ∧ t = s := by
  unfold assign at h
  split at h
  · cases h
  · cases h
    exact ⟨by assumption, rfl⟩

theorem declare_grown (s : Store) (name : Name) (type : TypeName) (value : Option Value) :
    s.Grown (s.declare name type value).2 := by
  rcases h : s.declare name type value with ⟨e | var, t⟩
  · obtain ⟨_, rfl⟩ := declare_error h
    exact (Kept.refl t).grown
  · rw [(declare_ok h).2]
    exact ⟨[(name, var)], .refl _⟩

theorem assign_kept (s : Store) (name : Name) (v : Value) : s.Kept (s.assign name v).2 := by
  rcases h : s.assign name v with ⟨e | w, t⟩
  · obtain ⟨_, rfl⟩ := assign_error h
    exact .refl t
  · obtain ⟨var, hfind, _, rfl⟩ := assign_ok h
    exact kept_set hfind ⟨rfl, fun _ => rfl⟩

end Store

end Guion
