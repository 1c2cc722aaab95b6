import Guion.Proofs.Discipline.Store

namespace Guion

/-- The place of a variable: how many frames are below its own, and how many variables are before it
there. -/
abbrev Place := Nat × Nat

abbrev Layers := List Frame

namespace Layers

def binding? (layers : Layers) (p : Place) : Option (Name × Variable) :=
  (layers.reverse[p.1]?).bind (·[p.2]?)

/-- The name stands for the variable at a place: no frame further in declares it. -/
structure Resolves (layers : Layers) (name : Name) (p : Place) (var : Variable) : Prop where
  declared : ∃ key, layers.binding? p = some (key, var) ∧ key.agrees name = true
  innermost : ∀ q key other, layers.binding? q = some (key, other) → key.agrees name = true →
    q.1 < p.1 ∨ q.1 = p.1 ∧ p.2 ≤ q.2

def set (name : Name) (var : Variable) : Layers → Layers
  | [] => []
  | frame :: outer =>
    if (frame.get? name).isSome then frame.set name var :: outer else frame :: set name var outer

end Layers

def Store.layers (s : Store) : Layers := s.frames ++ [s.globals]

namespace Frame

variable {frame : Frame} {name : Name} {var : Variable}

theorem get?_none : frame.get? name = none ↔ ∀ entry ∈ frame, entry.1.agrees name = false := by
  simp [get?, List.find?_eq_none]

theorem set_missing (h : frame.get? name = none) (new : Variable) :
    frame.set name new = frame := by
  induction frame with
  | nil => rfl
  | cons entry rest ih =>
    obtain ⟨hkey, hrest⟩ := List.forall_mem_cons.mp (get?_none.mp h)
    simp only [Frame.set, hkey, Bool.false_eq_true, ↓reduceIte, ih (get?_none.mpr hrest)]

theorem map_set (name : Name) (new : Variable) (frame : Frame) :
    (frame.set name new).map Prod.fst = frame.map Prod.fst := by
  induction frame with
  | nil => rfl
  | cons entry rest ih =>
    simp only [Frame.set]
    split
    · rfl
    · simp only [List.map_cons, ih]

theorem get?_some (h : frame.get? name = some var) :
    ∃ (k : Nat) (key : Name), frame[k]? = some (key, var) ∧ key.agrees name = true ∧
      (∀ (j : Nat) (other : Name × Variable), frame[j]? = some other →
        other.1.agrees name = true → k ≤ j) ∧
      ∀ (new : Variable) (j : Nat),
        (frame.set name new)[j]? = if j = k then some (key, new) else frame[j]? := by
  induction frame with
  | nil => cases h
  | cons entry rest ih =>
    obtain ⟨key, old⟩ := entry
    simp only [get?, List.find?_cons] at h
    cases hkey : key.agrees name with
    | true =>
      simp only [hkey, Option.map_some, Option.some.injEq] at h
      subst h
      refine ⟨0, key, rfl, hkey, fun j _ _ _ => Nat.zero_le j, fun new j => ?_⟩
      simp only [Frame.set, hkey, ↓reduceIte]
      cases j <;> rfl
    | false =>
      simp only [hkey] at h
      obtain ⟨k, found, hk, hagrees, hfirst, hset⟩ := ih h
      refine ⟨k + 1, found, hk, hagrees, fun j other hj hother => ?_, fun new j => ?_⟩
      · cases j with
        | zero =>
          cases hj
          rw [hkey] at hother
          cases hother
        | succ j => exact Nat.succ_le_succ (hfirst j other hj hother)
      · simp only [Frame.set, hkey, Bool.false_eq_true, ↓reduceIte]
        cases j with
        | zero => rfl
        | succ j => simpa using hset new j

end Frame

namespace Layers

variable {layers outer : Layers} {frame : Frame} {name : Name} {var : Variable} {p q : Place}

theorem binding?_cons (frame : Frame) (outer : Layers) (p : Place) :
    binding? (frame :: outer) p = if p.1 = outer.length then frame[p.2]? else binding? outer p := by
  unfold binding?
  rw [List.reverse_cons]
  by_cases hlt : p.1 < outer.reverse.length
  · rw [List.getElem?_append_left hlt, if_neg (by rw [List.length_reverse] at hlt; omega)]
  · rw [List.getElem?_append_right (by omega)]
    rw [List.length_reverse] at hlt ⊢
    split
    · rename_i heq
      simp [heq]
    · rename_i hne
      have hout : outer.reverse[p.1]? = none := by simp; omega
      have hlast : [frame][p.1 - outer.length]? = none := by simp; omega
      rw [hout, hlast]

theorem lt_length {entry : Name × Variable} (h : layers.binding? p = some entry) :
    p.1 < layers.length := by
  obtain ⟨frame, hframe, _⟩ := Option.bind_eq_some_iff.mp h
  simpa using (List.getElem?_eq_some_iff.mp hframe).1

theorem binding?_of_length_le (h : layers.length ≤ p.1) : layers.binding? p = none := by
  cases hp : layers.binding? p with
  | none => rfl
  | some entry =>
    have hlt := lt_length hp
    omega

theorem binding?_outer (h : p.1 < outer.length) :
    binding? (frame :: outer) p = binding? outer p := by
  rw [binding?_cons, if_neg (by omega)]

theorem binding?_own (frame : Frame) (outer : Layers) (k : Nat) :
    binding? (frame :: outer) (outer.length, k) = frame[k]? := by
  rw [binding?_cons, if_pos rfl]

theorem binding?_append (frame : Frame) (outer : Layers) (entry : Name × Variable) (p : Place) :
    binding? ((frame ++ [entry]) :: outer) p =
      if p = (outer.length, frame.length) then some entry else binding? (frame :: outer) p := by
  obtain ⟨i, k⟩ := p
  simp only [binding?_cons, Prod.mk.injEq]
  by_cases hi : i = outer.length
  · simp only [hi, ↓reduceIte, true_and]
    rw [List.getElem?_append]
    split
    · rw [if_neg (by omega)]
    · by_cases hk : k = frame.length
      · simp [hk]
      · have hnone : frame[k]? = none := by simp; omega
        have hlast : [entry][k - frame.length]? = none := by simp; omega
        rw [if_neg hk, hnone, hlast]
  · simp only [hi, ↓reduceIte, false_and]

theorem length_set (name : Name) (new : Variable) (layers : Layers) :
    (layers.set name new).length = layers.length := by
  induction layers with
  | nil => rfl
  | cons frame outer ih =>
    simp only [Layers.set]
    split
    · rfl
    · rw [List.length_cons, List.length_cons, ih]

theorem forall_set {property : Frame → Prop} {new : Variable} (h : ∀ f ∈ layers, property f)
    (hset : ∀ f, property f → property (f.set name new)) :
    ∀ f ∈ layers.set name new, property f := by
  induction layers with
  | nil => exact h
  | cons frame outer ih =>
    obtain ⟨hframe, houter⟩ := List.forall_mem_cons.mp h
    simp only [Layers.set]
    split
    · exact List.forall_mem_cons.mpr ⟨hset frame hframe, houter⟩
    · exact List.forall_mem_cons.mpr ⟨hframe, ih houter⟩

theorem findSome?_resolves (h : layers.findSome? (·.get? name) = some var) :
    ∃ p, layers.Resolves name p var ∧ ∀ new q, (layers.set name new).binding? q =
      if q = p then (layers.binding? q).map (fun e => (e.1, new)) else layers.binding? q := by
  induction layers with
  | nil => cases h
  | cons frame outer ih =>
    simp only [List.findSome?_cons] at h
    cases hget : frame.get? name with
    | some found =>
      simp only [hget, Option.some.injEq] at h
      subst h
      obtain ⟨k, key, hk, hagrees, hfirst, hset⟩ := Frame.get?_some hget
      refine ⟨(outer.length, k), ⟨⟨key, ?_, hagrees⟩, ?_⟩, fun new q => ?_⟩
      · rw [binding?_own, hk]
      -- every other variable of the name is later in this frame or further out
      · rintro ⟨i, j⟩ other v hq hother
        by_cases hi : i = outer.length
        · subst hi
          rw [binding?_own] at hq
          exact .inr ⟨rfl, hfirst j _ hq hother⟩
        · have hlt := lt_length hq
          rw [List.length_cons] at hlt
          exact .inl (by simp only; omega)
      · obtain ⟨i, j⟩ := q
        simp only [Layers.set, hget, Option.isSome_some, ↓reduceIte, binding?_cons, Prod.mk.injEq]
        by_cases hi : i = outer.length
        · simp only [hi, ↓reduceIte, true_and, hset]
          split
          · rename_i hj
            rw [hj, hk]
            rfl
          · rfl
        · simp only [hi, ↓reduceIte, false_and]
    | none =>
      simp only [hget] at h
      obtain ⟨p, ⟨⟨key, hp, hagrees⟩, hinnermost⟩, hset⟩ := ih h
      have hlt := lt_length hp
      refine ⟨p, ⟨⟨key, ?_, hagrees⟩, ?_⟩, fun new q => ?_⟩
      · rw [binding?_outer hlt, hp]
      · intro q other v hq hother
        rw [binding?_cons] at hq
        split at hq
        · have hmissing := Frame.get?_none.mp hget _ (List.mem_of_getElem? hq)
          rw [hother] at hmissing
          cases hmissing
        · exact hinnermost q other v hq hother
      · simp only [Layers.set, hget, Option.isSome_none, Bool.false_eq_true, ↓reduceIte]
        by_cases hq : q.1 = outer.length
        · have hne : q ≠ p := fun heq => by rw [heq] at hq; omega
          rw [binding?_cons, binding?_cons, length_set, if_pos hq, if_neg hne, if_pos hq]
        · rw [binding?_cons, binding?_cons, length_set, if_neg hq, if_neg hq]
          exact hset new q

theorem exists_mem {entry : Name × Variable} (h : layers.binding? p = some entry) :
    ∃ frame ∈ layers, entry ∈ frame := by
  obtain ⟨frame, hframe, hentry⟩ := Option.bind_eq_some_iff.mp h
  exact ⟨frame, List.mem_reverse.mp (List.mem_of_getElem? hframe), List.mem_of_getElem? hentry⟩

theorem findSome?_none (h : layers.findSome? (·.get? name) = none) {entry : Name × Variable}
    (hp : layers.binding? p = some entry) : entry.1.agrees name = false := by
  obtain ⟨frame, hframe, hentry⟩ := exists_mem hp
  exact Frame.get?_none.mp (List.findSome?_eq_none_iff.mp h frame hframe) entry hentry

/-- A name stands for one variable at most. -/
theorem Resolves.unique {other : Variable} (h : layers.Resolves name p var)
    (h' : layers.Resolves name q other) : p = q ∧ var = other := by
  obtain ⟨⟨key, hp, hkey⟩, hinnermost⟩ := h
  obtain ⟨⟨key', hq, hkey'⟩, hinnermost'⟩ := h'
  have hpq := hinnermost q key' other hq hkey'
  have hqp := hinnermost' p key var hp hkey
  have heq : p = q := by
    refine Prod.ext ?_ ?_
    · omega
    · omega
  subst heq
  rw [hp] at hq
  cases hq
  exact ⟨rfl, rfl⟩

end Layers

namespace Store

variable {s : Store} {name : Name} {var : Variable}

theorem find?_layers (s : Store) (name : Name) :
    s.find? name = s.layers.findSome? (·.get? name) := by
  simp [find?, layers, List.findSome?_append]

theorem layers_set (s : Store) (name : Name) (new : Variable) :
    (s.set name new).layers = s.layers.set name new := by
  obtain ⟨globals, frames⟩ := s
  unfold Store.set
  induction frames with
  | nil =>
    simp only [setIn, layers, List.nil_append, Layers.set]
    split
    · rfl
    · rename_i hnone
      rw [Frame.set_missing (Option.not_isSome_iff_eq_none.mp hnone)]
  | cons first rest ih =>
    simp only [setIn, layers, List.cons_append, Layers.set] at ih ⊢
    split
    · rfl
    · rw [← ih]
      rfl

theorem layers_openScope (s : Store) : s.openScope.layers = [] :: s.layers := rfl

theorem layers_closeScope (h : 1 < s.layers.length) : s.closeScope.layers = s.layers.tail := by
  obtain ⟨globals, frames⟩ := s
  cases frames with
  | nil => exact absurd h (by simp [layers])
  | cons first rest => rfl

theorem exists_layers (s : Store) : ∃ outer, s.layers = s.current :: outer ∧
    ∀ name var, (s.insert name var).layers = (s.current ++ [(name, var)]) :: outer := by
  obtain ⟨globals, frames⟩ := s
  cases frames with
  | nil => exact ⟨[], rfl, fun _ _ => rfl⟩
  | cons first rest => exact ⟨rest ++ [globals], rfl, fun _ _ => rfl⟩

theorem layers_pos (s : Store) : 0 < s.layers.length := by
  simp [layers]

end Store

end Guion
