import Guion.Proofs.Likeness

namespace Guion

/-- The second frames are the first ones with an empty frame more, `k` frames from the innermost. -/
inductive Frame.Padded : Nat → List Frame → List Frame → Prop where
  | here (frames : List Frame) : Padded 0 frames ([] :: frames)
  | under (frame : Frame) {k : Nat} {frames frames' : List Frame} :
    Padded k frames frames' → Padded (k + 1) (frame :: frames) (frame :: frames')

structure Store.Padded (k : Nat) (s s' : Store) : Prop where
  globals : s'.globals = s.globals
  frames : Frame.Padded k s.frames s'.frames

theorem Frame.Padded.findSome? {k : Nat} {frames frames' : List Frame}
    (h : Frame.Padded k frames frames') (name : Name) :
    frames'.findSome? (·.get? name) = frames.findSome? (·.get? name) := by
  induction h with
  | here frames => rfl
  | under frame _ ih => simp only [List.findSome?_cons, ih]

theorem Frame.Padded.setIn {k : Nat} {frames frames' : List Frame}
    (h : Frame.Padded k frames frames') (name : Name) (var : Variable) (globals : Frame) :
    (Store.setIn name var globals frames).Padded k (Store.setIn name var globals frames') := by
  induction h with
  | here frames => exact ⟨rfl, .here _⟩
  | under frame h ih =>
    unfold Store.setIn
    split
    · exact ⟨rfl, .under _ h⟩
    · exact ⟨ih.globals, .under frame ih.frames⟩

namespace Store

theorem congruence_padded : Congruence Padded true where
  find? := by
    intro k s s' name h
    simp only [find?, h.frames.findSome? name, h.globals]
  set := by
    intro k s s' name var h
    rw [set, set, h.globals]
    exact h.frames.setIn name var s.globals
  current := by
    rintro k ⟨globals, frames⟩ ⟨globals', frames'⟩ hk ⟨_, h⟩
    cases h with
    | here => exact absurd rfl (hk rfl)
    | under frame h => rfl
  insert := by
    rintro k ⟨globals, frames⟩ ⟨globals', frames'⟩ name var hk ⟨hglobals, h⟩
    cases h with
    | here => exact absurd rfl (hk rfl)
    | under frame h => exact ⟨hglobals, .under _ h⟩
  openScope := by
    intro k s s' h
    exact ⟨h.globals, .under [] h.frames⟩
  closeScope := by
    rintro k ⟨globals, frames⟩ ⟨globals', frames'⟩ ⟨hglobals, h⟩
    cases h with
    | under frame h => exact ⟨hglobals, h⟩

theorem padded_zero {s s' : Store} : s.Padded 0 s' ↔ s' = s.openScope := by
  obtain ⟨globals, frames⟩ := s
  obtain ⟨globals', frames'⟩ := s'
  constructor
  · rintro ⟨hglobals, h⟩
    cases h with
    | here => exact congrArg (Store.mk · _) hglobals
  · intro h
    cases h
    exact ⟨rfl, .here _⟩

theorem Congruence.flip {R : Nat → Store → Store → Prop} {quiet : Bool} (law : Congruence R quiet) :
    Congruence (fun k s s' => R k s' s) quiet where
  find? name h := (law.find? name h).symm
  set name var h := law.set name var h
  current hk h := (law.current hk h).symm
  insert name var hk h := law.insert name var hk h
  openScope h := law.openScope h
  closeScope h := law.closeScope h

end Store

def apart (store : Nat → Store → Store → Prop) (quiet : Bool) : Likeness where
  store
  limit _ a b := a = b
  trace := Trace.Alike
  quiet
  excused e := e = .exhausted

section Apart

variable {store : Nat → Store → Store → Prop} {quiet : Bool} {k : Nat}

theorem apart_kept (law : Store.Congruence store quiet) : (apart store quiet).Kept where
  store := law
  limit := .inl
  refuses _ h := .inl (h.refuses rfl rfl)
  note event h := h.note event event
  close h := h.close
  located := by
    intro cause place h
    cases h

theorem Task.follows_deeper (law : Store.Congruence store quiet) {fuel depth : Nat}
    (hd : fuel ≤ depth) (t : Task) (ht : quiet = true → k = 0 → t.Silent) :
    Exec.Follows (· = .exhausted) (Machine.Like (apart store quiet) k) (t.run fuel)
      (t.run depth) := by
  intro m m' hm hok
  obtain ⟨hfst, hsnd⟩ := t.run_follows (apart_kept law) fuel ht m m' hm hok
  have hends : (t.run fuel m').1 ≠ .error .exhausted := by
    intro hcut
    exact hok _ (hfst.symm.trans hcut) rfl
  rw [t.run_deeper hd hends]
  exact ⟨hfst, hsnd⟩

namespace Exec

variable {α : Type} {x x' : Exec α}

/-- A scope of its own makes no difference to a computation that declares nothing. -/
theorem Follows.inScope_right
    (h : Follows (· = .exhausted) (Machine.Like (apart Store.Padded true) 0) x x') :
    Follows (· = .exhausted) (Machine.Like (apart (fun _ s s' => s' = s) false) k) x
      (inScope x') := by
  intro m m' hm hok
  have henter : m.Like (apart Store.Padded true) 0 (Bracket.scope.enter m') :=
    { hm with store := Store.padded_zero.mpr (congrArg Store.openScope hm.store) }
  obtain ⟨hfst, hsnd⟩ := h m _ henter hok
  exact ⟨hfst, { hsnd with
    store := congrArg Store.closeScope (Store.padded_zero.mp hsnd.store) }⟩

theorem Follows.inScope_left
    (h : Follows (· = .exhausted)
      (Machine.Like (apart (fun k s s' => Store.Padded k s' s) true) 0) x x') :
    Follows (· = .exhausted) (Machine.Like (apart (fun _ s s' => s' = s) false) k) (inScope x)
      x' := by
  intro m m' hm hok
  have henter : (Bracket.scope.enter m).Like
      (apart (fun k s s' => Store.Padded k s' s) true) 0 m' :=
    { hm with store := Store.padded_zero.mpr (congrArg Store.openScope hm.store.symm) }
  obtain ⟨hfst, hsnd⟩ := h _ m' henter hok
  exact ⟨hfst, { hsnd with
    store := (congrArg Store.closeScope (Store.padded_zero.mp hsnd.store)).symm }⟩

end Exec

end Apart

end Guion
