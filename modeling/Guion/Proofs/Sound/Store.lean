import Guion.Proofs.Written

namespace Guion

def Name.IsText (name : Name) : Prop := ∃ s : String, name = s

/-- A variable holds a value of its declared type or none, and none before one is stored. -/
structure Variable.Sound (var : Variable) : Prop where
  typed : ∃ kind, var.type = .known kind ∧ var.value.Fits kind
  empty : var.initialized = false → var.value = .null
  regular : var.value.Regular

def Frame.Sound (frame : Frame) : Prop :=
  ∀ entry ∈ frame, entry.2.Sound

structure Store.Sound (s : Store) : Prop where
  globals : s.globals.Sound
  frames : ∀ frame ∈ s.frames, frame.Sound

namespace Frame

variable {frame : Frame} {name : Name} {var : Variable}

theorem Sound.get? (h : frame.Sound) (hget : frame.get? name = some var) : var.Sound := by
  obtain ⟨entry, hfind, rfl⟩ := Option.map_eq_some_iff.mp hget
  exact h entry (List.mem_of_find?_eq_some hfind)

theorem Sound.append (h : frame.Sound) (hv : var.Sound) : Sound (frame ++ [(name, var)]) := by
  exact List.forall_mem_append.mpr ⟨h, List.forall_mem_singleton.mpr hv⟩

theorem Sound.set (h : frame.Sound) (hv : var.Sound) : Sound (frame.set name var) := by
  induction frame with
  | nil => exact h
  | cons entry rest ih =>
    have hrest : Sound rest := fun other hother => h other (List.mem_cons_of_mem _ hother)
    intro other hother
    simp only [Frame.set] at hother
    split at hother
    · obtain rfl | hother := List.mem_cons.mp hother
      · exact hv
      · exact hrest other hother
    · obtain rfl | hother := List.mem_cons.mp hother
      · exact h _ List.mem_cons_self
      · exact ih hrest other hother

end Frame

namespace Store

variable {s : Store} {name : Name} {var : Variable}

theorem Sound.openScope (h : s.Sound) : s.openScope.Sound := by
  refine ⟨h.globals, fun frame hframe => ?_⟩
  obtain rfl | hframe := List.mem_cons.mp hframe
  · exact fun entry hentry => nomatch hentry
  · exact h.frames frame hframe

theorem Sound.closeScope (h : s.Sound) : s.closeScope.Sound :=
  ⟨h.globals, fun frame hframe => h.frames frame (List.mem_of_mem_tail hframe)⟩

theorem Sound.find? (h : s.Sound) (hfind : s.find? name = some var) : var.Sound := by
  obtain hinner | ⟨_, houter⟩ := Option.or_eq_some_iff.mp hfind
  · obtain ⟨frame, hframe, hget⟩ := List.exists_of_findSome?_eq_some hinner
    exact (h.frames frame hframe).get? hget
  · exact h.globals.get? houter

theorem Sound.insert (h : s.Sound) (hv : var.Sound) : (s.insert name var).Sound := by
  obtain ⟨globals, frames⟩ := s
  cases frames with
  | nil => exact ⟨h.globals.append hv, fun frame hframe => nomatch hframe⟩
  | cons first rest =>
    refine ⟨h.globals, fun frame hframe => ?_⟩
    obtain rfl | hframe := List.mem_cons.mp hframe
    · exact (h.frames first List.mem_cons_self).append hv
    · exact h.frames frame (List.mem_cons_of_mem _ hframe)

theorem setIn_sound {globals : Frame} {frames : List Frame} (hg : globals.Sound)
    (hf : ∀ frame ∈ frames, frame.Sound) (hv : var.Sound) :
    (setIn name var globals frames).Sound := by
  induction frames with
  | nil => exact ⟨hg.set hv, fun frame hframe => nomatch hframe⟩
  | cons first rest ih =>
    have hrest : ∀ frame ∈ rest, frame.Sound := fun frame hframe =>
      hf frame (List.mem_cons_of_mem _ hframe)
    simp only [setIn]
    split
    · refine ⟨hg, fun frame hframe => ?_⟩
      obtain rfl | hframe := List.mem_cons.mp hframe
      · exact (hf first List.mem_cons_self).set hv
      · exact hrest frame hframe
    · refine ⟨(ih hrest).globals, fun frame hframe => ?_⟩
      obtain rfl | hframe := List.mem_cons.mp hframe
      · exact hf _ List.mem_cons_self
      · exact (ih hrest).frames frame hframe

theorem Sound.set (h : s.Sound) (hv : var.Sound) : (s.set name var).Sound :=
  setIn_sound h.globals h.frames hv

theorem checkName_text (hname : name.IsText) : checkName name = .ok () := by
  obtain ⟨text, rfl⟩ := hname
  rfl

theorem lookup_yields (h : s.Sound) (hname : name.IsText) :
    Yields Variable.Sound Failure.Worded (s.lookup name) := by
  unfold lookup
  rw [checkName_text hname]
  cases hfind : s.find? name with
  | none => trivial
  | some var => exact h.find? hfind

theorem sound_declared (kind : Kind) : Variable.Sound { type := .known kind } :=
  ⟨⟨kind, rfl, .inl rfl⟩, fun _ => rfl, Value.regular_null⟩

theorem sound_holding {kind : Kind} {w : Value} (hw : w.Regular ∧ w.Fits kind) :
    Variable.Sound ⟨.known kind, w, true⟩ :=
  ⟨⟨kind, rfl, hw.2⟩, fun h => (nomatch h), hw.1⟩

theorem declared_yields (hname : name.IsText) (kind : Kind) {value : Option Value}
    (hvalue : ∀ v, value = some v → v.Regular) :
    Yields Variable.Sound Failure.Worded (s.declared name (.known kind) value) := by
  unfold declared
  rw [checkName_text hname]
  change Yields _ _ (if (s.current.get? name).isSome then Fault.raise (.variableExists name) else _)
  split
  · trivial
  · cases value with
    | none => exact sound_declared kind
    | some v =>
      exact (Value.conform_yields kind _ (hvalue v rfl)).bind fun w hw => sound_holding hw

theorem assigned_yields (h : s.Sound) (hname : name.IsText) {v : Value} (hv : v.Regular) :
    Yields Variable.Sound Failure.Worded (s.assigned name v) := by
  refine (lookup_yields h hname).bind fun var hvar => ?_
  obtain ⟨kind, htype, _⟩ := hvar.typed
  rw [htype]
  exact (Value.conform_yields kind _ hv).bind fun w hw => sound_holding hw

theorem declare_yields (h : s.Sound) (hname : name.IsText) (kind : Kind) {value : Option Value}
    (hvalue : ∀ v, value = some v → v.Regular) :
    Yields Variable.Sound Failure.Worded (s.declare name (.known kind) value).1 ∧
      (s.declare name (.known kind) value).2.Sound := by
  have hvar := declared_yields (s := s) hname kind hvalue
  unfold declare
  cases hd : s.declared name (.known kind) value with
  | ok var =>
    rw [hd] at hvar
    exact ⟨hvar, h.insert hvar⟩
  | error e =>
    rw [hd] at hvar
    exact ⟨hvar, h⟩

theorem assign_yields (h : s.Sound) (hname : name.IsText) {v : Value} (hv : v.Regular) :
    Yields Value.Regular Failure.Worded (s.assign name v).1 ∧ (s.assign name v).2.Sound := by
  have hvar := assigned_yields h hname hv
  unfold assign
  cases ha : s.assigned name v with
  | ok var =>
    rw [ha] at hvar
    exact ⟨hvar.regular, h.set hvar⟩
  | error e =>
    rw [ha] at hvar
    exact ⟨hvar, h⟩

end Store

end Guion
