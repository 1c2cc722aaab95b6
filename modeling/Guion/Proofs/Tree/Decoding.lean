import Guion.Proofs.Tree.Durable
import Mathlib.Data.List.Nodup

namespace Guion

/-- The fields of a stored node beside its kind, each with what it is where it is left out, if it
may be. -/
def NodeKind.slots (kind : NodeKind) : List (String × Option Json) :=
  ("line", some (.int 0)) :: ("column", some (.int 0)) ::
    kind.fields.map fun f => (f.1, if f.2 then some .null else none)

namespace Json

/-- Data whose objects have each key once. -/
inductive Proper : Json → Prop where
  | null : Proper .null
  | bool (b : Bool) : Proper (.bool b)
  | int (n : Int) : Proper (.int n)
  | float (x : Float) : Proper (.float x)
  | text (s : String) : Proper (.text s)
  | list {items : List Json} : (∀ j ∈ items, Proper j) → Proper (.list items)
  | object {fields : List (String × Json)} : (fields.map Prod.fst).Nodup →
    (∀ f ∈ fields, Proper f.2) → Proper (.object fields)

/-- The objects in a value, through lists and through fields other than `type`. -/
inductive Holds : Json → List (String × Json) → Prop where
  | here (fields : List (String × Json)) : Holds (.object fields) fields
  | item {items : List Json} {j : Json} {inner : List (String × Json)} :
    j ∈ items → Holds j inner → Holds (.list items) inner
  | field {fields inner : List (String × Json)} {f : String × Json} :
    f ∈ fields → f.1 ≠ "type" → Holds f.2 inner → Holds (.object fields) inner

structure Fits (kind : NodeKind) (fields : List (String × Json)) : Prop where
  known : ∀ f ∈ fields, f.1 = "type" ∨ f.1 ∈ kind.slots.map Prod.fst
  required : ∀ name, (name, none) ∈ kind.slots → name ∈ fields.map Prod.fst

/-- An object that is the data of a node, but perhaps for fields that may be left out. -/
def IsNode (fields : List (String × Json)) : Prop :=
  ∃ kind : NodeKind, field? "type" fields = some (.text kind.name) ∧ Fits kind fields

/-- What is wrong with an object, by the failure that it gives. -/
def Flawed (fields : List (String × Json)) : DecodeFault → Prop
  | .unknownKind _ => ∀ kind : NodeKind, field? "type" fields ≠ some (.text kind.name)
  | .compoundKind => (∃ items, field? "type" fields = some (.list items)) ∨
      ∃ inner, field? "type" fields = some (.object inner)
  | .wrongFields => ∃ kind : NodeKind, field? "type" fields = some (.text kind.name) ∧
      ¬ Fits kind fields

section Fields

variable {name : String} {fields : List (String × Json)} {v : Json}

theorem mem_of_field? (h : field? name fields = some v) : (name, v) ∈ fields := by
  induction fields with
  | nil => cases h
  | cons f fields ih =>
    rw [field?] at h
    split at h
    · next hname =>
      cases h
      subst hname
      exact List.mem_cons_self
    · exact List.mem_cons_of_mem f (ih h)

theorem field?_of_mem (hnodup : (fields.map Prod.fst).Nodup) (h : (name, v) ∈ fields) :
    field? name fields = some v := by
  induction fields with
  | nil => cases h
  | cons f fields ih =>
    obtain ⟨hf, hrest⟩ := List.nodup_cons.mp hnodup
    rw [field?]
    obtain rfl | h := List.mem_cons.mp h
    · exact if_pos rfl
    · have hne : f.1 ≠ name := by
        intro heq
        exact hf (List.mem_map.mpr ⟨_, h, heq.symm⟩)
      rw [if_neg hne]
      exact ih hrest h

theorem exists_of_mem_keys (h : name ∈ fields.map Prod.fst) : ∃ v, (name, v) ∈ fields := by
  obtain ⟨⟨_, v⟩, hv, rfl⟩ := List.mem_map.mp h
  exact ⟨v, hv⟩

end Fields

end Json

namespace NodeKind

theorem ofName?_eq_some {name : String} {kind : NodeKind} :
    ofName? name = some kind ↔ name = kind.name := by
  constructor
  · intro h
    rw [ofName?] at h
    have hname := List.find?_some h
    exact (beq_iff_eq.mp hname).symm
  · rintro rfl
    exact kind.ofName?_name

theorem name_injective {kind other : NodeKind} (h : kind.name = other.name) : kind = other := by
  have hother := other.ofName?_name
  rw [← h, kind.ofName?_name] at hother
  exact Option.some.inj hother

theorem slots_names (kind : NodeKind) :
    kind.slots.map Prod.fst = "line" :: "column" :: kind.fields.map Prod.fst := by
  simp [slots, Function.comp_def]

theorem nodup_slots (kind : NodeKind) : ("type" :: kind.slots.map Prod.fst).Nodup := by
  rw [slots_names]
  exact kind.nodup_names

end NodeKind

namespace Tree

open Json (field? Fits Flawed)

theorem isField_iff {kind : NodeKind} {name : String} :
    isField kind name = true ↔ name ∈ kind.slots.map Prod.fst := by
  simp [isField, NodeKind.slots_names, or_assoc]

section Bind

variable {α β : Type} {x : Except DecodeFault α} {f : α → Except DecodeFault β}

theorem bind_eq_ok {b : β} : x >>= f = .ok b ↔ ∃ a, x = .ok a ∧ f a = .ok b := by
  cases x with
  | error e => exact iff_of_false nofun fun ⟨_, h, _⟩ => nomatch h
  | ok a => exact ⟨fun h => ⟨a, rfl, h⟩, fun ⟨_, ha, h⟩ => Except.ok.inj ha ▸ h⟩

theorem bind_eq_error {cause : DecodeFault} :
    x >>= f = .error cause ↔ x = .error cause ∨ ∃ a, x = .ok a ∧ f a = .error cause := by
  cases x with
  | error e => simp [bind, Except.bind]
  | ok a => simp [bind, Except.bind]

end Bind

section Items

variable {items : List Json} {ts : List Tree} {cause : DecodeFault}

theorem ofItems_eq_ok : ofItems items = .ok ts ↔ List.Forall₂ (ofJson · = .ok ·) items ts := by
  induction items generalizing ts with
  | nil =>
    rw [ofItems, List.forall₂_nil_left_iff]
    exact ⟨fun h => (Except.ok.inj h).symm, fun h => congrArg _ h.symm⟩
  | cons j items ih =>
    simp only [ofItems, List.forall₂_cons_left_iff, bind_eq_ok, ih, Except.ok.injEq]
    constructor
    · rintro ⟨t, ht, us, hus, rfl⟩
      exact ⟨t, us, ht, hus, rfl⟩
    · rintro ⟨t, us, ht, hus, rfl⟩
      exact ⟨t, ht, us, hus, rfl⟩

theorem ofItems_item {j : Json} (h : ofItems items = .ok ts) (hj : j ∈ items) :
    ∃ t, ofJson j = .ok t := by
  rw [ofItems_eq_ok] at h
  induction h with
  | nil => cases hj
  | cons ht _ ih =>
    obtain rfl | hj := List.mem_cons.mp hj
    · exact ⟨_, ht⟩
    · exact ih hj

theorem ofItems_tree {t : Tree} (h : ofItems items = .ok ts) (ht : t ∈ ts) :
    ∃ j ∈ items, ofJson j = .ok t := by
  rw [ofItems_eq_ok] at h
  induction h with
  | nil => cases ht
  | cons hj _ ih =>
    obtain rfl | ht := List.mem_cons.mp ht
    · exact ⟨_, List.mem_cons_self, hj⟩
    · obtain ⟨j, hmem, hj⟩ := ih ht
      exact ⟨j, List.mem_cons_of_mem _ hmem, hj⟩

theorem ofItems_error (h : ofItems items = .error cause) :
    ∃ j ∈ items, ofJson j = .error cause := by
  induction items with
  | nil => cases h
  | cons j items ih =>
    obtain h | ⟨t, _, h⟩ := bind_eq_error.mp h
    · exact ⟨j, List.mem_cons_self, h⟩
    · obtain h | ⟨us, _, h⟩ := bind_eq_error.mp h
      · obtain ⟨k, hk, he⟩ := ih h
        exact ⟨k, List.mem_cons_of_mem j hk, he⟩
      · cases h

end Items

section Fields

variable {fields : List (String × Json)} {parts : List (String × Tree)} {cause : DecodeFault}

theorem ofFields_keys (h : ofFields fields = .ok parts) :
    parts.map Prod.fst = (fields.map Prod.fst).filter (· ≠ "type") := by
  induction fields generalizing parts with
  | nil =>
    cases h
    rfl
  | cons f fields ih =>
    rw [ofFields] at h
    split at h
    · next hname => rw [ih h, List.map_cons, List.filter_cons_of_neg (by simp [hname])]
    · next hname =>
      obtain ⟨t, _, h⟩ := bind_eq_ok.mp h
      obtain ⟨rest, hrest, h⟩ := bind_eq_ok.mp h
      cases h
      rw [List.map_cons, List.map_cons, ih hrest, List.filter_cons_of_pos (by simp [hname])]

theorem ofFields_lookup (h : ofFields fields = .ok parts) {name : String} (hname : name ≠ "type") :
    Option.Rel (ofJson · = .ok ·) (field? name fields) (parts.lookup name) := by
  induction fields generalizing parts with
  | nil =>
    cases h
    exact .none
  | cons f fields ih =>
    rw [ofFields] at h
    rw [field?]
    split at h
    · next htype =>
      rw [if_neg fun heq => hname (heq.symm.trans htype)]
      exact ih h
    · obtain ⟨t, ht, h⟩ := bind_eq_ok.mp h
      obtain ⟨rest, hrest, h⟩ := bind_eq_ok.mp h
      cases h
      by_cases heq : f.1 = name
      · rw [if_pos heq, heq, List.lookup_cons_self]
        exact .some ht
      · rw [if_neg heq, List.lookup_cons, beq_false_of_ne (Ne.symm heq)]
        exact ih hrest

theorem exists_ofFields_iff : (∃ parts, ofFields fields = .ok parts) ↔
    ∀ f ∈ fields, f.1 ≠ "type" → ∃ t, ofJson f.2 = .ok t := by
  induction fields with
  | nil => exact iff_of_true ⟨[], rfl⟩ nofun
  | cons f fields ih =>
    rw [ofFields, List.forall_mem_cons, ← ih]
    split
    · next hname => simp [hname]
    · next hname =>
      simp only [bind_eq_ok, Except.ok.injEq, hname, ne_eq, not_false_eq_true, forall_const]
      constructor
      · rintro ⟨_, t, ht, rest, hrest, _⟩
        exact ⟨⟨t, ht⟩, rest, hrest⟩
      · rintro ⟨⟨t, ht⟩, rest, hrest⟩
        exact ⟨_, t, ht, rest, hrest, rfl⟩

theorem ofFields_error (h : ofFields fields = .error cause) :
    ∃ f ∈ fields, f.1 ≠ "type" ∧ ofJson f.2 = .error cause := by
  induction fields with
  | nil => cases h
  | cons f fields ih =>
    rw [ofFields] at h
    split at h
    · obtain ⟨g, hg, he⟩ := ih h
      exact ⟨g, List.mem_cons_of_mem f hg, he⟩
    · next hname =>
      obtain h | ⟨t, _, h⟩ := bind_eq_error.mp h
      · exact ⟨f, List.mem_cons_self, hname, h⟩
      · obtain h | ⟨us, _, h⟩ := bind_eq_error.mp h
        · obtain ⟨g, hg, he⟩ := ih h
          exact ⟨g, List.mem_cons_of_mem f hg, he⟩
        · cases h

end Fields

section Node

variable {fields : List (String × Json)} {parts : List (String × Tree)} {kind : NodeKind}
  {cause : DecodeFault} {t : Tree}

theorem kindOf_eq_ok :
    kindOf fields = .ok kind ↔ field? "type" fields = some (.text kind.name) := by
  unfold kindOf
  constructor
  · intro h
    split at h
    · cases h
    · next name hname =>
      split at h
      · next other hother =>
        cases h
        rw [hname, NodeKind.ofName?_eq_some.mp hother]
      · cases h
    all_goals cases h
  · intro h
    simp only [h, kind.ofName?_name]

theorem kindOf_error (h : kindOf fields = .error cause) : Flawed fields cause := by
  have hnone : ∀ kind : NodeKind, field? "type" fields ≠ some (.text kind.name) := by
    intro kind hkind
    cases h.symm.trans (kindOf_eq_ok.mpr hkind)
  unfold kindOf at h
  split at h
  case h_2 =>
    split at h <;> cases h
    exact hnone
  case h_7 items hitems =>
    cases h
    exact .inl ⟨items, hitems⟩
  case h_8 inner hinner =>
    cases h
    exact .inr ⟨inner, hinner⟩
  all_goals
    cases h
    exact hnone

theorem arrange_eq_ok {slots : List (String × Bool)} {ts : List Tree} :
    arrange parts slots = .ok ts ↔
      (∀ f ∈ slots, f.2 = false → (parts.lookup f.1).isSome) ∧
        ts = slots.map fun f => (parts.lookup f.1).getD .null := by
  induction slots generalizing ts with
  | nil => exact ⟨fun h => ⟨nofun, (Except.ok.inj h).symm⟩, fun h => congrArg _ h.2.symm⟩
  | cons f slots ih =>
    rw [List.forall_mem_cons, List.map_cons, arrange]
    cases hpart : parts.lookup f.1 with
    | some part =>
      simp only [bind_eq_ok, ih, Except.ok.injEq, Option.isSome_some, Option.getD_some]
      grind
    | none =>
      cases f.2 with
      | true =>
        simp only [if_true, bind_eq_ok, ih, Except.ok.injEq, Option.getD_none]
        grind
      | false => simp

theorem arrange_error {slots : List (String × Bool)} (h : arrange parts slots = .error cause) :
    cause = .wrongFields := by
  induction slots with
  | nil => cases h
  | cons f slots ih =>
    rw [arrange] at h
    split at h
    · obtain h | ⟨_, _, h⟩ := bind_eq_error.mp h
      · exact ih h
      · cases h
    · split at h
      · obtain h | ⟨_, _, h⟩ := bind_eq_error.mp h
        · exact ih h
        · cases h
      · cases h
        rfl

def nodeOf (kind : NodeKind) (parts : List (String × Tree)) : Tree :=
  .node kind ((parts.lookup "line").getD (.int 0)) ((parts.lookup "column").getD (.int 0))
    (kind.fields.map fun f => (parts.lookup f.1).getD .null)

theorem required_iff {name : String} :
    (name, none) ∈ kind.slots ↔ (name, false) ∈ kind.fields := by
  simp only [NodeKind.slots, List.mem_cons, List.mem_map, Prod.mk.injEq]
  constructor
  · rintro (⟨_, h⟩ | ⟨_, h⟩ | ⟨f, hf, rfl, h⟩)
    · cases h
    · cases h
    · cases hopt : f.2 with
      | true => simp [hopt] at h
      | false => rwa [← hopt]
  · intro h
    exact .inr (.inr ⟨_, h, rfl, rfl⟩)

theorem ne_type_of_mem {name : String} (h : name ∈ kind.slots.map Prod.fst) : name ≠ "type" := by
  rintro rfl
  exact (List.nodup_cons.mp kind.nodup_slots).1 h

theorem mem_slots_of_mem {f : String × Bool} (h : f ∈ kind.fields) :
    f.1 ∈ kind.slots.map Prod.fst := by
  rw [NodeKind.slots_names]
  exact List.mem_cons_of_mem _ (List.mem_cons_of_mem _ (List.mem_map_of_mem h))

theorem fits_iff (h : ofFields fields = .ok parts) :
    Fits kind fields ↔ (∀ p ∈ parts, isField kind p.1 = true) ∧
      ∀ f ∈ kind.fields, f.2 = false → (parts.lookup f.1).isSome := by
  have hkeys : ∀ name, name ∈ parts.map Prod.fst ↔ name ∈ fields.map Prod.fst ∧ name ≠ "type" := by
    intro name
    rw [ofFields_keys h]
    simp
  have hfound : ∀ name, (parts.lookup name).isSome = true ↔ name ∈ parts.map Prod.fst := by simp
  constructor
  · rintro ⟨hknown, hrequired⟩
    refine ⟨fun p hp => ?_, fun f hf hneeded => ?_⟩
    · obtain ⟨hmem, hne⟩ := (hkeys p.1).mp (List.mem_map_of_mem hp)
      obtain ⟨v, hv⟩ := Json.exists_of_mem_keys hmem
      exact isField_iff.mpr ((hknown _ hv).resolve_left hne)
    · rw [hfound, hkeys]
      refine ⟨hrequired f.1 (required_iff.mpr ?_), ne_type_of_mem (mem_slots_of_mem hf)⟩
      rwa [← hneeded]
  · rintro ⟨hknown, hrequired⟩
    refine ⟨fun f hf => ?_, fun name hname => ?_⟩
    · by_cases hne : f.1 = "type"
      · exact .inl hne
      · obtain ⟨p, hp, heq⟩ := List.mem_map.mp ((hkeys f.1).mpr ⟨List.mem_map_of_mem hf, hne⟩)
        exact .inr (heq ▸ isField_iff.mp (hknown p hp))
    · have hneeded := hrequired _ (required_iff.mp hname) rfl
      rw [hfound, hkeys] at hneeded
      exact hneeded.1

theorem assemble_eq_ok (h : ofFields fields = .ok parts) :
    assemble kind parts = .ok t ↔ Fits kind fields ∧ t = nodeOf kind parts := by
  rw [fits_iff h, assemble]
  split
  · next hall =>
    have hknown : ∀ p ∈ parts, isField kind p.1 = true := List.all_eq_true.mp hall
    simp only [bind_eq_ok, arrange_eq_ok, Except.ok.injEq, nodeOf]
    constructor
    · rintro ⟨ts, ⟨hneeded, rfl⟩, rfl⟩
      exact ⟨⟨hknown, hneeded⟩, rfl⟩
    · rintro ⟨⟨_, hneeded⟩, rfl⟩
      exact ⟨_, ⟨hneeded, rfl⟩, rfl⟩
  · next hall =>
    constructor
    · intro herror
      cases herror
    · rintro ⟨⟨hknown, _⟩, _⟩
      exact absurd (List.all_eq_true.mpr hknown) hall

theorem assemble_error (h : assemble kind parts = .error cause) : cause = .wrongFields := by
  rw [assemble] at h
  split at h
  · obtain h | ⟨_, _, h⟩ := bind_eq_error.mp h
    · exact arrange_error h
    · cases h
  · cases h
    rfl

/-- An object is read as the node that it names, if it fits the node. -/
theorem ofJson_object_eq_ok : ofJson (.object fields) = .ok t ↔
    ∃ kind parts, field? "type" fields = some (.text kind.name) ∧ ofFields fields = .ok parts ∧
      Fits kind fields ∧ t = nodeOf kind parts := by
  rw [ofJson]
  constructor
  · intro h
    obtain ⟨kind, hkind, h⟩ := bind_eq_ok.mp h
    obtain ⟨parts, hparts, h⟩ := bind_eq_ok.mp h
    exact ⟨kind, parts, kindOf_eq_ok.mp hkind, hparts, (assemble_eq_ok hparts).mp h⟩
  · rintro ⟨kind, parts, hkind, hparts, h⟩
    refine bind_eq_ok.mpr ⟨kind, kindOf_eq_ok.mpr hkind, bind_eq_ok.mpr ⟨parts, hparts, ?_⟩⟩
    exact (assemble_eq_ok hparts).mpr h

theorem ofJson_object_error (h : ofJson (.object fields) = .error cause) :
    Flawed fields cause ∨ ∃ f ∈ fields, f.1 ≠ "type" ∧ ofJson f.2 = .error cause := by
  rw [ofJson] at h
  obtain h | ⟨kind, hkind, h⟩ := bind_eq_error.mp h
  · exact .inl (kindOf_error h)
  · obtain h | ⟨parts, hparts, h⟩ := bind_eq_error.mp h
    · exact .inr (ofFields_error h)
    · obtain rfl := assemble_error h
      refine .inl ⟨kind, kindOf_eq_ok.mp hkind, fun hfits => ?_⟩
      cases h.symm.trans ((assemble_eq_ok hparts).mpr ⟨hfits, rfl⟩)

end Node

section Decoding

variable {o o' : Json} {t : Tree} {cause : DecodeFault} {fields : List (String × Json)}

theorem isNode_of_holds (h : o.Holds fields) (ht : ofJson o = .ok t) : Json.IsNode fields := by
  induction h generalizing t with
  | here fields =>
    obtain ⟨kind, parts, hkind, _, hfits, _⟩ := ofJson_object_eq_ok.mp ht
    exact ⟨kind, hkind, hfits⟩
  | item hj _ ih =>
    rw [ofJson] at ht
    obtain ⟨ts, hts, _⟩ := bind_eq_ok.mp ht
    obtain ⟨u, hu⟩ := ofItems_item hts hj
    exact ih hu
  | @field fields inner f hf hname _ ih =>
    obtain ⟨kind, parts, _, hparts, _⟩ := ofJson_object_eq_ok.mp ht
    obtain ⟨u, hu⟩ := exists_ofFields_iff.mp ⟨parts, hparts⟩ f hf hname
    exact ih hu

theorem exists_flawed (ho : o.Proper) (h : ofJson o = .error cause) :
    ∃ fields, o.Holds fields ∧ Flawed fields cause := by
  induction ho generalizing cause with
  | null | bool | int | float | text => cases h
  | list _ ih =>
    rw [ofJson] at h
    obtain h | ⟨_, _, h⟩ := bind_eq_error.mp h
    · obtain ⟨j, hj, he⟩ := ofItems_error h
      obtain ⟨fields, hfields, hflawed⟩ := ih j hj he
      exact ⟨fields, .item hj hfields, hflawed⟩
    · cases h
  | @object fields _ _ ih =>
    obtain h | ⟨f, hf, hname, he⟩ := ofJson_object_error h
    · exact ⟨fields, .here fields, h⟩
    · obtain ⟨inner, hinner, hflawed⟩ := ih f hf he
      exact ⟨inner, .field hf hname hinner, hflawed⟩

theorem not_isNode_of_flawed (h : Flawed fields cause) : ¬ Json.IsNode fields := by
  rintro ⟨kind, hkind, hfits⟩
  cases cause with
  | unknownKind shown => exact h kind hkind
  | compoundKind =>
    obtain ⟨_, h⟩ | ⟨_, h⟩ := h <;> cases h.symm.trans hkind
  | wrongFields =>
    obtain ⟨other, hother, hnot⟩ := h
    have hname : other.name = kind.name := by
      have heq := Option.some.inj (hother.symm.trans hkind)
      exact Json.text.inj heq
    exact hnot (NodeKind.name_injective hname ▸ hfits)

theorem decodes_iff (ho : o.Proper) :
    (∃ t, ofJson o = .ok t) ↔ ∀ fields, o.Holds fields → Json.IsNode fields := by
  constructor
  · rintro ⟨t, ht⟩ fields hfields
    exact isNode_of_holds hfields ht
  · intro h
    cases ht : ofJson o with
    | ok t => exact ⟨t, rfl⟩
    | error cause =>
      obtain ⟨fields, hfields, hflawed⟩ := exists_flawed ho ht
      exact absurd (h fields hfields) (not_isNode_of_flawed hflawed)

theorem lookup_eq_some {parts : List (String × Tree)} (h : ofFields fields = .ok parts)
    {name : String} (hname : name ≠ "type") (ht : parts.lookup name = some t) :
    ∃ v, (name, v) ∈ fields ∧ ofJson v = .ok t := by
  have hrel := ofFields_lookup h hname
  rw [ht] at hrel
  cases hv : field? name fields <;> rw [hv] at hrel <;> cases hrel
  exact ⟨_, Json.mem_of_field? hv, ‹_›⟩

theorem lookup_eq_none {parts : List (String × Tree)} (h : ofFields fields = .ok parts)
    {name : String} (hname : name ∉ fields.map Prod.fst) : parts.lookup name = none := by
  rw [List.lookup_eq_none_iff]
  intro p hp
  have hkey := List.mem_map_of_mem (f := Prod.fst) hp
  rw [ofFields_keys h] at hkey
  refine bne_iff_ne.mpr ?_
  rintro rfl
  exact hname (List.mem_of_mem_filter hkey)

theorem lookup_of_mem_fields {parts : List (String × Tree)} (hnodup : (fields.map Prod.fst).Nodup)
    (h : ofFields fields = .ok parts) {name : String} (hname : name ≠ "type") {v : Json}
    (hv : (name, v) ∈ fields) (ht : ofJson v = .ok t) : parts.lookup name = some t := by
  have hrel := ofFields_lookup h hname
  rw [Json.field?_of_mem hnodup hv] at hrel
  cases hlookup : parts.lookup name <;> rw [hlookup] at hrel <;> cases hrel
  next hread => rw [Except.ok.inj (hread.symm.trans ht)]

theorem whole_of_ofJson (ho : o.Proper) (h : ofJson o = .ok t) : t.Whole := by
  induction ho generalizing t with
  | null =>
    cases h
    exact .null
  | bool b =>
    cases h
    exact .bool b
  | int n =>
    cases h
    exact .int n
  | float x =>
    cases h
    exact .float x
  | text s =>
    cases h
    exact .text s
  | list _ ih =>
    rw [ofJson] at h
    obtain ⟨ts, hts, h⟩ := bind_eq_ok.mp h
    cases h
    refine .list fun u hu => ?_
    obtain ⟨j, hj, hread⟩ := ofItems_tree hts hu
    exact ih j hj hread
  | @object fields _ _ ih =>
    obtain ⟨kind, parts, _, hparts, _, rfl⟩ := ofJson_object_eq_ok.mp h
    have hpart : ∀ name default, name ∈ kind.slots.map Prod.fst → default.Whole →
        ((parts.lookup name).getD default).Whole := by
      intro name default hname hdefault
      cases hlookup : parts.lookup name with
      | none => exact hdefault
      | some u =>
        obtain ⟨v, hv, hu⟩ := lookup_eq_some hparts (ne_type_of_mem hname) hlookup
        exact ih _ hv hu
    refine .node (by simp) (hpart _ _ ?_ (.int 0)) (hpart _ _ ?_ (.int 0)) ?_
    · simp [NodeKind.slots]
    · simp [NodeKind.slots]
    · intro u hu
      obtain ⟨f, hf, rfl⟩ := List.mem_map.mp hu
      exact hpart _ _ (mem_slots_of_mem hf) .null

end Decoding

end Tree

end Guion
