import Guion.Proofs.Tree.Decoding
import Mathlib.Data.List.Zip

namespace Guion

namespace Json

/-- The same data but for the order of keys. -/
inductive Alike : Json → Json → Prop where
  | null : Alike .null .null
  | bool (b : Bool) : Alike (.bool b) (.bool b)
  | int (n : Int) : Alike (.int n) (.int n)
  | float (x : Float) : Alike (.float x) (.float x)
  | text (s : String) : Alike (.text s) (.text s)
  | list {items items' : List Json} : items.length = items'.length →
    (∀ p ∈ items.zip items', Alike p.1 p.2) → Alike (.list items) (.list items')
  | object {fields fields' : List (String × Json)} :
    (fields.map Prod.fst).Perm (fields'.map Prod.fst) →
    (∀ name v v', (name, v) ∈ fields → (name, v') ∈ fields' → Alike v v') →
      Alike (.object fields) (.object fields')

def missing (fields : List (String × Json)) : List (String × Json) :=
  match field? "type" fields with
  | some (.text name) =>
    match NodeKind.ofName? name with
    | some kind => kind.slots.filterMap fun s =>
        if s.1 ∈ fields.map Prod.fst then none else s.2.map (s.1, ·)
    | none => []
  | _ => []

mutual

/-- The data with each field that may be left out filled in. -/
def filled : Json → Json
  | .list items => .list (filledItems items)
  | .object fields => .object (filledFields fields ++ missing fields)
  | j => j

def filledItems : List Json → List Json
  | [] => []
  | j :: items => j.filled :: filledItems items

def filledFields : List (String × Json) → List (String × Json)
  | [] => []
  | (name, j) :: fields => (name, j.filled) :: filledFields fields

end

theorem filledItems_eq (items : List Json) : filledItems items = items.map filled := by
  induction items with
  | nil => rfl
  | cons j items ih => rw [filledItems, ih, List.map_cons]

theorem filledFields_eq (fields : List (String × Json)) :
    filledFields fields = fields.map fun f => (f.1, f.2.filled) := by
  induction fields with
  | nil => rfl
  | cons f fields ih => rw [filledFields, ih, List.map_cons]

end Json

namespace Tree

open Json (field? Fits Flawed)

section Decoding

variable {o o' : Json} {t : Tree} {fields : List (String × Json)}

theorem nodeOf_congr {kind : NodeKind} {parts parts' : List (String × Tree)}
    (h : ∀ name ∈ kind.slots.map Prod.fst, parts'.lookup name = parts.lookup name) :
    nodeOf kind parts' = nodeOf kind parts := by
  have hline := h "line" (by simp [NodeKind.slots])
  have hcolumn := h "column" (by simp [NodeKind.slots])
  simp only [nodeOf, hline, hcolumn]
  congr 1
  refine List.map_congr_left fun f hf => ?_
  rw [h f.1 (mem_slots_of_mem hf)]

theorem ofItems_alike {items items' : List Json} {ts : List Tree}
    (hlength : items.length = items'.length)
    (hread : ∀ p ∈ items.zip items', ∀ u, ofJson p.1 = .ok u → ofJson p.2 = .ok u)
    (h : ofItems items = .ok ts) : ofItems items' = .ok ts := by
  obtain ⟨hsame, hitems⟩ := List.forall₂_iff_get.mp (ofItems_eq_ok.mp h)
  refine ofItems_eq_ok.mpr (List.forall₂_iff_get.mpr ⟨hlength.symm.trans hsame, ?_⟩)
  intro i hi' hts
  have hi : i < items.length := by omega
  have hzip : i < (items.zip items').length := by
    simp only [List.length_zip]
    omega
  have hpair : (items[i], items'[i]) ∈ items.zip items' := by
    rw [← List.getElem_zip (h := hzip)]
    exact List.getElem_mem hzip
  exact hread _ hpair _ (hitems i hi hts)

theorem ofJson_object_alike {fields' : List (String × Json)} (hnodup : (fields.map Prod.fst).Nodup)
    (hnodup' : (fields'.map Prod.fst).Nodup)
    (hkeys : (fields.map Prod.fst).Perm (fields'.map Prod.fst))
    (halike : ∀ name v v', (name, v) ∈ fields → (name, v') ∈ fields' → v.Alike v')
    (hread : ∀ name v v' u, (name, v) ∈ fields → (name, v') ∈ fields' → ofJson v = .ok u →
      ofJson v' = .ok u)
    (ht : ofJson (.object fields) = .ok t) : ofJson (.object fields') = .ok t := by
  obtain ⟨kind, parts, hkind, hparts, hfits, rfl⟩ := ofJson_object_eq_ok.mp ht
  have hmem : ∀ name, name ∈ fields'.map Prod.fst ↔ name ∈ fields.map Prod.fst :=
    fun name => hkeys.mem_iff.symm
  obtain ⟨parts', hparts'⟩ : ∃ parts', ofFields fields' = .ok parts' := by
    refine exists_ofFields_iff.mpr fun f hf hname => ?_
    obtain ⟨v, hv⟩ := Json.exists_of_mem_keys ((hmem f.1).mp (List.mem_map_of_mem hf))
    obtain ⟨u, hu⟩ := exists_ofFields_iff.mp ⟨parts, hparts⟩ _ hv hname
    exact ⟨u, hread _ _ _ _ hv hf hu⟩
  have hkind' : field? "type" fields' = some (.text kind.name) := by
    have htype := Json.mem_of_field? hkind
    obtain ⟨v', hv'⟩ := Json.exists_of_mem_keys ((hmem "type").mpr (List.mem_map_of_mem htype))
    cases halike _ _ _ htype hv'
    exact Json.field?_of_mem hnodup' hv'
  have hlookup : ∀ name ∈ kind.slots.map Prod.fst, parts'.lookup name = parts.lookup name := by
    intro name hslot
    have hname := ne_type_of_mem hslot
    by_cases hin : name ∈ fields.map Prod.fst
    · obtain ⟨v, hv⟩ := Json.exists_of_mem_keys hin
      obtain ⟨v', hv'⟩ := Json.exists_of_mem_keys ((hmem name).mpr hin)
      obtain ⟨u, hu⟩ := exists_ofFields_iff.mp ⟨parts, hparts⟩ _ hv hname
      rw [lookup_of_mem_fields hnodup hparts hname hv hu,
        lookup_of_mem_fields hnodup' hparts' hname hv' (hread _ _ _ _ hv hv' hu)]
    · rw [lookup_eq_none hparts hin, lookup_eq_none hparts' (by rwa [hmem])]
  have hfits' : Fits kind fields' := by
    refine ⟨fun f hf => ?_, fun name hname => (hmem name).mpr (hfits.required name hname)⟩
    obtain ⟨v, hv⟩ := Json.exists_of_mem_keys ((hmem f.1).mp (List.mem_map_of_mem hf))
    exact hfits.known (f.1, v) hv
  exact ofJson_object_eq_ok.mpr
    ⟨kind, parts', hkind', hparts', hfits', (nodeOf_congr hlookup).symm⟩

theorem ofJson_alike (h : o.Alike o') (ho : o.Proper) (ho' : o'.Proper) (ht : ofJson o = .ok t) :
    ofJson o' = .ok t := by
  induction h generalizing t with
  | null | bool | int | float | text => exact ht
  | list hlength _ ih =>
    cases ho with | list hproper =>
    cases ho' with | list hproper' =>
    rw [ofJson] at ht ⊢
    obtain ⟨ts, hts, ht⟩ := bind_eq_ok.mp ht
    refine bind_eq_ok.mpr ⟨ts, ofItems_alike hlength (fun p hp u hu => ?_) hts, ht⟩
    obtain ⟨hleft, hright⟩ := List.of_mem_zip hp
    exact ih p hp (hproper _ hleft) (hproper' _ hright) hu
  | object hkeys halike ih =>
    cases ho with | object hnodup hproper =>
    cases ho' with | object hnodup' hproper' =>
    refine ofJson_object_alike hnodup hnodup' hkeys halike ?_ ht
    intro name v v' u hv hv' hu
    exact ih name v v' hv hv' (hproper _ hv) (hproper' _ hv') hu

theorem toJson_nodeOf (kind : NodeKind) (parts : List (String × Tree)) :
    (nodeOf kind parts).toJson = .object (("type", .text kind.name) ::
      kind.slots.map fun s => (s.1, ((parts.lookup s.1).map toJson).getD (s.2.getD .null))) := by
  have hdefault : ∀ (name : String) (default : Tree) (optional : Option Json),
      optional.getD .null = default.toJson →
      ((parts.lookup name).getD default).toJson =
        ((parts.lookup name).map toJson).getD (optional.getD .null) := by
    intro name default optional h
    cases parts.lookup name with
    | none => exact h.symm
    | some u => rfl
  rw [nodeOf, toJson, toItems_eq, List.map_map, List.zip_map', NodeKind.slots, List.map_cons,
    List.map_cons, List.map_map, hdefault "line" _ (some (.int 0)) rfl,
    hdefault "column" _ (some (.int 0)) rfl]
  congr 4
  refine List.map_congr_left fun f hf => ?_
  obtain ⟨name, optional⟩ := f
  refine Prod.ext rfl (hdefault name .null _ ?_)
  cases optional <;> rfl

theorem mem_missing {kind : NodeKind} (hkind : field? "type" fields = some (.text kind.name))
    {name : String} {v : Json} : (name, v) ∈ Json.missing fields ↔
      (name, some v) ∈ kind.slots ∧ name ∉ fields.map Prod.fst := by
  simp only [Json.missing, hkind, kind.ofName?_name, List.mem_filterMap]
  constructor
  · rintro ⟨s, hs, h⟩
    split at h
    · cases h
    · next hnot =>
      obtain ⟨w, hw, heq⟩ := Option.map_eq_some_iff.mp h
      cases heq
      exact ⟨hw ▸ hs, hnot⟩
  · rintro ⟨hs, hnot⟩
    exact ⟨_, hs, by simp [hnot]⟩

theorem nodup_missing {kind : NodeKind} (hkind : field? "type" fields = some (.text kind.name)) :
    ((Json.missing fields).map Prod.fst).Nodup := by
  have hslots := (List.nodup_cons.mp kind.nodup_slots).2
  have hsub : ((Json.missing fields).map Prod.fst).Sublist (kind.slots.map Prod.fst) := by
    simp only [Json.missing, hkind, kind.ofName?_name]
    generalize kind.slots = slots
    induction slots with
    | nil => exact .slnil
    | cons s slots ih =>
      rw [List.filterMap_cons, List.map_cons]
      split
      · exact ih.cons _
      · next h =>
        split at h
        · cases h
        · obtain ⟨w, _, rfl⟩ := Option.map_eq_some_iff.mp h
          exact ih.cons_cons _
  exact hslots.sublist hsub

theorem slot_unique {kind : NodeKind} {s s' : String × Option Json} (hs : s ∈ kind.slots)
    (hs' : s' ∈ kind.slots) (h : s.1 = s'.1) : s = s' :=
  List.inj_on_of_nodup_map (List.nodup_cons.mp kind.nodup_slots).2 hs hs' h

theorem slot_default {kind : NodeKind} {name : String} {v : Json}
    (h : (name, some v) ∈ kind.slots) : v.Alike v := by
  simp only [NodeKind.slots, List.mem_cons, List.mem_map, Prod.mk.injEq, Option.some.injEq] at h
  obtain ⟨_, rfl⟩ | ⟨_, rfl⟩ | ⟨f, _, _, h⟩ := h
  · exact .int 0
  · exact .int 0
  · split at h
    · cases h
      exact .null
    · cases h

section Filled

variable {kind : NodeKind} {parts : List (String × Tree)}

theorem filled_keys (hnodup : (fields.map Prod.fst).Nodup)
    (hkind : field? "type" fields = some (.text kind.name)) (hfits : Fits kind fields) :
    ("type" :: kind.slots.map Prod.fst).Perm
      (fields.map Prod.fst ++ (Json.missing fields).map Prod.fst) := by
  refine (List.perm_ext_iff_of_nodup kind.nodup_slots ?_).mpr fun name => ?_
  · refine List.nodup_append.mpr ⟨hnodup, nodup_missing hkind, ?_⟩
    rintro name hname _ hother rfl
    obtain ⟨v, hv⟩ := Json.exists_of_mem_keys hother
    exact ((mem_missing hkind).mp hv).2 hname
  · rw [List.mem_cons, List.mem_append]
    constructor
    · rintro (rfl | hname)
      · exact .inl (List.mem_map_of_mem (Json.mem_of_field? hkind))
      · by_cases hin : name ∈ fields.map Prod.fst
        · exact .inl hin
        · obtain ⟨⟨_, default⟩, hslot, rfl⟩ := List.mem_map.mp hname
          cases default with
          | none => exact absurd (hfits.required _ hslot) hin
          | some v =>
            have hmissing := (mem_missing hkind).mpr ⟨hslot, hin⟩
            exact .inr (List.mem_map_of_mem hmissing)
    · rintro (hname | hname)
      · obtain ⟨v, hv⟩ := Json.exists_of_mem_keys hname
        exact hfits.known _ hv
      · obtain ⟨v, hv⟩ := Json.exists_of_mem_keys hname
        exact .inr (List.mem_map_of_mem ((mem_missing hkind).mp hv).1)

theorem toJson_nodeOf_alike (hnodup : (fields.map Prod.fst).Nodup)
    (hkind : field? "type" fields = some (.text kind.name))
    (hparts : ofFields fields = .ok parts) (hfits : Fits kind fields)
    (halike : ∀ f ∈ fields, ∀ u, ofJson f.2 = .ok u → u.toJson.Alike f.2.filled) :
    (nodeOf kind parts).toJson.Alike (Json.filled (.object fields)) := by
  rw [toJson_nodeOf, Json.filled, Json.filledFields_eq]
  refine .object ?_ ?_
  · simpa [Function.comp_def] using filled_keys hnodup hkind hfits
  · intro name v v' hv hv'
    obtain hfound | hmissing := List.mem_append.mp hv'
    · obtain ⟨f, hf, heq⟩ := List.mem_map.mp hfound
      cases heq
      obtain heq | hslot := List.mem_cons.mp hv
      · obtain ⟨hname, rfl⟩ := Prod.mk.inj heq
        have htype : ("type", f.2) ∈ fields := hname ▸ hf
        have hfield := (Json.field?_of_mem hnodup htype).symm.trans hkind
        rw [Option.some.inj hfield]
        exact .text _
      · obtain ⟨s, hs, heq⟩ := List.mem_map.mp hslot
        obtain ⟨hname, rfl⟩ := Prod.mk.inj heq
        have hne : f.1 ≠ "type" := hname ▸ ne_type_of_mem (List.mem_map_of_mem hs)
        obtain ⟨u, hu⟩ := exists_ofFields_iff.mp ⟨parts, hparts⟩ f hf hne
        rw [hname, lookup_of_mem_fields hnodup hparts hne hf hu]
        exact halike f hf u hu
    · obtain ⟨hdefault, hnot⟩ := (mem_missing hkind).mp hmissing
      obtain heq | hslot := List.mem_cons.mp hv
      · obtain ⟨rfl, _⟩ := Prod.mk.inj heq
        exact absurd rfl (ne_type_of_mem (List.mem_map_of_mem hdefault))
      · obtain ⟨s, hs, heq⟩ := List.mem_map.mp hslot
        obtain ⟨rfl, rfl⟩ := Prod.mk.inj heq
        have hsame : s.2 = some v' := congrArg Prod.snd (slot_unique hs hdefault rfl)
        rw [lookup_eq_none hparts hnot, hsame]
        exact slot_default hdefault

end Filled

/-- What is read and written again is the same data with what was left out filled in. -/
theorem toJson_alike (ho : o.Proper) (h : ofJson o = .ok t) : t.toJson.Alike o.filled := by
  induction ho generalizing t with
  | null =>
    cases h
    exact .null
  | bool b =>
    cases h
    exact .bool b
  | int n =>
    cases h
    exact .int n
  | float x =>
    cases h
    exact .float x
  | text s =>
    cases h
    exact .text s
  | @list items _ ih =>
    rw [ofJson] at h
    obtain ⟨ts, hts, h⟩ := bind_eq_ok.mp h
    cases h
    obtain ⟨hlength, hread⟩ := List.forall₂_iff_zip.mp (ofItems_eq_ok.mp hts)
    rw [toJson, toItems_eq, Json.filled, Json.filledItems_eq]
    refine .list (by simp [hlength]) fun p hp => ?_
    rw [List.zip_map] at hp
    obtain ⟨⟨u, j⟩, hpair, rfl⟩ := List.mem_map.mp hp
    have hpair' : (j, u) ∈ items.zip ts := by
      rw [← List.zip_swap]
      exact List.mem_map.mpr ⟨_, hpair, rfl⟩
    exact ih j (List.of_mem_zip hpair).2 (hread hpair')
  | object hnodup _ ih =>
    obtain ⟨kind, parts, hkind, hparts, hfits, rfl⟩ := ofJson_object_eq_ok.mp h
    exact toJson_nodeOf_alike hnodup hkind hparts hfits fun f hf u hu => ih f hf hu

end Decoding

/-- Decoding accepts the data of nodes and gives it its normal form. Data whose objects have each
key once is read exactly where every object in it, through lists and fields other than `type`, names
a kind of node, has only fields of that kind and lacks none that must be there; otherwise an object
is wrong in the way that the failure says. What is read does not depend on the order of keys, is
written as the same data with the fields filled in that were left out, and is then read again as it
is. And every tree is read, positions included, out of the data that it is written as. -/
theorem decoding_normalises {o : Json} (ho : o.Proper) :
    ((∃ t, ofJson o = .ok t) ↔ ∀ fields, o.Holds fields → Json.IsNode fields) ∧
      (∀ cause, ofJson o = .error cause → ∃ fields, o.Holds fields ∧ Flawed fields cause) ∧
      (∀ t, ofJson o = .ok t →
        (∀ o', o'.Proper → o.Alike o' → ofJson o' = .ok t) ∧ t.toJson.Alike o.filled ∧
          ofJson t.toJson = .ok t) ∧
      ∀ n : Tree, n.Whole → ofJson n.toJson = .ok n := by
  refine ⟨decodes_iff ho, fun cause => exists_flawed ho, fun t ht => ⟨?_, ?_, ?_⟩, ?_⟩
  · intro o' ho' halike
    exact ofJson_alike halike ho ho' ht
  · exact toJson_alike ho ht
  · exact (whole_of_ofJson ho ht).ofJson_toJson
  · intro n hn
    exact hn.ofJson_toJson

/-- A `retornar` without value and column, its kind after its line. -/
theorem decoding_normalises_returns :
    (Json.object [("line", .int 3), ("type", .text "ReturnStmt")]).Proper ∧
      ofJson (.object [("line", .int 3), ("type", .text "ReturnStmt")]) =
        .ok (.node .returnStmt (.int 3) (.int 0) [.null]) ∧
      (toJson (.node .returnStmt (.int 3) (.int 0) [.null])).Alike (.object [("line", .int 3),
        ("type", .text "ReturnStmt"), ("column", .int 0), ("value", .null)]) ∧
      ofJson (toJson (.node .returnStmt (.int 3) (.int 0) [.null])) =
        .ok (.node .returnStmt (.int 3) (.int 0) [.null]) := by
  have ho : (Json.object [("line", .int 3), ("type", .text "ReturnStmt")]).Proper := by
    refine .object (by decide) ?_
    simp only [List.forall_mem_cons]
    exact ⟨.int 3, .text _, nofun⟩
  have ht : ofJson (.object [("line", .int 3), ("type", .text "ReturnStmt")]) =
      .ok (.node .returnStmt (.int 3) (.int 0) [.null]) := by rfl
  obtain ⟨_, halike, hagain⟩ := (decoding_normalises ho).2.2.1 _ ht
  exact ⟨ho, ht, halike, hagain⟩

end Tree

end Guion
