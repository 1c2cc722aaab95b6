import Guion.Proofs.Json.Legible
import Guion.Tree.Codec

namespace Guion

open Double (digitLimit ReadsBack)

theorem NodeKind.ofName?_name (kind : NodeKind) : ofName? kind.name = some kind := by
  cases kind <;> decide

theorem NodeKind.nodup_names (kind : NodeKind) :
    ("type" :: "line" :: "column" :: kind.fields.map Prod.fst).Nodup := by
  cases kind <;> decide

namespace Tree

theorem isField_of_mem {kind : NodeKind} {name : String} (h : name ∈ kind.fields.map Prod.fst) :
    isField kind name = true := by
  have hall : ∀ name ∈ kind.fields.map Prod.fst, isField kind name = true := by
    cases kind <;> decide
  exact hall name h

/-- Trees whose nodes have all their fields. -/
inductive Whole : Tree → Prop where
  | null : Whole .null
  | bool (b : Bool) : Whole (.bool b)
  | int (n : Int) : Whole (.int n)
  | float (x : Float) : Whole (.float x)
  | text (s : String) : Whole (.text s)
  | list {ts : List Tree} : (∀ t ∈ ts, Whole t) → Whole (.list ts)
  | node {kind : NodeKind} {line column : Tree} {ts : List Tree} :
    ts.length = kind.fields.length → Whole line → Whole column → (∀ t ∈ ts, Whole t) →
      Whole (.node kind line column ts)

/-- Trees that are read as they are stored: integers have no more digits than are read, doubles are
read back, and nodes have all their fields. -/
inductive Durable : Tree → Prop where
  | null : Durable .null
  | bool (b : Bool) : Durable (.bool b)
  | int {n : Int} : (Nat.toDigits 10 n.natAbs).length ≤ digitLimit → Durable (.int n)
  | float {x : Float} : ReadsBack x → Durable (.float x)
  | text (s : String) : Durable (.text s)
  | list {ts : List Tree} : (∀ t ∈ ts, Durable t) → Durable (.list ts)
  | node {kind : NodeKind} {line column : Tree} {ts : List Tree} :
    ts.length = kind.fields.length → Durable line → Durable column → (∀ t ∈ ts, Durable t) →
      Durable (.node kind line column ts)

theorem Durable.whole {t : Tree} (h : t.Durable) : t.Whole := by
  induction h with
  | null => exact .null
  | bool b => exact .bool b
  | int => exact .int _
  | float => exact .float _
  | text s => exact .text s
  | list _ ih => exact .list ih
  | node hlength _ _ _ ihl ihc ih => exact .node hlength ihl ihc ih

theorem toItems_eq (ts : List Tree) : toItems ts = ts.map toJson := by
  induction ts with
  | nil => rfl
  | cons t ts ih => rw [toItems, ih, List.map_cons]

theorem Durable.legible {t : Tree} (h : t.Durable) : t.toJson.Legible := by
  induction h with
  | null => exact .null
  | bool b => exact .bool b
  | int hn => exact .int hn
  | float hx => exact .float hx
  | text s => exact .text s
  | list _ ih =>
    rw [toJson, toItems_eq]
    exact .list (List.forall_mem_map.mpr ih)
  | @node kind line column ts hlength _ _ _ ihl ihc ih =>
    rw [toJson, toItems_eq]
    apply Json.Legible.object
    · have hnames : ((kind.fields.map Prod.fst).zip (ts.map toJson)).map Prod.fst =
          kind.fields.map Prod.fst := List.map_fst_zip (by simp [hlength])
      simpa only [List.map_cons, hnames] using kind.nodup_names
    · simp only [List.forall_mem_cons]
      refine ⟨.text _, ihl, ihc, fun f hf => ?_⟩
      obtain ⟨t, ht, hv⟩ := List.mem_map.mp (List.of_mem_zip hf).2
      rw [← hv]
      exact ih t ht

theorem ofItems_toItems {ts : List Tree} (h : ∀ t ∈ ts, ofJson t.toJson = .ok t) :
    ofItems (toItems ts) = .ok ts := by
  induction ts with
  | nil => rfl
  | cons t ts ih =>
    obtain ⟨ht, hts⟩ := List.forall_mem_cons.mp h
    rw [toItems, ofItems, ht, ih hts]
    rfl

theorem ofFields_zip {names : List String} {ts : List Tree} (hnames : "type" ∉ names)
    (h : ∀ t ∈ ts, ofJson t.toJson = .ok t) :
    ofFields (names.zip (toItems ts)) = .ok (names.zip ts) := by
  induction names generalizing ts with
  | nil => rfl
  | cons name names ih =>
    cases ts with
    | nil => rfl
    | cons t ts =>
      obtain ⟨ht, hts⟩ := List.forall_mem_cons.mp h
      simp only [List.mem_cons, not_or] at hnames
      simp only [toItems, List.zip_cons_cons]
      rw [ofFields, if_neg (Ne.symm hnames.1), ht, ih hnames.2 hts]
      rfl

theorem lookup_of_mem {parts : List (String × Tree)} (hnames : (parts.map Prod.fst).Nodup)
    {f : String × Tree} (h : f ∈ parts) : parts.lookup f.1 = some f.2 := by
  induction parts with
  | nil => cases h
  | cons g parts ih =>
    obtain ⟨hg, hrest⟩ := List.nodup_cons.mp hnames
    obtain rfl | h := List.mem_cons.mp h
    · exact List.lookup_cons_self
    · have hne : f.1 ≠ g.1 := by
        intro he
        apply hg
        exact List.mem_map.mpr ⟨f, h, he⟩
      rw [List.lookup_cons, beq_false_of_ne hne]
      exact ih hrest h

theorem arrange_eq {parts : List (String × Tree)} {fields : List (String × Bool)} {ts : List Tree}
    (hlength : ts.length = fields.length)
    (h : ∀ f ∈ (fields.map Prod.fst).zip ts, parts.lookup f.1 = some f.2) :
    arrange parts fields = .ok ts := by
  induction fields generalizing ts with
  | nil =>
    rw [List.length_eq_zero_iff.mp hlength]
    rfl
  | cons field fields ih =>
    cases ts with
    | nil => cases hlength
    | cons t ts =>
      simp only [List.map_cons, List.zip_cons_cons, List.forall_mem_cons] at h
      rw [arrange, h.1, ih (Nat.succ.inj hlength) h.2]
      rfl

theorem assemble_eq {kind : NodeKind} {line column : Tree} {ts : List Tree}
    (hlength : ts.length = kind.fields.length) :
    assemble kind (("line", line) :: ("column", column) :: (kind.fields.map Prod.fst).zip ts) =
      .ok (.node kind line column ts) := by
  have hzip : ((kind.fields.map Prod.fst).zip ts).map Prod.fst = kind.fields.map Prod.fst :=
    List.map_fst_zip (by simp [hlength])
  have hnames : ((("line", line) :: ("column", column) ::
      (kind.fields.map Prod.fst).zip ts).map Prod.fst).Nodup := by
    simpa only [List.map_cons, hzip] using (List.nodup_cons.mp kind.nodup_names).2
  have hknown : (("line", line) :: ("column", column) ::
      (kind.fields.map Prod.fst).zip ts).all (fun f => isField kind f.1) = true := by
    simp only [List.all_eq_true, List.forall_mem_cons]
    refine ⟨rfl, rfl, fun f hf => ?_⟩
    exact isField_of_mem (List.of_mem_zip hf).1
  have harrange := arrange_eq hlength fun f hf =>
    lookup_of_mem hnames (List.mem_cons_of_mem _ (List.mem_cons_of_mem _ hf))
  rw [assemble]
  split
  · rw [harrange]
    rfl
  · exact absurd hknown ‹_›

/-- A whole tree is read out of its data. -/
theorem Whole.ofJson_toJson {t : Tree} (h : t.Whole) : ofJson t.toJson = .ok t := by
  induction h with
  | null | bool | int | float | text => rfl
  | list _ ih =>
    rw [toJson, ofJson, ofItems_toItems ih]
    rfl
  | @node kind line column ts hlength _ _ _ ihl ihc ih =>
    have htype : "type" ∉ kind.fields.map Prod.fst := by
      have hnames := (List.nodup_cons.mp kind.nodup_names).1
      simp only [List.mem_cons, not_or] at hnames
      exact hnames.2.2
    have hkind (rest : List (String × Json)) :
        kindOf (("type", .text kind.name) :: rest) = .ok kind := by
      simp [kindOf, Json.field?, NodeKind.ofName?_name]
    have hfields : ofFields (("type", .text kind.name) :: ("line", line.toJson) ::
        ("column", column.toJson) :: (kind.fields.map Prod.fst).zip (toItems ts)) =
        .ok (("line", line) :: ("column", column) :: (kind.fields.map Prod.fst).zip ts) := by
      simp only [ofFields, ihl, ihc, ofFields_zip htype ih]
      rfl
    rw [toJson, ofJson, hkind, hfields]
    exact assemble_eq hlength

theorem Durable.ofJson_toJson {t : Tree} (h : t.Durable) : ofJson t.toJson = .ok t :=
  h.whole.ofJson_toJson

end Tree

end Guion
