/-
  Columns written as JSON and read again.

  Many documents describe one column, and one of them is its own. The kind of a column is
  written as its name, so it is read back unless the name means something else: the empty
  name no kind, and a known name the kind of that name.

  * `ValueKind.ofName_eq_other_iff`: which names make a kind beyond the known ones;
  * `Describes`, `ofJson?_eq_some_iff`: the documents of a column;
  * `ofJson?_toJson`, `ofJson?_toJson_iff`: what its own document is read as, and when it is
    the column;
  * `proper_of_describes`: it always is for a column that was read;
  * `read_back_iff`: so columns that were read, written and read again make the same
    composer.
-/
import Mathlib.Data.List.Forall2
import TableQuery.Column.OfJson
import TableQuery.Composer
import TableQuery.Proofs.Stages

namespace TableQuery

/-! ## Names of kinds -/

namespace ValueKind

/-- The names of the seven kinds that are known. -/
def knownNames : List String :=
  ["digit", "select", "date", "dateTime", "dateYear", "dateRange", "text"]

/-- A kind beyond the known ones has a name that is not theirs. -/
theorem ofName_eq_other_iff {name name' : String} :
    ofName name = .other name' ↔ name = name' ∧ name ∉ knownNames := by
  unfold ofName
  split
  case h_8 =>
    simp_all [knownNames]
  all_goals simp [knownNames]

end ValueKind

namespace Column

/-! ## Documents of a column -/

/-- What stands for the segments of a field. -/
inductive Field : Option Json → List String → Prop
  | missing : Field none []
  | null : Field (some .null) []
  | segment (s : String) : Field (some (.text s)) [s]
  | segments (ss : List String) : Field (some (.array (ss.map .text))) ss

/-- What stands for a kind, or for none. -/
inductive Declares : Option Json → Option ValueKind → Prop
  | missing : Declares none none
  | null : Declares (some .null) none
  | empty : Declares (some (.text "")) none
  | named {name : String} (h : name ≠ "") : Declares (some (.text name)) (some (.ofName name))

/-- A document describes a column: an object with the field under one of its two names, or
    an array of field and kind. -/
inductive Describes : Json → Column → Prop
  | object {ms : Members Json} {c : Column}
      (hone : ms.get? "dataIndex" = none ∨ ms.get? "fieldPath" = none)
      (hfield : Field ((ms.get? "dataIndex").or (ms.get? "fieldPath")) c.segments)
      (hkind : Declares (ms.get? "valueType") c.kind) : Describes (.object ms) c
  | array {items : List Json} {c : Column} (hlength : items.length ≤ 2)
      (hfield : Field items[0]? c.segments) (hkind : Declares items[1]? c.kind) :
      Describes (.array items) c

variable {c : Column} {v : Json} {field kind : Option Json}

theorem text?_eq_some_iff {s : String} : v.text? = some s ↔ v = .text s := by
  cases v <;> simp [Json.text?]

theorem mapM_text?_eq_some_iff {items : List Json} {ss : List String} :
    items.mapM Json.text? = some ss ↔ items = ss.map .text := by
  rw [mapM_eq_some_iff, ← List.forall₂_eq_eq_eq, List.forall₂_map_left_iff,
    List.forall₂_map_right_iff, ← List.forall₂_eq_eq_eq, List.forall₂_map_right_iff]
  simp only [text?_eq_some_iff]

theorem segments?_eq_some_iff {ss : List String} :
    segments? (field.getD .null) = some ss ↔ Field field ss := by
  constructor
  · intro h
    cases field with
    | none =>
      obtain rfl := Option.some.inj h
      exact .missing
    | some v =>
      cases v with
      | null =>
        obtain rfl := Option.some.inj h
        exact .null
      | text s =>
        obtain rfl := Option.some.inj h
        exact .segment s
      | array items =>
        obtain rfl := mapM_text?_eq_some_iff.1 h
        exact .segments ss
      | bool | number | object => cases h
  · intro h
    cases h with
    | missing | null | segment => rfl
    | segments => exact mapM_text?_eq_some_iff.2 rfl

theorem kind?_text (name : String) :
    kind? (.text name) = some (if name = "" then none else some (.ofName name)) := by
  by_cases h : name = "" <;> simp [kind?, Json.optionalText?, Option.filter, h]

theorem kind?_eq_some_iff {k : Option ValueKind} :
    kind? (kind.getD .null) = some k ↔ Declares kind k := by
  constructor
  · intro h
    cases kind with
    | none =>
      obtain rfl := Option.some.inj h
      exact .missing
    | some v =>
      cases v with
      | null =>
        obtain rfl := Option.some.inj h
        exact .null
      | text name =>
        rw [Option.getD_some, kind?_text] at h
        obtain rfl := Option.some.inj h
        split_ifs with hname
        · rw [hname]
          exact .empty
        · exact .named hname
      | bool | number | array | object => cases h
  · intro h
    cases h with
    | missing | null | empty => rfl
    | named hname => rw [Option.getD_some, kind?_text, if_neg hname]

theorem ofParts?_eq_some_iff :
    ofParts? field kind = some c ↔ Field field c.segments ∧ Declares kind c.kind := by
  rw [← segments?_eq_some_iff, ← kind?_eq_some_iff, ofParts?]
  simp only [Option.bind_eq_bind, Option.bind_eq_some_iff, Option.pure_def, Option.some.injEq]
  constructor
  · rintro ⟨segments, hs, k, hk, rfl⟩
    exact ⟨hs, hk⟩
  · rintro ⟨hs, hk⟩
    exact ⟨_, hs, _, hk, rfl⟩

theorem ofJson?_object {ms : Members Json}
    (hone : ms.get? "dataIndex" = none ∨ ms.get? "fieldPath" = none) :
    ofJson? (.object ms) =
      ofParts? ((ms.get? "dataIndex").or (ms.get? "fieldPath")) (ms.get? "valueType") := by
  rw [ofJson?]
  split
  · rename_i hd hf
    rw [hd, hf] at hone
    rcases hone with h | h <;> cases h
  all_goals
    rename_i hd hf
    rw [hd, hf]
    rfl

/-- An object with both names of the field is no column. -/
theorem one_of_ofJson?_object {ms : Members Json} (h : ofJson? (.object ms) = some c) :
    ms.get? "dataIndex" = none ∨ ms.get? "fieldPath" = none := by
  rw [ofJson?] at h
  split at h
  · cases h
  · rename_i hf
    exact Or.inr hf
  · rename_i hd _
    exact Or.inl hd
  · rename_i hd _
    exact Or.inl hd

/-- The documents that are read as a column are those that describe it. -/
theorem ofJson?_eq_some_iff : ofJson? v = some c ↔ Describes v c := by
  constructor
  · intro h
    cases v with
    | object ms =>
      have hone := one_of_ofJson?_object h
      rw [ofJson?_object hone, ofParts?_eq_some_iff] at h
      exact .object hone h.1 h.2
    | array items =>
      match items with
      | [] | [_] | [_, _] =>
        obtain ⟨hfield, hkind⟩ := ofParts?_eq_some_iff.1 h
        exact .array (by simp) hfield hkind
      | _ :: _ :: _ :: _ => cases h
    | null | bool | number | text => cases h
  · intro h
    cases h with
    | object hone hfield hkind =>
      rw [ofJson?_object hone]
      exact ofParts?_eq_some_iff.2 ⟨hfield, hkind⟩
    | @array items _ hlength hfield hkind =>
      have hparts := ofParts?_eq_some_iff.2 ⟨hfield, hkind⟩
      match items with
      | [] | [_] | [_, _] => exact hparts
      | _ :: _ :: _ :: _ => simp at hlength

/-! ## Reading back -/

/-- A column whose kind is found again by its name: a kind beyond the known ones has
    neither an empty name nor one of theirs. -/
def Proper (c : Column) : Prop :=
  ∀ name, c.kind = some (.other name) → name ≠ "" ∧ name ∉ ValueKind.knownNames

theorem declares_text (name : String) :
    Declares (some (.text name)) (if name = "" then none else some (.ofName name)) :=
  kind?_eq_some_iff.1 (kind?_text name)

/-- What the document of a column is read as: the kind is the one of its name, and none for
    the empty name. -/
theorem ofJson?_toJson (c : Column) :
    ofJson? c.toJson = some ⟨c.segments, c.kind.bind fun kind =>
      if kind.name = "" then none else some (.ofName kind.name)⟩ := by
  refine ofJson?_eq_some_iff.2 ?_
  cases hk : c.kind with
  | none =>
    rw [toJson, hk]
    exact .object (Or.inr rfl) (.segments c.segments) .missing
  | some kind =>
    rw [toJson, hk]
    exact .object (Or.inr rfl) (.segments c.segments) (declares_text kind.name)

theorem ofJson?_toJson_iff (c : Column) : ofJson? c.toJson = some c ↔ c.Proper := by
  obtain ⟨segments, kind⟩ := c
  rw [ofJson?_toJson, Option.some.injEq, mk.injEq, eq_self, true_and, Proper]
  cases kind with
  | none => simp
  | some kind =>
    cases kind with
    | other name =>
      by_cases h : name = "" <;> simp [ValueKind.name, ValueKind.ofName_eq_other_iff, h]
    | _ => simp [ValueKind.name, ValueKind.ofName]

theorem Declares.proper {k : Option ValueKind} (h : Declares kind k) (name : String)
    (hk : k = some (.other name)) : name ≠ "" ∧ name ∉ ValueKind.knownNames := by
  cases h with
  | missing | null | empty => cases hk
  | named hname =>
    obtain ⟨rfl, hknown⟩ := ValueKind.ofName_eq_other_iff.1 (Option.some.inj hk)
    exact ⟨hname, hknown⟩

/-- A column that was read is read back. -/
theorem proper_of_describes (h : Describes v c) : c.Proper := by
  cases h with
  | object _ _ hkind => exact hkind.proper
  | array _ _ hkind => exact hkind.proper

theorem listOfJson?_toJson {columns : List Column} (h : ∀ c ∈ columns, c.Proper) :
    listOfJson? (.array (columns.map toJson)) = some columns := by
  rw [listOfJson?, mapM_eq_some_iff, List.map_map]
  exact List.map_congr_left fun c hc => (ofJson?_toJson_iff c).2 (h c hc)

theorem proper_of_listOfJson? {columns : List Column} (h : listOfJson? v = some columns) :
    ∀ c ∈ columns, c.Proper := by
  intro c hc
  cases v with
  | array items =>
    rw [listOfJson?, mapM_eq_some_iff] at h
    have hm : some c ∈ items.map ofJson? := h ▸ List.mem_map.2 ⟨c, hc, rfl⟩
    obtain ⟨item, -, hitem⟩ := List.mem_map.1 hm
    exact proper_of_describes (ofJson?_eq_some_iff.1 hitem)
  | null | bool | number | text | object => cases h

/-- **Columns are read back.**  The document of a column is read as the column again if and
    only if its kind is found again by its name, and this holds of every column that was
    read. The documents that are read are an object with the field, under one of two names,
    and the kind, or an array of both, each of which may be missing or null. So the columns
    of a list that was read, written and read again, make a composer with the same
    compositions. -/
theorem read_back_iff :
    (∀ c : Column, ofJson? c.toJson = some c ↔ c.Proper) ∧
    (∀ v c, (ofJson? v = some c ↔ Describes v c) ∧ (Describes v c → c.Proper)) ∧
    ∀ v columns, listOfJson? v = some columns →
      ∃ again, listOfJson? (.array (columns.map toJson)) = some again ∧
        (∀ s, (Composer.ofColumns again).compose s = (Composer.ofColumns columns).compose s) ∧
        ∀ config s, (Composer.configured again config).map (·.compose s) =
          (Composer.configured columns config).map (·.compose s) := by
  refine ⟨ofJson?_toJson_iff, fun v c => ⟨ofJson?_eq_some_iff, proper_of_describes⟩, ?_⟩
  intro v columns h
  exact ⟨columns, listOfJson?_toJson (proper_of_listOfJson? h), fun s => rfl,
    fun config s => rfl⟩

/-- Columns in three forms, and kinds whose names do not make them. -/
theorem read_back_iff_listed :
    let columns : List Column :=
      [⟨["age"], some .digit⟩, ⟨["owner", "city"], some (.other "tag")⟩, ⟨[], none⟩]
    let v : Json := .array
      [.object [("valueType", .text "digit"), ("fieldPath", .text "age")],
        .array [.array [.text "owner", .text "city"], .text "tag"],
        .object [("dataIndex", .null), ("valueType", .text ""), ("title", .bool true)]]
    listOfJson? v = some columns ∧
      (∃ again, listOfJson? (.array (columns.map toJson)) = some again ∧
        ∀ s, (Composer.ofColumns again).compose s = (Composer.ofColumns columns).compose s) ∧
      ofJson? (toJson ⟨["age"], some (.other "digit")⟩) ≠ some ⟨["age"], some (.other "digit")⟩ ∧
      ofJson? (toJson ⟨["age"], some (.other "")⟩) ≠ some ⟨["age"], some (.other "")⟩ := by
  intro columns v
  obtain ⟨hback, -, hlist⟩ := read_back_iff
  have hv : listOfJson? v = some columns := by decide +kernel
  obtain ⟨again, hagain, hsame, -⟩ := hlist v columns hv
  refine ⟨hv, ⟨again, hagain, hsame⟩, fun h => ?_, fun h => ?_⟩
  · exact absurd ((hback _).1 h "digit" rfl).2 (by decide)
  · exact absurd rfl ((hback _).1 h "" rfl).1

end Column

end TableQuery
