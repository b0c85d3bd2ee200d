/-
  Reading the text of an order.

  The field of a key has no comma any more, and the name of a direction no blank. So the
  keys are found again between the commas, and in each key the direction behind the last
  blank, whatever else the field holds.

  * `cutLast?_eq_some_iff`: what a last cut leaves;
  * `fieldPath_eq_ofSegments`: a field is the path of the segments between its commas;
  * `ofPiece?_text`, `pieces_text`: a key and an order are read back from their texts;
  * `build_eq_build_iff`: so two sorts have the same text if and only if they have the
    same keys.
-/
import Mathlib.Data.List.Forall2
import TableQuery.OrderBy
import TableQuery.Path
import TableQuery.Text.Cut

namespace TableQuery

/-! ## The last cut -/

namespace Text

/-- What stands before and after the last `d`, if there is one. -/
def cutLast? (d : Char) (cs : List Char) : Option (List Char × List Char) :=
  (cut? d cs.reverse).map fun (after, before) => (before.reverse, after.reverse)

theorem cutLast?_eq_some_iff {d : Char} {cs before after : List Char} :
    cutLast? d cs = some (before, after) ↔ d ∉ after ∧ cs = before ++ d :: after := by
  simp only [cutLast?, Option.map_eq_some_iff, Prod.exists, Prod.mk.injEq]
  constructor
  · rintro ⟨after', before', h, rfl, rfl⟩
    obtain ⟨hd, hcs⟩ := cut?_eq_some_iff.1 h
    refine ⟨by simpa using hd, ?_⟩
    rw [← List.reverse_reverse cs, hcs]
    simp
  · rintro ⟨hd, rfl⟩
    refine ⟨after.reverse, before.reverse, cut?_eq_some_iff.2 ⟨by simpa using hd, ?_⟩, ?_⟩
    · simp
    · simp

/-- Pieces between the places of a character, joined by another, are the text with the
    one in the place of the other. -/
theorem intercalate_splitOn_eq_map (d e : Char) (cs : List Char) :
    List.intercalate [e] (cs.splitOn d) = cs.map fun c => if c = d then e else c := by
  induction cs with
  | nil => simp
  | cons c cs ih =>
    obtain ⟨p, ps, hp⟩ := List.exists_cons_of_ne_nil (List.splitOn_ne_nil d cs)
    rw [List.map_cons, ← ih, List.splitOn_cons_eq_if_modifyHead, hp]
    by_cases h : c = d
    · simp [h]
    · cases ps with
      | nil => simp [h]
      | cons q qs => simp [h]

end Text

/-! ## Keys -/

theorem Direction.ofToken_eq_desc_iff {token : Option String} :
    ofToken token = .desc ↔ token = some "descend" := by
  unfold ofToken
  split
  · simp
  · rename_i h
    exact iff_of_false (by simp) (h ·)

/-- Two tokens ask for the same direction if both or neither are the one for descending. -/
theorem Direction.ofToken_eq_ofToken_iff {token token' : Option String} :
    ofToken token = ofToken token' ↔ (token = some "descend" ↔ token' = some "descend") := by
  rw [← ofToken_eq_desc_iff, ← ofToken_eq_desc_iff]
  cases ofToken token <;> cases ofToken token' <;> simp

theorem Direction.ofName?_name (d : Direction) : ofName? d.name = some d := by
  cases d <;> rfl

theorem Direction.not_mem_name {c : Char} (h : c = ' ' ∨ c = ',') (d : Direction) :
    c ∉ d.name.toList := by
  rcases h with rfl | rfl <;> cases d <;> decide

namespace OrderKey

/-- A key orders by an entry of a sort: its field is the path of the segments between the
    commas, and it is descending for the token `descend` only. -/
structure Answers (k : OrderKey) (entry : String × Option String) : Prop where
  field_eq : k.field = Path.ofSegments ((entry.1.toList.splitOn ',').map String.ofList)
  desc_iff : k.direction = .desc ↔ entry.2 = some "descend"

/-- The key of a text: the field before its last blank and the direction behind it. -/
def ofPiece? (piece : List Char) : Option OrderKey := do
  let (field, name) ← Text.cutLast? ' ' piece
  let direction ← Direction.ofName? (String.ofList name)
  return ⟨String.ofList field, direction⟩

theorem toList_text (k : OrderKey) :
    k.text.toList = k.field.toList ++ ' ' :: k.direction.name.toList := by
  simp [text]

theorem cutLast?_text (k : OrderKey) :
    Text.cutLast? ' ' k.text.toList = some (k.field.toList, k.direction.name.toList) :=
  Text.cutLast?_eq_some_iff.2 ⟨k.direction.not_mem_name (Or.inl rfl), k.toList_text⟩

/-- A key is read back from its text. -/
theorem ofPiece?_text (k : OrderKey) : ofPiece? k.text.toList = some k := by
  simp [ofPiece?, cutLast?_text, Direction.ofName?_name]

end OrderKey

/-! ## Orders -/

namespace OrderBy

variable {sort sort' : ManualSort}

theorem toList_fieldPath (field : String) :
    (fieldPath field).toList = List.intercalate ['/'] (field.toList.splitOn ',') := by
  rw [fieldPath, String.toList_ofList, Text.intercalate_splitOn_eq_map]

/-- The commas of a field are separators of a path. -/
theorem fieldPath_eq_ofSegments (field : String) :
    fieldPath field = Path.ofSegments ((field.toList.splitOn ',').map String.ofList) := by
  rw [← String.toList_inj, toList_fieldPath, Path.ofSegments, String.toList_intercalate,
    List.map_map]
  simp [Function.comp_def]

theorem comma_not_mem_fieldPath (field : String) : ',' ∉ (fieldPath field).toList := by
  rw [fieldPath, String.toList_ofList]
  intro h
  obtain ⟨c, -, hc⟩ := List.mem_map.1 h
  split_ifs at hc with he
  · cases hc
  · exact he hc

theorem answers_ofSort (sort : ManualSort) : List.Forall₂ OrderKey.Answers (ofSort sort) sort := by
  rw [ofSort, List.forall₂_map_left_iff, List.forall₂_same]
  exact fun m _ => ⟨fieldPath_eq_ofSegments m.1, Direction.ofToken_eq_desc_iff⟩

/-- The texts between the commas of a text. -/
def pieces (s : String) : List (List Char) :=
  s.toList.splitOn ','

/-- The pieces of the text of an order are its keys. -/
theorem pieces_text {order : OrderBy} (hne : order ≠ []) (h : ∀ k ∈ order, ',' ∉ k.field.toList) :
    pieces (text order) = order.map fun k => k.text.toList := by
  have hcomma : ∀ l ∈ order.map (fun k => k.text.toList), ',' ∉ l := by
    intro l hl
    obtain ⟨k, hk, rfl⟩ := List.mem_map.1 hl
    have hname := k.direction.not_mem_name (Or.inr rfl)
    simp [OrderKey.toList_text, h k hk, hname]
  rw [pieces, text, String.toList_intercalate, List.map_map]
  exact List.splitOn_intercalate ',' hcomma (by simpa using hne)

theorem build_eq_none_iff : build sort = none ↔ sort = [] := by
  cases sort with
  | nil => simp [build, ofSort]
  | cons m sort => simp [build, ofSort]

theorem build_eq_some_iff {s : String} :
    build sort = some s ↔ sort ≠ [] ∧ text (ofSort sort) = s := by
  cases sort with
  | nil => simp [build, ofSort]
  | cons m sort => simp [build, ofSort]

theorem pieces_of_build {s : String} (h : build sort = some s) :
    pieces s = (ofSort sort).map fun k => k.text.toList := by
  obtain ⟨hne, rfl⟩ := build_eq_some_iff.1 h
  refine pieces_text (by simpa [ofSort] using hne) fun k hk => ?_
  obtain ⟨m, -, rfl⟩ := List.mem_map.1 hk
  exact comma_not_mem_fieldPath m.1

/-- The keys of a sort are read back from its text. -/
theorem ofPiece?_pieces {s : String} (h : build sort = some s) :
    (pieces s).map OrderKey.ofPiece? = (ofSort sort).map some := by
  rw [pieces_of_build h, List.map_map]
  exact List.map_congr_left fun k _ => k.ofPiece?_text

theorem build_eq_build_iff : build sort = build sort' ↔ ofSort sort = ofSort sort' := by
  constructor
  · intro h
    cases hs : build sort with
    | none =>
      rw [hs, eq_comm, build_eq_none_iff] at h
      rw [h, build_eq_none_iff.1 hs]
    | some s =>
      have hkeys := ofPiece?_pieces hs
      rw [ofPiece?_pieces (h ▸ hs)] at hkeys
      exact (List.map_injective_iff.2 (fun _ _ => Option.some.inj) hkeys).symm
  · intro h
    rw [build, build, h]

end OrderBy

/-- Two entries of sorts make the same key: the names are alike with `/` for every comma,
    and both or neither ask for a descending order. -/
def ManualSort.Alike (entry entry' : String × Option String) : Prop :=
  OrderBy.fieldPath entry.1 = OrderBy.fieldPath entry'.1 ∧
    (entry.2 = some "descend" ↔ entry'.2 = some "descend")

namespace OrderBy

theorem ofSort_eq_ofSort_iff {sort sort' : ManualSort} :
    ofSort sort = ofSort sort' ↔ List.Forall₂ ManualSort.Alike sort sort' := by
  rw [ofSort, ofSort, ← List.forall₂_eq_eq_eq, List.forall₂_map_left_iff,
    List.forall₂_map_right_iff]
  simp only [OrderKey.mk.injEq, Direction.ofToken_eq_ofToken_iff]
  rfl

/-- **The text of an order tells its keys.**  A sort has a text unless it is empty. Between
    the commas of the text there are as many pieces as the sort has entries, and the last
    blank of each piece stands between the field and the direction of the key: the path of
    the segments of the entry, and descending for its token only. So two sorts have the
    same text if and only if their entries, one by one, make the same keys. -/
theorem order_of_text (sort : ManualSort) :
    (build sort = none ↔ sort = []) ∧
    (∀ s, build sort = some s →
      (pieces s).length = sort.length ∧
      (pieces s).map (Text.cutLast? ' ') =
        (ofSort sort).map (fun k => some (k.field.toList, k.direction.name.toList)) ∧
      (pieces s).map OrderKey.ofPiece? = (ofSort sort).map some) ∧
    List.Forall₂ OrderKey.Answers (ofSort sort) sort ∧
    ∀ sort', build sort = build sort' ↔ List.Forall₂ ManualSort.Alike sort sort' := by
  refine ⟨build_eq_none_iff, fun s hs => ⟨?_, ?_, ofPiece?_pieces hs⟩, answers_ofSort sort,
    fun sort' => build_eq_build_iff.trans ofSort_eq_ofSort_iff⟩
  · rw [pieces_of_build hs, List.length_map, ofSort, List.length_map]
  · rw [pieces_of_build hs, List.map_map]
    exact List.map_congr_left fun k _ => k.cutLast?_text

/-- Names that look like keys, an empty one, and tokens that ask for nothing. -/
theorem order_of_text_imitated :
    let sort : ManualSort := [("a, b desc", some "descend"), ("", none), ("c asc", some "desc")]
    let other : ManualSort := [("a/ b desc", some "descend"), ("", some "asc"), ("c asc", none)]
    build sort = some "a/ b desc desc, asc,c asc asc" ∧
      (pieces "a/ b desc desc, asc,c asc asc").map OrderKey.ofPiece? =
        [some ⟨"a/ b desc", .desc⟩, some ⟨"", .asc⟩, some ⟨"c asc", .asc⟩] ∧
      build sort = build other := by
  intro sort other
  have hs : build sort = some "a/ b desc desc, asc,c asc asc" := by decide +kernel
  have halike : List.Forall₂ ManualSort.Alike sort other :=
    .cons ⟨by decide +kernel, by decide⟩
      (.cons ⟨by decide +kernel, by decide⟩ (.cons ⟨by decide +kernel, by decide⟩ .nil))
  obtain ⟨-, hread, -, hsame⟩ := order_of_text sort
  have hkeys : ofSort sort = [⟨"a/ b desc", .desc⟩, ⟨"", .asc⟩, ⟨"c asc", .asc⟩] := by
    decide +kernel
  refine ⟨hs, ?_, (hsame other).2 halike⟩
  rw [(hread _ hs).2.2, hkeys]
  rfl

end OrderBy

end TableQuery
