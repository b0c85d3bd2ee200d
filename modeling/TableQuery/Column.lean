/-
  Columns of a table, as far as filtering is concerned.

  * a `ValueKind` is what a column declares to hold; names beyond the seven
    known ones are kept;
  * a `Column` has the segments of its field and perhaps a kind;
  * `Columns` finds a column by its path. Of columns with one path the first
    counts, and a column without segments is left out.
-/
import TableQuery.Members
import TableQuery.Path

namespace TableQuery

/-- What a column holds. -/
inductive ValueKind where
  | digit
  | select
  | date
  | dateTime
  | dateYear
  | dateRange
  | text
  | other (name : String)
  deriving DecidableEq, Repr

def ValueKind.ofName : String → ValueKind
  | "digit" => .digit
  | "select" => .select
  | "date" => .date
  | "dateTime" => .dateTime
  | "dateYear" => .dateYear
  | "dateRange" => .dateRange
  | "text" => .text
  | name => .other name

def ValueKind.name : ValueKind → String
  | .digit => "digit"
  | .select => "select"
  | .date => "date"
  | .dateTime => "dateTime"
  | .dateYear => "dateYear"
  | .dateRange => "dateRange"
  | .text => "text"
  | .other name => name

structure Column where
  segments : List String
  kind : Option ValueKind
  deriving DecidableEq, Repr

/-- The path of the field that a column shows. -/
def Column.path (c : Column) : String :=
  Path.ofSegments c.segments

/-- The columns of a table by path, one for each path. -/
structure Columns where
  byPath : Members Column
  distinct : byPath.names.Nodup

namespace Columns

def empty : Columns :=
  ⟨[], List.nodup_nil⟩

def get? (cs : Columns) (path : String) : Option Column :=
  cs.byPath.get? path

/-- The kind that the column of a path declares. -/
def kind? (cs : Columns) (path : String) : Option ValueKind :=
  (cs.get? path).bind Column.kind

def size (cs : Columns) : Nat :=
  cs.byPath.length

def isEmpty (cs : Columns) : Bool :=
  cs.byPath.isEmpty

theorem nodup_concat {cs : Columns} {path : String} (h : cs.get? path = none) (c : Column) :
    (cs.byPath ++ [(path, c)]).names.Nodup := by
  have hn := Members.get?_eq_none_iff.1 h
  simp only [Members.names, List.map_append, List.map_cons, List.map_nil, List.nodup_append]
  refine ⟨cs.distinct, by simp, fun a ha b hb => ?_⟩
  rintro rfl
  exact hn (List.mem_singleton.1 hb ▸ ha)

/-- Add a column, unless it has no segments or its path is taken. -/
def add (cs : Columns) (c : Column) : Columns :=
  if h : c.segments ≠ [] ∧ cs.get? c.path = none then ⟨_, nodup_concat h.2 c⟩ else cs

def ofList (columns : List Column) : Columns :=
  columns.foldl add empty

@[simp] theorem get?_empty (path : String) : empty.get? path = none := rfl

theorem byPath_add {cs : Columns} {c : Column} (hs : c.segments ≠ []) (h : cs.get? c.path = none) :
    (cs.add c).byPath = cs.byPath ++ [(c.path, c)] := by
  rw [add, dif_pos ⟨hs, h⟩]

theorem add_eq_self {cs : Columns} {c : Column} (h : c.segments = [] ∨ cs.get? c.path ≠ none) :
    cs.add c = cs := by
  rw [add, dif_neg]
  rintro ⟨hs, hn⟩
  exact h.elim hs fun h => h hn

/-- A new path is found after the old ones; a taken one keeps its column. -/
theorem get?_add (cs : Columns) (c : Column) (path : String) :
    (cs.add c).get? path =
      (cs.get? path).or (if c.segments ≠ [] ∧ path = c.path then some c else none) := by
  by_cases h : c.segments ≠ [] ∧ cs.get? c.path = none
  · rw [get?, byPath_add h.1 h.2, Members.get?_append, Members.get?_cons]
    by_cases hp : path = c.path <;> simp [get?, Members.get?, h.1, hp]
  · have h : c.segments = [] ∨ cs.get? c.path ≠ none := by
      by_cases hs : c.segments = []
      · exact .inl hs
      · exact .inr fun hn => h ⟨hs, hn⟩
    rw [add_eq_self h]
    rcases h with h | h
    · simp [h]
    · by_cases hp : path = c.path
      · obtain ⟨d, hd⟩ := Option.ne_none_iff_exists'.1 h
        simp [hp, hd]
      · simp [hp]

/-- After the columns of a list the first new one of a path is found. -/
theorem get?_foldl_add (cs : Columns) (columns : List Column) (path : String) :
    (columns.foldl add cs).get? path =
      (cs.get? path).or (columns.find? fun c => c.segments ≠ [] ∧ c.path = path) := by
  induction columns generalizing cs with
  | nil => simp
  | cons c columns ih =>
    rw [List.foldl_cons, ih, get?_add, Option.or_assoc, List.find?_cons]
    congr 1
    by_cases h : c.segments ≠ [] ∧ c.path = path
    · have h' : c.segments ≠ [] ∧ path = c.path := ⟨h.1, h.2.symm⟩
      rw [if_pos h', decide_eq_true h]
      rfl
    · have h' : ¬ (c.segments ≠ [] ∧ path = c.path) := fun e => h ⟨e.1, e.2.symm⟩
      rw [if_neg h', decide_eq_false h]
      rfl

/-- The column of a path is the first of the list with segments and that path. -/
theorem get?_ofList (columns : List Column) (path : String) :
    (ofList columns).get? path = columns.find? fun c => c.segments ≠ [] ∧ c.path = path := by
  rw [ofList, get?_foldl_add, get?_empty, Option.none_or]

end Columns

end TableQuery
