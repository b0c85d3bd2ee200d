/-
  Paths of nested fields: segments joined by `/`.

  A path is built downwards from the root, the empty path. The empty path adds
  no separator, so below a root an empty name leaves no trace (`join_empty`).
-/
namespace TableQuery.Path

def join (parent name : String) : String :=
  if parent = "" then name else parent ++ "/" ++ name

def ofSegments (segments : List String) : String :=
  String.intercalate "/" segments

@[simp] theorem join_empty (name : String) : join "" name = name := rfl

theorem join_of_ne {parent : String} (h : parent ≠ "") (name : String) :
    join parent name = parent ++ "/" ++ name :=
  if_neg h

end TableQuery.Path
