/-
  The two names under which a form holds its page window. At the top level of a
  form they belong to the window and never to the filter.
-/
namespace TableQuery

/-- The parameters that hold the page window. -/
inductive PageKey where
  | current
  | pageSize
  deriving DecidableEq, Repr

namespace PageKey

def name : PageKey → String
  | .current => "current"
  | .pageSize => "pageSize"

theorem name_injective {key key' : PageKey} (h : key.name = key'.name) : key = key' := by
  cases key <;> cases key' <;> simp_all [name]

/-- Whether a parameter belongs to the page window. -/
def owns (parameter : String) : Bool :=
  parameter == current.name || parameter == pageSize.name

theorem owns_iff {parameter : String} : owns parameter ↔ ∃ key : PageKey, key.name = parameter := by
  simp only [owns, Bool.or_eq_true, beq_iff_eq]
  constructor
  · rintro (h | h)
    · exact ⟨.current, h.symm⟩
    · exact ⟨.pageSize, h.symm⟩
  · rintro ⟨key, rfl⟩
    cases key <;> simp

end PageKey

end TableQuery
