/-
  Lists with members left out.

  * `sublist`, `mem_of_mem`, `mem_or`: what is left, and what was left out;
  * `filterMap`, `map`, `append`: the lists that are made of such lists;
  * `lookup_eq`: under which names nothing was left out.
-/
namespace TableQuery

/-- The second list is the first without some of its members, all of which have
    a property. -/
inductive Thinned {α : Type} (P : α → Prop) : List α → List α → Prop
  | nil : Thinned P [] []
  | keep (x : α) {xs ys : List α} (h : Thinned P xs ys) : Thinned P (x :: xs) (x :: ys)
  | drop {x : α} {xs ys : List α} (hx : P x) (h : Thinned P xs ys) : Thinned P (x :: xs) ys

namespace Thinned

variable {α β : Type} {P : α → Prop} {xs ys : List α}

theorem sublist (h : Thinned P xs ys) : ys.Sublist xs := by
  induction h with
  | nil => exact .slnil
  | keep x _ ih => exact ih.cons_cons x
  | @drop x _ _ _ _ ih => exact ih.cons x

theorem mem_of_mem (h : Thinned P xs ys) {y : α} (hy : y ∈ ys) : y ∈ xs :=
  h.sublist.mem hy

theorem mem_or (h : Thinned P xs ys) {x : α} (hx : x ∈ xs) : x ∈ ys ∨ P x := by
  induction h with
  | nil => exact Or.inl hx
  | keep y _ ih =>
    rcases List.mem_cons.1 hx with rfl | hx
    · exact Or.inl List.mem_cons_self
    · exact (ih hx).imp_left (List.mem_cons_of_mem _)
  | drop hy _ ih =>
    rcases List.mem_cons.1 hx with rfl | hx
    · exact Or.inr hy
    · exact ih hx

theorem mono {Q : α → Prop} (h : Thinned P xs ys) (hPQ : ∀ x, P x → Q x) : Thinned Q xs ys := by
  induction h with
  | nil => exact .nil
  | keep x _ ih => exact .keep x ih
  | drop hx _ ih => exact .drop (hPQ _ hx) ih

theorem filterMap (f : α → Option β) (h : Thinned P xs ys) :
    Thinned (fun b => ∃ x, P x ∧ f x = some b) (xs.filterMap f) (ys.filterMap f) := by
  induction h with
  | nil => exact .nil
  | keep x _ ih =>
    cases hf : f x with
    | none => simpa only [List.filterMap_cons_none hf] using ih
    | some b => simpa only [List.filterMap_cons_some hf] using ih.keep b
  | @drop x _ _ hx _ ih =>
    cases hf : f x with
    | none => simpa only [List.filterMap_cons_none hf] using ih
    | some b => simpa only [List.filterMap_cons_some hf] using ih.drop ⟨x, hx, hf⟩

theorem map {Q : β → Prop} (f : α → β) (hPQ : ∀ x, P x → Q (f x)) (h : Thinned P xs ys) :
    Thinned Q (xs.map f) (ys.map f) := by
  induction h with
  | nil => exact .nil
  | keep x _ ih => exact .keep (f x) ih
  | drop hx _ ih => exact .drop (hPQ _ hx) ih

theorem append {xs' ys' : List α} (h : Thinned P xs ys) (h' : Thinned P xs' ys') :
    Thinned P (xs ++ xs') (ys ++ ys') := by
  induction h with
  | nil => exact h'
  | keep x _ ih => exact .keep x ih
  | drop hx _ ih => exact .drop hx ih

/-- Members under other names do not count for a name. -/
theorem lookup_eq {P : String × β → Prop} {xs ys : List (String × β)} (h : Thinned P xs ys)
    {name : String} (hP : ∀ p, P p → p.1 ≠ name) : xs.lookup name = ys.lookup name := by
  induction h with
  | nil => rfl
  | keep x _ ih => rw [List.lookup_cons, List.lookup_cons, ih]
  | drop hx _ ih => rw [List.lookup_cons, beq_false_of_ne (Ne.symm (hP _ hx)), ih]

end Thinned

end TableQuery
