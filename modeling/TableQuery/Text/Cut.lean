/-
  Cutting a text in two at the first place where a character stands. Cutting
  at every such place is `List.splitOn`, joining again `List.intercalate`.

  * `cut?_eq_some_iff`, `cut?_eq_none_iff`: what a first cut leaves;
  * `mem_splitOn`: what the pieces between all cuts consist of.
-/
namespace TableQuery.Text

/-- What stands before and after the first `d`, if there is one. -/
def cut? (d : Char) : List Char → Option (List Char × List Char)
  | [] => none
  | c :: cs => if c = d then some ([], cs) else (cut? d cs).map fun (before, after) => (c :: before, after)

theorem cut?_eq_some_iff {d : Char} {cs before after : List Char} :
    cut? d cs = some (before, after) ↔ d ∉ before ∧ cs = before ++ d :: after := by
  induction cs generalizing before with
  | nil => simp [cut?]
  | cons c cs ih =>
    by_cases h : c = d
    · subst h
      cases before with
      | nil => simp [cut?]
      | cons b before => simpa [cut?] using fun h _ h' => absurd h' h
    · cases before with
      | nil => simp [cut?, h]
      | cons b before =>
        simp only [cut?, h, if_false, Option.map_eq_some_iff, Prod.mk.injEq, Prod.exists,
          List.cons.injEq, List.mem_cons, not_or, List.cons_append]
        constructor
        · rintro ⟨p, q, hpq, ⟨rfl, rfl⟩, rfl⟩
          exact ⟨⟨fun e => h e.symm, (ih.1 hpq).1⟩, rfl, (ih.1 hpq).2⟩
        · rintro ⟨⟨-, hb⟩, rfl, hcs⟩
          exact ⟨before, after, ih.2 ⟨hb, hcs⟩, ⟨rfl, rfl⟩, rfl⟩

theorem cut?_eq_none_iff {d : Char} {cs : List Char} : cut? d cs = none ↔ d ∉ cs := by
  induction cs with
  | nil => simp [cut?]
  | cons c cs ih =>
    by_cases h : c = d
    · simp [cut?, h]
    · simp [cut?, h, ih, Ne.symm h]

/-- The pieces between the places of a character consist of the other characters
    of a text. -/
theorem mem_splitOn {d : Char} {cs piece : List Char} (h : piece ∈ cs.splitOn d) :
    d ∉ piece ∧ ∀ c ∈ piece, c ∈ cs := by
  induction cs generalizing piece with
  | nil => simp_all
  | cons c cs ih =>
    rw [List.splitOn_cons_eq_if_modifyHead] at h
    obtain ⟨p, ps, hp⟩ : ∃ p ps, cs.splitOn d = p :: ps :=
      List.exists_cons_of_ne_nil (List.splitOn_ne_nil d cs)
    rw [hp] at h ih
    have keep : ∀ {l}, l ∈ p :: ps → d ∉ l ∧ ∀ x ∈ l, x ∈ c :: cs := fun hl =>
      ⟨(ih hl).1, fun x hx => List.mem_cons_of_mem _ ((ih hl).2 x hx)⟩
    split at h
    · rcases List.mem_cons.1 h with rfl | h
      · simp
      · exact keep h
    · rename_i hc
      rcases List.mem_cons.1 h with rfl | h
      · obtain ⟨hd, hs⟩ := keep (List.mem_cons_self (a := p) (l := ps))
        refine ⟨?_, fun x hx => ?_⟩
        · rw [List.mem_cons, not_or]
          exact ⟨fun e => hc (beq_iff_eq.2 e.symm), hd⟩
        · rcases List.mem_cons.1 hx with rfl | hx
          · exact List.mem_cons_self
          · exact hs x hx
      · exact keep (List.mem_cons_of_mem _ h)

end TableQuery.Text
