/-
  What one composition does.

  `compose_eq_ok_iff` and `compose_eq_error_iff` say it all: the four stages, in
  their order, and the first fault.  A composed query is normal, in that its
  texts are missing rather than empty (`texts_of_compose`).
-/
import TableQuery.Composer
import TableQuery.Proofs.Clause
import TableQuery.Proofs.QueryString
import TableQuery.Proofs.Stages

namespace TableQuery.Composer

variable {c : Composer} {s : TableReport} {q : Query}

/-! ## The stages -/

/-- A query is composed of what its four stages give. -/
theorem compose_eq_ok_iff :
    c.compose s = .ok q ↔
      ∃ page base computed skip, Page.ofParams s.params c.config.pageLimit = .ok page ∧
        BaseQuery.parse? s.baseQuery = .ok base ∧
        Filter.build s.params s.filter c.columns c.offset.text = .ok computed ∧
        page.skip = .ok skip ∧ assemble page skip base computed s.sort = q := by
  simp only [compose, bind_mapError_eq_ok_iff]
  constructor
  · rintro ⟨page, hp, base, hb, computed, hc, skip, hs, hq⟩
    exact ⟨page, base, computed, skip, hp, hb, hc, hs, Except.ok.inj hq⟩
  · rintro ⟨page, base, computed, skip, hp, hb, hc, hs, rfl⟩
    exact ⟨page, hp, base, hb, computed, hc, skip, hs, rfl⟩

/-- A fault is that of the first stage that has one. -/
theorem compose_eq_error_iff {e : QueryError} :
    c.compose s = .error e ↔
      (∃ fault, Page.ofParams s.params c.config.pageLimit = .error fault ∧ .page fault = e) ∨
      ∃ page, Page.ofParams s.params c.config.pageLimit = .ok page ∧
        ((∃ fault, BaseQuery.parse? s.baseQuery = .error fault ∧ .baseQuery fault = e) ∨
        ∃ base, BaseQuery.parse? s.baseQuery = .ok base ∧
          ((∃ fault, Filter.build s.params s.filter c.columns c.offset.text = .error fault ∧
            .param fault = e) ∨
          ∃ computed, Filter.build s.params s.filter c.columns c.offset.text = .ok computed ∧
            ∃ fault, page.skip = .error fault ∧ .page fault = e)) := by
  have hp : ∀ q : Query, (pure q : Except QueryError Query) ≠ .error e := by
    rintro q ⟨⟩
  simp only [compose, bind_mapError_eq_error_iff, hp, and_false, exists_false, or_false]

/-- A fault of the base query is found in the base query. -/
theorem parse?_eq_error {fault : BaseQueryFault} (h : c.compose s = .error (.baseQuery fault)) :
    BaseQuery.parse? s.baseQuery = .error fault := by
  obtain ⟨f, -, hf⟩ | ⟨page, -, ⟨f, hb, hf⟩ | ⟨base, -, ⟨f, -, hf⟩ | ⟨_, -, f, -, hf⟩⟩⟩ :=
    compose_eq_error_iff.1 h
  · cases hf
  · cases hf; exact hb
  · cases hf
  · cases hf

/-! ## Texts are missing rather than empty -/

theorem part_ne_empty (pairs : List (String × String)) (name : String) :
    BaseQuery.part pairs name ≠ some "" := by
  intro h
  rcases Option.or_eq_some_iff.1 h with h | ⟨-, h⟩ <;> exact Query.nonEmpty_ne _ h

/-- What a base query holds is not empty. -/
theorem ne_empty_of_parse? {raw : Option String} {base : BaseQuery}
    (h : BaseQuery.parse? raw = .ok base) :
    base.filter ≠ some "" ∧ base.orderby ≠ some "" ∧ base.expand ≠ some "" := by
  have hb : base = BaseQuery.empty ∨ ∃ pairs, base = BaseQuery.ofPairs pairs := by
    unfold BaseQuery.parse? at h
    split at h
    · exact Or.inl (Except.ok.inj h).symm
    · simp only at h
      split_ifs at h
      · exact Or.inl (Except.ok.inj h).symm
      · rw [BaseQuery.parse, Except.map.eq_def] at h
        split at h
        · cases h
        · exact Or.inr ⟨_, (Except.ok.inj h).symm⟩
  rcases hb with rfl | ⟨pairs, rfl⟩
  · simp [BaseQuery.empty]
  · exact ⟨part_ne_empty _ _, part_ne_empty _ _, part_ne_empty _ _⟩

theorem build_sort_ne_empty (sort : ManualSort) : OrderBy.build sort ≠ some "" := by
  unfold OrderBy.build
  cases OrderBy.ofSort sort with
  | nil => simp
  | cons k ks => cases ks <;> simp [OrderBy.text, OrderKey.text]

theorem both_ne_empty {base computed : Option String} (hb : base ≠ some "")
    (hc : computed ≠ some "") : Filter.both base computed ≠ some "" := by
  cases base <;> cases computed <;>
    simp_all [Filter.both, Clause.conjunction]

/-- The texts of a composed query are missing rather than empty. -/
theorem texts_of_compose (h : c.compose s = .ok q) :
    q.texts = ⟨q.filter, q.orderby, q.expand⟩ := by
  obtain ⟨page, base, computed, skip, -, hb, hf, -, rfl⟩ := compose_eq_ok_iff.1 h
  obtain ⟨h₁, h₂, h₃⟩ := ne_empty_of_parse? hb
  have hc : computed ≠ some "" := by
    rintro rfl
    exact Filter.build_ne_empty hf
  have ho : (OrderBy.build s.sort).or base.orderby ≠ some "" := by
    intro h
    rcases Option.or_eq_some_iff.1 h with h | ⟨-, h⟩
    · exact build_sort_ne_empty _ h
    · exact h₂ h
  simp only [Query.texts, assemble, Query.nonEmpty_eq_self (both_ne_empty h₁ hc),
    Query.nonEmpty_eq_self ho, Query.nonEmpty_eq_self h₃]

end TableQuery.Composer
