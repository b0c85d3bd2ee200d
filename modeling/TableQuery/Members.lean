/-
  Named values in order: the members of an object, the parameters of a form,
  the keys of a sort. A name that is put again keeps its place and takes the
  new value; a new name goes last.

  * `get?_put`, `get?_putAll`: looking up after a put, and after many, of which
    the last counts;
  * `names_put`: a put adds its name at the end, unless it stands already;
  * `nodup_put`, `nodup_putAll`: names that are distinct stay distinct;
  * `put_of_not_mem`, `putAll_of_nodup`: new names go last, with their values;
  * `settled_putAll`: of all members put, each name is at its first place and has
    its last value.
-/
namespace TableQuery

/-- Values by name, in order. -/
abbrev Members (α : Type) := List (String × α)

namespace Members

variable {α : Type}

def names (ms : Members α) : List String :=
  ms.map Prod.fst

def get? (ms : Members α) (name : String) : Option α :=
  ms.lookup name

def put : Members α → String → α → Members α
  | [], name, value => [(name, value)]
  | (k, v) :: ms, name, value =>
    if k = name then (k, value) :: ms else (k, v) :: put ms name value

/-- All members but those of a name. -/
def drop (ms : Members α) (name : String) : Members α :=
  ms.filter fun m => m.1 ≠ name

def putAll (ms more : Members α) : Members α :=
  more.foldl (fun ms m => ms.put m.1 m.2) ms

theorem get?_cons (k : String) (v : α) (ms : Members α) (name : String) :
    get? ((k, v) :: ms) name = if name = k then some v else ms.get? name := by
  by_cases h : name = k
  · simp [get?, h]
  · have : (name == k) = false := by simpa using h
    simp [get?, List.lookup_cons, this, h]

theorem get?_append (ms os : Members α) (name : String) :
    get? (ms ++ os) name = (ms.get? name).or (os.get? name) :=
  List.lookup_append

/-- Looked up under a name that a filter keeps, nothing is missing. -/
theorem get?_filter {f : String → Bool} {name : String} (hf : f name = true) (ms : Members α) :
    get? (ms.filter fun m => f m.1) name = ms.get? name := by
  induction ms with
  | nil => rfl
  | cons m ms ih =>
    obtain ⟨k, v⟩ := m
    by_cases hk : f k = true
    · rw [List.filter_cons_of_pos (by simpa using hk), get?_cons, get?_cons, ih]
    · have hne : name ≠ k := by
        rintro rfl
        exact hk hf
      rw [List.filter_cons_of_neg (by simpa using hk), get?_cons, if_neg hne, ih]

theorem get?_put (ms : Members α) (name : String) (value : α) (k : String) :
    (ms.put name value).get? k = if k = name then some value else ms.get? k := by
  induction ms with
  | nil => rw [put, get?_cons]
  | cons m ms ih =>
    obtain ⟨k', v⟩ := m
    by_cases hn : k' = name
    · subst hn
      by_cases h : k = k' <;> simp [put, get?_cons, h]
    · by_cases h : k = k'
      · subst h; simp [put, get?_cons, hn]
      · simp [put, get?_cons, hn, h, ih]

theorem get?_eq_none_iff {ms : Members α} {name : String} : ms.get? name = none ↔ name ∉ ms.names := by
  induction ms with
  | nil => simp [get?, names]
  | cons m ms ih =>
    obtain ⟨k, v⟩ := m
    by_cases h : name = k
    · simp [get?_cons, names, h]
    · simpa [get?_cons, names, h] using ih

theorem names_put (ms : Members α) (name : String) (value : α) :
    (ms.put name value).names = if name ∈ ms.names then ms.names else ms.names ++ [name] := by
  induction ms with
  | nil => rfl
  | cons m ms ih =>
    obtain ⟨k, v⟩ := m
    simp only [names] at ih
    by_cases h : k = name
    · simp [put, names, h]
    · by_cases hm : name ∈ ms.map Prod.fst
      · simp [put, names, h, ih, hm]
      · simp [put, names, h, ih, hm, Ne.symm h]

theorem nodup_put {ms : Members α} (h : ms.names.Nodup) (name : String) (value : α) :
    (ms.put name value).names.Nodup := by
  rw [names_put]
  split
  · exact h
  · rename_i hn
    rw [List.nodup_append]
    exact ⟨h, by simp, fun a ha b hb => by simp at hb; subst hb; exact fun e => hn (e ▸ ha)⟩

/-- Of the values put under a name the last counts. -/
theorem get?_putAll (ms more : Members α) (name : String) :
    (ms.putAll more).get? name = (get? more.reverse name).or (ms.get? name) := by
  induction more generalizing ms with
  | nil => rfl
  | cons m more ih =>
    obtain ⟨k, v⟩ := m
    rw [putAll, List.foldl_cons, ← putAll, ih, get?_put, List.reverse_cons, get?_append, get?_cons]
    by_cases h : name = k <;> cases get? more.reverse name <;> simp [h, get?]

theorem nodup_putAll {ms : Members α} (h : ms.names.Nodup) (more : Members α) :
    (ms.putAll more).names.Nodup := by
  induction more generalizing ms with
  | nil => exact h
  | cons m more ih => exact ih (nodup_put h m.1 m.2)

theorem mem_of_get? {ms : Members α} {name : String} {value : α} (h : ms.get? name = some value) :
    (name, value) ∈ ms := by
  induction ms with
  | nil => simp [get?] at h
  | cons m ms ih =>
    obtain ⟨k, v⟩ := m
    rw [get?_cons] at h
    split at h
    · rename_i hk
      rw [hk, ← Option.some.inj h]
      exact List.mem_cons_self
    · exact List.mem_cons_of_mem _ (ih h)

/-- Under distinct names the members are what is looked up. -/
theorem mem_iff_get? {ms : Members α} (hms : ms.names.Nodup) {name : String} {value : α} :
    (name, value) ∈ ms ↔ ms.get? name = some value := by
  refine ⟨fun h => ?_, mem_of_get?⟩
  induction ms with
  | nil => simp at h
  | cons m ms ih =>
    obtain ⟨k, v⟩ := m
    obtain ⟨hk, hms⟩ := List.nodup_cons.1 hms
    rw [get?_cons]
    rcases List.mem_cons.1 h with hm | hm
    · obtain ⟨rfl, rfl⟩ := Prod.mk.inj hm
      rw [if_pos rfl]
    · have hn : name ≠ k := by
        rintro rfl
        exact hk (List.mem_map.2 ⟨_, hm, rfl⟩)
      rw [if_neg hn, ih hms hm]

theorem put_of_not_mem {ms : Members α} {name : String} (h : name ∉ ms.names) (value : α) :
    ms.put name value = ms ++ [(name, value)] := by
  induction ms with
  | nil => rfl
  | cons m ms ih =>
    obtain ⟨k, v⟩ := m
    simp only [names, List.map_cons, List.mem_cons, not_or] at h
    rw [put, if_neg (Ne.symm h.1), ih h.2, List.cons_append]

/-- Names that are all new go last, in order. -/
theorem putAll_of_nodup {ms more : Members α} (h : (names (ms ++ more)).Nodup) :
    ms.putAll more = ms ++ more := by
  induction more generalizing ms with
  | nil => rw [putAll, List.foldl_nil, List.append_nil]
  | cons m more ih =>
    obtain ⟨k, v⟩ := m
    have hk : k ∉ ms.names := by
      intro hk
      simp only [names, List.map_append, List.map_cons, List.nodup_append] at h
      exact h.2.2 k hk k List.mem_cons_self rfl
    have happ : ms ++ (k, v) :: more = ms ++ [(k, v)] ++ more := by simp
    rw [happ] at h
    rw [putAll, List.foldl_cons, ← putAll, put_of_not_mem hk, ih h, happ]

/-! ## First places and last values -/

/-- Each name of some entries once, in the order of their first places, each with
    the value of its last. -/
structure Settled (ms entries : Members α) : Prop where
  names_eq : ms.names = entries.names.eraseDups
  mem_iff : ∀ name value, (name, value) ∈ ms ↔
    ∃ before after, entries = before ++ (name, value) :: after ∧ name ∉ names after

/-- By induction on the members put, new names go last in the order of their first
    places. -/
theorem names_putAll (ms more : Members α) :
    (ms.putAll more).names =
      ms.names ++ (more.names.filter fun name => decide (name ∉ ms.names)).eraseDups := by
  induction more generalizing ms with
  | nil => simp [putAll, names]
  | cons m more ih =>
    obtain ⟨k, v⟩ := m
    rw [putAll, List.foldl_cons, ← putAll, ih, names_put]
    have hcons : names ((k, v) :: more) = k :: names more := rfl
    split
    · rename_i hk
      rw [hcons, List.filter_cons_of_neg (by simpa using hk)]
    · rename_i hk
      rw [hcons, List.filter_cons_of_pos (by simpa using hk), List.eraseDups_cons,
        List.filter_filter, List.append_assoc, List.singleton_append]
      congr 3
      refine List.filter_congr fun name _ => ?_
      rw [Bool.eq_iff_iff]
      simp [and_comm]

/-- The last entry of a name is the first of the reversed ones. -/
theorem get?_reverse_eq_some_iff {entries : Members α} {name : String} {value : α} :
    get? entries.reverse name = some value ↔
      ∃ before after, entries = before ++ (name, value) :: after ∧ name ∉ names after := by
  rw [get?, List.lookup_eq_some_iff]
  constructor
  · rintro ⟨after, before, h, hafter⟩
    refine ⟨before.reverse, after.reverse, ?_, ?_⟩
    · rw [← List.reverse_reverse entries, h]
      simp
    · simpa [names] using fun v hv => by simpa using hafter _ hv
  · rintro ⟨before, after, rfl, hafter⟩
    refine ⟨after.reverse, before.reverse, by simp, fun p hp => ?_⟩
    have hne : name ≠ p.1 := fun e =>
      hafter (e ▸ List.mem_map.2 ⟨p, List.mem_reverse.1 hp, rfl⟩)
    simpa using hne

theorem settled_putAll (entries : Members α) : (putAll [] entries).Settled entries where
  names_eq := by
    have hall : (names entries).filter (fun name => decide (name ∉ names ([] : Members α))) =
        names entries := List.filter_eq_self.2 (by simp [names])
    rw [names_putAll, hall]
    rfl
  mem_iff name value := by
    rw [mem_iff_get? (nodup_putAll (by simp [names]) entries), get?_putAll,
      ← get?_reverse_eq_some_iff]
    simp [get?]

end Members

end TableQuery
