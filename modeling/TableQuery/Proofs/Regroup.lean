/-
  Parameters rebuilt from their entries.

  With ordinary names, that are not empty and have no separator, a path tells the
  names that lead to its leaf, and the order of the entries tells the order of all
  names.

  * `Path.segments_ofSegments`: the names are cut out of the path again;
  * `flatten_of_plain`: every leaf has an entry of its own;
  * `graftAll_leaves`, `regroup_flatten`: nested again, the entries make the tree,
    without its groups that have no leaf.
-/
import Mathlib.Data.List.Nodup
import TableQuery.Proofs.Listing

namespace TableQuery

/-! ## Paths of ordinary names -/

namespace Path

/-- A name that is not empty and has no separator. -/
def Plain (name : String) : Prop :=
  name ≠ "" ∧ '/' ∉ name.toList

instance (name : String) : Decidable (Plain name) :=
  inferInstanceAs (Decidable (name ≠ "" ∧ '/' ∉ name.toList))

/-- The pieces of a path between separators. -/
def segments (path : String) : List String :=
  (path.toList.splitOn '/').map String.ofList

theorem segments_ofSegments {names : List String} (hne : names ≠ [])
    (h : ∀ name ∈ names, Plain name) : segments (ofSegments names) = names := by
  have hsep : ∀ l ∈ names.map String.toList, '/' ∉ l := by
    intro l hl
    obtain ⟨name, hname, rfl⟩ := List.mem_map.1 hl
    exact (h name hname).2
  have hcut : (ofSegments names).toList.splitOn '/' = names.map String.toList := by
    rw [ofSegments, String.toList_intercalate]
    exact List.splitOn_intercalate '/' hsep (by simpa using hne)
  rw [segments, hcut, List.map_map]
  simp [Function.comp_def]

end Path

/-! ## Trees -/

mutual

/-- A parameter without the groups below it that have no leaf. -/
def Param.prune : Param → Param
  | .leaf l => .leaf l
  | .group ms => .group (Params.prune ms)

/-- Parameters without the groups that have no leaf, at any depth. -/
def Params.prune : List (String × Param) → List (String × Param)
  | [] => []
  | (name, p) :: ps => if p.leaves = [] then Params.prune ps else (name, p.prune) :: Params.prune ps

end

namespace Params

/-- Names are ordinary, and none stands twice on one level, as in every object. -/
inductive Plain : Params → Prop
  | nil : Plain []
  | leaf {name : String} {l : Leaf} {ps : Params} (hname : Path.Plain name)
      (hnew : name ∉ Members.names ps) (h : Plain ps) : Plain ((name, .leaf l) :: ps)
  | group {name : String} {ms ps : Params} (hname : Path.Plain name)
      (hnew : name ∉ Members.names ps) (hms : Plain ms) (h : Plain ps) :
      Plain ((name, .group ms) :: ps)

/-- Every group, at any depth, has a leaf. -/
inductive Full : Params → Prop
  | nil : Full []
  | leaf {name : String} {l : Leaf} {ps : Params} (h : Full ps) : Full ((name, .leaf l) :: ps)
  | group {name : String} {ms ps : Params} (hne : leaves ms ≠ []) (hms : Full ms) (h : Full ps) :
      Full ((name, .group ms) :: ps)

/-- The members of the group under a name, if there is one. -/
def groupAt (ps : Params) (name : String) : Params :=
  match Members.get? ps name with
  | some (.group ms) => ms
  | _ => []

/-- Put a leaf under names, each below the one before. A group that is not there yet
    goes last. -/
def graft (l : Leaf) : List String → Params → Params
  | [], ps => ps
  | [name], ps => Members.put ps name (.leaf l)
  | name :: next :: names, ps =>
    Members.put ps name (.group (graft l (next :: names) (groupAt ps name)))

/-- Put leaves under their names, one after the other. -/
def graftAll (ps : Params) (ls : List (List String × Leaf)) : Params :=
  ls.foldl (fun ps e => graft e.2 e.1 ps) ps

/-- The parameters that entries make if their paths are cut and nested. -/
def regroup (es : Members Leaf) : Params :=
  graftAll [] (es.map fun e => (Path.segments e.1, e.2))

/-! ## One entry for each leaf -/

variable {ps ms qs : Params} {name : String} {names : List String} {l : Leaf}

/-- The names that lead to a leaf are ordinary ones, at least one. -/
theorem Plain.names_of_mem (h : ps.Plain) {e : List String × Leaf} (he : e ∈ leaves ps) :
    e.1 ≠ [] ∧ ∀ name ∈ e.1, Path.Plain name := by
  induction h generalizing e with
  | nil => simp [leaves] at he
  | leaf hname _ _ ih =>
    rcases List.mem_append.1 he with he | he
    · simp only [Param.leaves, List.map_cons, List.map_nil, List.mem_singleton] at he
      subst he
      simpa using hname
    · exact ih he
  | group hname _ _ _ ihms ih =>
    rcases List.mem_append.1 he with he | he
    · obtain ⟨e', he', rfl⟩ := List.mem_map.1 he
      exact ⟨by simp, List.forall_mem_cons.2 ⟨hname, (ihms he').2⟩⟩
    · exact ih he

/-- Leaves under a new name are none of the others. -/
theorem head_ne_of_mem (hnew : name ∉ Members.names ps) {e : List String × Leaf}
    (he : e ∈ leaves ps) : ∀ rest, e.1 ≠ name :: rest := by
  intro rest h
  obtain ⟨m, hm, names, hnames⟩ := exists_member he
  rw [h] at hnames
  obtain ⟨rfl, -⟩ := List.cons.inj hnames
  exact hnew (List.mem_map.2 ⟨m, hm, rfl⟩)

/-- By induction on the tree, no names lead to two leaves. -/
theorem Plain.nodup_leaves (h : ps.Plain) : ((leaves ps).map Prod.fst).Nodup := by
  induction h with
  | nil => simp [leaves]
  | @leaf name l ps _ hnew _ ih =>
    have hcons : (leaves ((name, .leaf l) :: ps)).map Prod.fst =
        [name] :: (leaves ps).map Prod.fst := rfl
    rw [hcons, List.nodup_cons]
    refine ⟨fun hm => ?_, ih⟩
    obtain ⟨e, he, hname⟩ := List.mem_map.1 hm
    exact head_ne_of_mem hnew he [] hname
  | @group name ms ps _ hnew _ _ ihms ih =>
    have happ : (leaves ((name, .group ms) :: ps)).map Prod.fst =
        ((leaves ms).map Prod.fst).map (name :: ·) ++ (leaves ps).map Prod.fst := by
      simp [leaves, Param.leaves, Function.comp_def]
    rw [happ, List.nodup_append]
    refine ⟨?_, ih, ?_⟩
    · rw [List.nodup_map_iff fun _ _ h => (List.cons.inj h).2]
      exact ihms
    · rintro names hnames _ hm rfl
      obtain ⟨rest, -, rfl⟩ := List.mem_map.1 hnames
      obtain ⟨e, he, hname⟩ := List.mem_map.1 hm
      exact head_ne_of_mem hnew he rest hname

theorem Plain.rooted (h : ps.Plain) : ps.Rooted := by
  rintro _ l hr name rest rfl
  have hp := (h.names_of_mem (mem_leaves_iff.2 hr)).2 "" List.mem_cons_self
  exact hp.1 rfl

/-- The paths are cut into the names that lead to the leaves. -/
theorem Plain.segments_listing (h : ps.Plain) :
    (listing Path.ofSegments ps).map (fun e => (Path.segments e.1, e.2)) = leaves ps := by
  rw [listing, List.map_map]
  refine (List.map_congr_left fun e he => ?_).trans (List.map_id _)
  obtain ⟨hne, hplain⟩ := h.names_of_mem he
  simp [Path.segments_ofSegments hne hplain]

theorem Plain.nodup_listing (h : ps.Plain) : (listing Path.ofSegments ps).names.Nodup := by
  have hs : (Members.names (listing Path.ofSegments ps)).map Path.segments =
      (leaves ps).map Prod.fst := by
    rw [← h.segments_listing, Members.names, List.map_map, List.map_map]
    rfl
  exact List.Nodup.of_map Path.segments (hs ▸ h.nodup_leaves)

/-- Every leaf has an entry of its own, at the path of its names. -/
theorem flatten_of_plain (h : ps.Plain) : ps.flatten = listing Path.ofSegments ps := by
  have hl : Leaf.placed "" (leaves ps) = listing Path.ofSegments ps :=
    (placed_leaves ps).trans (listing_dropRoot_eq_iff.2 h.rooted)
  have hp : ps.paths.Nodup := by
    rw [← names_placed, hl]
    exact h.nodup_listing
  rw [flatten_of_nodup hp, hl]

/-! ## The tree of the entries -/

theorem graft_cons (h : names ≠ []) :
    graft l (name :: names) ps =
      Members.put ps name (.group (graft l names (groupAt ps name))) := by
  cases names with
  | nil => exact absurd rfl h
  | cons next names => rfl

theorem groupAt_of_not_mem (h : name ∉ Members.names ps) : groupAt ps name = [] := by
  rw [groupAt, Members.get?_eq_none_iff.2 h]

theorem groupAt_concat (h : name ∉ Members.names ps) (ms : Params) :
    groupAt (ps ++ [(name, .group ms)]) name = ms := by
  rw [groupAt, Members.get?_append, Members.get?_eq_none_iff.2 h, Members.get?_cons, if_pos rfl,
    Option.none_or]

theorem put_concat (h : name ∉ Members.names ps) (p q : Param) :
    Members.put (ps ++ [(name, p)]) name q = ps ++ [(name, q)] := by
  induction ps with
  | nil => simp [Members.put]
  | cons m ps ih =>
    obtain ⟨k, p'⟩ := m
    simp only [Members.names, List.map_cons, List.mem_cons, not_or] at h
    rw [List.cons_append, Members.put, if_neg (Ne.symm h.1), ih h.2, List.cons_append]

/-- Leaves whose names begin with that of the last group go into it. -/
theorem graftAll_concat (h : name ∉ Members.names ps) {ls : List (List String × Leaf)}
    (hls : ∀ e ∈ ls, e.1 ≠ []) (ms : Params) :
    graftAll (ps ++ [(name, .group ms)]) (ls.map fun e => (name :: e.1, e.2)) =
      ps ++ [(name, .group (graftAll ms ls))] := by
  induction ls generalizing ms with
  | nil => rfl
  | cons e ls ih =>
    obtain ⟨he, hls⟩ := List.forall_mem_cons.1 hls
    rw [List.map_cons, graftAll, List.foldl_cons, ← graftAll, graft_cons he, groupAt_concat h,
      put_concat h, ih hls]
    rfl

/-- Leaves whose names begin with a new one make a group of their own. -/
theorem graftAll_new (h : name ∉ Members.names ps) {ls : List (List String × Leaf)}
    (hne : ls ≠ []) (hls : ∀ e ∈ ls, e.1 ≠ []) :
    graftAll ps (ls.map fun e => (name :: e.1, e.2)) =
      ps ++ [(name, .group (graftAll [] ls))] := by
  obtain ⟨e, ls, rfl⟩ := List.exists_cons_of_ne_nil hne
  obtain ⟨he, hls⟩ := List.forall_mem_cons.1 hls
  rw [List.map_cons, graftAll, List.foldl_cons, ← graftAll, graft_cons he, groupAt_of_not_mem h,
    Members.put_of_not_mem h, graftAll_concat h hls]
  rfl

theorem prune_leaf : prune ((name, .leaf l) :: ps) = (name, .leaf l) :: prune ps := by
  rw [prune, if_neg (by simp [Param.leaves])]
  rfl

theorem prune_leafless (h : leaves ms = []) : prune ((name, .group ms) :: ps) = prune ps := by
  rw [prune, Param.leaves, if_pos h]

theorem prune_group (h : leaves ms ≠ []) :
    prune ((name, .group ms) :: ps) = (name, .group (prune ms)) :: prune ps := by
  rw [prune, Param.leaves, if_neg h]
  rfl

theorem not_mem_names_concat (hnew : name ∉ Members.names ps)
    (hps : ∀ n ∈ Members.names ps, n ∉ Members.names qs) (p : Param) :
    ∀ n ∈ Members.names ps, n ∉ Members.names (qs ++ [(name, p)]) := by
  intro n hn hm
  rw [Members.names, List.map_append, List.mem_append] at hm
  rcases hm with hm | hm
  · exact hps n hn hm
  · rw [List.mem_singleton.1 hm] at hn
    exact hnew hn

/-- By induction on the tree, its leaves make it behind members under other names,
    without the groups that have no leaf. -/
theorem graftAll_leaves (h : ps.Plain)
    (hqs : ∀ n ∈ Members.names ps, n ∉ Members.names qs) :
    graftAll qs (leaves ps) = qs ++ prune ps := by
  induction h generalizing qs with
  | nil => simp [leaves, prune, graftAll]
  | @leaf name l ps _ hnew _ ih =>
    obtain ⟨hname, hps⟩ := List.forall_mem_cons.1 hqs
    have hl : graftAll qs (leaves ((name, .leaf l) :: ps)) =
        graftAll (Members.put qs name (.leaf l)) (leaves ps) := rfl
    rw [hl, Members.put_of_not_mem hname, ih (not_mem_names_concat hnew hps _), prune_leaf,
      List.append_assoc]
    rfl
  | @group name ms ps _ hnew hms _ ihms ih =>
    obtain ⟨hname, hps⟩ := List.forall_mem_cons.1 hqs
    have hl : leaves ((name, .group ms) :: ps) =
        (leaves ms).map (fun e => (name :: e.1, e.2)) ++ leaves ps := rfl
    rw [hl, graftAll, List.foldl_append, ← graftAll, ← graftAll]
    by_cases hne : leaves ms = []
    · rw [prune_leafless hne, hne]
      exact ih hps
    · rw [prune_group hne, graftAll_new hname hne fun e he => (hms.names_of_mem he).1,
        ihms (by simp [Members.names]), ih (not_mem_names_concat hnew hps _), List.append_assoc]
      rfl

theorem Full.prune_eq (h : ps.Full) : prune ps = ps := by
  induction h with
  | nil => rfl
  | leaf _ ih => rw [prune_leaf, ih]
  | group hne _ _ ihms ih => rw [prune_group hne, ihms, ih]

theorem regroup_of_plain (h : ps.Plain) : regroup ps.flatten = prune ps := by
  rw [regroup, flatten_of_plain h, h.segments_listing]
  exact graftAll_leaves h (by simp [Members.names])

/-- **Parameters and their entries.**  With ordinary names, every leaf has an entry of
    its own, at the path of its names. Cut into names and nested in order, the
    entries make the parameters again, without the groups that have no leaf; so
    parameters without such groups are told by their entries. -/
theorem regroup_flatten (h : ps.Plain) :
    ps.flatten = listing Path.ofSegments ps ∧ ps.flatten.names.Nodup ∧
      regroup ps.flatten = prune ps ∧
      ∀ qs : Params, qs.Plain → ps.Full → qs.Full → ps.flatten = qs.flatten → ps = qs := by
  refine ⟨flatten_of_plain h, nodup_flatten ps, regroup_of_plain h, fun qs hq hps hqs he => ?_⟩
  have hr : prune ps = prune qs := by
    rw [← regroup_of_plain h, he, regroup_of_plain hq]
  rw [← hps.prune_eq, hr, hqs.prune_eq]

/-- Members beside a group of two levels, the last of which has no leaf. -/
def nestedForm : Params :=
  [("name", .leaf (.scalar (.text "jo"))),
    ("owner", .group [("city", .leaf (.scalar (.text "Paris"))), ("tags", .group [])])]

/-- The same without the group that has no leaf. -/
def fullForm : Params :=
  [("name", .leaf (.scalar (.text "jo"))),
    ("owner", .group [("city", .leaf (.scalar (.text "Paris")))])]

/-- Its members in another order. -/
def turnedForm : Params :=
  [("owner", .group [("city", .leaf (.scalar (.text "Paris")))]),
    ("name", .leaf (.scalar (.text "jo")))]

theorem regroup_flatten_nested :
    nestedForm.Plain ∧ nestedForm.flatten =
        [("name", .scalar (.text "jo")), ("owner/city", .scalar (.text "Paris"))] ∧
      regroup nestedForm.flatten = fullForm ∧
      (fullForm.Plain ∧ fullForm.Full) ∧ (turnedForm.Plain ∧ turnedForm.Full) ∧
      fullForm.flatten ≠ turnedForm.flatten := by
  have hnested : nestedForm.Plain :=
    .leaf (by decide) (by decide)
      (.group (by decide) (by decide)
        (.leaf (by decide) (by decide) (.group (by decide) (by decide) .nil .nil)) .nil)
  have hplain : fullForm.Plain :=
    .leaf (by decide) (by decide)
      (.group (by decide) (by decide) (.leaf (by decide) (by decide) .nil) .nil)
  have hfull : fullForm.Full := .leaf (.group (by decide) (.leaf .nil) .nil)
  have hturned : turnedForm.Plain :=
    .group (by decide) (by decide) (.leaf (by decide) (by decide) .nil)
      (.leaf (by decide) (by decide) .nil)
  have hturnedFull : turnedForm.Full := .group (by decide) (.leaf .nil) (.leaf .nil)
  have hregroup : regroup nestedForm.flatten = prune nestedForm := (regroup_flatten hnested).2.2.1
  refine ⟨hnested, by decide +kernel, hregroup, ⟨hplain, hfull⟩, ⟨hturned, hturnedFull⟩, ?_⟩
  intro he
  have heq : fullForm = turnedForm := (regroup_flatten hplain).2.2.2 _ hturned hfull hturnedFull he
  have hnames := congrArg Members.names heq
  revert hnames
  decide

end Params

end TableQuery
