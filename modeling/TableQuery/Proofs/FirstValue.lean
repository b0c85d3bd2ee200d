/-
  Which value of a base query counts.

  Pieces are taken one after the other, up to the first that is not sound. Each
  of six names keeps the first value that stands under it, and only then are
  empty values left out.

  * `Slots.get_take`, `Slots.get_foldl_take`: what is kept after one pair, and
    after all of them;
  * `parse_eq_run`: reading a base query is this run;
  * `FirstValue`, `get_ofPairs`: so a part is the first value under its plain
    name, or else under its name with `$`;
  * `parse_ofPieces_congr`: nothing else of the pieces counts;
  * `parse_precedence`: what is read, and what changes nothing about it.
-/
import Mathlib.Control.Monad.Basic
import TableQuery.Proofs.BaseQuery
import TableQuery.Proofs.Thinned

namespace TableQuery

namespace BaseQuery

/-! ## One pass over the pieces -/

/-- The parts of a base query. -/
inductive Part where
  | filter
  | orderby
  | expand
  deriving DecidableEq, Repr

namespace Part

def name : Part → String
  | .filter => "filter"
  | .orderby => "orderby"
  | .expand => "expand"

/-- The name of a part, perhaps with a `$` before it. -/
def key (part : Part) (dollar : Bool) : String :=
  if dollar then "$" ++ part.name else part.name

def ofName? : String → Option Part
  | "filter" => some .filter
  | "orderby" => some .orderby
  | "expand" => some .expand
  | _ => none

/-- The part that a name stands for, and whether it has a `$`. -/
def ofKey? (key : String) : Option (Part × Bool) :=
  match key.toList with
  | '$' :: name => (ofName? (String.ofList name)).map fun part => (part, true)
  | _ => (ofName? key).map fun part => (part, false)

theorem ofName?_eq_some_iff {name : String} {part : Part} :
    ofName? name = some part ↔ name = part.name := by
  constructor
  · intro h
    unfold ofName? at h
    split at h
    · rw [← Option.some.inj h]; rfl
    · rw [← Option.some.inj h]; rfl
    · rw [← Option.some.inj h]; rfl
    · cases h
  · rintro rfl
    cases part <;> rfl

theorem toList_key_true (part : Part) : (part.key true).toList = '$' :: part.name.toList := by
  simp [key]

theorem toList_name_ne (part : Part) (cs : List Char) : part.name.toList ≠ '$' :: cs := by
  cases part <;> simp [name]

theorem ofKey?_eq_some_iff {key : String} {part : Part} {dollar : Bool} :
    ofKey? key = some (part, dollar) ↔ key = part.key dollar := by
  unfold ofKey?
  split
  · rename_i cs hk
    rw [Option.map_eq_some_iff]
    constructor
    · rintro ⟨part', hn, he⟩
      obtain ⟨rfl, rfl⟩ := Prod.mk.inj he
      rw [← String.toList_inj, toList_key_true, hk, ← ofName?_eq_some_iff.1 hn,
        String.toList_ofList]
    · rintro rfl
      cases dollar with
      | false => exact absurd hk (toList_name_ne part cs)
      | true =>
        rw [toList_key_true] at hk
        obtain ⟨-, rfl⟩ := List.cons.inj hk
        exact ⟨part, ofName?_eq_some_iff.2 String.ofList_toList, rfl⟩
  · rename_i hk
    rw [Option.map_eq_some_iff]
    constructor
    · rintro ⟨part', hn, he⟩
      obtain ⟨rfl, rfl⟩ := Prod.mk.inj he
      exact ofName?_eq_some_iff.1 hn
    · rintro rfl
      cases dollar with
      | false => exact ⟨part, ofName?_eq_some_iff.2 rfl, rfl⟩
      | true => exact absurd (toList_key_true part) (hk _)

end Part

def get (b : BaseQuery) : Part → Option String
  | .filter => b.filter
  | .orderby => b.orderby
  | .expand => b.expand

/-- With a value for a part, unless it has one. -/
def fill (b : BaseQuery) (part : Part) (value : String) : BaseQuery :=
  match part with
  | .filter => { b with filter := b.filter.or (some value) }
  | .orderby => { b with orderby := b.orderby.or (some value) }
  | .expand => { b with expand := b.expand.or (some value) }

theorem get_fill (b : BaseQuery) (part : Part) (value : String) (p : Part) :
    (b.fill part value).get p = (b.get p).or (if p = part then some value else none) := by
  cases part <;> cases p <;> simp [fill, get]

theorem ext_get {b b' : BaseQuery} : b = b' ↔ ∀ part, b.get part = b'.get part := by
  constructor
  · rintro rfl part
    rfl
  · intro h
    obtain ⟨f, o, e⟩ := b
    obtain ⟨f', o', e'⟩ := b'
    obtain rfl : f = f' := h .filter
    obtain rfl : o = o' := h .orderby
    obtain rfl : e = e' := h .expand
    rfl

/-- The values under the plain names and those under the names with `$`. -/
structure Slots where
  plain : BaseQuery
  dollar : BaseQuery

namespace Slots

def empty : Slots :=
  ⟨BaseQuery.empty, BaseQuery.empty⟩

def get (s : Slots) (dollar : Bool) (part : Part) : Option String :=
  if dollar then s.dollar.get part else s.plain.get part

/-- Take one name and value up: a name of a part keeps the value it has, and any
    other is ignored. -/
def take (s : Slots) (pair : String × String) : Slots :=
  match Part.ofKey? pair.1 with
  | none => s
  | some (part, true) => { s with dollar := s.dollar.fill part pair.2 }
  | some (part, false) => { s with plain := s.plain.fill part pair.2 }

/-- Take piece after piece up, to the first that is not read. -/
def run (s : Slots) : List (List Char) → Except BaseQueryFault Slots
  | [] => .ok s
  | piece :: ps => do
    let pair ← readPiece piece
    run (s.take pair) ps

/-- Empty values are left out, and the names with `$` fill the gaps. -/
def result (s : Slots) : BaseQuery :=
  ⟨(nonEmpty s.plain.filter).or (nonEmpty s.dollar.filter),
    (nonEmpty s.plain.orderby).or (nonEmpty s.dollar.orderby),
    (nonEmpty s.plain.expand).or (nonEmpty s.dollar.expand)⟩

/-- A pair gives its value to the slot of its name, if that is empty. -/
theorem get_take (s : Slots) (pair : String × String) (dollar : Bool) (part : Part) :
    (s.take pair).get dollar part =
      (s.get dollar part).or (if part.key dollar = pair.1 then some pair.2 else none) := by
  have hkey : part.key dollar = pair.1 ↔ Part.ofKey? pair.1 = some (part, dollar) :=
    eq_comm.trans Part.ofKey?_eq_some_iff.symm
  simp only [hkey]
  unfold take
  split
  · rename_i hk
    simp [hk]
  · rename_i part' hk
    cases dollar <;> simp [hk, get, get_fill, eq_comm]
  · rename_i part' hk
    cases dollar <;> simp [hk, get, get_fill, eq_comm]

/-- By induction on the pairs, a slot keeps the first value under its name. -/
theorem get_foldl_take (s : Slots) (pairs : List (String × String)) (dollar : Bool) (part : Part) :
    (pairs.foldl take s).get dollar part =
      (s.get dollar part).or (pairs.lookup (part.key dollar)) := by
  induction pairs generalizing s with
  | nil => simp
  | cons pair pairs ih =>
    rw [List.foldl_cons, ih, get_take, Option.or_assoc, List.lookup_cons]
    by_cases h : part.key dollar = pair.1
    · simp [h]
    · rw [if_neg h, beq_false_of_ne h]
      rfl

theorem run_eq (s : Slots) (ps : List (List Char)) :
    s.run ps = (ps.mapM readPiece).map fun pairs => pairs.foldl take s := by
  induction ps generalizing s with
  | nil => rfl
  | cons piece ps ih =>
    rw [run, List.mapM_cons]
    cases readPiece piece with
    | error fault => rfl
    | ok pair =>
      have hs : ((do let pair ← Except.ok pair; run (s.take pair) ps : Except BaseQueryFault Slots)) =
          run (s.take pair) ps := rfl
      rw [hs, ih]
      cases ps.mapM readPiece <;> rfl

theorem result_get (s : Slots) (part : Part) :
    s.result.get part = (nonEmpty (s.get false part)).or (nonEmpty (s.get true part)) := by
  cases part <;> rfl

end Slots

theorem get_ofPairs (pairs : List (String × String)) (part : Part) :
    (ofPairs pairs).get part =
      (nonEmpty (pairs.lookup part.name)).or (nonEmpty (pairs.lookup ("$" ++ part.name))) := by
  cases part <;> rfl

/-- A base query is read in one pass. -/
theorem parse_eq_run (raw : String) :
    parse raw = (Slots.empty.run (pieces raw.toList)).map Slots.result := by
  have hr : ∀ pairs : List (String × String), ofPairs pairs = (pairs.foldl Slots.take .empty).result := by
    intro pairs
    have he : ∀ dollar part, Slots.empty.get dollar part = none := by
      intro dollar part
      cases dollar <;> cases part <;> rfl
    refine ext_get.2 fun part => ?_
    rw [get_ofPairs, Slots.result_get, Slots.get_foldl_take, Slots.get_foldl_take, he, he,
      Option.none_or, Option.none_or]
    rfl
  rw [parse, Slots.run_eq]
  cases (pieces raw.toList).mapM readPiece with
  | error fault => rfl
  | ok pairs => exact congrArg Except.ok (hr pairs)

/-! ## The pieces that count -/

/-- The name and value of a piece, if it is read. -/
def pair? (piece : List Char) : Option (String × String) :=
  (readPiece piece).toOption

def name? (piece : List Char) : Option String :=
  (pair? piece).map Prod.fst

/-- The first piece with a name has a value. -/
def FirstValue (ps : List (List Char)) (name value : String) : Prop :=
  Past (fun piece => name? piece ≠ some name) (fun piece => pair? piece = some (name, value)) ps

theorem pair?_eq_some_iff {piece : List Char} {pair : String × String} :
    pair? piece = some pair ↔ readPiece piece = .ok pair := by
  unfold pair?
  cases readPiece piece <;> simp [Except.toOption]

theorem exists_pair?_iff {piece : List Char} :
    (∃ pair, pair? piece = some pair) ↔ SoundPiece piece := by
  simp only [pair?_eq_some_iff, exists_readPiece_iff]

theorem firstValue_iff {ps : List (List Char)} {name value : String} :
    FirstValue ps name value ↔ (ps.filterMap pair?).lookup name = some value := by
  induction ps with
  | nil => exact iff_of_false not_past_nil (by simp)
  | cons piece ps ih =>
    rw [FirstValue, past_cons_iff, ← FirstValue, ih, name?]
    cases hp : pair? piece with
    | none => simp [hp]
    | some pair =>
      obtain ⟨key, v⟩ := pair
      rw [List.filterMap_cons_some hp, List.lookup_cons]
      by_cases hk : name = key
      · simp [hk]
      · simp [beq_false_of_ne hk, Ne.symm hk]

theorem parse_eq_ok_iff {raw : String} {base : BaseQuery} :
    parse raw = .ok base ↔ (∀ piece ∈ pieces raw.toList, SoundPiece piece) ∧
      base = ofPairs ((pieces raw.toList).filterMap pair?) := by
  have hm : parse raw = .ok base ↔
      ∃ pairs, (pieces raw.toList).mapM readPiece = .ok pairs ∧ base = ofPairs pairs := by
    rw [parse]
    cases (pieces raw.toList).mapM readPiece <;> simp [Except.map, eq_comm]
  rw [hm]
  simp only [mapM_eq_ok_iff, exists_readPiece_iff]
  constructor
  · rintro ⟨pairs, ⟨hall, rfl⟩, rfl⟩
    exact ⟨hall, rfl⟩
  · rintro ⟨hall, rfl⟩
    exact ⟨_, ⟨hall, rfl⟩, rfl⟩

theorem nonEmpty_eq_some_iff {value : Option String} {v : String} :
    nonEmpty value = some v ↔ value = some v ∧ v ≠ "" := by
  rw [nonEmpty, Option.filter_eq_some_iff, decide_eq_true_iff]

/-- A part is the first value under its plain name, or, without one that is not
    empty, the first under its name with `$`. -/
theorem get_eq_some_iff {ps : List (List Char)} {part : Part} {value : String} :
    (ofPairs (ps.filterMap pair?)).get part = some value ↔
      value ≠ "" ∧ (FirstValue ps part.name value ∨
        (∀ v, FirstValue ps part.name v → v = "") ∧ FirstValue ps ("$" ++ part.name) value) := by
  simp only [firstValue_iff]
  rw [get_ofPairs, Option.or_eq_some_iff, nonEmpty_eq_some_iff, nonEmpty_eq_some_iff]
  have hnone : nonEmpty ((ps.filterMap pair?).lookup part.name) = none ↔
      ∀ v, (ps.filterMap pair?).lookup part.name = some v → v = "" := by
    rw [Option.eq_none_iff_forall_ne_some]
    simp only [Ne, nonEmpty_eq_some_iff, not_and, Decidable.not_not]
  rw [hnone]
  constructor
  · rintro (⟨hv, hne⟩ | ⟨hall, hv, hne⟩)
    · exact ⟨hne, Or.inl hv⟩
    · exact ⟨hne, Or.inr ⟨hall, hv⟩⟩
  · rintro ⟨hne, hv | ⟨hall, hv⟩⟩
    · exact Or.inl ⟨hv, hne⟩
    · exact Or.inr ⟨hall, hv, hne⟩

/-! ## Texts made of pieces -/

/-- The text of pieces, some of them perhaps empty, behind a `?`. -/
def ofPieces (ls : List (List Char)) : String :=
  String.ofList ('?' :: List.intercalate ['&'] ls)

theorem pieces_ofPieces {ls : List (List Char)} (h : ∀ l ∈ ls, '&' ∉ l) :
    pieces (ofPieces ls).toList = ls.filter (· ≠ []) := by
  rw [ofPieces, String.toList_ofList, pieces_intercalate h]

theorem pair?_nil : pair? [] = none := by
  decide

theorem filterMap_pair?_filter (ls : List (List Char)) :
    (ls.filter (· ≠ [])).filterMap pair? = ls.filterMap pair? := by
  induction ls with
  | nil => rfl
  | cons l ls ih =>
    by_cases h : l = []
    · rw [List.filter_cons_of_neg (by simpa using h), ih, h, List.filterMap_cons_none pair?_nil]
    · rw [List.filter_cons_of_pos (by simpa using h), List.filterMap_cons, List.filterMap_cons, ih]

theorem parse_ofPieces_iff {ls : List (List Char)} (h : ∀ l ∈ ls, '&' ∉ l) {base : BaseQuery} :
    parse (ofPieces ls) = .ok base ↔
      (∀ l ∈ ls, l ≠ [] → SoundPiece l) ∧ base = ofPairs (ls.filterMap pair?) := by
  rw [parse_eq_ok_iff, pieces_ofPieces h, filterMap_pair?_filter]
  simp

/-- A text that begins with `?` is that of its pieces. -/
theorem eq_ofPieces {raw : String} {rest : List Char} (h : raw.toList = '?' :: rest) :
    raw = ofPieces (rest.splitOn '&') := by
  rw [ofPieces, List.intercalate_splitOn, ← h, String.ofList_toList]

/-- Only the first values under the names of parts count. -/
theorem parse_ofPieces_congr {ls ls' : List (List Char)} {base : BaseQuery}
    (h : ∀ l ∈ ls, '&' ∉ l) (h' : ∀ l ∈ ls', '&' ∉ l) (hs : ∀ l ∈ ls', l ≠ [] → SoundPiece l)
    (hl : ∀ part : Part, ∀ dollar, (ls'.filterMap pair?).lookup (part.key dollar) =
      (ls.filterMap pair?).lookup (part.key dollar))
    (hb : parse (ofPieces ls) = .ok base) : parse (ofPieces ls') = .ok base := by
  obtain ⟨-, rfl⟩ := (parse_ofPieces_iff h).1 hb
  refine (parse_ofPieces_iff h').2 ⟨hs, ext_get.2 fun part => ?_⟩
  have hplain := hl part false
  have hdollar := hl part true
  simp only [Part.key, if_true, Bool.false_eq_true, if_false] at hplain hdollar
  rw [get_ofPairs, get_ofPairs, hplain, hdollar]

/-- The same pieces in an order that is the same among those with one name. -/
def Reordered (ls ls' : List (List Char)) : Prop :=
  ls.Perm ls' ∧
    ∀ name, ls.filter (fun l => name? l = some name) = ls'.filter fun l => name? l = some name

/-- A sound piece under a name that takes no part. -/
def Ignored (piece : List Char) : Prop :=
  '&' ∉ piece ∧ SoundPiece piece ∧ ∀ part : Part, ∀ dollar, name? piece ≠ some (part.key dollar)

theorem lookup_filterMap_filter (ls : List (List Char)) (name : String) :
    ((ls.filter fun l => name? l = some name).filterMap pair?).lookup name =
      (ls.filterMap pair?).lookup name := by
  induction ls with
  | nil => rfl
  | cons l ls ih =>
    by_cases h : name? l = some name
    · obtain ⟨⟨key, v⟩, hp, rfl⟩ := Option.map_eq_some_iff.1 h
      rw [List.filter_cons_of_pos (by simpa using h), List.filterMap_cons_some hp,
        List.filterMap_cons_some hp, List.lookup_cons_self, List.lookup_cons_self]
    · rw [List.filter_cons_of_neg (by simpa using h), ih]
      cases hp : pair? l with
      | none => rw [List.filterMap_cons_none hp]
      | some pair =>
        have hne : name ≠ pair.1 := by
          rintro rfl
          exact h (by rw [name?, hp]; rfl)
        rw [List.filterMap_cons_some hp, List.lookup_cons, beq_false_of_ne hne]

theorem parse_reordered {ls ls' : List (List Char)} {base : BaseQuery} (h : ∀ l ∈ ls, '&' ∉ l)
    (hr : Reordered ls ls') (hb : parse (ofPieces ls) = .ok base) :
    parse (ofPieces ls') = .ok base := by
  obtain ⟨hp, hf⟩ := hr
  refine parse_ofPieces_congr h (fun l hl => h l (hp.mem_iff.2 hl)) ?_ ?_ hb
  · intro l hl
    exact ((parse_ofPieces_iff h).1 hb).1 l (hp.mem_iff.2 hl)
  · intro part dollar
    rw [← lookup_filterMap_filter, ← hf, lookup_filterMap_filter]

theorem parse_inserted {ls ls' : List (List Char)} {base : BaseQuery} (h : ∀ l ∈ ls, '&' ∉ l)
    (hi : Thinned Ignored ls' ls) (hb : parse (ofPieces ls) = .ok base) :
    parse (ofPieces ls') = .ok base := by
  have hs := ((parse_ofPieces_iff h).1 hb).1
  refine parse_ofPieces_congr h ?_ ?_ ?_ hb
  · intro l hl
    exact (hi.mem_or hl).elim (h l) And.left
  · intro l hl hne
    exact (hi.mem_or hl).elim (fun hl => hs l hl hne) fun hl => hl.2.1
  · intro part dollar
    refine (hi.filterMap pair?).lookup_eq ?_
    rintro pair ⟨l, hl, hp⟩ he
    exact hl.2.2 part dollar (by rw [name?, hp, ← he]; rfl)

/-! ## What is read -/

/-- **What is read of a base query.**  A text is read if all its pieces are sound,
    those that take no part as well, and else has the fault of the first that is
    not; it is read in one pass. A part is the first value under its plain name,
    unless there is none or it is empty, and else the first under its name with
    `$`, unless that is empty. So behind a `?` pieces with different names may
    change places, and ignored ones may be put in anywhere. Blanks around a base
    query do not count. -/
theorem parse_precedence (raw : String) :
    ((∃ base, parse raw = .ok base) ↔ ∀ piece ∈ pieces raw.toList, SoundPiece piece) ∧
    (∀ fault, parse raw = .error fault ↔
      Past SoundPiece (fun piece => readPiece piece = .error fault) (pieces raw.toList)) ∧
    parse raw = (Slots.empty.run (pieces raw.toList)).map Slots.result ∧
    (∀ base, parse raw = .ok base →
      (∀ part value, base.get part = some value ↔ value ≠ "" ∧
        (FirstValue (pieces raw.toList) part.name value ∨
          (∀ v, FirstValue (pieces raw.toList) part.name v → v = "") ∧
            FirstValue (pieces raw.toList) ("$" ++ part.name) value)) ∧
      ∀ rest, raw.toList = '?' :: rest →
        ∀ ls, Reordered (rest.splitOn '&') ls ∨ Thinned Ignored ls (rest.splitOn '&') →
          parse (ofPieces ls) = .ok base) ∧
    parse? (some raw) = parse (String.ofList (Text.trim raw.toList)) := by
  refine ⟨?_, ?_, parse_eq_run raw, ?_, ?_⟩
  · simp only [parse_eq_ok_iff]
    exact ⟨fun ⟨_, hall, _⟩ => hall, fun hall => ⟨_, hall, rfl⟩⟩
  · intro fault
    have hm : parse raw = .error fault ↔
        (pieces raw.toList).mapM readPiece = .error fault := by
      rw [parse]
      cases (pieces raw.toList).mapM readPiece <;> simp [Except.map]
    rw [hm, mapM_eq_error_iff]
    simp only [exists_readPiece_iff]
  · intro base hb
    refine ⟨fun part value => ?_, fun rest hrest ls hls => ?_⟩
    · rw [(parse_eq_ok_iff.1 hb).2]
      exact get_eq_some_iff
    · have hamp : ∀ l ∈ rest.splitOn '&', '&' ∉ l := fun l hl => (Text.mem_splitOn hl).1
      rw [eq_ofPieces hrest] at hb
      exact hls.elim (fun hr => parse_reordered hamp hr hb) fun hi => parse_inserted hamp hi hb
  · simp only [parse?]
    split_ifs with h
    · -- blank, or nothing behind the mark: no piece is there
      rcases h with h | h <;> rw [h] <;> rfl
    · rfl

/-- A part under three spellings, the first of the plain ones empty, and a piece
    without characters. -/
def spelledPieces : List (List Char) :=
  ["$filter=a".toList, "%66ilter=".toList, [], "orderby=x+y".toList, "filter=b".toList]

/-- The name of the piece that is put in is `$$filter`. -/
theorem parse_precedence_spelled :
    parse (ofPieces spelledPieces) = .ok ⟨some "a", some "x y", none⟩ ∧
      FirstValue (pieces (ofPieces spelledPieces).toList) "filter" "" ∧
      FirstValue (pieces (ofPieces spelledPieces).toList) "$filter" "a" ∧
      parse (ofPieces ("%24$filter=c".toList :: spelledPieces)) =
        .ok ⟨some "a", some "x y", none⟩ := by
  have hb : parse (ofPieces spelledPieces) = .ok ⟨some "a", some "x y", none⟩ := by
    decide +kernel
  obtain ⟨hget, hrest⟩ := (parse_precedence (ofPieces spelledPieces)).2.2.2.1 _ hb
  have hempty : FirstValue (pieces (ofPieces spelledPieces).toList) "filter" "" :=
    firstValue_iff.2 (by decide +kernel)
  have hdollar : FirstValue (pieces (ofPieces spelledPieces).toList) "$filter" "a" := by
    obtain ⟨-, h | ⟨-, h⟩⟩ := (hget .filter "a").1 rfl
    · have he := (firstValue_iff.1 hempty).symm.trans (firstValue_iff.1 h)
      exact absurd (Option.some.inj he) (by decide)
    · exact h
  have hi : Ignored "%24$filter=c".toList := by
    refine ⟨by decide, exists_pair?_iff.1 ⟨("$$filter", "c"), by decide +kernel⟩, ?_⟩
    intro part dollar
    have hn : name? "%24$filter=c".toList = some "$$filter" := by decide +kernel
    rw [hn]
    cases part <;> cases dollar <;> decide
  have hsplit : (List.intercalate ['&'] spelledPieces).splitOn '&' = spelledPieces := by
    decide +kernel
  have hself : Thinned Ignored spelledPieces spelledPieces :=
    .keep _ (.keep _ (.keep _ (.keep _ (.keep _ .nil))))
  refine ⟨hb, hempty, hdollar, hrest _ String.toList_ofList _ (Or.inr ?_)⟩
  rw [hsplit]
  exact .drop hi hself

end BaseQuery

end TableQuery
