/-
  Doubling a quote character, so that a text can stand between two of them:
  inside the literal two quotes stand for one and a lone quote ends it.

  * `double` writes, `readLiteral?` reads up to the closing quote;
  * `readLiteral?_eq_some_iff`: a doubled text followed by one more quote reads
    back, and nothing else is read.
-/
namespace TableQuery.Text

/-- The text with every `q` written twice. -/
def double (q : Char) : List Char → List Char
  | [] => []
  | c :: cs => if c = q then q :: q :: double q cs else c :: double q cs

/-- The text of a literal whose opening `q` is already read, and what follows
    its closing `q`. -/
def readLiteral? (q : Char) : List Char → Option (List Char × List Char)
  | [] => none
  | c :: cs =>
    if c = q then
      match cs with
      | d :: ds => if d = q then (readLiteral? q ds).map fun (s, r) => (q :: s, r) else some ([], cs)
      | [] => some ([], [])
    else (readLiteral? q cs).map fun (s, r) => (c :: s, r)

@[simp] theorem double_nil (q : Char) : double q [] = [] := rfl

theorem double_append (q : Char) (s t : List Char) : double q (s ++ t) = double q s ++ double q t := by
  induction s with
  | nil => rfl
  | cons c s ih => by_cases h : c = q <;> simp [double, h, ih]

theorem double_eq_self {q : Char} {s : List Char} (h : q ∉ s) : double q s = s := by
  induction s with
  | nil => rfl
  | cons c s ih =>
    simp only [List.mem_cons, not_or] at h
    simp [double, Ne.symm h.1, ih h.2]

theorem readLiteral?_cons_of_ne {q c : Char} (h : c ≠ q) (cs : List Char) :
    readLiteral? q (c :: cs) = (readLiteral? q cs).map fun (s, r) => (c :: s, r) := by
  cases cs <;> simp [readLiteral?, h]

/-- Reading gives back what was doubled, if no further quote follows. -/
theorem readLiteral?_double {q : Char} (s : List Char) {rest : List Char} (h : rest.head? ≠ some q) :
    readLiteral? q (double q s ++ q :: rest) = some (s, rest) := by
  induction s with
  | nil => cases rest <;> simp_all [readLiteral?]
  | cons c s ih =>
    by_cases hc : c = q
    · simp [double, readLiteral?, hc, ih]
    · simp [double, readLiteral?_cons_of_ne hc, hc, ih]

/-- Only a doubled text and its closing quote are read, and no further quote
    follows. -/
theorem eq_double_of_readLiteral? {q : Char} {cs s rest : List Char}
    (h : readLiteral? q cs = some (s, rest)) :
    cs = double q s ++ q :: rest ∧ rest.head? ≠ some q := by
  fun_induction readLiteral? q cs generalizing s with
  | case1 => cases h
  | case2 d ih =>
    obtain ⟨⟨t, r⟩, ht, hr⟩ := Option.map_eq_some_iff.1 h
    obtain ⟨rfl, rfl⟩ := Prod.mk.inj hr
    obtain ⟨hd, hq⟩ := ih ht
    exact ⟨by simp [double, hd], hq⟩
  | case3 d ds hd =>
    obtain ⟨rfl, rfl⟩ := Prod.mk.inj (Option.some.inj h)
    exact ⟨rfl, by simpa using hd⟩
  | case4 =>
    obtain ⟨rfl, rfl⟩ := Prod.mk.inj (Option.some.inj h)
    exact ⟨rfl, by simp⟩
  | case5 c cs hc ih =>
    obtain ⟨⟨t, r⟩, ht, hr⟩ := Option.map_eq_some_iff.1 h
    obtain ⟨rfl, rfl⟩ := Prod.mk.inj hr
    obtain ⟨hd, hq⟩ := ih ht
    exact ⟨by simp [double, hc, hd], hq⟩

theorem readLiteral?_eq_some_iff {q : Char} {cs s rest : List Char} :
    readLiteral? q cs = some (s, rest) ↔ cs = double q s ++ q :: rest ∧ rest.head? ≠ some q :=
  ⟨eq_double_of_readLiteral?, fun ⟨h, hq⟩ => h ▸ readLiteral?_double s hq⟩

end TableQuery.Text
