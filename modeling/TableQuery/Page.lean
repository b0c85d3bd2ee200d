/-
  The page window: which rows of the table are shown.

  A form holds the page number, counted from one, and the page size under two
  reserved names. Both are natural numbers of 64 bits, as numbers or as text
  with blanks around, a leading `+` or leading zeros. The number of rows before
  the page has to fit into 64 bits as well.
-/
import TableQuery.Error
import TableQuery.Param
import TableQuery.Text.Blank

namespace TableQuery

/-- A page number and size, neither of them zero. -/
structure Page where
  current : Nat
  size : Nat
  current_pos : 0 < current
  size_pos : 0 < size

namespace Page

def ofNumbers (current size : Nat) : Except PageFault Page :=
  if hc : current = 0 then .error (.zero .current)
  else if hs : size = 0 then .error (.zero .pageSize)
  else .ok ⟨current, size, Nat.pos_of_ne_zero hc, Nat.pos_of_ne_zero hs⟩

/-- The number that a text of digits denotes. -/
def ofText? (s : String) : Option Nat :=
  (Decimal.natural? (Text.trim s.toList)).filter (· < Number.wordCount)

def readNumber (params : Params) (key : PageKey) : Except PageFault Nat :=
  match Members.get? params key.name with
  | none | some (.leaf (.scalar .null)) => .error (.missing key)
  | some (.leaf (.scalar (.number n))) =>
    match n.toNat? with
    | some n => .ok n
    | none => .error (.notNaturalNumber key n)
  | some (.leaf (.scalar (.text s))) =>
    match ofText? s with
    | some n => .ok n
    | none => .error (.notNaturalText key s)
  | some _ => .error (.notNumber key)

/-- The page window of a form, of a size up to a limit. -/
def ofParams (params : Params) (limit : Nat) : Except PageFault Page := do
  let current ← readNumber params .current
  let size ← readNumber params .pageSize
  let page ← ofNumbers current size
  if limit < page.size then throw (.aboveLimit page.size limit)
  return page

/-- The number of rows on the page. -/
def top (p : Page) : Nat :=
  p.size

/-- The number of rows before the page. -/
def skip (p : Page) : Except PageFault Nat :=
  let rows := (p.current - 1) * p.size
  if rows < Number.wordCount then .ok rows else .error (.overflow p.current p.size)

end Page

end TableQuery
