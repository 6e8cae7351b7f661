import DocDigest.Text.Basic

/-!
# JSON values

A value keeps what was written: a number its literal, an object its members in order and with
repetitions, and a string its units, for an escape may stand for half a surrogate pair and a string
with such a half alone denotes no text.
-/

set_option autoImplicit false

namespace DocDigest

namespace Json

/-- A unit of a string. -/
inductive Unit where
  /-- A character, written as itself or as an escape. -/
  | char (c : Char)
  /-- An escape for a surrogate code point. -/
  | half (code : Nat)
deriving DecidableEq

def isHighHalf (code : Nat) : Bool := 0xD800 ≤ code && code < 0xDC00

def isLowHalf (code : Nat) : Bool := 0xDC00 ≤ code && code < 0xE000

/-- The character that a surrogate pair stands for. -/
def ofHalves (high low : Nat) : Char :=
  Char.ofNat (0x10000 + (high - 0xD800) * 0x400 + (low - 0xDC00))

/-- The text that units denote: a first and a second half together are one character, and there is
no text if a half stands alone. -/
def textOf? : List Unit → Option Text
  | [] => some []
  | .char c :: us => (textOf? us).map (c :: ·)
  | .half high :: .half low :: us =>
    if isHighHalf high && isLowHalf low then (textOf? us).map (ofHalves high low :: ·) else none
  | .half _ :: _ => none

/-- The units of a text. -/
def unitsOf (t : Text) : List Unit := t.map .char

/-- A text is what its units denote. -/
theorem textOf?_unitsOf (t : Text) : textOf? (unitsOf t) = some t := by
  induction t with
  | nil => rfl
  | cons c cs ih =>
    rw [unitsOf] at ih
    simp [unitsOf, textOf?, ih]

end Json

/-- A JSON value, as it is written. -/
inductive Json where
  | null
  | bool (b : Bool)
  | number (literal : Text)
  | string (units : List Json.Unit)
  | array (items : List Json)
  | object (members : List (List Json.Unit × Json))

namespace Json

/-! ## Making values -/

def ofText (t : Text) : Json := .string (unitsOf t)

def ofNat (n : Nat) : Json := .number (Nat.toDigits 10 n)

def ofTexts (ts : List Text) : Json := .array (ts.map ofText)

def ofMembers (ms : List (Text × Json)) : Json := .object (ms.map fun (k, v) => (unitsOf k, v))

/-! ## Reading values -/

/-- The text that a value denotes, if it is a string that denotes one. -/
def asText? : Json → Option Text
  | .string us => textOf? us
  | _ => none

def asTexts? : Json → Option (List Text)
  | .array items => items.mapM asText?
  | _ => none

def asBool? : Json → Option Bool
  | .bool b => some b
  | _ => none

/-- The number that decimal digits spell. -/
def ofDigits (ds : Text) : Nat := ds.foldl (fun n d => n * 10 + (d.toNat - '0'.toNat)) 0

def wordCount : Nat := 18446744073709551616

/-- The word that a value denotes: a natural number in digits alone, without sign, point or
exponent, that 64 bits can hold. -/
def asWord? : Json → Option Nat
  | .number literal =>
    if literal.all Char.isDigit && ofDigits literal < wordCount then some (ofDigits literal)
    else none
  | _ => none

/-- Reads a value that may be `null`. -/
def orNull {α : Type} (read : Json → Option α) : Json → Option (Option α)
  | .null => some none
  | v => (read v).map some

/-! ## Records -/

/-- The members of an object with their keys as texts, unless a key denotes none. -/
def textMembers? (ms : List (List Unit × Json)) : Option (List (Text × Json)) :=
  ms.mapM fun (k, v) => (textOf? k).map (·, v)

def allDistinct : List Text → Bool
  | [] => true
  | k :: ks => !ks.contains k && allDistinct ks

/-- The values of a record's fields, in the order of their names: an object's members, no name
twice, or an array's items, which may stop early. With `closed`, an object has no other members. -/
def fields? (names : List Text) (closed : Bool) : Json → Option (List (Option Json))
  | .object ms => do
    let ms ← textMembers? ms
    let known := ms.filter fun m => names.contains m.1
    if closed && known.length != ms.length then none
    else if allDistinct (known.map (·.1)) then some (names.map fun name => known.lookup name)
    else none
  | .array items =>
    if items.length ≤ names.length then
      some (items.map some ++ List.replicate (names.length - items.length) none)
    else none
  | _ => none

end Json

end DocDigest
