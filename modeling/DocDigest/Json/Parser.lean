import DocDigest.Json.Basic

/-!
# Reading JSON

The grammar is the strict one: no comments, no comma at the end of an array or object, no leading
zeros, no control characters in strings, and nothing but white space around the value.
-/

set_option autoImplicit false

namespace DocDigest

namespace Json

def isSpace (c : Char) : Bool := c == ' ' || c == '\n' || c == '\t' || c == '\r'

/-- The text from its first token on. -/
def skipSpace (t : Text) : Text := t.dropWhile isSpace

/-! ## Strings -/

def hexValue? (c : Char) : Option Nat :=
  if '0' ≤ c ∧ c ≤ '9' then some (c.toNat - '0'.toNat)
  else if 'a' ≤ c ∧ c ≤ 'f' then some (c.toNat - 'a'.toNat + 10)
  else if 'A' ≤ c ∧ c ≤ 'F' then some (c.toNat - 'A'.toNat + 10)
  else none

/-- The unit that four hexadecimal digits stand for. -/
def hexUnit? (a b c d : Char) : Option Unit := do
  let code :=
    (((← hexValue? a) * 16 + (← hexValue? b)) * 16 + (← hexValue? c)) * 16 + (← hexValue? d)
  some (if isHighHalf code || isLowHalf code then .half code else .char (Char.ofNat code))

/-- The character that a letter after a backslash stands for. -/
def escaped? : Char → Option Char
  | '"' => some '"'
  | '\\' => some '\\'
  | '/' => some '/'
  | 'b' => some '\x08'
  | 'f' => some '\x0C'
  | 'n' => some '\n'
  | 'r' => some '\r'
  | 't' => some '\t'
  | _ => none

/-- Puts a unit before the units that were read after it. -/
def consUnit (u : Unit) (read : List Unit × Text) : List Unit × Text := (u :: read.1, read.2)

/-- Reads a string from after its opening quote to its closing quote: its units, and the text after
it. -/
def units? : Text → Option (List Unit × Text)
  | [] => none
  | '"' :: rest => some ([], rest)
  | '\\' :: 'u' :: a :: b :: c :: d :: rest =>
    (hexUnit? a b c d).bind fun u => (units? rest).map (consUnit u)
  | '\\' :: e :: rest => (escaped? e).bind fun c => (units? rest).map (consUnit (.char c))
  | c :: rest =>
    if c = '\\' ∨ c.toNat < 0x20 then none else (units? rest).map (consUnit (.char c))

/-! ## Numbers -/

/-- Splits off the digits at the front; there has to be one. -/
def digits? (t : Text) : Option (Text × Text) :=
  match t.takeWhile Char.isDigit with
  | [] => none
  | ds => some (ds, t.dropWhile Char.isDigit)

def sign (signs t : Text) : Text × Text :=
  match t with
  | c :: rest => if signs.contains c then ([c], rest) else ([], t)
  | [] => ([], [])

def whole? (t : Text) : Option (Text × Text) := do
  let (ds, rest) ← digits? t
  if ds.head? = some '0' ∧ ds.length ≠ 1 then none else some (ds, rest)

/-- Splits off a point and the digits after it, if there is a point. -/
def fraction? : Text → Option (Text × Text)
  | '.' :: t => (digits? t).map fun (ds, rest) => ('.' :: ds, rest)
  | t => some ([], t)

/-- Splits off an exponent, if there is one. -/
def exponent? : Text → Option (Text × Text)
  | [] => some ([], [])
  | e :: t =>
    if e = 'e' ∨ e = 'E' then
      let (s, t) := sign ['+', '-'] t
      (digits? t).map fun (ds, rest) => (e :: s ++ ds, rest)
    else some ([], e :: t)

def number? (t : Text) : Option (Text × Text) := do
  let (s, t) := sign ['-'] t
  let (w, t) ← whole? t
  let (f, t) ← fraction? t
  let (e, t) ← exponent? t
  some (s ++ w ++ f ++ e, t)

/-! ## Values -/

/-- Reads a value that is neither a string nor an array nor an object. -/
def scalar? (t : Text) : Option (Json × Text) :=
  match after? "null".toList t, after? "true".toList t, after? "false".toList t with
  | some rest, _, _ => some (.null, rest)
  | _, some rest, _ => some (.bool true, rest)
  | _, _, some rest => some (.bool false, rest)
  | _, _, _ => (number? t).map fun (literal, rest) => (.number literal, rest)

mutual

/-- Reads a value at the front of a text; `fuel` bounds the steps. -/
def value? (fuel : Nat) (t : Text) : Option (Json × Text) :=
  match fuel with
  | 0 => none
  | fuel + 1 =>
    match skipSpace t with
    | '"' :: t => (units? t).map fun (us, rest) => (.string us, rest)
    | '[' :: t =>
      match skipSpace t with
      | ']' :: rest => some (.array [], rest)
      | t => (items? fuel t).map fun (items, rest) => (.array items, rest)
    | '{' :: t =>
      match skipSpace t with
      | '}' :: rest => some (.object [], rest)
      | t => (members? fuel t).map fun (ms, rest) => (.object ms, rest)
    | t => scalar? t

/-- Reads the items of an array that has some, and the bracket after them. -/
def items? (fuel : Nat) (t : Text) : Option (List Json × Text) :=
  match fuel with
  | 0 => none
  | fuel + 1 =>
    (value? fuel t).bind fun (v, t) =>
      match skipSpace t with
      | ',' :: t => (items? fuel t).map fun (vs, rest) => (v :: vs, rest)
      | ']' :: rest => some ([v], rest)
      | _ => none

/-- Reads the members of an object that has some, and the brace after them. -/
def members? (fuel : Nat) (t : Text) : Option (List (List Unit × Json) × Text) :=
  match fuel with
  | 0 => none
  | fuel + 1 =>
    match skipSpace t with
    | '"' :: t =>
      (units? t).bind fun (k, t) =>
        match skipSpace t with
        | ':' :: t =>
          (value? fuel t).bind fun (v, t) =>
            match skipSpace t with
            | ',' :: t => (members? fuel t).map fun (ms, rest) => ((k, v) :: ms, rest)
            | '}' :: rest => some ([(k, v)], rest)
            | _ => none
        | _ => none
    | _ => none

end

/-- The value that a whole text spells. A step at each of two levels for every character is more
than a value can need. -/
def parse? (t : Text) : Option Json :=
  match value? (2 * t.length + 2) t with
  | some (v, rest) => if skipSpace rest = [] then some v else none
  | none => none

end Json

end DocDigest
