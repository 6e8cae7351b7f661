import DocDigest.Json.Basic

/-!
# Writing JSON

Strings escape quotes, backslashes and control characters and nothing else. A value is written on
one line, or with each item and member on a line of its own, two spaces further in than its array or
object.
-/

set_option autoImplicit false

namespace DocDigest

namespace Json

/-- The two ways to lay a value out. -/
inductive Layout where
  | compact
  | indented

def hexDigit (n : Nat) : Char := if n < 10 then Char.ofNat (48 + n) else Char.ofNat (87 + n)

/-- An escape by code point. -/
def escapeCode (code : Nat) : Text :=
  ['\\', 'u', hexDigit (code / 4096 % 16), hexDigit (code / 256 % 16), hexDigit (code / 16 % 16),
    hexDigit (code % 16)]

/-- How a character is written inside quotes. -/
def escape (c : Char) : Text :=
  if c = '"' then ['\\', '"']
  else if c = '\\' then ['\\', '\\']
  else if c = '\x08' then ['\\', 'b']
  else if c = '\x0C' then ['\\', 'f']
  else if c = '\n' then ['\\', 'n']
  else if c = '\r' then ['\\', 'r']
  else if c = '\t' then ['\\', 't']
  else if c.toNat < 0x20 then escapeCode c.toNat
  else [c]

def escapeUnit : Unit → Text
  | .char c => escape c
  | .half code => escapeCode code

def quote (us : List Unit) : Text := ['"'] ++ us.flatMap escapeUnit ++ ['"']

/-- What stands between items, and before the first and after the last of them, at a depth. -/
def lineBreak (layout : Layout) (depth : Nat) : Text :=
  match layout with
  | .compact => []
  | .indented => '\n' :: List.replicate (2 * depth) ' '

def colon : Layout → Text
  | .compact => [':']
  | .indented => [':', ' ']

mutual

/-- Writes a value whose brackets stand at a depth. -/
def write (layout : Layout) (depth : Nat) : Json → Text
  | .null => "null".toList
  | .bool b => (if b then "true" else "false").toList
  | .number literal => literal
  | .string us => quote us
  | .array [] => ['[', ']']
  | .array (v :: vs) =>
    ['['] ++ lineBreak layout (depth + 1) ++ write layout (depth + 1) v
      ++ writeItems layout (depth + 1) vs ++ lineBreak layout depth ++ [']']
  | .object [] => ['{', '}']
  | .object ((k, v) :: ms) =>
    ['{'] ++ lineBreak layout (depth + 1) ++ quote k ++ colon layout ++ write layout (depth + 1) v
      ++ writeMembers layout (depth + 1) ms ++ lineBreak layout depth ++ ['}']

/-- Writes the items after the first. -/
def writeItems (layout : Layout) (depth : Nat) : List Json → Text
  | [] => []
  | v :: vs =>
    [','] ++ lineBreak layout depth ++ write layout depth v ++ writeItems layout depth vs

/-- Writes the members after the first. -/
def writeMembers (layout : Layout) (depth : Nat) : List (List Unit × Json) → Text
  | [] => []
  | (k, v) :: ms =>
    [','] ++ lineBreak layout depth ++ quote k ++ colon layout ++ write layout depth v
      ++ writeMembers layout depth ms

end

def print (layout : Layout) (v : Json) : Text := write layout 0 v

end Json

end DocDigest
