import DocDigest.Text.Basic

/-!
# Glob patterns

A pattern is read as a list of elements: `*` stands for any characters, `?` for any one character,
`[...]` for one of its members, `[!...]` for one that is no member, and any other character for
itself. A run of stars counts as one star. A class is closed by the first `]` that stands after its
first member, and `a-z` inside it is a range. A pattern with a class that nothing closes is no
pattern but a literal text.
-/

set_option autoImplicit false

namespace DocDigest

namespace Glob

/-- A member of a class. -/
inductive Member where
  | single (c : Char)
  | range (low high : Char)
deriving DecidableEq

def Member.holds (c : Char) : Member → Bool
  | .single d => c == d
  | .range low high => low ≤ c && c ≤ high

/-- Reads the characters of a class. A dash between two characters makes a range of them. -/
def members : Text → List Member
  | low :: '-' :: high :: rest => .range low high :: members rest
  | c :: rest => .single c :: members rest
  | [] => []

/-- An element of a pattern that stands for one character. -/
inductive Single where
  | char (c : Char)
  | any
  | oneOf (members : List Member)
  | noneOf (members : List Member)
deriving DecidableEq

def Single.holds (c : Char) : Single → Bool
  | .char d => c == d
  | .any => true
  | .oneOf ms => ms.any (·.holds c)
  | .noneOf ms => !ms.any (·.holds c)

/-- An element of a pattern. -/
inductive Element where
  | one (s : Single)
  /-- Any characters, none included. -/
  | star
deriving DecidableEq

/-! ## Reading a pattern -/

/-- The text with one star for every run of stars. -/
def mergeStars : Text → Text
  | '*' :: '*' :: rest => mergeStars ('*' :: rest)
  | c :: rest => c :: mergeStars rest
  | [] => []

/-- Where a reader of a pattern stands. -/
inductive Place where
  | outside
  /-- Right after `[`. -/
  | opened
  /-- Right after `[!`. -/
  | negated
  /-- Inside a class whose characters so far, the last one first, are `seen`. -/
  | inside (negated : Bool) (seen : Text)

/-- The element that a class stands for. -/
def classElement (negated : Bool) (chars : Text) : Element :=
  .one (if negated then .noneOf (members chars) else .oneOf (members chars))

/-- Reads the elements of a pattern. There are none if a class stays open. -/
def elementsFrom? : Place → Text → Option (List Element)
  | .outside, [] => some []
  | _, [] => none
  | .outside, c :: rest =>
    if c = '[' then elementsFrom? .opened rest
    else if c = '*' then (elementsFrom? .outside rest).map (.star :: ·)
    else if c = '?' then (elementsFrom? .outside rest).map (.one .any :: ·)
    else (elementsFrom? .outside rest).map (.one (.char c) :: ·)
  | .opened, c :: rest =>
    if c = '!' then elementsFrom? .negated rest else elementsFrom? (.inside false [c]) rest
  | .negated, c :: rest => elementsFrom? (.inside true [c]) rest
  | .inside negated seen, c :: rest =>
    if c = ']' then
      (elementsFrom? .outside rest).map (classElement negated seen.reverse :: ·)
    else elementsFrom? (.inside negated (c :: seen)) rest

/-- The elements of a pattern, unless one of its classes stays open. -/
def elements? (pattern : Text) : Option (List Element) := elementsFrom? .outside pattern

end Glob

/-- A pattern that was read, or a text that is no pattern. -/
inductive Glob where
  /-- A pattern, its runs of stars collapsed, and its elements. -/
  | pattern (text : Text) (elements : List Glob.Element)
  /-- A text that stands for itself. -/
  | literal (text : Text)
deriving DecidableEq

namespace Glob

/-- Reads a pattern. -/
def ofText (t : Text) : Glob :=
  match elements? (mergeStars t) with
  | some es => .pattern (mergeStars t) es
  | none => .literal t

/-- The text that a glob was read from, its runs of stars collapsed if it is a pattern. -/
def text : Glob → Text
  | .pattern t _ => t
  | .literal t => t

example : elements? "a[]x-z]*".toList
    = some [.one (.char 'a'), .one (.oneOf [.single ']', .range 'x' 'z']), .star] := by decide

example : ofText "a**[!".toList = .literal "a**[!".toList := by decide

end Glob

end DocDigest
