/-!
# Blank characters

`isBlank` holds of exactly the 25 code points with the Unicode property `White_Space`.
-/

set_option autoImplicit false

namespace DocDigest

/-- The code points with the property `White_Space`, in ascending order. -/
def blankCodePoints : List Nat :=
  [0x09, 0x0A, 0x0B, 0x0C, 0x0D, 0x20, 0x85, 0xA0, 0x1680,
   0x2000, 0x2001, 0x2002, 0x2003, 0x2004, 0x2005, 0x2006, 0x2007, 0x2008, 0x2009, 0x200A,
   0x2028, 0x2029, 0x202F, 0x205F, 0x3000]

/-- Whether a character is white space. -/
def isBlank (c : Char) : Bool := blankCodePoints.contains c.toNat

/-- Whether a character is white space that does not end a line. -/
def isInlineBlank (c : Char) : Bool := isBlank c && c != '\n'

example : blankCodePoints.length = 25 := rfl

theorem isBlank_carriageReturn : isBlank '\r' = true := rfl

end DocDigest
