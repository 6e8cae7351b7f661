import DocDigest.Comment.Span

/-!
# Block comments

A block comment opens with `/**` and closes with the first `*/` that begins after its opener.
-/

set_option autoImplicit false

namespace DocDigest

namespace Block

/-- The offset just after the first `*/` of a text that begins at `offset`. -/
def close? (offset : Nat) : Text → Option Nat
  | '*' :: '/' :: _ => some (offset + 2)
  | c :: cs => close? (offset + c.utf8Size) cs
  | [] => none

/-- The first block comment of a text that begins at `offset`. An opener that nothing closes ends
the search, for nothing closes a later one either. -/
def first? (offset : Nat) : Text → Option Span
  | '/' :: '*' :: '*' :: cs => (close? (offset + 3) cs).map (Span.mk offset)
  | c :: cs => first? (offset + c.utf8Size) cs
  | [] => none

example : first? 0 "a /***/".toList = some ⟨2, 7⟩ := by decide

example : first? 0 "/**/ x".toList = none := by decide

end Block

end DocDigest
