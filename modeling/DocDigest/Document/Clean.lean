import DocDigest.Text.Basic

/-!
# Cleaning a comment

Cleaning takes the comment marks off a raw comment: every line loses `/**`, `*/`, two slashes, a
leading star that stands alone, and the white space around them. Lines that hold nothing else are
dropped.
-/

set_option autoImplicit false

namespace DocDigest

namespace Clean

/-- The line without the star at its front, if white space or nothing follows the star. -/
def dropStar : Text → Text
  | '*' :: rest => if rest.head?.all isBlank then Text.trim rest else '*' :: rest
  | line => line

/-- A line without its comment marks. -/
def line (raw : Text) : Text :=
  let opened := Text.dropLeading ['/', '*', '*'] (Text.trim raw)
  let closed := Text.dropTrailing ['*', '/'] opened
  let slashed := Text.dropLeading ['/', '/'] (Text.trimStart closed)
  dropStar (Text.trim slashed)

def bodyLines (raw : Text) : List Text := ((Text.lines raw).map line).filter (!·.isEmpty)

end Clean

/-- A raw comment without its comment marks: the lines that are left, one below the other. -/
def clean (raw : Text) : Text := Text.joinWith ['\n'] (Clean.bodyLines raw)

example : clean "/**\n * Adds.\r\n *\n * @param a first\n */".toList
    = "Adds.\n@param a first".toList := by decide

example : clean "// * a // b\n  //*c".toList = "a // b\n*c".toList := by decide

end DocDigest
