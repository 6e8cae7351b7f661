import DocDigest.Text.Basic

/-!
# Output formats

The formats that a document can be written in and the names that a user may give them.
-/

set_option autoImplicit false

namespace DocDigest

inductive Format where
  | markdown
deriving DecidableEq

/-- A format name that stands for no format. -/
structure UnsupportedFormat where
  name : Text
deriving DecidableEq

def UnsupportedFormat.message (e : UnsupportedFormat) : Text :=
  "unsupported output format '".toList ++ e.name ++ "' (supported: markdown)".toList

namespace Format

def name : Format → Text
  | .markdown => "markdown".toList

/-- The small letter of a capital letter from A to Z, and `k` for the Kelvin sign: these are the
characters whose lower case is an ASCII letter. Other characters stay as they are. -/
def toLower (c : Char) : Char :=
  if 'A' ≤ c ∧ c ≤ 'Z' then Char.ofNat (c.toNat + 32)
  else if c = '\u212A' then 'k'
  else c

/-- The format that a user's name stands for: `markdown` or `md` in any case, with white space
around it. -/
def ofName (given : Text) : Except UnsupportedFormat Format :=
  let lowered := (Text.trim given).map toLower
  if lowered = "markdown".toList ∨ lowered = "md".toList then .ok .markdown
  else .error ⟨given⟩

example : ofName " MarKdown\n".toList = .ok .markdown := rfl

example : ofName "html".toList = .error ⟨"html".toList⟩ := rfl

end Format

end DocDigest
