import DocDigest.Text.Basic

/-!
# Extensions

An extension is what the name of a source file ends with. A user gives extensions as words, with or
without the dot in front, in a list or in one text with commas between them.
-/

set_option autoImplicit false

namespace DocDigest

namespace Extension

/-- The extension that a word stands for: without white space around it and with a dot in front. A
blank word stands for none. -/
def ofWord? (word : Text) : Option Text :=
  match Text.trim word with
  | [] => none
  | '.' :: rest => some ('.' :: rest)
  | other => some ('.' :: other)

def ofWords (words : List Text) : List Text := words.filterMap ofWord?

/-- The extensions in a list separated by commas. -/
def ofList (t : Text) : List Text := ofWords (Text.splitOn ',' t)

end Extension

end DocDigest
