import DocDigest.Comment.Scan
import DocDigest.Text.Utf8

/-!
# Fragments

A fragment is the text of one doc comment together with the name of the file that it stands in.
-/

set_option autoImplicit false

namespace DocDigest

/-- A doc comment as it stands in a file, comment marks included. -/
structure Fragment where
  file : Text
  text : Text
deriving DecidableEq

namespace Fragment

/-- The doc comments of a source text, in order, under a file's name. -/
def ofSource (file source : Text) : List Fragment :=
  (scan Shape.all source).map fun span => ⟨file, span.slice source⟩

/-- The doc comments of a file's contents. A byte order mark at the front is no part of the text,
and contents that are not UTF-8 are no text and hold no comment. -/
def ofContents (file : Text) (contents : Bytes) : List Fragment :=
  match Utf8.ofBytes? contents with
  | some source => ofSource file (Utf8.dropByteOrderMark source)
  | none => []

end Fragment

end DocDigest
