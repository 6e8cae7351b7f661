import DocDigest.Comment.Fragment

/-!
# Sections

The fragments of one file make up a section. Sections stand in the order in which their files are
first seen, and the comments of a section in the order of its fragments.
-/

set_option autoImplicit false

namespace DocDigest

/-- The raw comments of one file. -/
structure Section where
  file : Text
  comments : List Text
deriving DecidableEq

namespace Section

/-- Puts a fragment at the end of its file's section, or of all sections if its file has none. -/
def insert (f : Fragment) : List Section → List Section
  | [] => [⟨f.file, [f.text]⟩]
  | s :: rest =>
    if s.file = f.file then { s with comments := s.comments ++ [f.text] } :: rest
    else s :: insert f rest

/-- The sections that fragments make up. -/
def ofFragments (fragments : List Fragment) : List Section :=
  fragments.foldl (fun sections f => insert f sections) []

def fragments (s : Section) : List Fragment := s.comments.map (⟨s.file, ·⟩)

end Section

end DocDigest
