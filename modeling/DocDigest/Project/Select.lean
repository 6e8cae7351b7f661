import DocDigest.Ignore.Filter
import DocDigest.Project.Walk

/-!
# Selecting source files

The files of a project that are searched for comments: for each extension in turn, the files below
the root whose names end with it and that the filter does not ignore.
-/

set_option autoImplicit false

namespace DocDigest

/-- A file that was selected, and the extension that it was selected for. -/
structure Candidate where
  path : Path
  extension : Text
deriving DecidableEq

/-- What is selected from a project. -/
structure Selection where
  tree : FileTree
  base : Location
  filter : Filter
  follow : Bool

namespace Selection

/-- The root that stands for the standard input, which holds no files. -/
def isStandardInput (root : Path) : Bool := root.components == [.name ['-']]

/-- What the walk finds, with some directories left out. -/
def walkWith (s : Selection) (prune : Text → Bool) : List (Except WalkError Visit) :=
  if isStandardInput s.filter.root then []
  else Walk.visits ⟨s.tree, s.base, s.follow, prune⟩ s.filter.root

/-- Whether a visit is to a file, or to a link that leads to a file. -/
def isSource (s : Selection) (v : Visit) : Bool :=
  match v.kind with
  | .file => true
  | .link => s.tree.isFile s.base v.path
  | .directory => false

/-- Whether the name at the end of a path ends with an extension. -/
def hasExtension (extension : Text) (p : Path) : Bool := p.fileName?.any extension.isSuffixOf

def selects (s : Selection) (extension : Text) (v : Visit) : Bool :=
  s.isSource v && hasExtension extension v.path && !s.filter.ignores v.path

/-- The visits that are selected for an extension, and what could not be visited. -/
def pick (s : Selection) (extension : Text) (found : List (Except WalkError Visit)) :
    List (Except WalkError Candidate) :=
  found.filterMap fun
    | .error e => some (.error e)
    | .ok v => if s.selects extension v then some (.ok ⟨v.path, extension⟩) else none

/-- The files selected for the extensions, one extension after the other, and what could not be
visited. Directories whose names decide that all below them is ignored are left out of the walk. -/
def candidates (s : Selection) (extensions : List Text) : List (Except WalkError Candidate) :=
  extensions.flatMap fun extension => s.pick extension (s.walkWith s.filter.prunes)

/-- The same selection from a walk that leaves no directory out. -/
def plainCandidates (s : Selection) (extensions : List Text) :
    List (Except WalkError Candidate) :=
  extensions.flatMap fun extension => s.pick extension (s.walkWith fun _ => false)

end Selection

end DocDigest
