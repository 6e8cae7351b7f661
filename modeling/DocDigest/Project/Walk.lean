import DocDigest.FileTree.Lookup

/-!
# Walking a directory

A walk visits the entries below a root, each directory before what it holds, and the entries of a
directory in the order of their names. It can follow symbolic links; then it refuses to enter a
directory that it is already in. Directories can be left out by name. What cannot be visited is
reported in its place, and so is a directory whose path is too long for its entries to be listed;
the walk goes on after it.
-/

set_option autoImplicit false

namespace DocDigest

/-- Why an entry cannot be visited. -/
inductive WalkError where
  /-- The entry cannot be looked at, or the directory not be listed. -/
  | unreadable (path : Path) (cause : FileError)
  /-- A link leads back to a directory that the walk is in. -/
  | loop (child ancestor : Path)
deriving DecidableEq

def WalkError.message (e : WalkError) : Text :=
  "failed to walk directory: ".toList ++
    match e with
    | .unreadable path cause =>
      path.text ++ ": IO error for operation on ".toList ++ path.text ++ ": ".toList
        ++ cause.message
    | .loop child ancestor =>
      "File system loop found: ".toList ++ child.text ++ " points to an ancestor ".toList
        ++ ancestor.text

/-- What is at an entry, as the walk sees it. -/
inductive Kind where
  | directory
  | file
  | link
deriving DecidableEq

def Entry.kind : Entry → Kind
  | .directory => .directory
  | .file _ => .file
  | .link _ => .link

structure Visit where
  path : Path
  kind : Kind
deriving DecidableEq

/-- How a walk goes about its work. -/
structure Walk where
  tree : FileTree
  base : Location
  follow : Bool
  /-- Which directories are left out, by name. -/
  prune : Text → Bool

namespace Walk

/-- What the walk takes an entry for: a link that it follows counts as what it leads to, unless this
is a directory that the walk is already in. -/
def resolve (w : Walk) (opened : List (Location × Path)) (path : Path) (l : Location) (e : Entry) :
    Except WalkError (Location × Entry) :=
  if w.follow && e.isLink then
    match w.tree.status w.base path with
    | .error cause => .error (.unreadable path cause)
    | .ok (l, e) =>
      match opened.find? fun o => e.isDirectory && o.1 == l with
      | some (_, ancestor) => .error (.loop path ancestor)
      | none => .ok (l, e)
  else .ok (l, e)

/-- Visits an entry of a directory and what is below it. `deeper` visits what is below a directory
that is entered. -/
def visitChild (w : Walk)
    (deeper : List (Location × Path) → Location → Path → List (Except WalkError Visit))
    (opened : List (Location × Path)) (folder : Location) (path : Path) :
    Text × Entry → List (Except WalkError Visit)
  | (name, e) =>
    let child := path.join ⟨name⟩
    match w.resolve opened child (folder ++ [name]) e with
    | .error err => [.error err]
    | .ok (l, e) =>
      if e.isDirectory then
        if w.prune name then []
        else
          .ok ⟨child, .directory⟩ ::
            (if FileTree.isTooLong child then [.error (.unreadable child .nameTooLong)]
            else deeper ((l, child) :: opened) l child)
      else [.ok ⟨child, e.kind⟩]

/-- Visits what is below a directory, given as the first of the directories that the walk is in. At
most `fuel` directories are entered one inside the other. -/
def below (w : Walk) (fuel : Nat) (opened : List (Location × Path)) (folder : Location)
    (path : Path) : List (Except WalkError Visit) :=
  match fuel with
  | 0 => []
  | fuel + 1 => (w.tree.children folder).flatMap (w.visitChild (w.below fuel) opened folder path)

/-- How many directories can be entered one inside the other. Each has a longer path than the one
that it stands in, and none is entered whose path is too long. -/
def maxDepth : Nat := FileTree.maxPathBytes

/-- Visits a root and what is below it, where at most `depth` directories are entered one inside the
other. A root that is a link is entered even if links are not followed, and a root that leads to a
file has its links followed. -/
def visitsTo (w : Walk) (depth : Nat) (root : Path) : List (Except WalkError Visit) :=
  let w := { w with follow := w.follow || w.tree.isFile w.base root }
  match w.tree.linkStatus w.base root with
  | .error cause => [.error (.unreadable root cause)]
  | .ok (_, own) =>
    match w.tree.status w.base root with
    | .error cause => [.error (.unreadable root cause)]
    | .ok (l, e) =>
      .ok ⟨root, if w.follow then e.kind else own.kind⟩ ::
        (if e.isDirectory then w.below depth [(l, root)] l root else [])

/-- Visits a root and all that is below it. -/
def visits (w : Walk) (root : Path) : List (Except WalkError Visit) := w.visitsTo maxDepth root

end Walk

end DocDigest
