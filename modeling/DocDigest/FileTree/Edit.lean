import DocDigest.FileTree.Lookup

/-!
# Changing a file tree

Each operation gives the changed tree or says why it fails. One that fails changes nothing, with two
exceptions: making a directory with those above it keeps what it made before it failed, and so does
a write that the system breaks off.
-/

set_option autoImplicit false

namespace DocDigest

namespace FileTree

/-- Writes a file. A link at the end of the path is followed, even to a file that is not yet there.
Once the file is there, all the contents are written; a write that the system breaks off then is
told by `writeWithin`. -/
def write (t : FileTree) (base : Location) (p : Path) (contents : Bytes) :
    Except FileError FileTree :=
  (t.locate (!·) base p).bind fun spot =>
    if spot.slash || spot.name?.isNone then .error .isDirectory
    else
      (t.lookUpAt spot).bind fun
        | some .directory => .error .isDirectory
        | _ => .ok (t.put spot.location (.file contents))

/-- Writes a file on a system that has room for so many bytes, or for any number of them. If the
contents are longer, the write breaks off when the room is used up, and the file stays with what was
written until then. -/
def writeWithin (t : FileTree) (room : Option Nat) (base : Location) (p : Path)
    (contents : Bytes) : Except FileError Unit × FileTree :=
  let taken := room.elim contents fun n => contents.take n
  match t.write base p taken with
  | .error e => (.error e, t)
  | .ok written => (if taken.length < contents.length then .error .noSpace else .ok (), written)

/-- Puts an entry where nothing is yet. -/
def create (t : FileTree) (base : Location) (p : Path) (e : Entry) : Except FileError FileTree :=
  (t.locate (fun _ => false) base p).bind fun spot =>
    if spot.name?.isNone then .error .alreadyExists
    else
      (t.lookUpAt spot).bind fun
        | some _ => .error .alreadyExists
        | none =>
          if spot.slash && !e.isDirectory then .error .notFound else .ok (t.put spot.location e)

def remove (t : FileTree) (base : Location) (p : Path) : Except FileError FileTree :=
  (t.locate (fun _ => false) base p).bind fun spot =>
    if spot.name?.isNone then .error .isDirectory
    else
      (t.lookUpAt spot).bind fun
        | none => .error .notFound
        | some .directory => .error .isDirectory
        | some _ => if spot.slash then .error .notDirectory else .ok (t.erase spot.location)

/-- Removes a file or a link, or a directory and all below it. -/
def removeAll (t : FileTree) (base : Location) (p : Path) : Except FileError FileTree :=
  (t.linkStatus base p).map fun (l, _) => t.eraseAll l

/-- Moves a file or a link, over the file or link that stands at the new path if one does. -/
def moveFile (t : FileTree) (base : Location) (old new : Path) : Except FileError FileTree := do
  let source ← t.locate (fun _ => false) base old
  let target ← t.locate (fun _ => false) base new
  if source.name?.isNone || target.name?.isNone then .error .busy
  else
    match ← t.lookUpAt source with
    | none => .error .notFound
    | some .directory => .error .isDirectory
    | some e =>
      let there ← t.lookUpAt target
      if source.slash || target.slash then .error .notDirectory
      else if there.any Entry.isDirectory then .error .isDirectory
      else .ok ((t.erase source.location).put target.location e)

/-- Makes the first of the given directories, after the others if it cannot be made without them;
each stands right above the one before it. A directory that is there already is as good as made. -/
def createFirst (t : FileTree) (base : Location) : List Path → Except FileError Unit × FileTree
  | [] => (.ok (), t)
  | p :: above =>
    -- whatever the failure is, it does not matter if the directory is there
    let settle (t : FileTree) (e : FileError) : Except FileError Unit × FileTree :=
      (if t.isDirectory base p then .ok () else .error e, t)
    match t.create base p .directory with
    | .ok t => (.ok (), t)
    | .error .notFound =>
      match createFirst t base above with
      | (.error e, t) => (.error e, t)
      | (.ok (), t) =>
        match t.create base p .directory with
        | .ok t => (.ok (), t)
        | .error e => settle t e
    | .error e => settle t e

/-- Makes a directory and those above it that are missing. -/
def createDirectories (t : FileTree) (base : Location) (p : Path) :
    Except FileError Unit × FileTree :=
  if p.text.isEmpty then (.ok (), t) else createFirst t base (p :: p.ancestors)

end FileTree

end DocDigest
