import DocDigest.FileTree.Basic
import DocDigest.FileTree.Error

/-!
# Following paths

A path is followed step by step from a directory. A symbolic link on the way is replaced by the
steps of its target; forty links may be followed for one path. Whether a link at the last step is
followed depends on the operation, and so does whether the last step is looked up at all: its name
may be too long only where it is.
-/

set_option autoImplicit false

namespace DocDigest

/-- The steps of a path: what stands between its slashes, dots included. -/
def Path.steps (p : Path) : List Text := (Text.splitOn '/' p.text).filter (!·.isEmpty)

/-- Where a path leads: a directory and the last step, which is still to be taken in it. -/
structure Spot where
  folder : Location
  /-- The last step; there is none if the path is the directory itself. -/
  last : Option Text
  /-- Whether a slash stands after the last step. -/
  slash : Bool
deriving DecidableEq

namespace Spot

/-- Whether a step stays in a directory or goes up from it. -/
def isDots (step : Text) : Bool := step == ['.'] || step == ['.', '.']

/-- The name that the last step takes, unless it is dots. -/
def name? (s : Spot) : Option Text := s.last.filter (!isDots ·)

/-- The location that the last step leads to. -/
def location (s : Spot) : Location :=
  match s.last with
  | none | some ['.'] => s.folder
  | some ['.', '.'] => s.folder.dropLast
  | some name => s.folder ++ [name]

end Spot

namespace FileTree

/-- The most bytes in a name. -/
def maxNameBytes : Nat := 255

/-- The bytes that a path stays below. -/
def maxPathBytes : Nat := 4096

/-- The most links that are followed for one path. -/
def maxLinks : Nat := 40

def isTooLong (p : Path) : Bool := maxPathBytes ≤ Text.byteLength p.text

/-- The entry of a name in a directory, if there is one. -/
def lookUp (t : FileTree) (folder : Location) (name : Text) : Except FileError (Option Entry) :=
  if maxNameBytes < Text.byteLength name then .error .nameTooLong
  else .ok (t.get? (folder ++ [name]))

def lookUpAt (t : FileTree) (s : Spot) : Except FileError (Option Entry) :=
  match s.name? with
  | some name => t.lookUp s.folder name
  | none => .ok (t.get? s.location)

/-- Takes steps from a directory up to the last one. `follow` says whether a link at the last step
is followed, given whether a slash stands after it. `jump` goes on from a link's target. -/
def descend (t : FileTree) (follow : Bool → Bool)
    (jump : Location → List Text → Bool → Except FileError Spot) (slash : Bool) :
    Location → List Text → Except FileError Spot
  | folder, [] => .ok ⟨folder, none, slash⟩
  | folder, step :: rest =>
    if !t.isDirectoryAt folder then .error .notDirectory
    -- the last step is left to the operation, unless it can be a link to follow
    else if rest.isEmpty && (Spot.isDots step || !follow slash) then
      .ok ⟨folder, some step, slash⟩
    else if Spot.isDots step then
      descend t follow jump slash (Spot.location ⟨folder, some step, slash⟩) rest
    else
      match t.lookUp folder step with
      | .ok (some (.link target)) =>
        jump (if target.isAbsolute then [] else folder) (target.steps ++ rest)
          (slash || (rest.isEmpty && target.endsInSlash))
      | found =>
        if rest.isEmpty then .ok ⟨folder, some step, slash⟩
        else
          match found with
          | .ok (some _) => descend t follow jump slash (folder ++ [step]) rest
          | .ok none => .error .notFound
          | .error e => .error e

/-- Takes steps from a directory up to the last one, following at most `links` links. -/
def route (t : FileTree) (follow : Bool → Bool) (links : Nat) (folder : Location)
    (steps : List Text) (slash : Bool) : Except FileError Spot :=
  match links with
  | 0 => descend t follow (fun _ _ _ => .error .tooManyLinks) slash folder steps
  | links + 1 => descend t follow (route t follow links) slash folder steps

/-- Where a path leads, as seen from the directory `base`. -/
def locate (t : FileTree) (follow : Bool → Bool) (base : Location) (p : Path) :
    Except FileError Spot :=
  if p.text.contains '\x00' then .error .nulInPath
  else if isTooLong p then .error .nameTooLong
  else if p.text.isEmpty then .error .notFound
  else route t follow maxLinks (if p.isAbsolute then [] else base) p.steps p.endsInSlash

/-- The entry at a spot; only a directory may have a slash after it. -/
def entryAt (t : FileTree) (s : Spot) : Except FileError (Location × Entry) :=
  (t.lookUpAt s).bind fun
    | none => .error .notFound
    | some e => if s.slash && !e.isDirectory then .error .notDirectory else .ok (s.location, e)

/-- The location and the entry that a path leads to, following a link at its end. -/
def status (t : FileTree) (base : Location) (p : Path) : Except FileError (Location × Entry) :=
  (t.locate (fun _ => true) base p).bind t.entryAt

/-- The location and the entry that a path leads to; a link at its end is the entry, unless a slash
stands after it. -/
def linkStatus (t : FileTree) (base : Location) (p : Path) :
    Except FileError (Location × Entry) :=
  (t.locate id base p).bind t.entryAt

def isThere (t : FileTree) (base : Location) (p : Path) : Bool :=
  match t.status base p with
  | .ok _ => true
  | .error _ => false

def isFile (t : FileTree) (base : Location) (p : Path) : Bool :=
  match t.status base p with
  | .ok (_, e) => e.isFile
  | .error _ => false

def isDirectory (t : FileTree) (base : Location) (p : Path) : Bool :=
  match t.status base p with
  | .ok (_, e) => e.isDirectory
  | .error _ => false

def read (t : FileTree) (base : Location) (p : Path) : Except FileError Bytes :=
  (t.status base p).bind fun (_, e) =>
    match e with
    | .file contents => .ok contents
    | .directory => .error .isDirectory
    | .link _ => .error .tooManyLinks

/-- The text in the file that a path leads to. -/
def readText (t : FileTree) (base : Location) (p : Path) : Except FileError Text :=
  (t.read base p).bind fun contents =>
    match Utf8.ofBytes? contents with
    | some text => .ok text
    | none => .error .notText

end FileTree

end DocDigest
