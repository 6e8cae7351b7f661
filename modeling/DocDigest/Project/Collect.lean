import DocDigest.Comment.Fragment
import DocDigest.Project.Select
import DocDigest.Settings.Combine

/-!
# Collecting comments

The comments of all selected files of a project, with counts. The first failure ends a collection;
what was seen until then is kept for the report.
-/

set_option autoImplicit false

namespace DocDigest

def rulesName : Text := ".gitignore".toList

/-- Why a project cannot be read. -/
inductive ProjectError where
  | rules (path : Path) (cause : FileError)
  | walk (e : WalkError)
  | source (path : Path) (cause : FileError)
deriving DecidableEq

def ProjectError.message : ProjectError → Text
  | .rules path cause =>
    "failed to read rules file '".toList ++ path.text ++ "': ".toList ++ cause.message
  | .walk e => e.message
  | .source path cause =>
    "failed to read file '".toList ++ path.text ++ "': ".toList ++ cause.message

/-- What is read from a project. -/
structure Scope where
  extensions : List Text
  excludes : Excludes
  followSymlinks : Bool
deriving DecidableEq

def Scope.default : Scope := ⟨Config.defaultExtensions, Excludes.default, false⟩

def Settings.scope (s : Settings) : Scope :=
  ⟨s.extensions, s.excludes, s.followSymlinks⟩

namespace Project

/-- The rules of a project. Without a rules file there are none, and bytes that are not UTF-8 do not
keep the rest from being read. -/
def rulesOf (t : FileTree) (base : Location) (root : Path) : Except ProjectError (List Rule) :=
  let path := root.join ⟨rulesName⟩
  match t.read base path with
  | .ok contents => .ok (Rule.ofText (Utf8.ofBytesLenient contents))
  | .error .notFound => .ok []
  | .error cause => .error (.rules path cause)

def fragmentsOf (t : FileTree) (base : Location) (p : Path) : Except ProjectError (List Fragment) :=
  match t.read base p with
  | .ok contents => .ok (Fragment.ofContents p.shown contents)
  | .error cause => .error (.source p cause)

/-- What was collected. -/
structure Collection where
  fragments : List Fragment
  filesRead : Nat
  /-- How many files were read and had comments. -/
  filesWithComments : Nat
  /-- The files that had comments, in the order in which they were read, and how many each had. -/
  seen : List (Path × Nat)
deriving DecidableEq

def Collection.empty : Collection := ⟨[], 0, 0, []⟩

def Collection.add (c : Collection) (p : Path) (found : List Fragment) : Collection :=
  if found.isEmpty then { c with filesRead := c.filesRead + 1 }
  else
    { fragments := c.fragments ++ found
      filesRead := c.filesRead + 1
      filesWithComments := c.filesWithComments + 1
      seen := c.seen ++ [(p, found.length)] }

/-- A collection that ended early. -/
structure Failure where
  /-- The files that had comments until then, and how many each had. -/
  seen : List (Path × Nat)
  error : ProjectError
deriving DecidableEq

/-- Adds the comments of selected files, one file after the other. -/
def gather (t : FileTree) (base : Location) (c : Collection) :
    List (Except WalkError Candidate) → Except Failure Collection
  | [] => .ok c
  | .error e :: _ => .error ⟨c.seen, .walk e⟩
  | .ok candidate :: rest =>
    match fragmentsOf t base candidate.path with
    | .error e => .error ⟨c.seen, e⟩
    | .ok found => gather t base (c.add candidate.path found) rest

/-- Collects the comments of a project. -/
def collect (t : FileTree) (base : Location) (root : Path) (options : Scope) :
    Except Failure Collection :=
  match rulesOf t base root with
  | .error e => .error ⟨[], e⟩
  | .ok rules =>
    let selection : Selection :=
      ⟨t, base, ⟨root, rules, options.excludes⟩, options.followSymlinks⟩
    gather t base Collection.empty (selection.candidates options.extensions)

end Project

end DocDigest
