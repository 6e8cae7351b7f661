import DocDigest.Command.Outcome
import DocDigest.Document.Markdown
import DocDigest.FileTree.Edit

/-!
# Writing a project's document

The document is written to a file beside the output first and moved over it then, so that a run that
fails leaves the output as it was. The system may have room for so many bytes only; if that is too
little for the document, the file beside the output is left with a part of it.
-/

set_option autoImplicit false

namespace DocDigest

namespace Command

/-! ## Writing the document -/

/-- The file beside the output that the document is written to first. -/
def temporaryPath (output : Path) : Path :=
  output.withFileName (output.fileName?.getD "documentation".toList ++ ".tmp".toList)

/-- Writes a file by writing another one beside it and moving that over it. If it cannot be moved it
is removed again; if it cannot be written, what there is of it stays. -/
def replaceFile (t : FileTree) (room : Option Nat) (base : Location) (output : Path)
    (contents : Bytes) : Except FileError Unit × FileTree :=
  match t.writeWithin room base (temporaryPath output) contents with
  | (.error e, left) => (.error e, left)
  | (.ok (), written) =>
    match written.moveFile base (temporaryPath output) output with
    | .ok moved => (.ok (), moved)
    | .error e =>
      match written.remove base (temporaryPath output) with
      | .ok removed => (.error e, removed)
      | .error _ => (.error e, written)

/-! ## What is printed -/

/-- The lines about what is to be searched. -/
def scanningLines (s : Settings) : Text :=
  lineOf ("Scanning for files in ".toList ++ s.root.text ++ "...".toList) ++
    if s.excludes.names.isEmpty then []
    else lineOf ("Automatically excluding: ".toList ++ Text.joinWith ", ".toList s.excludes.names)

def seenLines (seen : List (Path × Nat)) : Text :=
  seen.flatMap fun (p, n) =>
    lineOf ("Found ".toList ++ decimal n ++ " comments in ".toList ++ p.text)

def doneLines (output : Path) (c : Project.Collection) : Text :=
  lineOf ("✓ Documentation generated in ".toList ++ output.text) ++
    lineOf ("Found ".toList ++ decimal c.fragments.length ++ " doc comments in ".toList
      ++ decimal c.filesWithComments ++ " files".toList) ++
    lineOf ("Total files processed: ".toList ++ decimal c.filesRead)

/-- The advice when no comment was found. -/
def adviceLines (s : Settings) : Text :=
  lineOf [] ++ lineOf "⚠ Warning: No doc comments found. Check:".toList ++
    lineOf ("  - Extensions match your sources (".toList ++ Text.joinWith [','] s.extensions
      ++ [')']) ++
    lineOf "  - Paths are not excluded by .gitignore or the default exclusions".toList ++
    lineOf "  - Comments use /** ... */ or // * style".toList

/-! ## The command -/

/-- The settings of a run, with the root directory as an absolute path, and its format. -/
def prepare (t : FileTree) (base : Location) (root : Path) (named : Option Path)
    (choices : Choices) : Except RunError (Settings × Format) := do
  let some root := root.absolute? base.path | .error .emptyRoot
  let settings ← (Settings.ofProject t base root named choices).mapError .config
  let format ← (Format.ofName settings.format).mapError .format
  .ok (settings, format)

/-- Writes the document of a project. The system has room for so many bytes, or for any number. -/
def digest (t : FileTree) (room : Option Nat) (base : Location) (root : Path)
    (named : Option Path) (choices : Choices) (verbose : Bool) : Outcome :=
  match prepare t base root named choices with
  | .error e => .failure t [] e
  | .ok (settings, format) =>
    let printed (seen : List (Path × Nat)) : Text :=
      if verbose then scanningLines settings ++ seenLines seen else []
    match Project.collect t base settings.root settings.scope with
    | .error failure => .failure t (printed failure.seen) (.project failure.error)
    | .ok c =>
      match replaceFile t room base settings.output
          (Utf8.encode (render format c.fragments)) with
      | (.error e, t) => .failure t (printed c.seen) (.file e)
      | (.ok (), t) =>
        ⟨0, printed c.seen ++ doneLines settings.output c,
          if c.fragments.isEmpty then adviceLines settings else [], t⟩

end Command

end DocDigest
