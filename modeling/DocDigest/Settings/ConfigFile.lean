import DocDigest.FileTree.Lookup
import DocDigest.Settings.Combine

/-!
# Config files in a tree

The config of a project is read from a file that the user names, or else from the config file in its
root directory. Without such a file it sets nothing.
-/

set_option autoImplicit false

namespace DocDigest

/-- Why a config file cannot be used. -/
inductive ConfigError where
  | unreadable (path : Path) (cause : FileError)
  | invalid (path : Path)
deriving DecidableEq

def ConfigError.message : ConfigError → Text
  | .unreadable path cause =>
    "failed to read config '".toList ++ path.text ++ "': ".toList ++ cause.message
  | .invalid path =>
    "invalid config '".toList ++ path.text ++ "': not a JSON object of known fields".toList

namespace Config

def readAt (t : FileTree) (base : Location) (p : Path) : Except ConfigError Config :=
  match t.readText base p with
  | .error cause => .error (.unreadable p cause)
  | .ok text =>
    match ofText? text with
    | some c => .ok c
    | none => .error (.invalid p)

/-- The config in the named file, or in the config file of the root directory if there is one. -/
def ofProject (t : FileTree) (base : Location) (root : Path) (named : Option Path) :
    Except ConfigError Config :=
  match named with
  | some p => readAt t base p
  | none =>
    let p := root.join ⟨configName⟩
    if t.isFile base p then readAt t base p else .ok empty

end Config

/-- The settings for the project in a root directory. -/
def Settings.ofProject (t : FileTree) (base : Location) (root : Path) (named : Option Path)
    (choices : Choices) : Except ConfigError Settings :=
  (Config.ofProject t base root named).map fun file => combine root file choices

end DocDigest
