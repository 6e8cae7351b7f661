import DocDigest.Document.Format
import DocDigest.Project.Collect
import DocDigest.Settings.ConfigFile

/-!
# What a command leaves behind

The number that a command exits with, what it prints, and the tree that it leaves.
-/

set_option autoImplicit false

namespace DocDigest

namespace Command

/-- Why a command fails. -/
inductive RunError where
  /-- The root directory is named by an empty path. -/
  | emptyRoot
  | config (e : ConfigError)
  | format (e : UnsupportedFormat)
  | project (e : ProjectError)
  | file (e : FileError)
deriving DecidableEq

/-- What a user is told when a command fails. -/
def RunError.message : RunError → Text
  | .emptyRoot => "cannot make an empty path absolute".toList
  | .config e => e.message
  | .format e => e.message
  | .project e => e.message
  | .file e => e.message

/-- What a command leaves behind. -/
structure Outcome where
  exitCode : Nat
  stdout : Text
  stderr : Text
  tree : FileTree

/-- A text with a line feed after it. -/
def lineOf (t : Text) : Text := t ++ ['\n']

def decimal (n : Nat) : Text := Nat.toDigits 10 n

/-- A command that failed after printing something. -/
def Outcome.failure (t : FileTree) (printed : Text) (e : RunError) : Outcome :=
  ⟨1, printed, lineOf ("error: ".toList ++ e.message), t⟩

end Command

end DocDigest
