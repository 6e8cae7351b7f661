import DocDigest.Command.Digest
import DocDigest.Command.Init
import DocDigest.Command.Options

/-!
# Running a command line

A command line runs on a file tree and leaves a file tree, along with what it prints and the number
that it exits with.
-/

set_option autoImplicit false

namespace DocDigest

namespace Command

/-- The number and the name that `--version` prints. -/
def versionLine : Text := lineOf "docsweep 0.1.0".toList

def usageLines : Text :=
  lineOf "Usage: docsweep [OPTIONS]".toList ++ lineOf "       docsweep init [PATH]".toList

/-- Answers a command line that asks for no work. -/
def Stop.outcome (t : FileTree) : Stop → Outcome
  | .misuse => ⟨2, [], usageLines, t⟩
  | .help => ⟨0, usageLines, [], t⟩
  | .version => ⟨0, versionLine, [], t⟩

/-- Runs the command in the words of a command line, in the directory `base` of a tree. The system
has room for all that is written. -/
def run (t : FileTree) (base : Location) (words : List Text) : Outcome :=
  match Request.ofWords words with
  | .error stop => stop.outcome t
  | .ok (.digest root config choices verbose) => digest t none base root config choices verbose
  | .ok (.init path) => init t base path

end Command

end DocDigest
