import DocDigest.Command.Run
import DocDigest.FileTree.Snapshot

/-!
# Running on a snapshot

A session is a tree and the directory that a command runs in, as one JSON object. The answer to a
command line is a JSON object too: the number that the command exits with, what it prints, and the
tree that it leaves.
-/

set_option autoImplicit false

namespace DocDigest

namespace Command

/-- A tree and the directory that a command runs in. -/
structure Session where
  base : Location
  tree : FileTree

namespace Session

/-- The session that a JSON value denotes. -/
def ofJson? (v : Json) : Option Session := do
  match ← Json.fields? ["directory".toList, "tree".toList] true v with
  | [some base, some tree] => some ⟨← FileTree.locationOf? base, ← FileTree.ofJson? tree⟩
  | _ => none

def ofText? (t : Text) : Option Session := (Json.parse? t).bind ofJson?

end Session

def Outcome.toJson (o : Outcome) : Json :=
  Json.ofMembers [("exit".toList, Json.ofNat o.exitCode), ("stdout".toList, Json.ofText o.stdout),
    ("stderr".toList, Json.ofText o.stderr), ("tree".toList, o.tree.toJson)]

/-- The answer to a command line that runs in the session in a text: the number to exit with, and
what to print. -/
def answer (words : List Text) (input : Text) : Nat × Text :=
  match Session.ofText? input with
  | some session =>
    let o := run session.tree session.base words
    (o.exitCode, lineOf (o.toJson.print .indented))
  | none => (2, lineOf "error: the standard input holds no session".toList)

end Command

end DocDigest
