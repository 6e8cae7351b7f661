import DocDigest.Command.Outcome
import DocDigest.FileTree.Edit

/-!
# Writing a config file

The config file that is written spells out the defaults, so that it changes nothing until it is
edited.
-/

set_option autoImplicit false

namespace DocDigest

namespace Command

/-- The contents of the config file that `init` writes. -/
def initialConfig : Text := lineOf (Config.defaults.print .indented)

/-- Writes a config file into a directory, which is made if it is missing. A config file that is
there already stays as it is. -/
def init (t : FileTree) (base : Location) (path : Path) : Outcome :=
  let p := path.join ⟨configName⟩
  if t.isThere base p then ⟨0, lineOf "✓ Already initialized".toList, [], t⟩
  else
    match t.createDirectories base path with
    | (.error e, t) => .failure t [] (.file e)
    | (.ok (), t) =>
      match t.write base p (Utf8.encode initialConfig) with
      | .error e => .failure t [] (.file e)
      | .ok t =>
        ⟨0, lineOf ("✓ Wrote ".toList ++ p.text) ++
          lineOf "  Run docsweep to generate documentation".toList, [], t⟩

end Command

end DocDigest
