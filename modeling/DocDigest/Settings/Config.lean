import DocDigest.Json.Parser
import DocDigest.Json.Printer
import DocDigest.Path.Basic

/-!
# Config files

What a config file can set, and its JSON form: an object whose members may each be left out, or an
array of the same values in the order of the fields. A name that is no field is refused, and so is a
name that stands twice.
-/

set_option autoImplicit false

namespace DocDigest

/-- The name of the config file in a project's root directory. -/
def configName : Text := "docsweep.json".toList

/-- What a config file sets; `none` where it leaves a field out. -/
structure Config where
  output : Option Path
  format : Option Text
  extensions : Option (List Text)
  exclude : List Text
  /-- Whether the default names are excluded. -/
  defaultExcludes : Option Bool
  followSymlinks : Option Bool
deriving DecidableEq

namespace Config

def empty : Config := ⟨none, none, none, [], none, none⟩

/-- Where the document goes unless the user says otherwise. -/
def defaultOutput : Path := ⟨"documentation.md".toList⟩

/-- The format of the document unless the user says otherwise. -/
def defaultFormat : Text := "markdown".toList

/-- The extensions of the files that are searched unless the user says otherwise. -/
def defaultExtensions : List Text := [".js".toList, ".jsx".toList, ".ts".toList, ".tsx".toList]

/-- The config that spells out every default. -/
def defaults : Config where
  output := some defaultOutput
  format := some defaultFormat
  extensions := some defaultExtensions
  exclude := []
  defaultExcludes := some true
  followSymlinks := some false

/-! ## JSON form -/

def fieldNames : List Text :=
  ["output".toList, "format".toList, "extensions".toList, "exclude".toList,
    "default_excludes".toList, "follow_symlinks".toList]

/-- The values of the fields that are set. Excluded names are left out if there are none. -/
def fieldValues (c : Config) : List (Option Json) :=
  [c.output.map (Json.ofText ·.text), c.format.map Json.ofText, c.extensions.map Json.ofTexts,
    if c.exclude.isEmpty then none else some (Json.ofTexts c.exclude),
    c.defaultExcludes.map Json.bool, c.followSymlinks.map Json.bool]

def toJson (c : Config) : Json :=
  Json.ofMembers ((fieldNames.zip c.fieldValues).filterMap fun (name, value) =>
    value.map (name, ·))

/-- Reads a field that may be left out or `null`. -/
def optional? {α : Type} (read : Json → Option α) (field : Option Json) : Option (Option α) :=
  match field with
  | some v => Json.orNull read v
  | none => some none

/-- Reads the excluded names, which may be left out but not `null`. -/
def exclude? (field : Option Json) : Option (List Text) :=
  match field with
  | some v => v.asTexts?
  | none => some []

/-- Reads a config from the values of its fields. -/
def ofFields? : List (Option Json) → Option Config
  | [output, format, extensions, exclude, defaultExcludes, followSymlinks] => do
    some {
      output := (← optional? Json.asText? output).map Path.mk
      format := ← optional? Json.asText? format
      extensions := ← optional? Json.asTexts? extensions
      exclude := ← exclude? exclude
      defaultExcludes := ← optional? Json.asBool? defaultExcludes
      followSymlinks := ← optional? Json.asBool? followSymlinks }
  | _ => none

/-- The config that a JSON value denotes. -/
def ofJson? (v : Json) : Option Config := (Json.fields? fieldNames true v).bind ofFields?

def ofText? (t : Text) : Option Config := (Json.parse? t).bind ofJson?

def print (layout : Json.Layout) (c : Config) : Text := c.toJson.print layout

end Config

end DocDigest
