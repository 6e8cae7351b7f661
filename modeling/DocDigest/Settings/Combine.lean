import DocDigest.Ignore.Excludes
import DocDigest.Settings.Config
import DocDigest.Settings.Extension

/-!
# Settings of a run

The settings of a run come from the command line, then from the config file, then from the defaults.
Excluded names add up instead.
-/

set_option autoImplicit false

namespace DocDigest

/-- What the command line sets. -/
structure Choices where
  output : Option Path
  format : Option Text
  /-- Extensions, separated by commas. -/
  extensions : Option Text
  exclude : List Text
  noDefaultExcludes : Bool
  followSymlinks : Bool
deriving DecidableEq

def Choices.empty : Choices := ⟨none, none, none, [], false, false⟩

/-- All that a run needs to know. -/
structure Settings where
  root : Path
  output : Path
  format : Text
  extensions : List Text
  excludes : Excludes
  followSymlinks : Bool
deriving DecidableEq

namespace Settings

/-- The extensions that are searched: those of the command line, or of the config file, or the
default ones. -/
def extensionsOf (file : Config) (choices : Choices) : List Text :=
  match choices.extensions, file.extensions with
  | some list, _ => Extension.ofList list
  | none, some words => Extension.ofWords words
  | none, none => Extension.ofWords Config.defaultExtensions

/-- The excluded names: the default ones, unless one side drops them, and those of both sides. -/
def excludesOf (file : Config) (choices : Choices) : Excludes :=
  let base :=
    if !choices.noDefaultExcludes && file.defaultExcludes.getD true then Excludes.default
    else Excludes.none
  (base.extend file.exclude).extend choices.exclude

/-- The settings for a root directory. -/
def combine (root : Path) (file : Config) (choices : Choices) : Settings where
  root := root
  output := (choices.output.or file.output).getD Config.defaultOutput
  format := (choices.format.or file.format).getD Config.defaultFormat
  extensions := extensionsOf file choices
  excludes := excludesOf file choices
  followSymlinks := choices.followSymlinks || file.followSymlinks.getD false

end Settings

end DocDigest
