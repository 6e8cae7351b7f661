import DocDigest.Glob.Match

/-!
# Ignore rules

A rules file holds a rule on each line. A rule is a glob pattern; a slash in front anchors it, so
that it is matched against a whole path below the root and not against single names too. Slashes at
the end mean nothing. Blank lines and lines that begin with `#` hold no rule.
-/

set_option autoImplicit false

namespace DocDigest

/-- A rule of a rules file. -/
structure Rule where
  /-- The pattern, without the slash that anchors it and without slashes at its end. -/
  pattern : Text
  /-- Whether a slash stood before the pattern. -/
  anchored : Bool
deriving DecidableEq

namespace Rule

/-- The text without the slashes at its end. -/
def dropSlashes (t : Text) : Text := (t.reverse.dropWhile (· == '/')).reverse

/-- The rule on a line, if there is one. -/
def ofLine? (line : Text) : Option Rule :=
  let line := Text.trim line
  if line.head? = none ∨ line.head? = some '#' then none
  else
    let line := dropSlashes line
    let rule : Rule :=
      match line with
      | '/' :: rest => ⟨rest, true⟩
      | _ => ⟨line, false⟩
    if rule.pattern.isEmpty then none else some rule

/-- The rules of a rules file, in order. -/
def ofText (t : Text) : List Rule := (Text.lines t).filterMap ofLine?

/-- The line that a rule is written as. -/
def line (r : Rule) : Text := (if r.anchored then ['/'] else []) ++ r.pattern ++ ['/']

def glob (r : Rule) : Glob := Glob.ofText r.pattern

/-- Whether a rule covers a single name, wherever it stands in a path. -/
def coversName (r : Rule) (name : Text) : Bool := !r.anchored && r.glob.accepts name

/-- Whether a rule covers a path below the root, given as a text and as its names. -/
def covers (r : Rule) (relative : Text) (names : List Text) : Bool :=
  r.glob.accepts relative || names.any r.coversName

example : ofText "# c\n\n/out/\n*.tmp\n//\n".toList
    = [⟨"out".toList, true⟩, ⟨"*.tmp".toList, false⟩] := by decide

end Rule

end DocDigest
