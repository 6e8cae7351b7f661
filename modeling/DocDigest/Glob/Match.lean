import DocDigest.Glob.Basic

/-!
# Matching

A text is matched against elements from left to right. A star first takes nothing and then one
character more at a time. When the text runs out before the elements do, no star to the left can
help by taking more, so the search ends there.
-/

set_option autoImplicit false

namespace DocDigest

namespace Glob

/-- How an attempt to match ends. -/
inductive Outcome where
  /-- The elements took the whole text. -/
  | matched
  /-- An element refused a character, or characters were left over. -/
  | refused
  /-- The text ran out. -/
  | exhausted
deriving DecidableEq

/-- Tries an attempt on a text and then on the text without its first character, and so on, until
one does not end in a refusal. -/
def tryAll (attempt : Text → Outcome) : Text → Outcome
  | [] => attempt []
  | c :: cs =>
    match attempt (c :: cs) with
    | .refused => tryAll attempt cs
    | other => other

/-- Matches a text against elements. -/
def run : List Element → Text → Outcome
  | [], t => if t.isEmpty then .matched else .refused
  | .star :: es, t => tryAll (run es) t
  | .one _ :: _, [] => .exhausted
  | .one s :: es, c :: cs => if s.holds c then run es cs else .refused

def accepts (g : Glob) (t : Text) : Bool :=
  match g with
  | .pattern _ es => run es t == .matched
  | .literal l => l == t

/-- The texts that elements stand for: every element takes its part of the text, in order. -/
inductive Spells : List Element → Text → Prop where
  | nil : Spells [] []
  /-- An element for one character takes a character that it stands for. -/
  | one {s : Single} {es : List Element} {c : Char} {cs : Text} :
      s.holds c = true → Spells es cs → Spells (.one s :: es) (c :: cs)
  /-- A star takes any characters. -/
  | star {es : List Element} (taken : Text) {rest : Text} :
      Spells es rest → Spells (.star :: es) (taken ++ rest)

example : (ofText "*.te?t.[jt]s".toList).accepts "src/a.test.ts".toList = true := by decide

example : (ofText "[!a-c]".toList).accepts "b".toList = false := by decide

end Glob

end DocDigest
