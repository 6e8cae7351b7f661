import DocDigest.Comment.Block
import DocDigest.Comment.LineRun

/-!
# Comment shapes

The two forms of doc comment, the search for the next comment of one form, and all comments of one
form.
-/

set_option autoImplicit false

namespace DocDigest

/-- The forms of doc comment. -/
inductive Shape where
  /-- A comment between `/**` and `*/`. -/
  | block
  /-- A run of lines that each begin with two slashes and a star. -/
  | line
deriving DecidableEq

namespace Shape

def name : Shape → Text
  | .block => "block".toList
  | .line => "line".toList

def ofName? (t : Text) : Option Shape := [block, line].find? (·.name == t)

/-- The forms that sources are searched for, the first one winning a tie. -/
def all : List Shape := [block, line]

/-- The first comment of a form at a place or after it. A run of lines counts from the first line
that begins there or later. -/
def nextFrom (shape : Shape) (c : Cursor) : Option Span :=
  match shape with
  | .block => Block.first? c.offset c.rest
  | .line => LineRun.first? c.offset c.atLineStart c.rest

/-- The first comment of a form at a byte offset of a source or after it. There is none if the
offset is past the end or inside a character. -/
def nextAt (shape : Shape) (source : Text) (offset : Nat) : Option Span :=
  (Cursor.at? source offset).bind shape.nextFrom

/-- The comments of a form from a place on, at most `fuel` of them, each searched for from the end
of the one before. -/
def spansFrom (shape : Shape) (fuel : Nat) (c : Cursor) : List Span :=
  match fuel with
  | 0 => []
  | fuel + 1 =>
    match shape.nextFrom c with
    | none => []
    | some span => span :: spansFrom shape fuel (c.past span)

/-- All comments of a form in a source. No two overlap and none is empty, so there are at most as
many as the source has characters. -/
def spans (shape : Shape) (source : Text) : List Span :=
  spansFrom shape source.length (Cursor.start source)

end Shape

end DocDigest
