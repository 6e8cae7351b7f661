import DocDigest.Comment.Shape

/-!
# Scanning for comments of several shapes

A scan takes, from where it stands, the comment that starts first among those of all shapes, and
goes on from its end. `plainScan` searches for every shape at each step. `scan` keeps the comment
that it found for a shape until the scan has moved past its start, so that each shape looks at the
source once.
-/

set_option autoImplicit false

namespace DocDigest

namespace Scan

/-- The span that starts first, and of those that start together the one listed first. -/
def earliest : List Span → Option Span
  | [] => none
  | s :: rest =>
    match earliest rest with
    | none => some s
    | some t => if t.start < s.start then some t else some s

/-! ## Searching afresh -/

/-- The comments from a place on, at most `fuel` of them, every shape searched for at each step. -/
def plainFrom (shapes : List Shape) (fuel : Nat) (c : Cursor) : List Span :=
  match fuel with
  | 0 => []
  | fuel + 1 =>
    match earliest (shapes.filterMap (·.nextFrom c)) with
    | none => []
    | some span => span :: plainFrom shapes fuel (c.moveTo span.stop)

/-! ## Keeping what was found -/

/-- What a scan knows of the next comment of a shape. -/
inductive Outlook where
  /-- Nothing was searched for yet. -/
  | unknown
  /-- The last search found a comment. -/
  | ahead (span : Span)
  /-- The last search found that no comment is left. -/
  | exhausted

namespace Outlook

def span? : Outlook → Option Span
  | .ahead span => some span
  | _ => none

def ofSearch : Option Span → Outlook
  | some span => .ahead span
  | none => .exhausted

end Outlook

/-- A shape and what the scan knows of its next comment. -/
structure Watch where
  shape : Shape
  outlook : Outlook

namespace Watch

def start (shape : Shape) : Watch := ⟨shape, .unknown⟩

def search (c : Cursor) (w : Watch) : Watch := { w with outlook := .ofSearch (w.shape.nextFrom c) }

/-- Searches again if nothing is known or the known comment starts before the place. -/
def refresh (c : Cursor) (w : Watch) : Watch :=
  match w.outlook with
  | .unknown => w.search c
  | .ahead span => if span.start < c.offset then w.search c else w
  | .exhausted => w

end Watch

/-- A scan between two comments: what it knows of each shape, and where it stands. -/
structure State where
  watches : List Watch
  cursor : Cursor

namespace State

def start (shapes : List Shape) (source : Text) : State :=
  ⟨shapes.map Watch.start, Cursor.start source⟩

/-- The next comment and the scan after it, unless no shape has a comment left. -/
def next? (s : State) : Option (Span × State) :=
  let watches := s.watches.map (·.refresh s.cursor)
  (earliest (watches.filterMap (·.outlook.span?))).map fun span =>
    (span, ⟨watches, s.cursor.past span⟩)

/-- The comments that a scan still comes to, at most `fuel` of them. -/
def spans (fuel : Nat) (s : State) : List Span :=
  match fuel with
  | 0 => []
  | fuel + 1 =>
    match s.next? with
    | none => []
    | some (span, s) => span :: s.spans fuel

end State

end Scan

/-- The comments of a source, searching for every shape at each step. Earlier shapes win ties. -/
def plainScan (shapes : List Shape) (source : Text) : List Span :=
  Scan.plainFrom shapes source.length (Cursor.start source)

/-- The comments of a source, in order and without overlaps. Earlier shapes win ties. -/
def scan (shapes : List Shape) (source : Text) : List Span :=
  (Scan.State.start shapes source).spans source.length

example : scan Shape.all "/** // * a */\n// * b /** c */".toList = [⟨0, 13⟩, ⟨14, 29⟩] := by
  decide

end DocDigest
