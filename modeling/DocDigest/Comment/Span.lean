import DocDigest.Text.Basic

/-!
# Spans and cursors

A span is a stretch of a source text, given by the byte offsets of its two ends. A cursor is a
place in a source text: its byte offset, whether a line begins there, and the text from there on.
-/

set_option autoImplicit false

namespace DocDigest

/-- The bytes of a source from `start` up to, but not including, `stop`. -/
structure Span where
  start : Nat
  stop : Nat
deriving DecidableEq

namespace Span

def length (s : Span) : Nat := s.stop - s.start

def isEmpty (s : Span) : Bool := s.start == s.stop

/-- The part of the source that a span covers. -/
def slice (s : Span) (source : Text) : Text := (source.dropBytes s.start).takeBytes s.length

def shift (n : Nat) (s : Span) : Span := ⟨s.start + n, s.stop + n⟩

end Span

/-- A place in a source text. -/
structure Cursor where
  offset : Nat
  /-- Whether the place is at the start of the text or right after a line feed. -/
  atLineStart : Bool
  rest : Text

namespace Cursor

def start (source : Text) : Cursor := ⟨0, true, source⟩

/-- The first place at byte offset `target` or later, looking through the given text. -/
def seek (target offset : Nat) (atLineStart : Bool) : Text → Cursor
  | [] => ⟨offset, atLineStart, []⟩
  | c :: cs =>
    if offset < target then seek target (offset + c.utf8Size) (c == '\n') cs
    else ⟨offset, atLineStart, c :: cs⟩

/-- The first place at byte offset `target` or later, or the end of the text. -/
def moveTo (target : Nat) (c : Cursor) : Cursor :=
  seek target c.offset c.atLineStart c.rest

/-- The place where a search goes on after a comment: at the end of the comment, and in any case
farther on than before. -/
def past (s : Span) (c : Cursor) : Cursor := c.moveTo (max s.stop (c.offset + 1))

/-- The place at a byte offset of a source. There is none past the end of the source or inside a
character. -/
def at? (source : Text) (offset : Nat) : Option Cursor :=
  let c := (start source).moveTo offset
  if c.offset = offset then some c else none

theorem moveTo_of_le {target : Nat} {c : Cursor} (h : target ≤ c.offset) : c.moveTo target = c := by
  obtain ⟨offset, fresh, rest⟩ := c
  cases rest with
  | nil => rfl
  | cons d ds =>
    have h' : ¬ offset < target := Nat.not_lt.mpr h
    simp [moveTo, seek, h']

/-- Moving never passes the end of the text: what was ahead is passed over or still ahead. -/
theorem offset_seek_add (target offset : Nat) (fresh : Bool) (t : Text) :
    (seek target offset fresh t).offset + (seek target offset fresh t).rest.byteLength
      = offset + t.byteLength := by
  induction t generalizing offset fresh with
  | nil => rfl
  | cons c cs ih =>
    by_cases h : offset < target
    · simp [seek, h, ih, Text.byteLength, Nat.add_assoc]
    · simp [seek, h]

/-- Whether a line begins behind a text, given whether one begins before it. -/
def lineBegins (atLineStart : Bool) (t : Text) : Bool :=
  match t.getLast? with
  | none => atLineStart
  | some c => c == '\n'

/-- Seeking the end of a text that is ahead arrives there. -/
theorem seek_append (offset : Nat) (fresh : Bool) (s t : Text) :
    seek (offset + s.byteLength) offset fresh (s ++ t)
      = ⟨offset + s.byteLength, lineBegins fresh s, t⟩ := by
  induction s generalizing offset fresh with
  | nil => exact @moveTo_of_le offset ⟨offset, fresh, t⟩ (Nat.le_refl offset)
  | cons c cs ih =>
    have hpos := c.utf8Size_pos
    have hlt : offset < offset + (c.utf8Size + Text.byteLength cs) := by omega
    -- The last character decides, whichever text it is counted to.
    have hlast : lineBegins (c == '\n') cs = lineBegins fresh (c :: cs) := by
      cases cs with
      | nil => rfl
      | cons d ds => rw [lineBegins, lineBegins, List.getLast?_cons_cons]; rfl
    rw [List.cons_append, Text.byteLength, seek, if_pos hlt, ← Nat.add_assoc, ih, hlast]

theorem at?_append (s t : Text) :
    at? (s ++ t) s.byteLength = some ⟨s.byteLength, lineBegins true s, t⟩ := by
  have h := seek_append 0 true s t
  rw [Nat.zero_add] at h
  simp [at?, start, moveTo, h]

end Cursor

end DocDigest
