import DocDigest.Comment.Shape
import DocDigest.Proofs.Text.Cut

/-!
# Places between two parts of a source

A source that is written as `before ++ rest` has one place between the two parts, `between before
rest`. The start of a source, the places that a search is asked for and the places that a scan comes
to all have this form, so that what holds of a place can be said in terms of the two texts alone.

Main statement: moving a cursor to the end of a stretch that is ahead gives the place behind the
stretch (`moveTo_between`).
-/

set_option autoImplicit false

namespace DocDigest

theorem Span.slice_append (before text rest : Text) :
    Span.slice ⟨before.byteLength, (before ++ text).byteLength⟩ (before ++ text ++ rest)
      = text := by
  rw [Span.slice, Span.length, List.append_assoc, Text.dropBytes_append, Text.byteLength_append,
    Nat.add_sub_cancel_left, Text.takeBytes_append]

namespace Cursor

/-- The place between two parts of a source. -/
def between (before rest : Text) : Cursor :=
  ⟨before.byteLength, lineBegins true before, rest⟩

@[simp] theorem offset_between (before rest : Text) :
    (between before rest).offset = before.byteLength := rfl

@[simp] theorem rest_between (before rest : Text) : (between before rest).rest = rest := rfl

@[simp] theorem lineBegins_nil (fresh : Bool) : lineBegins fresh [] = fresh := rfl

@[simp] theorem lineBegins_append_singleton (fresh : Bool) (t : Text) (c : Char) :
    lineBegins fresh (t ++ [c]) = (c == '\n') := by
  rw [lineBegins, List.getLast?_concat]

/-- Whether a line begins behind two texts depends on the first only if the second is empty. -/
theorem lineBegins_append (fresh : Bool) (s t : Text) :
    lineBegins fresh (s ++ t) = lineBegins (lineBegins fresh s) t := by
  rcases List.eq_nil_or_concat t with rfl | ⟨init, c, rfl⟩
  · rw [List.append_nil, lineBegins_nil]
  · rw [List.concat_eq_append, ← List.append_assoc, lineBegins_append_singleton,
      lineBegins_append_singleton]

theorem lineBegins_cons (fresh : Bool) (c : Char) (t : Text) :
    lineBegins fresh (c :: t) = lineBegins (c == '\n') t := by
  rw [← List.singleton_append, lineBegins_append]
  exact congrArg (lineBegins · t) (lineBegins_append_singleton fresh [] c)

/-- A text behind which a line begins is empty or ends in a line feed. -/
theorem eq_nil_or_eq_append_lineFeed {fresh : Bool} {t : Text} (h : lineBegins fresh t = true) :
    t = [] ∨ ∃ init, t = init ++ ['\n'] := by
  rcases List.eq_nil_or_concat t with rfl | ⟨init, c, rfl⟩
  · exact Or.inl rfl
  · rw [List.concat_eq_append, lineBegins_append_singleton, beq_iff_eq] at h
    exact Or.inr ⟨init, by rw [h, List.concat_eq_append]⟩

/-- A line begins behind a part of a source exactly if the part is empty or ends in a line feed. -/
theorem lineBegins_iff {before : Text} :
    lineBegins true before = true ↔ before = [] ∨ before.getLast? = some '\n' := by
  constructor
  · intro h
    rcases eq_nil_or_eq_append_lineFeed h with rfl | ⟨init, rfl⟩
    · exact Or.inl rfl
    · exact Or.inr List.getLast?_concat
  · rintro (rfl | h)
    · rfl
    · rw [lineBegins, h]
      rfl

/-- Moving to the end of a stretch that is ahead leads behind it. -/
theorem moveTo_between (before mid rest : Text) :
    (between before (mid ++ rest)).moveTo (before ++ mid).byteLength
      = between (before ++ mid) rest := by
  calc (between before (mid ++ rest)).moveTo (before ++ mid).byteLength
      = seek (before.byteLength + mid.byteLength) before.byteLength (lineBegins true before)
          (mid ++ rest) := by
        rw [Text.byteLength_append]
        rfl
    _ = ⟨before.byteLength + mid.byteLength, lineBegins (lineBegins true before) mid, rest⟩ :=
        seek_append _ _ mid rest
    _ = between (before ++ mid) rest := by
        rw [← Text.byteLength_append, ← lineBegins_append]
        rfl

/-- A comment that ends ahead is passed by moving to its end: the guard against standing still has
no effect. -/
theorem past_eq_moveTo {c : Cursor} {s : Span} (h : c.offset < s.stop) :
    c.past s = c.moveTo s.stop := by
  rw [past, Nat.max_eq_left h]

/-- A comment that is ahead and not empty is passed. -/
theorem past_between {before mid rest : Text} {s : Span} (hmid : mid ≠ [])
    (hstop : s.stop = (before ++ mid).byteLength) :
    (between before (mid ++ rest)).past s = between (before ++ mid) rest := by
  have hlt : before.byteLength < s.stop := by
    have hpos := Text.byteLength_pos hmid
    rw [hstop, Text.byteLength_append]
    omega
  rw [past_eq_moveTo hlt, hstop, moveTo_between]

theorem at?_between (before rest : Text) :
    at? (before ++ rest) before.byteLength = some (between before rest) :=
  at?_append before rest

/-- Seeking arrives at a cut of the text that is ahead, whatever the target is. -/
theorem exists_seek_eq (target offset : Nat) (fresh : Bool) (t : Text) :
    ∃ s rest, t = s ++ rest ∧
      seek target offset fresh t = ⟨offset + s.byteLength, lineBegins fresh s, rest⟩ := by
  induction t generalizing offset fresh with
  | nil =>
      exact ⟨[], [], rfl, rfl⟩
  | cons c cs ih =>
      by_cases h : offset < target
      · obtain ⟨s, rest, rfl, hs⟩ := ih (offset + c.utf8Size) (c == '\n')
        refine ⟨c :: s, rest, rfl, ?_⟩
        rw [seek, if_pos h, hs, Text.byteLength, lineBegins_cons, Nat.add_assoc]
      · exact ⟨[], c :: cs, rfl, by rw [seek, if_neg h]; rfl⟩

/-- There is no place past the end of a source or inside a character. -/
theorem at?_eq_none {source : Text} {o : Nat} (h : ¬ source.IsBoundary o) :
    at? source o = none := by
  obtain ⟨s, rest, rfl, hseek⟩ := exists_seek_eq o 0 true source
  have hne : ¬ s.byteLength = o := by
    rintro rfl
    exact h (Text.isBoundary_append s rest)
  rw [Nat.zero_add] at hseek
  simp [at?, start, moveTo, hseek, hne]

/-- There is a place at exactly the boundaries of a source. -/
theorem isSome_at?_iff {source : Text} {o : Nat} :
    (at? source o).isSome = true ↔ source.IsBoundary o := by
  constructor
  · intro hsome
    refine Classical.byContradiction fun hinner => ?_
    rw [at?_eq_none hinner] at hsome
    exact Bool.false_ne_true hsome
  · rintro ⟨before, rest, rfl, rfl⟩
    rw [at?_between]
    rfl

end Cursor

theorem Shape.nextAt_between (shape : Shape) (before rest : Text) :
    shape.nextAt (before ++ rest) before.byteLength
      = shape.nextFrom (Cursor.between before rest) := by
  rw [nextAt, Cursor.at?_between, Option.bind_some]

theorem Shape.nextAt_eq_none {source : Text} {o : Nat} (h : ¬ source.IsBoundary o)
    (shape : Shape) : shape.nextAt source o = none := by
  rw [nextAt, Cursor.at?_eq_none h, Option.bind_none]

end DocDigest
