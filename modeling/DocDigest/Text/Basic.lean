import DocDigest.Text.Blank
import DocDigest.Text.Front

/-!
# Texts

A text is the list of its characters. Its length is counted in the bytes of its UTF-8 form, and
the operations here are the ones that the rest of the library reads and writes texts with:
trimming, splitting at a character, lines, and joining.
-/

set_option autoImplicit false

namespace DocDigest

/-- A text, character by character. -/
abbrev Text := List Char

namespace Text

/-! ## Length and cuts in bytes -/

/-- The number of bytes of a text in UTF-8. -/
def byteLength : Text → Nat
  | [] => 0
  | c :: cs => c.utf8Size + byteLength cs

theorem byteLength_append (s t : Text) :
    byteLength (s ++ t) = byteLength s + byteLength t := by
  induction s with
  | nil => simp [byteLength]
  | cons c cs ih => simp [byteLength, ih, Nat.add_assoc]

/-- The characters that begin at byte `n` or later. -/
def dropBytes (n : Nat) : Text → Text
  | [] => []
  | c :: cs => if n = 0 then c :: cs else dropBytes (n - c.utf8Size) cs

/-- The characters that begin before byte `n`. -/
def takeBytes (n : Nat) : Text → Text
  | [] => []
  | c :: cs => if n = 0 then [] else c :: takeBytes (n - c.utf8Size) cs

/-- A cut loses nothing. -/
theorem takeBytes_append_dropBytes (n : Nat) (t : Text) :
    takeBytes n t ++ dropBytes n t = t := by
  induction t generalizing n with
  | nil => rfl
  | cons c cs ih => by_cases h : n = 0 <;> simp [takeBytes, dropBytes, h, ih]

theorem dropBytes_zero (t : Text) : dropBytes 0 t = t := by
  cases t <;> rfl

theorem dropBytes_append (s t : Text) : dropBytes (byteLength s) (s ++ t) = t := by
  induction s with
  | nil => exact dropBytes_zero t
  | cons c cs ih =>
    have hpos := c.utf8Size_pos
    have hne : ¬ c.utf8Size + byteLength cs = 0 := by omega
    rw [List.cons_append, byteLength, dropBytes, if_neg hne, Nat.add_sub_cancel_left, ih]

theorem takeBytes_append (s t : Text) : takeBytes (byteLength s) (s ++ t) = s := by
  have h := takeBytes_append_dropBytes (byteLength s) (s ++ t)
  rw [dropBytes_append] at h
  exact List.append_cancel_right h

/-! ## Trimming -/

def trimStart (t : Text) : Text := t.dropWhile isBlank

def trimEnd (t : Text) : Text := (t.reverse.dropWhile isBlank).reverse

/-- The text without white space at either end. -/
def trim (t : Text) : Text := trimEnd (trimStart t)

/-- The text without the given words at its front, if it begins with them. -/
def dropLeading (front t : Text) : Text := (after? front t).getD t

/-- The text without the given words at its back, if it ends with them. -/
def dropTrailing (back t : Text) : Text :=
  ((after? back.reverse t.reverse).map List.reverse).getD t

theorem dropLeading_append (front t : Text) : dropLeading front (front ++ t) = t := by
  rw [dropLeading, after?_append, Option.getD_some]

/-- A text that does not begin with the words stays as it is. -/
theorem dropLeading_of_not_isPrefix {front t : Text} (h : ¬ front <+: t) :
    dropLeading front t = t := by
  rw [dropLeading, after?_eq_none_iff.mpr h, Option.getD_none]

theorem dropTrailing_append (back t : Text) : dropTrailing back (t ++ back) = t := by
  rw [dropTrailing, List.reverse_append, after?_append, Option.map_some, Option.getD_some,
    List.reverse_reverse]

/-- A text that does not end with the words stays as it is. -/
theorem dropTrailing_of_not_isSuffix {back t : Text} (h : ¬ back <:+ t) :
    dropTrailing back t = t := by
  have hr : ¬ back.reverse <+: t.reverse := fun hp => h (List.reverse_prefix.mp hp)
  rw [dropTrailing, after?_eq_none_iff.mpr hr, Option.map_none, Option.getD_none]

/-! ## Splitting and joining -/

/-- The pieces between the occurrences of a character; there is always at least one. -/
def splitOn (sep : Char) : Text → List Text
  | [] => [[]]
  | c :: cs => if c = sep then [] :: splitOn sep cs else (splitOn sep cs).modifyHead (c :: ·)

theorem splitOn_ne_nil (sep : Char) (t : Text) : splitOn sep t ≠ [] := by
  induction t with
  | nil => simp [splitOn]
  | cons c cs ih =>
    by_cases h : c = sep
    · simp [splitOn, h]
    · cases hs : splitOn sep cs with
      | nil => exact absurd hs ih
      | cons p ps => simp [splitOn, h, hs]

/-- The pieces with a text between each two of them. -/
def joinWith (sep : Text) : List Text → Text
  | [] => []
  | [p] => p
  | p :: ps => p ++ sep ++ joinWith sep ps

/-- Joining the pieces again gives the text that was split. -/
theorem joinWith_splitOn (sep : Char) (t : Text) : joinWith [sep] (splitOn sep t) = t := by
  induction t with
  | nil => rfl
  | cons c cs ih =>
    cases hs : splitOn sep cs with
    | nil => exact absurd hs (splitOn_ne_nil sep cs)
    | cons p ps =>
      rw [hs] at ih
      by_cases h : c = sep
      · simp [splitOn, h, hs, joinWith, ih]
      · cases ps with
        | nil => simpa [splitOn, h, hs, joinWith] using ih
        | cons q qs => simpa [splitOn, h, hs, joinWith] using ih

/-- The pieces of two texts with the separator between them are the pieces of both. -/
theorem splitOn_append_cons (sep : Char) (s t : Text) :
    splitOn sep (s ++ sep :: t) = splitOn sep s ++ splitOn sep t := by
  induction s with
  | nil => simp [splitOn]
  | cons c cs ih =>
    by_cases h : c = sep
    · simp [splitOn, h, ih]
    · cases hs : splitOn sep cs with
      | nil => exact absurd hs (splitOn_ne_nil sep cs)
      | cons p ps => simp [splitOn, h, ih, hs]

theorem not_mem_of_mem_splitOn {sep : Char} {t piece : Text} (h : piece ∈ splitOn sep t) :
    sep ∉ piece := by
  induction t generalizing piece with
  | nil => simp_all [splitOn]
  | cons c cs ih =>
    by_cases hc : c = sep
    · rw [splitOn, if_pos hc, List.mem_cons] at h
      rcases h with rfl | h
      · exact List.not_mem_nil
      · exact ih h
    · cases hs : splitOn sep cs with
      | nil => exact absurd hs (splitOn_ne_nil sep cs)
      | cons p ps =>
        rw [splitOn, if_neg hc, hs, List.modifyHead_cons, List.mem_cons] at h
        rw [hs] at ih
        rcases h with rfl | h
        · intro hm
          rcases List.mem_cons.mp hm with hm | hm
          · exact hc hm.symm
          · exact ih List.mem_cons_self hm
        · exact ih (List.mem_cons_of_mem p h)

/-! ## Lines -/

/-- The line without the carriage return that ends it, if one does. -/
def dropReturn (line : Text) : Text := dropTrailing ['\r'] line

/-- Closes the pieces between line feeds: a piece before a line feed loses a carriage return at its
end, and the piece after the last one is a line only if it holds something. -/
def closeLines : List Text → List Text
  | [] => []
  | [last] => if last.isEmpty then [] else [last]
  | line :: rest => dropReturn line :: closeLines rest

/-- The lines of a text, each without its line ending (a line feed, or a carriage return and a line
feed). -/
def lines (t : Text) : List Text := closeLines (splitOn '\n' t)

example : lines "a\r\n\nb\r".toList = ["a".toList, [], "b\r".toList] := by decide

end Text

end DocDigest
