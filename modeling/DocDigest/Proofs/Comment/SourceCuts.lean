import DocDigest.Proofs.Comment.Place
import DocDigest.Proofs.Text.Occurrence

/-!
# Cutting a source at offsets

A source can be cut at a byte offset only where no character of it lies across the offset. Here a
cut that cannot be made is `none`, so that a search that cuts the source can be told apart from one
that never does so inside a character.
-/

set_option autoImplicit false

namespace DocDigest

namespace Text

/-- The text from a byte offset on. There is none past the end or inside a character. -/
def from? (t : Text) (o : Nat) : Option Text := (Cursor.at? t o).map Cursor.rest

/-- The text up to a byte offset. There is none past the end or inside a character. -/
def upTo? (t : Text) (o : Nat) : Option Text := (t.from? o).map fun _ => t.takeBytes o

/-- The byte offset at which a text first occurs in another one. -/
def offsetOf? (needle : Text) : Text → Option Nat
  | [] => if needle = [] then some 0 else none
  | c :: cs =>
    if needle <+: c :: cs then some 0 else (offsetOf? needle cs).map (c.utf8Size + ·)

variable {needle gap rest t : Text} {o : Nat}

/-! ## Cuts -/

theorem from?_append (before rest : Text) :
    from? (before ++ rest) before.byteLength = some rest := by
  rw [from?, Cursor.at?_between]
  rfl

theorem upTo?_append (before rest : Text) :
    upTo? (before ++ rest) before.byteLength = some before := by
  rw [upTo?, from?_append, Option.map_some, takeBytes_append]

theorem from?_eq_none (h : ¬ t.IsBoundary o) : t.from? o = none := by
  rw [from?, Cursor.at?_eq_none h]
  rfl

theorem upTo?_eq_none (h : ¬ t.IsBoundary o) : t.upTo? o = none := by
  rw [upTo?, from?_eq_none h]
  rfl

/-- What is left from an offset on reaches to the end of the text. -/
theorem byteLength_of_from? (h : t.from? o = some rest) : o + rest.byteLength = t.byteLength := by
  obtain ⟨c, hc, rfl⟩ := Option.map_eq_some_iff.mp h
  have hseek := Cursor.offset_seek_add o 0 true t
  rw [Cursor.at?] at hc
  split at hc
  · next hoffset =>
    cases hc
    rwa [show (Cursor.seek o 0 true t).offset = o from hoffset, Nat.zero_add] at hseek
  · cases hc

theorem le_of_upTo? (h : t.upTo? o = some rest) : o ≤ t.byteLength := by
  obtain ⟨ahead, hahead, -⟩ := Option.map_eq_some_iff.mp h
  have hlength := byteLength_of_from? hahead
  omega

/-! ## First occurrences -/

theorem offsetOf?_of_prefix (h : needle <+: t) : offsetOf? needle t = some 0 := by
  cases t with
  | nil => exact if_pos (List.prefix_nil.mp h)
  | cons c cs => exact if_pos h

theorem Absent.offsetOf?_append (h : Absent needle gap rest) :
    offsetOf? needle (gap ++ rest) = (offsetOf? needle rest).map (gap.byteLength + ·) := by
  induction gap with
  | nil =>
      simp [byteLength]
  | cons c cs ih =>
      obtain ⟨hc, hcs⟩ := absent_cons.mp h
      rw [List.cons_append, offsetOf?, if_neg hc, ih hcs, Option.map_map, byteLength]
      simp only [Function.comp_def, Nat.add_assoc]

/-- The offset of a first occurrence. -/
theorem Absent.offsetOf?_eq (h : Absent needle gap (needle ++ rest)) :
    offsetOf? needle (gap ++ (needle ++ rest)) = some gap.byteLength := by
  rw [h.offsetOf?_append, offsetOf?_of_prefix (List.prefix_append needle rest)]
  rfl

theorem Absent.offsetOf?_eq_none (h : Absent needle t []) (hne : needle ≠ []) :
    offsetOf? needle t = none := by
  have hnone := h.offsetOf?_append
  rwa [List.append_nil, offsetOf?, if_neg hne, Option.map_none] at hnone

end Text

end DocDigest
