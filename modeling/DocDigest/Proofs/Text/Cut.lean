import DocDigest.Text.Basic

/-!
# Cuts of a text

A text can be cut in two between any two of its characters. The offsets in bytes where it can be
cut are its boundaries (`Text.IsBoundary`), and two cuts are comparable by their offsets
(`Text.exists_append_of_byteLength_le`).
-/

set_option autoImplicit false

namespace DocDigest

namespace Text

theorem byteLength_pos {t : Text} (h : t ≠ []) : 0 < t.byteLength := by
  cases t with
  | nil =>
      exact absurd rfl h
  | cons c cs =>
      have hc := c.utf8Size_pos
      rw [byteLength]
      omega

theorem eq_nil_of_byteLength_eq_zero {t : Text} (h : t.byteLength = 0) : t = [] := by
  cases t with
  | nil =>
      rfl
  | cons c cs =>
      have hpos := byteLength_pos (List.cons_ne_nil c cs)
      omega

theorem byteLength_le_of_sublist {s t : Text} (h : s.Sublist t) :
    s.byteLength ≤ t.byteLength := by
  induction h with
  | slnil => exact Nat.le_refl _
  | cons c _ ih =>
      rw [byteLength]
      omega
  | cons_cons c _ ih =>
      rw [byteLength, byteLength]
      omega

/-- Of two ways to cut a text, the one with the smaller offset cuts it earlier. -/
theorem exists_append_of_byteLength_le {a b s t : Text} (h : a ++ s = b ++ t)
    (hle : a.byteLength ≤ b.byteLength) : ∃ mid, b = a ++ mid ∧ s = mid ++ t := by
  rcases List.append_eq_append_iff.mp h with ⟨mid, rfl, rfl⟩ | ⟨mid, rfl, rfl⟩
  · exact ⟨mid, rfl, rfl⟩
  · rw [byteLength_append] at hle
    obtain rfl : mid = [] := eq_nil_of_byteLength_eq_zero (by omega)
    exact ⟨[], by simp, by simp⟩

/-- A byte offset at which a text can be cut: no character of it lies across the offset. -/
def IsBoundary (t : Text) (o : Nat) : Prop :=
  ∃ before after, t = before ++ after ∧ o = before.byteLength

theorem isBoundary_append (before after : Text) :
    IsBoundary (before ++ after) before.byteLength :=
  ⟨before, after, rfl, rfl⟩

/-- No boundary is past the end of the text. -/
theorem IsBoundary.le {t : Text} {o : Nat} (h : IsBoundary t o) : o ≤ t.byteLength := by
  obtain ⟨before, after, rfl, rfl⟩ := h
  rw [byteLength_append]
  exact Nat.le_add_right _ _

end Text

end DocDigest
