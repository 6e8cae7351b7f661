import DocDigest.Text.Basic

/-!
# Trimmed texts

A text is trimmed if trimming leaves it as it is, that is, if neither its first nor its last
character is white space (`Text.trim_eq_self_iff`). Trimming a text, and taking words off its ends,
leaves a stretch of it.
-/

set_option autoImplicit false

namespace DocDigest

namespace Text

theorem trimStart_append_of_blank {front : Text} (h : ∀ c ∈ front, isBlank c = true) (t : Text) :
    trimStart (front ++ t) = trimStart t :=
  List.dropWhile_append_of_pos h

theorem trim_append_of_blank {front : Text} (h : ∀ c ∈ front, isBlank c = true) (t : Text) :
    trim (front ++ t) = trim t := by
  rw [trim, trimStart_append_of_blank h, trim]

theorem trim_cons_of_blank {c : Char} (h : isBlank c = true) (t : Text) :
    trim (c :: t) = trim t := by
  rw [trim, trimStart, List.dropWhile_cons_of_pos h, ← trimStart, ← trim]

theorem trimEnd_append_singleton {c : Char} (hc : isBlank c = true) (t : Text) :
    trimEnd (t ++ [c]) = trimEnd t := by
  rw [trimEnd, List.reverse_append, List.reverse_singleton, List.singleton_append,
    List.dropWhile_cons_of_pos hc, trimEnd]

theorem trim_append_singleton {c : Char} (hc : isBlank c = true) (t : Text) :
    trim (t ++ [c]) = trim t := by
  have hlast : [c].dropWhile isBlank = [] := List.dropWhile_cons_of_pos hc
  rw [trim, trim, trimStart, trimStart, List.dropWhile_append]
  split
  · next hall =>
    -- The text is blank all through, and nothing is left of either.
    have hnil : t.dropWhile isBlank = [] := List.isEmpty_iff.mp hall
    rw [hlast, hnil]
  · exact trimEnd_append_singleton hc _

theorem trim_dropReturn (l : Text) : trim (dropReturn l) = trim l := by
  by_cases h : ['\r'] <:+ l
  · obtain ⟨init, rfl⟩ := h
    rw [dropReturn, dropTrailing_append, trim_append_singleton isBlank_carriageReturn]
  · rw [dropReturn, dropTrailing_of_not_isSuffix h]

theorem head?_trimStart {t : Text} {c : Char} (h : (trimStart t).head? = some c) :
    isBlank c = false := by
  have hfirst := List.head?_dropWhile_not isBlank t
  rw [← trimStart, h] at hfirst
  simpa using hfirst

theorem trimStart_eq_self_iff {t : Text} :
    trimStart t = t ↔ ∀ c, t.head? = some c → isBlank c = false := by
  constructor
  · intro h c hc
    rw [← h] at hc
    exact head?_trimStart hc
  · intro h
    cases t with
    | nil =>
        rfl
    | cons c cs =>
        refine List.dropWhile_cons_of_neg ?_
        rw [h c rfl]
        exact Bool.false_ne_true

theorem trimEnd_eq_self_iff {t : Text} :
    trimEnd t = t ↔ ∀ c, t.getLast? = some c → isBlank c = false := by
  rw [← List.head?_reverse, ← trimStart_eq_self_iff, trimEnd, ← trimStart, List.reverse_eq_iff]

theorem length_trimStart_le (t : Text) : (trimStart t).length ≤ t.length :=
  (List.dropWhile_suffix isBlank).length_le

theorem length_trimEnd_le (t : Text) : (trimEnd t).length ≤ t.length := by
  have h := length_trimStart_le t.reverse
  rw [List.length_reverse] at h
  rwa [trimEnd, List.length_reverse]

/-- Trimming leaves a text as it is if neither end is white space. -/
theorem trim_eq_self_iff {t : Text} :
    trim t = t ↔ (∀ c, t.head? = some c → isBlank c = false) ∧
      ∀ c, t.getLast? = some c → isBlank c = false := by
  rw [← trimStart_eq_self_iff, ← trimEnd_eq_self_iff]
  constructor
  · intro h
    -- Neither end loses a character, for then the text would get shorter.
    have hlen := length_trimEnd_le (trimStart t)
    rw [← trim, h] at hlen
    have hstart : trimStart t = t :=
      (List.dropWhile_suffix isBlank).eq_of_length (Nat.le_antisymm (length_trimStart_le t) hlen)
    rw [trim, hstart] at h
    exact ⟨hstart, h⟩
  · rintro ⟨hstart, hend⟩
    rw [trim, hstart, hend]

/-! ## What is left of a text -/

theorem trimStart_isSuffix (t : Text) : trimStart t <:+ t :=
  List.dropWhile_suffix isBlank

theorem trimEnd_isPrefix (t : Text) : trimEnd t <+: t := by
  have hsuffix := List.reverse_prefix.mpr (trimStart_isSuffix t.reverse)
  rwa [List.reverse_reverse] at hsuffix

theorem trim_isInfix (t : Text) : trim t <:+: t :=
  (trimEnd_isPrefix (trimStart t)).isInfix.trans (trimStart_isSuffix t).isInfix

/-- A text that is trimmed once is trimmed. -/
theorem trim_trim (t : Text) : trim (trim t) = trim t := by
  refine trim_eq_self_iff.mpr ⟨fun c hc => ?_, fun c hc => ?_⟩
  · -- What is cut off the end leaves the first character.
    obtain ⟨back, hback⟩ := trimEnd_isPrefix (trimStart t)
    have hfirst : (trimStart t).head? = some c := by
      rw [← hback, List.head?_append, ← trim, hc, Option.some_or]
    exact head?_trimStart hfirst
  · rw [trim, trimEnd, List.getLast?_reverse] at hc
    exact head?_trimStart hc

/-- White space behind a text that ends in another character goes with what follows. -/
theorem trimEnd_append {s : Text} (h : trimEnd s = s) (t : Text) :
    trimEnd (s ++ t) = s ++ trimEnd t := by
  rw [trimEnd, List.reverse_append, List.dropWhile_append]
  split
  · next hall =>
    have hnil : trimEnd t = [] := by
      rw [trimEnd, List.isEmpty_iff.mp hall, List.reverse_nil]
    rw [hnil, List.append_nil]
    exact h
  · rw [List.reverse_append, List.reverse_reverse]
    rfl

/-- What is cut off the end leaves the first character. -/
theorem head?_trim (t : Text) : (trim t).head? = (trimStart t).head? := by
  cases h : trimStart t with
  | nil =>
      rw [trim, h]
      rfl
  | cons c cs =>
      have hc : isBlank c = false := head?_trimStart (by rw [h, List.head?_cons])
      have hfirst : trimEnd [c] = [c] := trimEnd_eq_self_iff.mpr (by simpa using hc)
      rw [trim, h, ← List.singleton_append, trimEnd_append hfirst]
      rfl

/-- Trimming loses white space only. -/
theorem mem_trim_iff {c : Char} (hc : isBlank c = false) {t : Text} : c ∈ trim t ↔ c ∈ t := by
  have hdrop : ∀ s : Text, c ∈ s → c ∈ trimStart s := by
    intro s hs
    rw [← @List.takeWhile_append_dropWhile _ isBlank s, List.mem_append] at hs
    rcases hs with hs | hs
    · have hblank : isBlank c = true := List.all_eq_true.mp List.all_takeWhile c hs
      rw [hc] at hblank
      exact absurd hblank Bool.false_ne_true
    · exact hs
  constructor
  · exact fun h => (trim_isInfix t).subset h
  · intro h
    rw [trim, trimEnd, List.mem_reverse]
    exact hdrop _ (List.mem_reverse.mpr (hdrop t h))

theorem dropLeading_isSuffix (front t : Text) : dropLeading front t <:+ t := by
  by_cases h : front <+: t
  · obtain ⟨rest, rfl⟩ := h
    rw [dropLeading_append]
    exact List.suffix_append front rest
  · exact ⟨[], dropLeading_of_not_isPrefix h⟩

theorem dropTrailing_isPrefix (back t : Text) : dropTrailing back t <+: t := by
  by_cases h : back <:+ t
  · obtain ⟨rest, rfl⟩ := h
    rw [dropTrailing_append]
    exact List.prefix_append rest back
  · exact ⟨[], by rw [List.append_nil, dropTrailing_of_not_isSuffix h]⟩

end Text

end DocDigest
