import DocDigest.Proofs.Text.Cut

/-!
# First occurrences

Where a text first occurs in another one. `Absent needle gap rest` says that no occurrence of
`needle` begins in `gap` when `rest` follows it, so that `gap` ends where the first occurrence
begins. Every text either holds no occurrence or has a first one (`absent_or_first`).

`OccursAt needle source o` says the same of one byte offset: an occurrence begins there.
`FirstOccursAt needle source pos o` says that the first one from `pos` on does.
-/

set_option autoImplicit false

namespace DocDigest

namespace Text

/-- No occurrence of `needle` begins in `gap`, which `rest` follows. -/
def Absent (needle gap rest : Text) : Prop :=
  ∀ g m, gap = g ++ m → m ≠ [] → ¬ needle <+: m ++ rest

theorem absent_nil (needle rest : Text) : Absent needle [] rest := by
  intro g m h hm
  exact absurd (List.append_eq_nil_iff.mp h.symm).2 hm

theorem absent_cons {needle gap rest : Text} {c : Char} :
    Absent needle (c :: gap) rest ↔ ¬ needle <+: c :: (gap ++ rest) ∧ Absent needle gap rest := by
  constructor
  · intro h
    refine ⟨h [] (c :: gap) rfl (List.cons_ne_nil c gap), ?_⟩
    intro g m hg hm
    exact h (c :: g) m (by rw [hg, List.cons_append]) hm
  · rintro ⟨hc, h⟩ g m hg hm
    rcases List.cons_eq_append_iff.mp hg with ⟨rfl, rfl⟩ | ⟨g, rfl, rfl⟩
    · exact hc
    · exact h g m rfl hm

/-- What begins in two texts begins in one of them. -/
theorem absent_append {needle a b rest : Text} :
    Absent needle (a ++ b) rest ↔ Absent needle a (b ++ rest) ∧ Absent needle b rest := by
  induction a with
  | nil =>
      simp [absent_nil]
  | cons c cs ih =>
      rw [List.cons_append, absent_cons, absent_cons, ih, and_assoc, List.append_assoc]

theorem absent_of_not_mem {needle gap : Text} {c : Char} (rest : Text) (h : c ∉ gap) :
    Absent (c :: needle) gap rest := by
  intro g m hg hm hp
  cases m with
  | nil =>
      exact hm rfl
  | cons d ds =>
      obtain ⟨rfl, -⟩ := List.cons_prefix_cons.mp hp
      exact h (by simp [hg])

/-- Where no occurrence stands, none begins, if the next character belongs to no occurrence. -/
theorem absent_of_not_within {needle gap rest : Text} (h : ¬ needle <:+: gap)
    (hrest : ∀ c, rest.head? = some c → c ∉ needle) : Absent needle gap rest := by
  rintro g m rfl hm ⟨r, hr⟩
  rcases List.append_eq_append_iff.mp hr with ⟨mid, rfl, -⟩ | ⟨mid, rfl, hmid⟩
  · exact h ⟨g, mid, List.append_assoc g needle mid⟩
  · -- The occurrence goes on behind the gap, so it holds the next character.
    cases mid with
    | nil =>
        exact h ⟨g, [], by simp⟩
    | cons c cs =>
        exact hrest c (by rw [hmid]; rfl) (by simp)

/-- An occurrence that does not begin in a text begins behind it. -/
theorem Absent.exists_append {needle gap rest b r : Text} (h : Absent needle gap rest)
    (heq : gap ++ rest = b ++ (needle ++ r)) :
    ∃ mid, b = gap ++ mid ∧ rest = mid ++ (needle ++ r) := by
  rcases List.append_eq_append_iff.mp heq with ⟨mid, hb, hr⟩ | ⟨mid, hgap, hr⟩
  · exact ⟨mid, hb, hr⟩
  · by_cases hmid : mid = []
    · subst hmid
      exact ⟨[], by simpa using hgap.symm, by simpa using hr.symm⟩
    · exact absurd ⟨r, hr⟩ (h b mid hgap hmid)

/-- What follows a first occurrence does not matter for it. -/
theorem Absent.change_rest {needle gap rest : Text} (h : Absent needle gap (needle ++ rest))
    (rest' : Text) : Absent needle gap (needle ++ rest') := by
  intro g m hg hm hp
  -- An occurrence that begins in the gap ends no later than the first one.
  have hwithin : needle <+: m ++ needle := by
    refine List.prefix_of_prefix_length_le hp ⟨rest', List.append_assoc _ _ _⟩ ?_
    simp only [List.length_append]
    omega
  refine h g m hg hm (hwithin.trans ⟨rest, ?_⟩)
  rw [List.append_assoc]

/-- A text holds no occurrence of another one, or a first one. -/
theorem absent_or_first (needle t : Text) :
    Absent needle t [] ∨
      ∃ gap rest, t = gap ++ (needle ++ rest) ∧ Absent needle gap (needle ++ rest) := by
  induction t with
  | nil =>
      exact Or.inl (absent_nil needle [])
  | cons c cs ih =>
      by_cases hp : needle <+: c :: cs
      · obtain ⟨rest, hrest⟩ := hp
        exact Or.inr ⟨[], rest, hrest.symm, absent_nil _ _⟩
      · rcases ih with h | ⟨gap, rest, rfl, h⟩
        · exact Or.inl (absent_cons.mpr ⟨by rwa [List.append_nil], h⟩)
        · exact Or.inr ⟨c :: gap, rest, rfl, absent_cons.mpr ⟨hp, h⟩⟩

/-- No occurrence begins in a text that holds none. -/
theorem absent_nil_iff {needle : Text} (hne : needle ≠ []) {t : Text} :
    Absent needle t [] ↔ ¬ needle <:+: t := by
  constructor
  · rintro h ⟨g, r, rfl⟩
    refine h g (needle ++ r) (List.append_assoc _ _ _) ?_ ⟨r, (List.append_nil _).symm⟩
    exact fun hnil => hne (List.append_eq_nil_iff.mp hnil).1
  · rintro h g m rfl hm ⟨r, hr⟩
    rw [List.append_nil] at hr
    exact h ⟨g, r, by rw [← hr, List.append_assoc]⟩

/-! ## Offsets of occurrences -/

/-- An occurrence of `needle` begins at a byte offset of the source. -/
def OccursAt (needle source : Text) (o : Nat) : Prop :=
  ∃ before after, source = before ++ (needle ++ after) ∧ o = before.byteLength

theorem occursAt_append_iff {needle before rest : Text} :
    OccursAt needle (before ++ rest) before.byteLength ↔ needle <+: rest := by
  constructor
  · rintro ⟨lead, after, heq, hlen⟩
    obtain ⟨mid, rfl, hrest⟩ := exists_append_of_byteLength_le heq (Nat.le_of_eq hlen)
    rw [byteLength_append] at hlen
    obtain rfl : mid = [] := eq_nil_of_byteLength_eq_zero (by omega)
    exact ⟨after, hrest.symm⟩
  · rintro ⟨after, rfl⟩
    exact ⟨before, after, rfl, rfl⟩

/-- An occurrence that is not before a stretch in which none begins is behind it. -/
theorem Absent.le_of_occursAt {needle before gap rest : Text} {o : Nat}
    (h : Absent needle gap rest) (hocc : OccursAt needle (before ++ (gap ++ rest)) o)
    (hle : before.byteLength ≤ o) : (before ++ gap).byteLength ≤ o := by
  obtain ⟨lead, after, heq, rfl⟩ := hocc
  obtain ⟨g, rfl, hg⟩ := exists_append_of_byteLength_le heq hle
  obtain ⟨mid, rfl, -⟩ := h.exists_append hg
  rw [← List.append_assoc, byteLength_append (before ++ gap)]
  exact Nat.le_add_right _ _

/-- An occurrence ends at a boundary. -/
theorem OccursAt.isBoundary_add {needle source : Text} {o : Nat} (h : OccursAt needle source o) :
    source.IsBoundary (o + needle.byteLength) := by
  obtain ⟨before, after, rfl, rfl⟩ := h
  rw [← byteLength_append, ← List.append_assoc]
  exact isBoundary_append _ _

/-- Of the occurrences of `needle` that begin at the byte offset `pos` or behind it, the first one
begins at `o`. -/
structure FirstOccursAt (needle source : Text) (pos o : Nat) : Prop where
  le : pos ≤ o
  occurs : OccursAt needle source o
  first : ∀ p, pos ≤ p → OccursAt needle source p → o ≤ p

theorem FirstOccursAt.unique {needle source : Text} {pos o p : Nat}
    (h : FirstOccursAt needle source pos o) (h' : FirstOccursAt needle source pos p) : o = p :=
  Nat.le_antisymm (h.first p h'.le h'.occurs) (h'.first o h.le h.occurs)

/-- Behind a stretch in which no occurrence begins, the first one begins. -/
theorem Absent.firstOccursAt {needle gap rest : Text} (h : Absent needle gap (needle ++ rest))
    (before : Text) : FirstOccursAt needle (before ++ (gap ++ (needle ++ rest))) before.byteLength
      (before ++ gap).byteLength where
  le := by
    rw [byteLength_append]
    exact Nat.le_add_right _ _
  occurs := ⟨before ++ gap, rest, (List.append_assoc _ _ _).symm, rfl⟩
  first := fun _ hle hocc => h.le_of_occursAt hocc hle

end Text

end DocDigest
