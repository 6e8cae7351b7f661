import DocDigest.Glob.Match

/-!
# The search for a match

Matching tries, at each star, one part of the text after the other, and gives up early when the text
runs out. It never loses a match by that, and it finds none that is not there
(`Glob.run_eq_matched_iff`).

What an attempt that ends tells about the elements is written as `Outcome.Tells`: a refusal says
something about the text that was tried, and running out of text says it about all that is left of
the text further on too. This is what lets a star stop where an attempt ran out.
-/

set_option autoImplicit false

namespace DocDigest

namespace Glob

variable {es : List Element} {t : Text}

theorem spells_nil_iff : Spells [] t ↔ t = [] := by
  constructor
  · rintro ⟨⟩
    rfl
  · rintro rfl
    exact .nil

theorem spells_one_iff {s : Single} :
    Spells (.one s :: es) t ↔ ∃ c cs, t = c :: cs ∧ s.holds c = true ∧ Spells es cs := by
  constructor
  · rintro (_ | ⟨hc, hcs⟩)
    exact ⟨_, _, rfl, hc, hcs⟩
  · rintro ⟨c, cs, rfl, hc, hcs⟩
    exact .one hc hcs

/-- What a star leaves is an end of the text. -/
theorem spells_star_iff : Spells (.star :: es) t ↔ ∃ rest, rest <:+ t ∧ Spells es rest := by
  constructor
  · rintro (_ | _ | ⟨taken, hrest⟩)
    exact ⟨_, List.suffix_append taken _, hrest⟩
  · rintro ⟨rest, ⟨taken, rfl⟩, hrest⟩
    exact .star taken hrest

theorem spells_star_cons_iff {c : Char} :
    Spells (.star :: es) (c :: t) ↔ Spells es (c :: t) ∨ Spells (.star :: es) t := by
  rw [spells_star_iff, spells_star_iff]
  constructor
  · rintro ⟨rest, hsuffix, hrest⟩
    rcases List.suffix_cons_iff.mp hsuffix with rfl | hsuffix
    · exact Or.inl hrest
    · exact Or.inr ⟨rest, hsuffix, hrest⟩
  · rintro (h | ⟨rest, hsuffix, hrest⟩)
    · exact ⟨c :: t, List.suffix_rfl, h⟩
    · exact ⟨rest, hsuffix.trans (List.suffix_cons c t), hrest⟩

/-- What the end of an attempt to match a text tells about the elements. -/
def Outcome.Tells (es : List Element) (t : Text) : Outcome → Prop
  | .matched => Spells es t
  | .refused => ¬ Spells es t
  | .exhausted => ∀ rest, rest <:+ t → ¬ Spells es rest

namespace Outcome.Tells

variable {outcome : Outcome} {c : Char}

/-- A star in front may take nothing, and if an attempt ran out no other choice is better. -/
theorem star (h : outcome.Tells es t) (hne : outcome ≠ .refused) :
    outcome.Tells (.star :: es) t := by
  cases outcome with
  | matched => exact .star [] h
  | refused => exact absurd rfl hne
  | exhausted =>
      intro rest hrest hspells
      obtain ⟨rest', hrest', hspells'⟩ := spells_star_iff.mp hspells
      exact h rest' (hrest'.trans hrest) hspells'

/-- If a star cannot stop before a character, it takes the character and goes on behind it. -/
theorem star_cons (h : outcome.Tells (.star :: es) t) (hc : ¬ Spells es (c :: t)) :
    outcome.Tells (.star :: es) (c :: t) := by
  cases outcome with
  | matched => exact spells_star_cons_iff.mpr (Or.inr h)
  | refused => exact fun hspells => (spells_star_cons_iff.mp hspells).elim hc h
  | exhausted =>
      intro rest hrest hspells
      rcases List.suffix_cons_iff.mp hrest with rfl | hrest
      · exact (spells_star_cons_iff.mp hspells).elim hc (h t List.suffix_rfl)
      · exact h rest hrest hspells

/-- An element for one character takes the one that stands there. -/
theorem one {s : Single} (h : outcome.Tells es t) (hc : s.holds c = true) :
    outcome.Tells (.one s :: es) (c :: t) := by
  cases outcome with
  | matched => exact .one hc h
  | refused =>
      intro hspells
      obtain ⟨d, ds, heq, -, hds⟩ := spells_one_iff.mp hspells
      obtain ⟨rfl, rfl⟩ := List.cons_eq_cons.mp heq
      exact h hds
  | exhausted =>
      intro rest hrest hspells
      obtain ⟨d, ds, rfl, -, hds⟩ := spells_one_iff.mp hspells
      refine h ds ?_ hds
      rcases List.suffix_cons_iff.mp hrest with heq | hrest
      · obtain ⟨-, rfl⟩ := List.cons_eq_cons.mp heq
        exact List.suffix_rfl
      · exact (List.suffix_cons d ds).trans hrest

end Outcome.Tells

/-- If each attempt behind a star ends rightly, so does the search for what the star takes. -/
theorem tells_tryAll {attempt : Text → Outcome} (h : ∀ t, (attempt t).Tells es t) (t : Text) :
    (tryAll attempt t).Tells (.star :: es) t := by
  induction t with
  | nil =>
      have htells := h []
      rw [tryAll]
      cases hout : attempt [] with
      | matched | exhausted =>
          rw [hout] at htells
          exact htells.star nofun
      | refused =>
          rw [hout] at htells
          intro hspells
          obtain ⟨rest, hsuffix, hrest⟩ := spells_star_iff.mp hspells
          rw [List.suffix_nil.mp hsuffix] at hrest
          exact htells hrest
  | cons c cs ih =>
      have htells := h (c :: cs)
      rw [tryAll]
      cases hout : attempt (c :: cs) with
      | matched | exhausted =>
          rw [hout] at htells
          exact htells.star nofun
      | refused =>
          rw [hout] at htells
          exact ih.star_cons htells

/-- Each attempt to match ends rightly. -/
theorem tells_run (es : List Element) (t : Text) : (run es t).Tells es t := by
  induction es generalizing t with
  | nil =>
      cases t with
      | nil =>
          exact Spells.nil
      | cons c cs =>
          exact fun hspells => List.cons_ne_nil c cs (spells_nil_iff.mp hspells)
  | cons e es ih =>
      cases e with
      | star =>
          exact tells_tryAll ih t
      | one s =>
          cases t with
          | nil =>
              intro rest hrest hspells
              obtain ⟨c, cs, rfl, -⟩ := spells_one_iff.mp hspells
              exact List.cons_ne_nil c cs (List.suffix_nil.mp hrest)
          | cons c cs =>
              rw [run]
              cases hc : s.holds c with
              | true =>
                  rw [if_pos rfl]
                  exact (ih cs).one hc
              | false =>
                  intro hspells
                  obtain ⟨d, ds, heq, hd, -⟩ := spells_one_iff.mp hspells
                  obtain ⟨rfl, rfl⟩ := List.cons_eq_cons.mp heq
                  rw [hc] at hd
                  exact Bool.false_ne_true hd

/-- Matching finds a match exactly if the elements take the whole text, each its part. -/
theorem run_eq_matched_iff : run es t = .matched ↔ Spells es t := by
  have htells := tells_run es t
  constructor
  · intro h
    rwa [h] at htells
  · intro hspells
    cases hout : run es t with
    | matched =>
        rfl
    | refused =>
        rw [hout] at htells
        exact absurd hspells htells
    | exhausted =>
        rw [hout] at htells
        exact absurd hspells (htells t List.suffix_rfl)

end Glob

end DocDigest
