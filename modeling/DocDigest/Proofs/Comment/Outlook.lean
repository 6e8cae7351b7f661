import DocDigest.Proofs.Comment.FreshScan

/-!
# What a scan remembers

A scan keeps the comment that it found for a shape until it has moved past its start. This is right
because of an invariant of the states that it comes to (`State.SoundAt`): it stands at a settled
place, and what it knows of a shape is what a fresh search from there gives, unless the known
comment starts behind it. One step keeps the invariant (`State.SoundAt.next?`); so a scan finds what
fresh searches find (`scan_agrees_with_fresh_searches`).
-/

set_option autoImplicit false

namespace DocDigest

namespace Scan

/-! ## What is known of one shape -/

namespace Watch

/-- What is known of a shape agrees with a fresh search from the cursor, unless nothing is known or
the known comment starts before the cursor. -/
def Sound (c : Cursor) (w : Watch) : Prop :=
  match w.outlook with
  | .unknown => True
  | .ahead span => c.offset ≤ span.start → w.shape.nextFrom c = some span
  | .exhausted => w.shape.nextFrom c = none

theorem span?_search (c : Cursor) (w : Watch) :
    (w.search c).outlook.span? = w.shape.nextFrom c := by
  rw [search]
  cases w.shape.nextFrom c <;> rfl

/-- Where what is known is sound, it is as good as a search. -/
theorem Sound.refresh_eq {c : Cursor} {w : Watch} (h : w.Sound c) : w.refresh c = w.search c := by
  obtain ⟨shape, outlook⟩ := w
  cases outlook with
  | unknown =>
      rfl
  | ahead span =>
      show (if span.start < c.offset then search c ⟨shape, .ahead span⟩ else ⟨shape, .ahead span⟩)
        = search c ⟨shape, .ahead span⟩
      by_cases hstale : span.start < c.offset
      · exact if_pos hstale
      · have hfound : shape.nextFrom c = some span := h (Nat.not_lt.mp hstale)
        rw [if_neg hstale, search, hfound]
        rfl
  | exhausted =>
      have hnone : shape.nextFrom c = none := h
      rw [search, hnone]
      rfl

/-- What a search found stays sound when the cursor moves on to a settled place. -/
theorem sound_search {before mid rest : Text} (hsettled : Settled (before ++ mid) rest)
    (w : Watch) :
    (w.search (Cursor.between before (mid ++ rest))).Sound
      (Cursor.between (before ++ mid) rest) := by
  obtain ⟨shape, outlook⟩ := w
  rw [search]
  cases hs : shape.nextFrom (Cursor.between before (mid ++ rest)) with
  | none =>
      exact Shape.nextFrom_eq_none_of_append hs
  | some span =>
      exact fun hle => Shape.nextFrom_of_append hs hle hsettled

end Watch

/-! ## What a state knows -/

namespace State

/-- The states that a scan of a source comes to. -/
inductive Reachable (shapes : List Shape) (source : Text) : State → Prop
  | start : Reachable shapes source (State.start shapes source)
  | next {st st' : State} {span : Span} : Reachable shapes source st →
      st.next? = some (span, st') → Reachable shapes source st'

/-- The scan stands between `before` and `rest`, at a settled place, and what it knows of each of
the shapes is sound there. -/
structure SoundAt (shapes : List Shape) (before rest : Text) (st : State) : Prop where
  cursor : st.cursor = Cursor.between before rest
  settled : Settled before rest
  shapes : st.watches.map Watch.shape = shapes
  watches : ∀ w ∈ st.watches, w.Sound (Cursor.between before rest)

theorem soundAt_start (shapes : List Shape) (source : Text) :
    (start shapes source).SoundAt shapes [] source where
  cursor := rfl
  settled := settled_nil source
  shapes := by
    rw [start, List.map_map]
    exact List.map_id shapes
  watches := by
    intro w hw
    obtain ⟨shape, -, rfl⟩ := List.mem_map.mp hw
    exact trivial

/-- In a sound state the next comment is the one that fresh searches give, and every shape is known
as if it had just been searched for. -/
theorem SoundAt.next?_eq {shapes : List Shape} {before rest : Text} {st : State}
    (h : st.SoundAt shapes before rest) :
    st.next? = (earliest (shapes.filterMap (·.nextFrom (Cursor.between before rest)))).map
      fun span => (span, ⟨st.watches.map (·.search (Cursor.between before rest)),
        (Cursor.between before rest).past span⟩) := by
  have hmap : st.watches.map (·.refresh (Cursor.between before rest))
      = st.watches.map (·.search (Cursor.between before rest)) :=
    List.map_congr_left fun w hw => (h.watches w hw).refresh_eq
  have hspans : (st.watches.map (·.search (Cursor.between before rest))).filterMap
      (·.outlook.span?) = shapes.filterMap (·.nextFrom (Cursor.between before rest)) := by
    rw [← h.shapes, List.filterMap_map, List.filterMap_map]
    exact congrArg (List.filterMap · st.watches) (funext fun w => w.span?_search _)
  simp only [next?, h.cursor, hmap, hspans]

/-- One step from a sound state takes the comment that fresh searches give and leads to a sound
state at the end of it. -/
theorem SoundAt.next? {shapes : List Shape} {before t : Text} {st st' : State} {span : Span}
    (h : st.SoundAt shapes before t) (hnext : st.next? = some (span, st')) :
    Chosen (·.nextFrom (Cursor.between before t)) shapes span ∧
      ∃ mid rest, t = mid ++ rest ∧ mid ≠ [] ∧ span.stop = (before ++ mid).byteLength ∧
        st'.SoundAt shapes (before ++ mid) rest := by
  rw [h.next?_eq, Option.map_eq_some_iff] at hnext
  obtain ⟨s, hs, heq⟩ := hnext
  obtain ⟨rfl, rfl⟩ := Prod.mk.inj heq
  have hchosen := earliest_filterMap_eq_some_iff.mp hs
  obtain ⟨gap, text, rest, rfl, hne, -, hsettled, rfl⟩ := hchosen.exists_of_between
  rw [List.append_assoc] at hsettled
  have hmid : gap ++ text ≠ [] := fun hnil => hne (List.append_eq_nil_iff.mp hnil).2
  refine ⟨hchosen, gap ++ text, rest, (List.append_assoc _ _ _).symm, hmid, ?_, ?_, hsettled, ?_,
    ?_⟩
  · rw [List.append_assoc]
  · -- The guard against standing still has no effect.
    rw [← List.append_assoc gap]
    exact Cursor.past_between hmid (by rw [List.append_assoc])
  · rw [← h.shapes, List.map_map]
    rfl
  · -- Every watch has searched from the place before, and the new place is settled.
    intro w hw
    obtain ⟨u, -, rfl⟩ := List.mem_map.mp hw
    rw [← List.append_assoc gap]
    exact u.sound_search hsettled

/-- Every state that a scan comes to is sound. -/
theorem Reachable.exists_soundAt {shapes : List Shape} {source : Text} {st : State}
    (h : Reachable shapes source st) :
    ∃ before rest, source = before ++ rest ∧ st.SoundAt shapes before rest := by
  induction h with
  | start =>
      exact ⟨[], source, rfl, soundAt_start shapes source⟩
  | next _ hnext ih =>
      obtain ⟨before, t, rfl, hsound⟩ := ih
      obtain ⟨-, mid, rest, rfl, -, -, hsound'⟩ := hsound.next? hnext
      exact ⟨before ++ mid, rest, (List.append_assoc _ _ _).symm, hsound'⟩

/-- A scan from a state comes to the given comments, one after the other, and then to its end. -/
inductive Yields : State → List Span → Prop
  | done {st : State} : st.next? = none → Yields st []
  | next {st st' : State} {span : Span} {spans : List Span} :
      st.next? = some (span, st') → Yields st' spans → Yields st (span :: spans)

/-- From a sound state, a scan comes to its end in as many steps as there are characters ahead. -/
theorem SoundAt.yields {shapes : List Shape} {before t : Text} {st : State}
    (h : st.SoundAt shapes before t) {fuel : Nat} (hfuel : t.length ≤ fuel) :
    st.Yields (st.spans fuel) := by
  induction fuel generalizing before t st with
  | zero =>
      obtain rfl : t = [] := List.eq_nil_of_length_eq_zero (Nat.le_zero.mp hfuel)
      have hnone : ∀ shape ∈ shapes, shape.nextFrom (Cursor.between before []) = none := by
        intro shape _
        cases shape <;> rfl
      refine Yields.done ?_
      rw [h.next?_eq, earliest_filterMap_eq_none_iff.mpr hnone, Option.map_none]
  | succ fuel ih =>
      rw [spans]
      cases hnext : st.next? with
      | none =>
          exact Yields.done hnext
      | some found =>
          obtain ⟨span, st'⟩ := found
          obtain ⟨-, mid, rest, rfl, hmid, -, hsound⟩ := h.next? hnext
          -- The step passes at least one character.
          have hlen : rest.length ≤ fuel := by
            have hpos := List.length_pos_iff.mpr hmid
            rw [List.length_append] at hfuel
            omega
          exact Yields.next hnext (ih hsound hlen)

/-- What a scan comes to from a sound state is what fresh searches come to. -/
theorem Yields.freshScan {shapes : List Shape} {before t : Text} {st : State} {spans : List Span}
    (hscan : st.Yields spans) (h : st.SoundAt shapes before t) :
    FreshScan shapes (before ++ t) before.byteLength spans := by
  induction hscan generalizing before t with
  | done hnone =>
      rw [h.next?_eq, Option.map_eq_none_iff, earliest_filterMap_eq_none_iff] at hnone
      exact FreshScan.nil_of_eq_none hnone
  | next hnext _ ih =>
      obtain ⟨hchosen, mid, rest, rfl, -, hstop, hsound⟩ := h.next? hnext
      refine FreshScan.next (by rwa [nextAt_between_fun]) ?_
      rw [hstop, ← List.append_assoc]
      exact ih hsound

end State

/-! ## The scan as a whole -/

/-- A scan of a source comes to its end: the bound on its steps cuts nothing off. -/
theorem yields_scan (shapes : List Shape) (source : Text) :
    (State.start shapes source).Yields (scan shapes source) :=
  (State.soundAt_start shapes source).yields (Nat.le_refl source.length)

theorem freshScan_scan (shapes : List Shape) (source : Text) :
    FreshScan shapes source 0 (scan shapes source) :=
  (yields_scan shapes source).freshScan (State.soundAt_start shapes source)

/-- A scan with a memory finds what a scan finds that searches afresh at each step, whatever the
source and the shapes. In every state that it comes to, a known comment that does not start before
the scan's place is what a fresh search from the place gives, and where no comment was left a fresh
search finds none. -/
theorem scan_agrees_with_fresh_searches (shapes : List Shape) (source : Text) :
    (∀ spans, FreshScan shapes source 0 spans ↔ spans = scan shapes source) ∧
      plainScan shapes source = scan shapes source ∧
      ∀ st, State.Reachable shapes source st → ∀ w ∈ st.watches,
        (∀ span, w.outlook = .ahead span → st.cursor.offset ≤ span.start →
          w.shape.nextAt source st.cursor.offset = some span) ∧
        (w.outlook = .exhausted → w.shape.nextAt source st.cursor.offset = none) := by
  refine ⟨fun spans => ⟨fun h => h.unique (freshScan_scan shapes source), ?_⟩, ?_, ?_⟩
  · rintro rfl
    exact freshScan_scan shapes source
  · exact (freshScan_plainScan shapes source).unique (freshScan_scan shapes source)
  · intro st hst w hw
    obtain ⟨before, rest, rfl, hsound⟩ := hst.exists_soundAt
    have hknown := hsound.watches w hw
    rw [hsound.cursor, Cursor.offset_between, Shape.nextAt_between]
    constructor
    · intro span hahead hle
      rw [Watch.Sound, hahead] at hknown
      exact hknown hle
    · intro hover
      rw [Watch.Sound, hover] at hknown
      exact hknown

end Scan

end DocDigest
