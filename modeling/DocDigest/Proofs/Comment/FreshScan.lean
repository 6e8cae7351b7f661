import DocDigest.Comment.Scan
import DocDigest.Proofs.Comment.ShapeSearch

/-!
# Scanning with fresh searches

`FreshScan shapes source pos spans` says what a scan without a memory does from the offset `pos` on:
it searches for every shape afresh, takes the comment that starts first (of those that start
together, the one whose shape is listed first), and goes on at its end, until no shape has a comment
left. It counts no steps. `plainScan` is such a scan (`freshScan_plainScan`), there is only one
(`FreshScan.unique`), and its spans come one behind the other (`FreshScan.ordered`).
-/

set_option autoImplicit false

namespace DocDigest

namespace Scan

/-! ## The comment that starts first -/

theorem earliest_eq_none_iff {l : List Span} : earliest l = none ↔ l = [] := by
  cases l with
  | nil =>
      simp [earliest]
  | cons s rest =>
      refine iff_of_false ?_ (List.cons_ne_nil s rest)
      rw [earliest]
      split
      · exact Option.some_ne_none s
      · split <;> exact Option.some_ne_none _

/-- The span that starts first comes before all that start where it does. -/
theorem exists_append_of_earliest {l : List Span} {s : Span} (h : earliest l = some s) :
    ∃ sooner later, l = sooner ++ s :: later ∧ (∀ t ∈ sooner, s.start < t.start) ∧
      ∀ t ∈ later, s.start ≤ t.start := by
  induction l generalizing s with
  | nil =>
      exact absurd h (Option.some_ne_none s).symm
  | cons a rest ih =>
      rw [earliest] at h
      cases hrest : earliest rest with
      | none =>
          rw [hrest, Option.some.injEq] at h
          obtain rfl := earliest_eq_none_iff.mp hrest
          exact ⟨[], [], by rw [h]; rfl, by simp, by simp⟩
      | some t =>
          obtain ⟨sooner, later, rfl, hsooner, hlater⟩ := ih hrest
          rw [hrest] at h
          by_cases hlt : t.start < a.start
          · -- The first of the rest starts sooner than `a`.
            obtain rfl : t = s := by simpa [hlt] using h
            exact ⟨a :: sooner, later, rfl, by simpa [hlt] using hsooner, hlater⟩
          · -- Nothing starts sooner than `a`, and `a` wins a tie.
            obtain rfl : a = s := by simpa [hlt] using h
            refine ⟨[], sooner ++ t :: later, rfl, by simp, ?_⟩
            intro u hu
            rcases List.mem_append.mp hu with hu | hu
            · exact Nat.le_trans (Nat.not_lt.mp hlt) (Nat.le_of_lt (hsooner u hu))
            · rcases List.mem_cons.mp hu with rfl | hu
              · exact Nat.not_lt.mp hlt
              · exact Nat.le_trans (Nat.not_lt.mp hlt) (hlater u hu)

theorem earliest_append {sooner later : List Span} {s : Span}
    (hsooner : ∀ t ∈ sooner, s.start < t.start) (hlater : ∀ t ∈ later, s.start ≤ t.start) :
    earliest (sooner ++ s :: later) = some s := by
  induction sooner with
  | nil =>
      rw [List.nil_append, earliest]
      cases hrest : earliest later with
      | none =>
          rfl
      | some t =>
          obtain ⟨as, bs, rfl, -⟩ := exists_append_of_earliest hrest
          have hle := hlater t (by simp)
          exact if_neg (Nat.not_lt.mpr hle)
  | cons a as ih =>
      have hrest := ih fun t ht => hsooner t (List.mem_cons_of_mem a ht)
      rw [List.cons_append, earliest, hrest]
      exact if_pos (hsooner a List.mem_cons_self)

/-! ## Choosing among the shapes -/

/-- `s` is the comment to take when `search` gives the next comment of each shape: it starts before
those of the shapes listed sooner and no later than those of the shapes listed later. -/
def Chosen (search : Shape → Option Span) (shapes : List Shape) (s : Span) : Prop :=
  ∃ sooner shape later, shapes = sooner ++ shape :: later ∧ search shape = some s ∧
    (∀ other ∈ sooner, ∀ t, search other = some t → s.start < t.start) ∧
    (∀ other ∈ later, ∀ t, search other = some t → s.start ≤ t.start)

theorem earliest_filterMap_eq_some_iff {search : Shape → Option Span} {shapes : List Shape}
    {s : Span} : earliest (shapes.filterMap search) = some s ↔ Chosen search shapes s := by
  constructor
  · intro h
    obtain ⟨sooner, later, heq, hsooner, hlater⟩ := exists_append_of_earliest h
    obtain ⟨front, back, rfl, rfl, hback⟩ := List.filterMap_eq_append_iff.mp heq
    obtain ⟨skipped, shape, rest, rfl, hskipped, hshape, rfl⟩ :=
      List.filterMap_eq_cons_iff.mp hback
    refine ⟨front ++ skipped, shape, rest, (List.append_assoc _ _ _).symm, hshape, ?_, ?_⟩
    · intro other hother t ht
      rcases List.mem_append.mp hother with hfront | hskip
      · exact hsooner t (List.mem_filterMap.mpr ⟨other, hfront, ht⟩)
      · rw [hskipped other hskip] at ht
        exact absurd ht (Option.some_ne_none t).symm
    · intro other hother t ht
      exact hlater t (List.mem_filterMap.mpr ⟨other, hother, ht⟩)
  · rintro ⟨sooner, shape, later, rfl, hshape, hsooner, hlater⟩
    rw [List.filterMap_append, List.filterMap_cons_some hshape]
    refine earliest_append ?_ ?_
    · intro t ht
      obtain ⟨other, hother, hsearch⟩ := List.mem_filterMap.mp ht
      exact hsooner other hother t hsearch
    · intro t ht
      obtain ⟨other, hother, hsearch⟩ := List.mem_filterMap.mp ht
      exact hlater other hother t hsearch

theorem earliest_filterMap_eq_none_iff {search : Shape → Option Span} {shapes : List Shape} :
    earliest (shapes.filterMap search) = none ↔ ∀ shape ∈ shapes, search shape = none := by
  rw [earliest_eq_none_iff, List.filterMap_eq_nil_iff]

theorem Chosen.unique {search : Shape → Option Span} {shapes : List Shape} {s t : Span}
    (hs : Chosen search shapes s) (ht : Chosen search shapes t) : s = t := by
  rw [← earliest_filterMap_eq_some_iff] at hs ht
  exact Option.some.inj (hs.symm.trans ht)

/-- The comment to take belongs to a shape and starts no later than any other. -/
theorem Chosen.exists_le {search : Shape → Option Span} {shapes : List Shape} {s : Span}
    (h : Chosen search shapes s) :
    (∃ shape ∈ shapes, search shape = some s) ∧
      ∀ other ∈ shapes, ∀ t, search other = some t → s.start ≤ t.start := by
  obtain ⟨sooner, shape, later, rfl, hshape, hsooner, hlater⟩ := h
  refine ⟨⟨shape, by simp, hshape⟩, ?_⟩
  intro other hother t ht
  rcases List.mem_append.mp hother with hmem | hmem
  · exact Nat.le_of_lt (hsooner other hmem t ht)
  · rcases List.mem_cons.mp hmem with rfl | hmem
    · rw [hshape, Option.some.injEq] at ht
      exact Nat.le_of_eq (congrArg Span.start ht)
    · exact hlater other hmem t ht

/-- Of one shape alone, the comment to take is what the search gives. -/
theorem chosen_singleton_iff {search : Shape → Option Span} {shape : Shape} {s : Span} :
    Chosen search [shape] s ↔ search shape = some s := by
  constructor
  · intro h
    obtain ⟨⟨other, hmem, hother⟩, -⟩ := h.exists_le
    rwa [List.mem_singleton.mp hmem] at hother
  · intro h
    exact ⟨[], shape, [], rfl, h, by simp, by simp⟩

/-! ## The scan -/

/-- What a scan does from an offset on that searches for every shape at each step. -/
inductive FreshScan (shapes : List Shape) (source : Text) : Nat → List Span → Prop
  | done {pos : Nat} : (∀ shape ∈ shapes, shape.nextAt source pos = none) →
      FreshScan shapes source pos []
  /-- The comment that starts first is taken, and the scan goes on at its end. -/
  | next {pos : Nat} {s : Span} {rest : List Span} :
      Chosen (·.nextAt source pos) shapes s → FreshScan shapes source s.stop rest →
      FreshScan shapes source pos (s :: rest)

/-- There is one scan from each offset. -/
theorem FreshScan.unique {shapes : List Shape} {source : Text} {pos : Nat}
    {spans others : List Span} (h : FreshScan shapes source pos spans)
    (h' : FreshScan shapes source pos others) :
    spans = others := by
  induction h generalizing others with
  | done hnone =>
      cases h' with
      | done _ =>
          rfl
      | next hchosen _ =>
          obtain ⟨⟨shape, hmem, hshape⟩, -⟩ := hchosen.exists_le
          exact absurd (hshape.symm.trans (hnone shape hmem)) (Option.some_ne_none _)
  | next hchosen _ ih =>
      cases h' with
      | done hnone =>
          obtain ⟨⟨shape, hmem, hshape⟩, -⟩ := hchosen.exists_le
          exact absurd (hshape.symm.trans (hnone shape hmem)) (Option.some_ne_none _)
      | next hchosen' hrest' =>
          obtain rfl := hchosen.unique hchosen'
          rw [ih hrest']

/-- From two offsets where every search has the same answer, a scan does the same. -/
theorem FreshScan.of_nextAt_eq {shapes : List Shape} {source : Text} {pos pos' : Nat}
    {spans : List Span} (h : ∀ shape : Shape, shape.nextAt source pos = shape.nextAt source pos')
    (hscan : FreshScan shapes source pos' spans) : FreshScan shapes source pos spans := by
  cases hscan with
  | done hnone =>
      exact FreshScan.done fun shape hmem => (h shape).trans (hnone shape hmem)
  | next hchosen hrest =>
      refine FreshScan.next ?_ hrest
      rwa [funext h]

/-- The comment that is taken at a place: it stands ahead, and the place behind it is settled. -/
theorem Chosen.exists_of_between {shapes : List Shape} {before t : Text} {s : Span}
    (h : Chosen (·.nextFrom (Cursor.between before t)) shapes s) :
    ∃ gap text rest, t = gap ++ (text ++ rest) ∧ text ≠ [] ∧
      (∃ shape ∈ shapes, shape.IsComment (before ++ gap) text rest) ∧
      Settled (before ++ gap ++ text) rest ∧
      s = ⟨(before ++ gap).byteLength, (before ++ gap ++ text).byteLength⟩ := by
  obtain ⟨⟨shape, hmem, hshape⟩, -⟩ := h.exists_le
  obtain ⟨gap, text, rest, rfl, hcomment, rfl⟩ := Shape.exists_of_nextFrom hshape
  exact ⟨gap, text, rest, rfl, hcomment.ne_nil, ⟨shape, hmem, hcomment⟩, hcomment.settled, rfl⟩

theorem nextAt_between_fun (before rest : Text) :
    (fun shape : Shape => shape.nextAt (before ++ rest) before.byteLength)
      = (·.nextFrom (Cursor.between before rest)) :=
  funext fun shape => shape.nextAt_between before rest

/-! ## The spans of a scan -/

theorem FreshScan.eq_none_of_nil {shapes : List Shape} {before t : Text}
    (h : FreshScan shapes (before ++ t) before.byteLength []) {shape : Shape}
    (hmem : shape ∈ shapes) : shape.nextFrom (Cursor.between before t) = none := by
  cases h with
  | done hnone =>
      rw [← Shape.nextAt_between]
      exact hnone shape hmem

/-- A scan at a place takes a comment that stands ahead and goes on at the place behind it. -/
theorem FreshScan.exists_of_cons {shapes : List Shape} {before t : Text} {s : Span}
    {spans : List Span} (h : FreshScan shapes (before ++ t) before.byteLength (s :: spans)) :
    Chosen (·.nextFrom (Cursor.between before t)) shapes s ∧
      ∃ gap text rest, t = gap ++ (text ++ rest) ∧ text ≠ [] ∧
        (∃ shape ∈ shapes, shape.IsComment (before ++ gap) text rest) ∧
        Settled (before ++ gap ++ text) rest ∧
        s = ⟨(before ++ gap).byteLength, (before ++ gap ++ text).byteLength⟩ ∧
        FreshScan shapes (before ++ gap ++ text ++ rest) (before ++ gap ++ text).byteLength
          spans := by
  cases h with
  | next hchosen hrest =>
      rw [nextAt_between_fun] at hchosen
      obtain ⟨gap, text, rest, rfl, hne, hcomment, hsettled, rfl⟩ := hchosen.exists_of_between
      refine ⟨hchosen, gap, text, rest, rfl, hne, hcomment, hsettled, rfl, ?_⟩
      simpa only [List.append_assoc] using hrest

/-- A scan ends at a place from which no shape has a comment left. -/
theorem FreshScan.nil_of_eq_none {shapes : List Shape} {before t : Text}
    (h : ∀ shape ∈ shapes, shape.nextFrom (Cursor.between before t) = none) :
    FreshScan shapes (before ++ t) before.byteLength [] := by
  refine FreshScan.done fun shape hmem => ?_
  rw [Shape.nextAt_between, h shape hmem]

/-- A scan takes the comment that starts first and goes on behind it. -/
theorem FreshScan.cons_of_chosen {shapes : List Shape} {before gap text rest : Text}
    {spans : List Span}
    (hchosen : Chosen (·.nextFrom (Cursor.between before (gap ++ (text ++ rest)))) shapes
      ⟨(before ++ gap).byteLength, (before ++ gap ++ text).byteLength⟩)
    (hrest : FreshScan shapes (before ++ gap ++ text ++ rest) (before ++ gap ++ text).byteLength
      spans) :
    FreshScan shapes (before ++ (gap ++ (text ++ rest))) before.byteLength
      (⟨(before ++ gap).byteLength, (before ++ gap ++ text).byteLength⟩ :: spans) := by
  refine FreshScan.next (by rwa [nextAt_between_fun]) ?_
  simpa only [List.append_assoc] using hrest

/-- The spans of a scan start where it begins or later, and none is empty. -/
theorem FreshScan.bounds {shapes : List Shape} {before t : Text} {spans : List Span}
    (h : FreshScan shapes (before ++ t) before.byteLength spans) {s : Span} (hs : s ∈ spans) :
    before.byteLength ≤ s.start ∧ s.start < s.stop := by
  induction spans generalizing before t with
  | nil =>
      exact absurd hs List.not_mem_nil
  | cons a spans ih =>
      obtain ⟨-, gap, text, rest, rfl, hne, -, -, rfl, hrest⟩ := h.exists_of_cons
      have hpos := Text.byteLength_pos hne
      rcases List.mem_cons.mp hs with rfl | hs
      · simp only [Text.byteLength_append]
        omega
      · have hlater := ih hrest hs
        simp only [Text.byteLength_append] at hlater
        omega

theorem FreshScan.exists_commentAt_ahead {shapes : List Shape} {before t : Text} {spans : List Span}
    (h : FreshScan shapes (before ++ t) before.byteLength spans) {s : Span} (hs : s ∈ spans) :
    ∃ shape ∈ shapes, shape.CommentAt (before ++ t) s := by
  induction spans generalizing before t with
  | nil =>
      exact absurd hs List.not_mem_nil
  | cons a spans ih =>
      obtain ⟨-, gap, text, rest, rfl, -, ⟨shape, hmem, hcomment⟩, -, rfl, hrest⟩ :=
        h.exists_of_cons
      rcases List.mem_cons.mp hs with rfl | hs
      · exact ⟨shape, hmem, before ++ gap, text, rest, (List.append_assoc _ _ _).symm, hcomment,
          rfl⟩
      · simpa only [List.append_assoc] using ih hrest hs

/-- At each span of a scan stands a comment of one of the shapes. -/
theorem FreshScan.exists_commentAt {shapes : List Shape} {source : Text} {spans : List Span}
    (h : FreshScan shapes source 0 spans) {s : Span} (hs : s ∈ spans) :
    ∃ shape ∈ shapes, shape.CommentAt source s :=
  @FreshScan.exists_commentAt_ahead shapes [] source spans h s hs

/-- The spans of a scan come one behind the other. -/
theorem FreshScan.ordered {shapes : List Shape} {before t : Text} {spans : List Span}
    (h : FreshScan shapes (before ++ t) before.byteLength spans) :
    spans.Pairwise fun a b => a.stop ≤ b.start := by
  induction spans generalizing before t with
  | nil =>
      exact List.Pairwise.nil
  | cons a spans ih =>
      obtain ⟨-, gap, text, rest, rfl, -, -, -, rfl, hrest⟩ := h.exists_of_cons
      exact List.pairwise_cons.mpr ⟨fun b hb => (hrest.bounds hb).1, ih hrest⟩

/-! ## The plain scan -/

/-- With as many steps as there are characters ahead, the plain scan comes to its end. -/
theorem freshScan_plainFrom (shapes : List Shape) (fuel : Nat) (before t : Text)
    (hfuel : t.length ≤ fuel) :
    FreshScan shapes (before ++ t) before.byteLength
      (plainFrom shapes fuel (Cursor.between before t)) := by
  induction fuel generalizing before t with
  | zero =>
      obtain rfl : t = [] := List.eq_nil_of_length_eq_zero (Nat.le_zero.mp hfuel)
      exact FreshScan.nil_of_eq_none fun shape _ => by cases shape <;> rfl
  | succ fuel ih =>
      rw [plainFrom]
      cases hs : earliest (shapes.filterMap (·.nextFrom (Cursor.between before t))) with
      | none =>
          exact FreshScan.nil_of_eq_none (earliest_filterMap_eq_none_iff.mp hs)
      | some s =>
          have hchosen := earliest_filterMap_eq_some_iff.mp hs
          obtain ⟨gap, text, rest, rfl, hne, -, -, rfl⟩ := hchosen.exists_of_between
          -- The comment is not empty, so a step uses up a character.
          have hlen : rest.length ≤ fuel := by
            have hpos := List.length_pos_iff.mpr hne
            simp only [List.length_append] at hfuel
            omega
          have hplace := Cursor.moveTo_between before (gap ++ text) rest
          simp only [← List.append_assoc] at hplace
          refine FreshScan.cons_of_chosen hchosen ?_
          rw [← List.append_assoc, hplace]
          exact ih (before ++ gap ++ text) rest hlen

/-- The plain scan searches afresh at each step, to the end. -/
theorem freshScan_plainScan (shapes : List Shape) (source : Text) :
    FreshScan shapes source 0 (plainScan shapes source) :=
  freshScan_plainFrom shapes source.length [] source (Nat.le_refl _)

/-! ## The comments of one shape -/

theorem earliest_filterMap_singleton (search : Shape → Option Span) (shape : Shape) :
    earliest ([shape].filterMap search) = search shape := by
  cases hs : search shape with
  | none =>
      rw [List.filterMap_cons_none hs]
      rfl
  | some s =>
      rw [List.filterMap_cons_some hs]
      rfl

/-- The search for one shape goes on where a plain scan for this shape alone does. -/
theorem spansFrom_eq_plainFrom (shape : Shape) (fuel : Nat) (before t : Text) :
    shape.spansFrom fuel (Cursor.between before t)
      = plainFrom [shape] fuel (Cursor.between before t) := by
  induction fuel generalizing before t with
  | zero =>
      rfl
  | succ fuel ih =>
      rw [Shape.spansFrom, plainFrom, earliest_filterMap_singleton]
      cases hs : shape.nextFrom (Cursor.between before t) with
      | none =>
          rfl
      | some s =>
          obtain ⟨gap, text, rest, rfl, hcomment, rfl⟩ := Shape.exists_of_nextFrom hs
          have hlt : before.byteLength < (before ++ gap ++ text).byteLength := by
            have hpos := Text.byteLength_pos hcomment.ne_nil
            rw [Text.byteLength_append, Text.byteLength_append]
            omega
          have hplace := Cursor.moveTo_between before (gap ++ text) rest
          simp only [← List.append_assoc] at hplace ⊢
          rw [Cursor.past_eq_moveTo hlt, hplace, ih]

/-- The comments of one shape are those of a plain scan for this shape alone. -/
theorem spans_eq_plainScan (shape : Shape) (source : Text) :
    shape.spans source = plainScan [shape] source :=
  spansFrom_eq_plainFrom shape source.length [] source

/-- The comments of one shape are what a scan for this shape alone finds. -/
theorem freshScan_spans (shape : Shape) (source : Text) :
    FreshScan [shape] source 0 (shape.spans source) := by
  rw [spans_eq_plainScan]
  exact freshScan_plainScan [shape] source

end Scan

end DocDigest
