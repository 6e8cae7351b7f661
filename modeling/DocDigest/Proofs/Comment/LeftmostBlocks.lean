import DocDigest.Proofs.Comment.Coverage
import DocDigest.Proofs.Comment.SourceCuts

/-!
# Block comments from left to right

The block comments of a source are matched from left to right: each starts at the first opener that
is not before the end of the one before, and ends behind the first closer that shares no character
with this opener. The matching stops where no opener that is left has a closer behind it. There is
one such sequence of spans (`Block.Leftmost`), and it is what the search for block comments gives
(`Shape.block_spans_leftmost_shortest`).

Marks may overlap: an opener with a slash behind it holds a closer, and two of these in a row hold a
third opener. So the matching is told by the offsets at which marks occur, and not by parts that the
source is made up of.

The search may be made by cutting the source at byte offsets, too. No cut falls inside a character
(`Block.searchByCuts_eq`).
-/

set_option autoImplicit false

namespace DocDigest

namespace Block

/-! ## The next block comment -/

/-- The block comment that is next from an offset on. -/
structure IsNext (source : Text) (pos : Nat) (s : Span) : Prop where
  starts : Text.FirstOccursAt opener source pos s.start
  stops : ∃ k, Text.FirstOccursAt closer source (s.start + 3) k ∧ s.stop = k + 2

/-- From an offset on, no opener has a closer behind its three characters. -/
def NoneLeft (source : Text) (pos : Nat) : Prop :=
  ∀ o k, pos ≤ o → Text.OccursAt opener source o → o + 3 ≤ k → ¬ Text.OccursAt closer source k

variable {source before t : Text} {pos : Nat} {s u : Span} {spans : List Span}

theorem IsNext.unique (h : IsNext source pos s) (h' : IsNext source pos u) : s = u := by
  obtain ⟨start, stop⟩ := s
  obtain ⟨start', stop'⟩ := u
  obtain rfl : start = start' := h.starts.unique h'.starts
  obtain ⟨k, hk, rfl⟩ := h.stops
  obtain ⟨k', hk', rfl⟩ := h'.stops
  rw [hk.unique hk']

theorem IsNext.markAt (h : IsNext source pos s) : Shape.block.MarkAt source s.start := by
  obtain ⟨k, hk, -⟩ := h.stops
  exact Shape.markAt_block_iff.mpr ⟨h.starts.occurs, k, hk.le, hk.occurs⟩

theorem IsNext.isBoundary_stop (h : IsNext source pos s) : source.IsBoundary s.stop := by
  obtain ⟨k, hk, hstop⟩ := h.stops
  rw [hstop]
  exact hk.occurs.isBoundary_add

theorem noneLeft_iff : NoneLeft source pos ↔ ∀ o, pos ≤ o → ¬ Shape.block.MarkAt source o := by
  simp only [NoneLeft, Shape.markAt_block_iff, not_and, not_exists]
  exact ⟨fun h o hle hopener k => h o k hle hopener, fun h o k hle hopener => h o hle hopener k⟩

/-- What the search finds is the next comment. -/
theorem isNext_of_nextFrom (h : Shape.block.nextFrom (Cursor.between before t) = some s) :
    IsNext (before ++ t) before.byteLength s := by
  obtain ⟨gap, body, rest, rfl, hgap, hbody, rfl⟩ := first?_eq_some_iff.mp h
  have hopener := hgap.firstOccursAt before
  have hcloser := hbody.firstOccursAt (before ++ (gap ++ opener))
  simp only [List.append_assoc, Text.byteLength_append, byteLength_opener] at hopener hcloser
  refine ⟨hopener, before.byteLength + (gap.byteLength + (3 + body.byteLength)), ?_, ?_⟩
  · simpa only [Cursor.offset_between, Nat.add_assoc] using hcloser
  · simp only [Cursor.offset_between, Nat.add_assoc]

/-- From any place, the search finds the next comment, and nothing else. -/
theorem nextAt_eq_some_iff (hpos : source.IsBoundary pos) :
    Shape.block.nextAt source pos = some s ↔ IsNext source pos s := by
  obtain ⟨before, t, rfl, rfl⟩ := hpos
  rw [Shape.nextAt_between]
  constructor
  · exact isNext_of_nextFrom
  · -- The opener has a closer, so something is found, and only one comment is next.
    intro h
    obtain ⟨u, hu, -⟩ := Shape.exists_nextFrom_block_le h.markAt h.starts.le
    rw [hu, (isNext_of_nextFrom hu).unique h]

/-- The search looks no farther than the first opener, and yet finds nothing only if no opener has a
closer behind it. -/
theorem nextAt_eq_none_iff (hpos : source.IsBoundary pos) :
    Shape.block.nextAt source pos = none ↔ NoneLeft source pos := by
  rw [noneLeft_iff]
  constructor
  · -- The closer of any opener ahead is also one of the first opener.
    intro hnone o hle hmark
    obtain ⟨before, t, rfl, rfl⟩ := hpos
    obtain ⟨u, hu, -⟩ := Shape.exists_nextFrom_block_le hmark hle
    rw [Shape.nextAt_between, hu] at hnone
    exact Option.some_ne_none u hnone
  · intro hno
    rw [Option.eq_none_iff_forall_ne_some]
    intro s hs
    have hnext := (nextAt_eq_some_iff hpos).mp hs
    exact hno s.start hnext.starts.le hnext.markAt

/-! ## All block comments -/

/-- The matching from an offset on: the next comment, then the matching from its end on, until no
comment is left. -/
inductive Leftmost (source : Text) : Nat → List Span → Prop
  | done {pos : Nat} : NoneLeft source pos → Leftmost source pos []
  | next {pos : Nat} {s : Span} {rest : List Span} :
      IsNext source pos s → Leftmost source s.stop rest → Leftmost source pos (s :: rest)

/-- From any place, the matching is what a scan for block comments does. -/
theorem leftmost_iff_freshScan (hpos : source.IsBoundary pos) :
    Leftmost source pos spans ↔ Scan.FreshScan [.block] source pos spans := by
  -- Each comment ends at a boundary, so the next search begins at a place again.
  constructor
  · intro h
    induction h with
    | done hnone =>
        refine Scan.FreshScan.done (List.forall_mem_singleton.mpr ?_)
        exact (nextAt_eq_none_iff hpos).mpr hnone
    | next hnext _ ih =>
        refine Scan.FreshScan.next (Scan.chosen_singleton_iff.mpr ?_) (ih hnext.isBoundary_stop)
        exact (nextAt_eq_some_iff hpos).mpr hnext
  · intro h
    induction h with
    | done hnone =>
        exact Leftmost.done ((nextAt_eq_none_iff hpos).mp (hnone .block List.mem_cons_self))
    | next hchosen _ ih =>
        have hnext := (nextAt_eq_some_iff hpos).mp (Scan.chosen_singleton_iff.mp hchosen)
        exact Leftmost.next hnext (ih hnext.isBoundary_stop)

/-- The spans of the block comments are the only matching. -/
theorem leftmost_iff : Leftmost source 0 spans ↔ spans = Shape.block.spans source := by
  have hstart : source.IsBoundary 0 := Text.isBoundary_append [] source
  have hscan := Scan.freshScan_spans .block source
  rw [leftmost_iff_freshScan hstart]
  constructor
  · intro h
    exact h.unique hscan
  · rintro rfl
    exact hscan

end Block

/-! ## Cuts -/

namespace Block

/-- The search for a block comment from a byte offset on, made by cutting the source. If it cannot
be cut at the given offset, there is nothing to find. It is taken for granted that it can be cut
behind the opener; if it cannot, the search fails with the offset. -/
def searchByCuts (source : Text) (o : Nat) : Except Nat (Option Span) :=
  match source.from? o with
  | none => .ok none
  | some ahead =>
    match Text.offsetOf? opener ahead with
    | none => .ok none
    | some gap =>
      match source.from? (o + gap + 3) with
      | none => .error (o + gap + 3)
      | some inside =>
        .ok ((Text.offsetOf? closer inside).map fun body => ⟨o + gap, o + gap + 3 + body + 2⟩)

/-- The search for a closer gives the offset behind the first one. -/
theorem close?_eq_map (offset : Nat) (t : Text) :
    close? offset t = (Text.offsetOf? closer t).map fun body => offset + body + 2 := by
  rcases Text.absent_or_first closer t with h | ⟨body, rest, rfl, h⟩
  · rw [h.offsetOf?_eq_none closer_ne_nil, ← List.append_nil t, close?_append h]
    rfl
  · rw [h.offsetOf?_eq, close?_append h, close?_closer]
    rfl

/-- Behind an opener, the search is one for the closer. -/
theorem searchByCuts_opener {gap inside : Text} (before : Text)
    (h : Text.Absent opener gap (opener ++ inside)) :
    searchByCuts (before ++ (gap ++ (opener ++ inside))) before.byteLength
      = .ok ((Text.offsetOf? closer inside).map fun body =>
          ⟨before.byteLength + gap.byteLength,
            before.byteLength + gap.byteLength + 3 + body + 2⟩) := by
  have hcut : Text.from? (before ++ (gap ++ (opener ++ inside)))
      (before.byteLength + gap.byteLength + 3) = some inside := by
    -- Each character of the opener is one byte long.
    have hbehind := Text.from?_append (before ++ (gap ++ opener)) inside
    simpa only [List.append_assoc, Text.byteLength_append, byteLength_opener, Nat.add_assoc]
      using hbehind
  rw [searchByCuts, Text.from?_append]
  simp only [h.offsetOf?_eq, hcut]

/-- No cut fails, and the search with cuts finds what the other one finds. -/
theorem searchByCuts_eq (source : Text) (o : Nat) :
    searchByCuts source o = .ok (Shape.block.nextAt source o) := by
  by_cases ho : source.IsBoundary o
  · obtain ⟨before, t, rfl, rfl⟩ := ho
    rw [Shape.nextAt_between]
    show searchByCuts (before ++ t) before.byteLength = .ok (first? before.byteLength t)
    rcases Text.absent_or_first opener t with h | ⟨gap, inside, rfl, h⟩
    · have hnone : first? before.byteLength t = none := by
        rw [← List.append_nil t, first?_append h]
        rfl
      rw [searchByCuts, Text.from?_append, hnone]
      simp only [h.offsetOf?_eq_none opener_ne_nil]
    · rw [searchByCuts_opener before h, first?_append h, first?_opener, close?_eq_map,
        Option.map_map]
      rfl
  · rw [Shape.nextAt_eq_none ho, searchByCuts, Text.from?_eq_none ho]

end Block

/-- The spans of the block comments of a source are the one sequence in which each span goes from
the first opener that is not before the end of the last span to the end of the first closer behind
this opener, and which ends where no opener that is left has a closer behind it. From any place, the
search finds the span that is next in this sense, and gives up at an opener without a closer only if
no later one has a closer either. From an offset that is past the end or inside a character it finds
nothing. From no offset does it cut the source inside a character. -/
theorem Shape.block_spans_leftmost_shortest (source : Text) :
    (∀ spans, Block.Leftmost source 0 spans ↔ spans = block.spans source) ∧
      ∀ o, Block.searchByCuts source o = .ok (block.nextAt source o) ∧
        (source.byteLength < o ∨ ¬ source.IsBoundary o → block.nextAt source o = none) ∧
        (source.IsBoundary o →
          (∀ s, block.nextAt source o = some s ↔ Block.IsNext source o s) ∧
          (block.nextAt source o = none ↔ Block.NoneLeft source o)) := by
  refine ⟨fun spans => Block.leftmost_iff, fun o => ⟨?cuts, ?outside, ?inside⟩⟩
  case cuts =>
    exact Block.searchByCuts_eq source o
  case outside =>
    rintro (hpast | hinner)
    · exact nextAt_eq_none (fun ho => absurd ho.le (Nat.not_le.mpr hpast)) block
    · exact nextAt_eq_none hinner block
  case inside =>
    intro ho
    exact ⟨fun s => Block.nextAt_eq_some_iff ho, Block.nextAt_eq_none_iff ho⟩

/-- Of two overlapping openers the first one counts, but from behind its first character the second
one does, and its comment goes on to the closer of the next. Behind that, the only closer shares its
star with the only opener. -/
theorem Shape.block_spans_leftmost_shortest_of_overlapping_marks :
    let source : Text := "/**/**/ /***/ /**/ é".toList
    Block.Leftmost source 0 [⟨0, 7⟩, ⟨8, 13⟩] ∧
      (source.IsBoundary 1 ∧ Block.IsNext source 1 ⟨3, 13⟩) ∧
      (source.IsBoundary 13 ∧ Block.NoneLeft source 13) ∧
      (¬ source.IsBoundary 20 ∧ Block.searchByCuts source 20 = .ok none) ∧
      source.byteLength < 22 ∧ Block.searchByCuts source 22 = .ok none := by
  intro source
  obtain ⟨hspans, hsearch⟩ := block_spans_leftmost_shortest source
  have hinside : source.IsBoundary 1 := Cursor.isSome_at?_iff.mp (by decide)
  have hbehind : source.IsBoundary 13 := Cursor.isSome_at?_iff.mp (by decide)
  have hinner : ¬ source.IsBoundary 20 := mt Cursor.isSome_at?_iff.mpr (by decide)
  have hpast : source.byteLength < 22 := by decide
  refine ⟨(hspans _).mpr (by decide), ⟨hinside, ?_⟩, ⟨hbehind, ?_⟩, ⟨hinner, ?_⟩, hpast, ?_⟩
  · exact (((hsearch 1).2.2 hinside).1 _).mp (by decide)
  · exact ((hsearch 13).2.2 hbehind).2.mp (by decide)
  · rw [(hsearch 20).1, (hsearch 20).2.1 (Or.inr hinner)]
  · rw [(hsearch 22).1, (hsearch 22).2.1 (Or.inl hpast)]

end DocDigest
