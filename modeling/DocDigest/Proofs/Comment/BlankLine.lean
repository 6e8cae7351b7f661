import DocDigest.Proofs.Comment.Coverage
import DocDigest.Proofs.Comment.Finds
import DocDigest.Proofs.Comment.Shift

/-!
# Scanning across a blank line

What a scan finds in a text stays found when a blank line and another text follow, and what it finds
behind the blank line is what it finds in the other text alone, as long as every opener of the first
text lies in one of its spans (`scan_append_blank_line_iff`). The condition is exact: an opener
outside all spans has no closer in the first text, and one in the other text closes it.

A comment that is found stays found when a text follows that no run goes on in
(`Shape.nextFrom_append_right`); the one new comment that can come before it begins with an opener
that nothing closed before (`Shape.start_of_nextFrom_append_right`). By induction along the scan
nothing changes in the first text (`FreshScan.append_right`), and the other text is scanned as if it
stood alone (`Scan.freshScan_blankLine`).
-/

set_option autoImplicit false

namespace DocDigest

/-! ## Text that follows -/

namespace LineRun

variable {tail : Text}

theorem Ends.isDocLine_append (h : Ends tail) (line : Text) :
    isDocLine (line ++ tail) = isDocLine line := by
  rcases h with rfl | ⟨after, rfl, -⟩
  · rw [List.append_nil]
  · exact isDocLine_append_lineFeed line after

theorem Ends.not_mem_opener (h : Ends tail) {c : Char} (hc : tail.head? = some c) :
    c ∉ Block.opener := by
  rcases h with rfl | ⟨after, rfl, -⟩
  · exact absurd hc (Option.some_ne_none c).symm
  · obtain rfl : '\n' = c := Option.some.inj hc
    decide

theorem Ends.stop_append (h : Ends tail) (offset : Nat) (t : Text) :
    stop offset (t ++ tail) = stop offset t := by
  induction t generalizing offset with
  | nil =>
      exact stop_of_ends h offset
  | cons c cs ih =>
      rw [List.cons_append, stop, stop, h.isDocLine_append, ih]

/-- The first run of a text stays where it is; if there is none, the search goes on behind it. -/
theorem Ends.first?_append (h : Ends tail) (offset : Nat) (fresh : Bool) (t : Text) :
    first? offset fresh (t ++ tail)
      = (first? offset fresh t).or
          (first? (offset + t.byteLength) (Cursor.lineBegins fresh t) tail) := by
  induction t generalizing offset fresh with
  | nil =>
      rfl
  | cons c cs ih =>
      have hline : isDocLine (c :: (cs ++ tail)) = isDocLine (c :: cs) :=
        h.isDocLine_append (c :: cs)
      rw [List.cons_append, first?, first?, hline]
      by_cases hdoc : (fresh && isDocLine (c :: cs)) = true
      · have hindent : indent (c :: (cs ++ tail)) = indent (c :: cs) :=
          indent_append_right (Bool.and_eq_true_iff.mp hdoc).2 tail
        have hstop : stop offset (c :: (cs ++ tail)) = stop offset (c :: cs) :=
          h.stop_append offset (c :: cs)
        rw [if_pos hdoc, if_pos hdoc, hindent, hstop, Option.some_or]
      · rw [if_neg hdoc, if_neg hdoc, ih, Text.byteLength, Nat.add_assoc, Cursor.lineBegins_cons]

end LineRun

namespace Block

theorem first?_append_right {offset : Nat} {t : Text} {s : Span} (h : first? offset t = some s)
    (tail : Text) : first? offset (t ++ tail) = some s := by
  obtain ⟨gap, body, rest, rfl, hgap, hbody, rfl⟩ := first?_eq_some_iff.mp h
  refine first?_eq_some_iff.mpr ⟨gap, body, rest ++ tail, ?_, hgap.change_rest _,
    hbody.change_rest _, rfl⟩
  simp only [List.append_assoc]

/-- A comment that is found only with the text that follows begins in that text or with an opener
that nothing closed before. -/
theorem start_of_first?_append_right {before t tail : Text} {s : Span}
    (htail : ∀ c, tail.head? = some c → c ∉ opener)
    (h : first? before.byteLength (t ++ tail) = some s) :
    (before ++ t).byteLength ≤ s.start ∨ Text.OccursAt opener (before ++ t) s.start := by
  obtain ⟨gap, body, rest, heq, -, -, rfl⟩ := first?_eq_some_iff.mp h
  have hstart : before.byteLength + gap.byteLength = (before ++ gap).byteLength :=
    (Text.byteLength_append before gap).symm
  rcases List.append_eq_append_iff.mp heq with ⟨mid, rfl, -⟩ | ⟨mid, rfl, hmid⟩
  · refine Or.inl ?_
    simp only [Text.byteLength_append]
    omega
  · -- The opener begins in the text. It ends there too, for the next character is not of it.
    rw [← List.append_assoc]
    rcases List.append_eq_append_iff.mp hmid with ⟨k, rfl, -⟩ | ⟨k, hk, rfl⟩
    · exact Or.inr ⟨before ++ gap, k, rfl, hstart⟩
    · cases k with
      | nil =>
          rw [List.append_nil] at hk
          exact Or.inr ⟨before ++ gap, [], by rw [hk, List.append_nil], hstart⟩
      | cons c k =>
          exact absurd (by rw [hk]; simp) (htail c rfl)

end Block

namespace Shape

variable {shape : Shape} {before t tail : Text} {s : Span}

/-- A comment that is found stays found when a text follows that no run goes on in. -/
theorem nextFrom_append_right (htail : LineRun.Ends tail)
    (h : shape.nextFrom (Cursor.between before t) = some s) :
    shape.nextFrom (Cursor.between before (t ++ tail)) = some s := by
  cases shape with
  | block =>
      exact Block.first?_append_right h tail
  | line =>
      have hfound : LineRun.first? before.byteLength (Cursor.lineBegins true before) t = some s := h
      show LineRun.first? before.byteLength (Cursor.lineBegins true before) (t ++ tail) = some s
      rw [htail.first?_append, hfound, Option.some_or]

/-- If a text holds no run, the search for one goes on behind it. -/
theorem nextFrom_line_append_right (htail : LineRun.Ends tail)
    (hnone : line.nextFrom (Cursor.between before t) = none) :
    line.nextFrom (Cursor.between before (t ++ tail))
      = line.nextFrom (Cursor.between (before ++ t) tail) := by
  have hmissed : LineRun.first? before.byteLength (Cursor.lineBegins true before) t = none := hnone
  show LineRun.first? before.byteLength (Cursor.lineBegins true before) (t ++ tail)
    = LineRun.first? (before ++ t).byteLength (Cursor.lineBegins true (before ++ t)) tail
  rw [htail.first?_append, hmissed, Option.none_or, Text.byteLength_append,
    Cursor.lineBegins_append]

/-- A comment that is found only with the text that follows begins in that text, or it is a block
whose opener nothing closed before. -/
theorem start_of_nextFrom_append_right (htail : LineRun.Ends tail)
    (hnone : shape.nextFrom (Cursor.between before t) = none)
    (h : shape.nextFrom (Cursor.between before (t ++ tail)) = some s) :
    (before ++ t).byteLength ≤ s.start ∨
      shape = .block ∧ Text.OccursAt Block.opener (before ++ t) s.start := by
  cases shape with
  | block =>
      have hcases := Block.start_of_first?_append_right (fun c => htail.not_mem_opener) h
      exact hcases.imp_right fun hocc => ⟨rfl, hocc⟩
  | line =>
      rw [nextFrom_line_append_right htail hnone] at h
      exact Or.inl (byteLength_le_start h)

/-- No opener begins where a run does. -/
theorem not_occursAt_opener (h : line.nextFrom (Cursor.between before t) = some s) :
    ¬ Text.OccursAt Block.opener (before ++ t) s.start := by
  obtain ⟨gap, text, rest, rfl, ⟨-, -, run, -, -, -, rfl, -⟩, rfl⟩ := exists_of_nextFrom h
  rw [← List.append_assoc, Text.occursAt_append_iff]
  simp [Block.opener]

end Shape

namespace Scan

theorem chosen_all_iff {search : Shape → Option Span} {s : Span} :
    Chosen search Shape.all s ↔
      (search .block = some s ∧ ∀ t, search .line = some t → s.start ≤ t.start) ∨
        (search .line = some s ∧ ∀ t, search .block = some t → s.start < t.start) := by
  constructor
  · rintro ⟨sooner, shape, later, hall, hshape, hsooner, hlater⟩
    cases sooner with
    | nil =>
        obtain ⟨rfl, rfl⟩ := List.cons_eq_cons.mp hall
        exact Or.inl ⟨hshape, hlater .line (by simp)⟩
    | cons first sooner =>
        obtain ⟨rfl, hrest⟩ := List.cons_eq_cons.mp hall
        cases sooner with
        | nil =>
            obtain ⟨rfl, -⟩ := List.cons_eq_cons.mp hrest
            exact Or.inr ⟨hshape, hsooner .block (by simp)⟩
        | cons second sooner =>
            obtain ⟨-, hnil⟩ := List.cons_eq_cons.mp hrest
            exact absurd hnil (by simp)
  · rintro (⟨hblock, hline⟩ | ⟨hline, hblock⟩)
    · exact ⟨[], .block, [.line], rfl, hblock, by simp, by simpa using hline⟩
    · exact ⟨[.block], .line, [], rfl, hline, by simpa using hblock, by simp⟩

/-- The comment that a scan takes stays the one that it takes when a text follows that no run goes
on in, if the comment starts no later than any opener ahead. -/
theorem Chosen.append_right {before t tail : Text} {s : Span} (htail : LineRun.Ends tail)
    (h : Chosen (·.nextFrom (Cursor.between before t)) Shape.all s)
    (hopeners : ∀ o, before.byteLength ≤ o → Text.OccursAt Block.opener (before ++ t) o →
      s.start ≤ o) :
    Chosen (·.nextFrom (Cursor.between before (t ++ tail))) Shape.all s := by
  have hinside : s.start < (before ++ t).byteLength := by
    obtain ⟨gap, text, rest, rfl, hne, -, -, rfl⟩ := h.exists_of_between
    have hpos := Text.byteLength_pos hne
    simp only [Text.byteLength_append]
    omega
  rw [chosen_all_iff] at h ⊢
  refine h.imp (fun h => ?_) fun h => ?_
  · obtain ⟨hblock, hline⟩ := h
    refine ⟨Shape.nextFrom_append_right htail hblock, fun u hu => ?_⟩
    cases hold : Shape.line.nextFrom (Cursor.between before t) with
    | some v =>
        rw [Shape.nextFrom_append_right htail hold] at hu
        obtain rfl : v = u := Option.some.inj hu
        exact hline v hold
    | none =>
        rcases Shape.start_of_nextFrom_append_right htail hold hu with hle | ⟨hshape, -⟩
        · omega
        · exact absurd hshape (by decide)
  · obtain ⟨hline, hblock⟩ := h
    refine ⟨Shape.nextFrom_append_right htail hline, fun u hu => ?_⟩
    cases hold : Shape.block.nextFrom (Cursor.between before t) with
    | some v =>
        rw [Shape.nextFrom_append_right htail hold] at hu
        obtain rfl : v = u := Option.some.inj hu
        exact hblock v hold
    | none =>
        rcases Shape.start_of_nextFrom_append_right htail hold hu with hle | ⟨-, hocc⟩
        · omega
        · -- The opener is ahead, and it does not begin where the run does.
          have hle := hopeners u.start (Shape.byteLength_le_start hu) hocc
          have hne : s.start ≠ u.start := by
            intro heq
            rw [← heq] at hocc
            exact Shape.not_occursAt_opener hline hocc
          omega

/-- A scan goes on in a text that follows, if every opener ahead lies in one of its spans and no run
goes on there. -/
theorem FreshScan.append_right {before t tail : Text} {spans more : List Span}
    (htail : LineRun.Ends tail)
    (h : FreshScan Shape.all (before ++ t) before.byteLength spans)
    (hopeners : ∀ o, before.byteLength ≤ o → Text.OccursAt Block.opener (before ++ t) o →
      ∃ s ∈ spans, s.covers o = true)
    (hmore : FreshScan Shape.all (before ++ t ++ tail) (before ++ t).byteLength more) :
    FreshScan Shape.all (before ++ (t ++ tail)) before.byteLength (spans ++ more) := by
  induction spans generalizing before t with
  | nil =>
      have habsent : Text.Absent Block.opener t tail := by
        refine Text.absent_of_not_within ?_ fun c => htail.not_mem_opener
        rintro ⟨g, r, rfl⟩
        obtain ⟨s, hs, -⟩ := hopeners (before ++ g).byteLength
          (by rw [Text.byteLength_append]; exact Nat.le_add_right _ _)
          ⟨before ++ g, r, by simp only [List.append_assoc], rfl⟩
        exact List.not_mem_nil hs
      rw [List.append_assoc] at hmore
      refine hmore.of_nextAt_eq fun shape => ?_
      rw [Shape.nextAt_between, ← List.append_assoc, Shape.nextAt_between]
      cases shape with
      | block =>
          exact Shape.nextFrom_block_append habsent
      | line =>
          exact Shape.nextFrom_line_append_right htail (h.eq_none_of_nil (by decide))
  | cons a spans ih =>
      have hordered := List.pairwise_cons.mp h.ordered
      have hnonempty := (h.bounds List.mem_cons_self).2
      obtain ⟨hchosen, gap, text, rest, rfl, -, -, -, ha, hrest⟩ := h.exists_of_cons
      -- An opener ahead lies in the next span or in one behind it.
      have hstart : ∀ o, before.byteLength ≤ o →
          Text.OccursAt Block.opener (before ++ (gap ++ (text ++ rest))) o → a.start ≤ o := by
        intro o hle hocc
        obtain ⟨s, hs, hcovers⟩ := hopeners o hle hocc
        have hin := Span.covers_iff.mp hcovers
        rcases List.mem_cons.mp hs with rfl | hs
        · exact hin.1
        · have hbehind := hordered.1 s hs
          omega
      have hnext := hchosen.append_right htail hstart
      rw [← nextAt_between_fun] at hnext
      rw [List.cons_append]
      refine FreshScan.next hnext ?_
      have hsource : before ++ (gap ++ (text ++ rest)) = before ++ gap ++ text ++ rest := by
        simp only [List.append_assoc]
      have hbehind : FreshScan Shape.all (before ++ gap ++ text ++ (rest ++ tail))
          (before ++ gap ++ text).byteLength (spans ++ more) := by
        refine ih hrest (fun o hle hocc => ?_) (by rwa [← hsource])
        rw [← hsource] at hocc
        have hahead : before.byteLength ≤ o := by
          simp only [Text.byteLength_append] at hle
          omega
        obtain ⟨s, hs, hcovers⟩ := hopeners o hahead hocc
        rcases List.mem_cons.mp hs with rfl | hs
        · have hin := Span.covers_iff.mp hcovers
          rw [ha] at hin
          exact absurd hin.2 (Nat.not_lt.mpr hle)
        · exact ⟨s, hs, hcovers⟩
      rw [ha]
      simpa only [List.append_assoc] using hbehind

end Scan

/-! ## The blank line -/

theorem ends_blankLine (b : Text) : LineRun.Ends (['\n', '\n'] ++ b) :=
  Or.inr ⟨'\n' :: b, rfl, LineRun.isDocLine_lineFeed b⟩

theorem noDocLine_blankLine (fresh : Bool) (b : Text) : LineRun.NoDocLine fresh ['\n', '\n'] b :=
  LineRun.noDocLine_cons.mpr
    ⟨fun _ => LineRun.isDocLine_lineFeed _, LineRun.noDocLine_lineFeed _ _⟩

/-- What is behind a blank line is scanned as if it stood alone, and this line is passed over. -/
theorem Scan.freshScan_blankLine (a b : Text) :
    FreshScan Shape.all (a ++ (['\n', '\n'] ++ b)) a.byteLength
      ((scan Shape.all b).map (Span.shift (a.byteLength + 2))) := by
  have hfront : Cursor.lineBegins true (a ++ ['\n', '\n']) = true := by
    rw [Cursor.lineBegins_append]
    rfl
  have hlen : (a ++ ['\n', '\n']).byteLength = a.byteLength + 2 := Text.byteLength_append _ _
  have hb : FreshScan Shape.all (a ++ ['\n', '\n'] ++ [] ++ b) (a ++ ['\n', '\n'] ++ []).byteLength
      ((scan Shape.all b).map (Span.shift (a ++ ['\n', '\n']).byteLength)) :=
    FreshScan.append_left hfront (freshScan_scan Shape.all b)
  rw [List.append_nil, hlen] at hb
  refine FreshScan.skip (Text.absent_of_not_mem _ (by decide)) (noDocLine_blankLine _ b) ?_
  rwa [hlen]

/-- Exactly if every opener of a text lies in a span of the text, a scan of the text with a blank
line and any other text behind it finds what scans of the two texts find, each in its place. -/
theorem scan_append_blank_line_iff {a : Text} :
    (∀ b, scan Shape.all (a ++ (['\n', '\n'] ++ b))
        = scan Shape.all a ++ (scan Shape.all b).map (Span.shift (a.byteLength + 2))) ↔
      ∀ o, Text.OccursAt Block.opener a o → ∃ s ∈ scan Shape.all a, s.covers o = true := by
  constructor
  · rintro hlocal o ⟨before, after, rfl, rfl⟩
    -- A closer behind the blank line closes the opener, so the scan has a span there.
    have hscan : Scan.FreshScan Shape.all
        ([] ++ (before ++ (Block.opener ++ after) ++ (['\n', '\n'] ++ Block.closer)))
        (Text.byteLength [])
        (scan Shape.all (before ++ (Block.opener ++ after) ++ (['\n', '\n'] ++ Block.closer))) :=
      Scan.freshScan_scan Shape.all _
    have hmark : Shape.block.MarkAt
        ([] ++ (before ++ (Block.opener ++ after) ++ (['\n', '\n'] ++ Block.closer)))
        before.byteLength :=
      ⟨before, after ++ ['\n', '\n'], [], by simp, rfl⟩
    obtain ⟨s, hs, hcovers⟩ :=
      hscan.exists_covers (settled_nil _) (by decide) hmark (Nat.zero_le _)
    have hcloser : scan Shape.all Block.closer = [] := by decide
    rw [hlocal, hcloser, List.map_nil, List.append_nil] at hs
    exact ⟨s, hs, hcovers⟩
  · intro hopeners b
    have ha : Scan.FreshScan Shape.all ([] ++ a) (Text.byteLength []) (scan Shape.all a) :=
      Scan.freshScan_scan Shape.all a
    have hab := ha.append_right (ends_blankLine b) (fun o _ hocc => hopeners o hocc)
      (Scan.freshScan_blankLine a b)
    exact (Scan.freshScan_scan Shape.all _).unique hab

/-- It is not enough that no opener stands behind the last span. One that nothing closes may stand
before the span, and a closer behind the blank line makes a block comment of it that takes in the
span. -/
theorem scan_append_blank_line_takes_in_run :
    ¬ ∀ a b : Text,
      (∀ o, Text.OccursAt Block.opener a o →
        ∃ s, (scan Shape.all a).getLast? = some s ∧ o < s.stop) →
      scan Shape.all (a ++ (['\n', '\n'] ++ b))
        = scan Shape.all a ++ (scan Shape.all b).map (Span.shift (a.byteLength + 2)) := by
  intro hlocal
  let a : Text := "/** x\n// * y".toList
  have ha : scan Shape.all a = [⟨6, 12⟩] := by decide
  have hab : scan Shape.all (a ++ (['\n', '\n'] ++ Block.closer)) = [⟨0, 16⟩] := by decide
  have hb : scan Shape.all Block.closer = [] := by decide
  have hopeners : ∀ o, Text.OccursAt Block.opener a o →
      ∃ s, (scan Shape.all a).getLast? = some s ∧ o < s.stop := by
    rintro o ⟨before, after, heq, rfl⟩
    have hlen : a.byteLength = 12 := by decide
    rw [heq, Text.byteLength_append, Text.byteLength_append, Block.byteLength_opener] at hlen
    have hlt : before.byteLength < 12 := by omega
    exact ⟨⟨6, 12⟩, by rw [ha]; rfl, hlt⟩
  have hwrong := hlocal a Block.closer hopeners
  rw [hab, ha, hb] at hwrong
  exact absurd hwrong (by decide)

end DocDigest
