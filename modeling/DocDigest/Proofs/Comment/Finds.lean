import DocDigest.Comment.Fragment
import DocDigest.Proofs.Comment.Outlook

/-!
# What a scan finds, stretch by stretch

`Finds before rest texts` says that a scan from the place between `before` and `rest` comes to the
comments `texts`. A stretch in which no comment begins is passed over (`Finds.skip`), a block
comment at the place and a run at the start of the line ahead are found (`Finds.block`,
`Finds.run`). These rules follow a source from its first character to its last.
-/

set_option autoImplicit false

namespace DocDigest

/-- A scan for all forms of comment finds the given comments in what is behind a place. -/
def Finds (before rest : Text) (texts : List Text) : Prop :=
  ∃ spans, Scan.FreshScan Shape.all (before ++ rest) before.byteLength spans ∧
    spans.map (·.slice (before ++ rest)) = texts

/-- The search for a block comment goes on behind a stretch in which no opener begins. -/
theorem Shape.nextFrom_block_append {before gap rest : Text}
    (h : Text.Absent Block.opener gap rest) :
    block.nextFrom (Cursor.between before (gap ++ rest))
      = block.nextFrom (Cursor.between (before ++ gap) rest) := by
  show Block.first? before.byteLength (gap ++ rest) = Block.first? (before ++ gap).byteLength rest
  rw [Block.first?_append h, Text.byteLength_append]

theorem Shape.nextFrom_line_append {before gap rest : Text}
    (h : LineRun.NoDocLine (Cursor.lineBegins true before) gap rest) :
    line.nextFrom (Cursor.between before (gap ++ rest))
      = line.nextFrom (Cursor.between (before ++ gap) rest) := by
  show LineRun.first? before.byteLength (Cursor.lineBegins true before) (gap ++ rest)
    = LineRun.first? (before ++ gap).byteLength (Cursor.lineBegins true (before ++ gap)) rest
  rw [LineRun.first?_append h, Text.byteLength_append, Cursor.lineBegins_append]

/-- A scan passes over a stretch in which no comment of any form begins. -/
theorem Scan.FreshScan.skip {shapes : List Shape} {before gap rest : Text} {spans : List Span}
    (hblock : Text.Absent Block.opener gap rest)
    (hline : LineRun.NoDocLine (Cursor.lineBegins true before) gap rest)
    (hrest : FreshScan shapes (before ++ gap ++ rest) (before ++ gap).byteLength spans) :
    FreshScan shapes (before ++ (gap ++ rest)) before.byteLength spans := by
  rw [List.append_assoc] at hrest
  refine hrest.of_nextAt_eq fun shape => ?_
  rw [Shape.nextAt_between, ← List.append_assoc, Shape.nextAt_between]
  cases shape with
  | block =>
      exact Shape.nextFrom_block_append hblock
  | line =>
      exact Shape.nextFrom_line_append hline

theorem Shape.byteLength_le_start {shape : Shape} {before t : Text} {s : Span}
    (h : shape.nextFrom (Cursor.between before t) = some s) : before.byteLength ≤ s.start := by
  obtain ⟨gap, text, rest, -, -, rfl⟩ := exists_of_nextFrom h
  rw [Text.byteLength_append]
  exact Nat.le_add_right _ _

namespace Finds

variable {before rest : Text} {texts : List Text}

theorem nil (before : Text) : Finds before [] [] := by
  refine ⟨[], Scan.FreshScan.nil_of_eq_none fun shape _ => ?_, rfl⟩
  cases shape <;> rfl

/-- A stretch in which no comment of any form begins makes no difference. -/
theorem skip {gap : Text} (hblock : Text.Absent Block.opener gap rest)
    (hline : LineRun.NoDocLine (Cursor.lineBegins true before) gap rest)
    (hrest : Finds (before ++ gap) rest texts) : Finds before (gap ++ rest) texts := by
  obtain ⟨spans, hscan, htexts⟩ := hrest
  rw [List.append_assoc] at htexts
  exact ⟨spans, hscan.skip hblock hline, htexts⟩

/-- What is found from the front of a stretch in which no comment begins is found from behind it. -/
theorem behind {gap : Text} (hblock : Text.Absent Block.opener gap rest)
    (hline : LineRun.NoDocLine (Cursor.lineBegins true before) gap rest)
    (h : Finds before (gap ++ rest) texts) : Finds (before ++ gap) rest texts := by
  obtain ⟨spans, hscan, htexts⟩ := h
  rw [← List.append_assoc] at hscan htexts
  refine ⟨spans, hscan.of_nextAt_eq fun shape => ?_, htexts⟩
  rw [Shape.nextAt_between, List.append_assoc, Shape.nextAt_between]
  cases shape with
  | block =>
      exact (Shape.nextFrom_block_append hblock).symm
  | line =>
      exact (Shape.nextFrom_line_append hline).symm

/-- The comment that the scan chooses is found, and then what is behind it. -/
theorem take (gap text : Text)
    (hchosen : Scan.Chosen (·.nextFrom (Cursor.between before (gap ++ (text ++ rest)))) Shape.all
      ⟨(before ++ gap).byteLength, (before ++ gap ++ text).byteLength⟩)
    (hrest : Finds (before ++ gap ++ text) rest texts) :
    Finds before (gap ++ (text ++ rest)) (text :: texts) := by
  obtain ⟨spans, hscan, rfl⟩ := hrest
  rw [← Scan.nextAt_between_fun] at hchosen
  have hsource : before ++ gap ++ text ++ rest = before ++ (gap ++ (text ++ rest)) := by
    simp only [List.append_assoc]
  have hslice := Span.slice_append (before ++ gap) text rest
  rw [hsource] at hscan hslice ⊢
  exact ⟨_ :: spans, Scan.FreshScan.next hchosen hscan, congrArg (· :: _) hslice⟩

/-- A block comment at the place is found. -/
theorem block {body : Text} (hbody : Text.Absent Block.closer body (Block.closer ++ rest))
    (hrest : Finds (before ++ (Block.opener ++ (body ++ Block.closer))) rest texts) :
    Finds before (Block.opener ++ (body ++ Block.closer) ++ rest)
      ((Block.opener ++ (body ++ Block.closer)) :: texts) := by
  have hfound : Shape.block.nextFrom
      (Cursor.between before (Block.opener ++ (body ++ Block.closer) ++ rest))
      = some ⟨before.byteLength,
          (before ++ (Block.opener ++ (body ++ Block.closer))).byteLength⟩ := by
    refine Block.first?_eq_some_iff.mpr ⟨[], body, rest, ?_, Text.absent_nil _ _, hbody, ?_⟩
    · simp only [Cursor.rest_between, List.append_assoc, List.nil_append]
    · simp only [Text.byteLength_append, Block.byteLength_opener, Block.byteLength_closer,
        Cursor.offset_between, Text.byteLength, Nat.add_assoc, Nat.add_zero]
  refine take [] (Block.opener ++ (body ++ Block.closer))
    ⟨[], .block, [.line], rfl, ?_, by simp, ?_⟩ ?_
  · simpa only [List.append_nil, List.nil_append] using hfound
  · -- A run starts at the place at the earliest, and blocks are listed first.
    intro other _ t ht
    rw [List.append_nil]
    exact Shape.byteLength_le_start ht
  · simpa only [List.append_nil] using hrest

/-- A run that begins with the next line is found. -/
theorem run {ind run : Text} (hbegin : Cursor.lineBegins true before = true)
    (hind : ∀ c ∈ ind, isInlineBlank c = true)
    (hdoc : LineRun.isDocLine ('/' :: '/' :: run ++ rest) = true)
    (hrun : LineRun.Unbroken run rest) (hends : LineRun.Ends rest)
    (hrest : Finds (before ++ ind ++ '/' :: '/' :: run) rest texts) :
    Finds before (ind ++ ('/' :: '/' :: run ++ rest)) (('/' :: '/' :: run) :: texts) := by
  have hfound : Shape.line.nextFrom
      (Cursor.between before (ind ++ ('/' :: '/' :: run ++ rest)))
      = some ⟨(before ++ ind).byteLength, (before ++ ind ++ '/' :: '/' :: run).byteLength⟩ := by
    show LineRun.first? before.byteLength (Cursor.lineBegins true before)
      (ind ++ ('/' :: '/' :: run ++ rest)) = _
    rw [hbegin, LineRun.first?_run hind hdoc hrun hends]
    simp only [Text.byteLength_append, Nat.add_assoc]
  -- An opener can begin behind the first slash at the earliest.
  have hslash : Text.Absent Block.opener (ind ++ ['/']) ('/' :: run ++ rest) := by
    refine Text.absent_append.mpr ⟨Text.absent_of_not_mem _ fun hmem => ?_, ?_⟩
    · exact absurd (hind _ hmem) (by decide)
    · exact Text.absent_cons.mpr ⟨by simp [Block.opener], Text.absent_nil _ _⟩
  refine take ind ('/' :: '/' :: run) ⟨[.block], .line, [], rfl, hfound, ?_, by simp⟩ hrest
  intro other hother t ht
  obtain rfl := List.mem_singleton.mp hother
  have hsplit : ind ++ ('/' :: '/' :: run ++ rest) = (ind ++ ['/']) ++ ('/' :: run ++ rest) := by
    simp
  change Shape.block.nextFrom _ = some t at ht
  rw [hsplit, Shape.nextFrom_block_append hslash] at ht
  have hle := Shape.byteLength_le_start ht
  rw [← List.append_assoc, Text.byteLength_append (before ++ ind)] at hle
  have hpos := Text.byteLength_pos (List.cons_ne_nil '/' [])
  show (before ++ ind).byteLength < t.start
  omega

end Finds

/-- What a scan of a whole source finds. -/
theorem Finds.scan_eq {source : Text} {texts : List Text} (h : Finds [] source texts) :
    (scan Shape.all source).map (·.slice source) = texts := by
  obtain ⟨spans, hscan, htexts⟩ := h
  rwa [hscan.unique (Scan.freshScan_scan Shape.all source)] at htexts

/-- The comments of a source are those that a scan of it finds, under the file's name. -/
theorem Finds.ofSource_eq {source : Text} {texts : List Text} (h : Finds [] source texts)
    (file : Text) : Fragment.ofSource file source = texts.map (Fragment.mk file) := by
  rw [← h.scan_eq, List.map_map]
  rfl

end DocDigest
