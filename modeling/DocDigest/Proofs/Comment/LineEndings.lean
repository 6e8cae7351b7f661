import DocDigest.Proofs.Comment.Finds
import DocDigest.Proofs.Text.Returns
import Mathlib.Data.List.Forall2

/-!
# Scanning a text with carriage returns

A scan of a text with a carriage return put before each line feed finds the comments that a scan of
the text finds, carriage returns put in (`Finds.withReturns`). The two scans are compared place by
place. To a place of the one text belongs the place of the other with the same characters behind it
(`Corresponds`), and at such places each search has the same answer
(`Shape.exists_nextFrom_withReturns`, `Shape.nextFrom_withReturns_eq_none`). One comment differs: a
run ends before a line feed, so that the carriage return put there is the run's last character.
-/

set_option autoImplicit false

namespace DocDigest

open Text (withReturns)

namespace LineRun

/-! ## Doc lines -/

/-- White space at the end of a line does not matter for a doc line. -/
theorem isDocLine_append_singleton {c : Char} (hc : isInlineBlank c = true) (line : Text) :
    isDocLine (line ++ [c]) = isDocLine line := by
  rw [Bool.eq_iff_iff]
  refine ⟨fun h => ?_, fun h => isDocLine_append_right h [c]⟩
  obtain ⟨ind, gap, rest, heq, hind, hgap⟩ := isDocLine_iff.mp h
  rcases List.eq_nil_or_concat rest with rfl | ⟨init, d, rfl⟩
  · -- A star at the end would be the white space.
    have hmark : line ++ [c] = (ind ++ '/' :: '/' :: gap) ++ ['*'] := by simpa using heq
    obtain ⟨-, hlast⟩ := List.append_inj' hmark rfl
    obtain rfl : c = '*' := by simpa using hlast
    exact absurd hc (by decide)
  · have hmark : line ++ [c] = (ind ++ '/' :: '/' :: (gap ++ '*' :: init)) ++ [d] := by
      simpa using heq
    obtain ⟨hline, -⟩ := List.append_inj' hmark rfl
    exact isDocLine_iff.mpr ⟨ind, gap, init, hline, hind, hgap⟩

theorem isDocLine_withReturns (t : Text) : isDocLine (withReturns t) = isDocLine t := by
  by_cases hfeed : '\n' ∈ t
  · obtain ⟨line, rest, rfl, hline⟩ := List.eq_append_cons_of_mem hfeed
    have htext : withReturns (line ++ '\n' :: rest)
        = (line ++ ['\r']) ++ '\n' :: withReturns rest := by
      rw [Text.withReturns_append, Text.withReturns_lineFeed, Text.withReturns_of_not_mem hline,
        List.append_assoc, List.singleton_append]
    rw [htext, isDocLine_append_lineFeed, isDocLine_append_singleton (by decide),
      isDocLine_append_lineFeed]
  · rw [Text.withReturns_of_not_mem hfeed]

theorem lineBegins_withReturns (fresh : Bool) (t : Text) :
    Cursor.lineBegins fresh (withReturns t) = Cursor.lineBegins fresh t := by
  rcases List.eq_nil_or_concat t with rfl | ⟨init, c, rfl⟩
  · rfl
  · rw [List.concat_eq_append, Text.withReturns_append, Cursor.lineBegins_append_singleton]
    by_cases hc : c = '\n'
    · subst hc
      have hlast : withReturns init ++ withReturns ['\n']
          = (withReturns init ++ ['\r']) ++ ['\n'] :=
        (List.append_assoc _ ['\r'] ['\n']).symm
      rw [hlast, Cursor.lineBegins_append_singleton]
    · rw [Text.withReturns_cons hc, Text.withReturns_nil, Cursor.lineBegins_append_singleton]

theorem NoDocLine.withReturns {fresh : Bool} {gap rest : Text} (h : NoDocLine fresh gap rest) :
    NoDocLine fresh (Text.withReturns gap) (Text.withReturns rest) := by
  induction gap generalizing fresh with
  | nil =>
      exact noDocLine_nil fresh _
  | cons c cs ih =>
      obtain ⟨hhere, hbehind⟩ := noDocLine_cons.mp h
      by_cases hc : c = '\n'
      · subst hc
        -- The carriage return is indentation of an empty line, and behind it no line begins.
        have hreturn : ∀ d ∈ ['\r'], isInlineBlank d = true := List.forall_mem_singleton.mpr rfl
        rw [Text.withReturns_lineFeed]
        refine noDocLine_cons.mpr ⟨fun _ => ?_, noDocLine_cons.mpr ⟨fun hno => ?_, ih hbehind⟩⟩
        · exact (isDocLine_append hreturn _).trans (isDocLine_lineFeed _)
        · exact absurd hno (by decide)
      · rw [Text.withReturns_cons hc]
        refine noDocLine_cons.mpr ⟨fun hfresh => ?_, ih hbehind⟩
        rw [← Text.withReturns_append, ← Text.withReturns_cons hc, isDocLine_withReturns]
        exact hhere hfresh

theorem Unbroken.withReturns {run rest : Text} (h : Unbroken run rest) :
    Unbroken (Text.withReturns run) (Text.withReturns rest) := by
  induction run with
  | nil =>
      exact unbroken_nil _
  | cons c cs ih =>
      obtain ⟨hhere, hbehind⟩ := unbroken_cons.mp h
      by_cases hc : c = '\n'
      · subst hc
        rw [Text.withReturns_lineFeed]
        refine unbroken_cons.mpr ⟨fun hno => ?_, unbroken_cons.mpr ⟨fun _ => ?_, ih hbehind⟩⟩
        · exact absurd hno (by decide)
        · rw [← Text.withReturns_append, isDocLine_withReturns]
          exact hhere rfl
      · rw [Text.withReturns_cons hc]
        exact unbroken_cons.mpr ⟨fun heq => absurd heq hc, ih hbehind⟩

end LineRun

/-! ## Corresponding places -/

/-- What a comment takes in of the carriage returns behind it: `tail`, which `after` follows. It
takes in nothing, or the carriage return that was put before a line feed. -/
inductive TakesIn (rest : Text) : Text → Text → Prop
  | nothing : TakesIn rest [] (withReturns rest)
  | carriageReturn {after : Text} :
    rest = '\n' :: after → TakesIn rest ['\r'] ('\n' :: withReturns after)

theorem TakesIn.append_eq {rest tail after : Text} (h : TakesIn rest tail after) :
    withReturns rest = tail ++ after := by
  cases h with
  | nothing =>
      rfl
  | carriageReturn hrest =>
      rw [hrest]
      rfl

/-- The span `s'` of the text with carriage returns belongs to the span `s` of the text, in what is
ahead of the place between `before` and `t`. -/
def Corresponds (before t : Text) (s s' : Span) : Prop :=
  ∃ gap text rest tail after, t = gap ++ (text ++ rest) ∧ TakesIn rest tail after ∧
    s = ⟨(before ++ gap).byteLength, (before ++ gap ++ text).byteLength⟩ ∧
    s' = ⟨(withReturns (before ++ gap)).byteLength,
      (withReturns (before ++ gap ++ text) ++ tail).byteLength⟩

namespace Corresponds

variable {before t : Text} {s s' u u' : Span}

/-- Corresponding spans start at the same places of the source. -/
theorem exists_cuts (hs : Corresponds before t s s') (hu : Corresponds before t u u') :
    ∃ lead rest lead' rest', lead ++ rest = lead' ++ rest' ∧
      s.start = lead.byteLength ∧ s'.start = (withReturns lead).byteLength ∧
      u.start = lead'.byteLength ∧ u'.start = (withReturns lead').byteLength := by
  obtain ⟨gap, text, rest, -, -, rfl, -, rfl, rfl⟩ := hs
  obtain ⟨gap', text', rest', -, -, heq, -, rfl, rfl⟩ := hu
  refine ⟨before ++ gap, text ++ rest, before ++ gap', text' ++ rest', ?_, rfl, rfl, rfl, rfl⟩
  rw [List.append_assoc, heq, List.append_assoc]

theorem start_le (hs : Corresponds before t s s') (hu : Corresponds before t u u')
    (hle : s.start ≤ u.start) : s'.start ≤ u'.start := by
  obtain ⟨lead, rest, lead', rest', hcut, hstart, hstart', hustart, hustart'⟩ := hs.exists_cuts hu
  rw [hstart, hustart] at hle
  rw [hstart', hustart']
  exact Text.byteLength_withReturns_le hcut hle

theorem start_lt (hs : Corresponds before t s s') (hu : Corresponds before t u u')
    (hlt : s.start < u.start) : s'.start < u'.start := by
  obtain ⟨lead, rest, lead', rest', hcut, hstart, hstart', hustart, hustart'⟩ := hs.exists_cuts hu
  rw [hstart, hustart] at hlt
  rw [hstart', hustart']
  exact Text.byteLength_withReturns_lt hcut hlt

end Corresponds

/-! ## Searches -/

namespace Block

theorem close?_withReturns_eq_none {offset : Nat} {t : Text} (h : close? offset t = none)
    (offset' : Nat) : close? offset' (withReturns t) = none := by
  rcases Text.absent_or_first closer t with habsent | ⟨body, rest, rfl, hbody⟩
  · have hreturns : Text.Absent closer (withReturns t) [] :=
      habsent.withReturns (by decide) (by decide)
    rw [← List.append_nil (withReturns t), close?_append hreturns]
    rfl
  · rw [close?_append hbody, close?_closer] at h
    exact absurd h (Option.some_ne_none _)

theorem first?_withReturns_eq_none {offset : Nat} {t : Text} (h : first? offset t = none)
    (offset' : Nat) : first? offset' (withReturns t) = none := by
  have hopener : withReturns opener = opener := by decide
  rcases Text.absent_or_first opener t with habsent | ⟨gap, rest, rfl, hgap⟩
  · have hreturns : Text.Absent opener (withReturns t) [] :=
      habsent.withReturns (by decide) (by decide)
    rw [← List.append_nil (withReturns t), first?_append hreturns]
    rfl
  · -- Nothing closes the first opener.
    rw [first?_append hgap, first?_opener, Option.map_eq_none_iff] at h
    have hreturns := hgap.withReturns (by decide) (by decide)
    rw [Text.withReturns_append, first?_append hreturns, Text.withReturns_append, hopener,
      first?_opener, close?_withReturns_eq_none h, Option.map_none]

/-- The comment that is found is found with carriage returns put in. -/
theorem exists_first?_withReturns {before t : Text} {s : Span}
    (h : first? before.byteLength t = some s) :
    ∃ s', first? (withReturns before).byteLength (withReturns t) = some s' ∧
      Corresponds before t s s' := by
  obtain ⟨gap, body, rest, rfl, hgap, hbody, rfl⟩ := first?_eq_some_iff.mp h
  have hopener : withReturns opener = opener := by decide
  have hcloser : withReturns closer = closer := by decide
  have hbody' := hbody.withReturns (by decide) (by decide)
  have hgap' := hgap.withReturns (by decide) (by decide)
  simp only [Text.withReturns_append, hopener, hcloser] at hbody' hgap'
  refine ⟨_, first?_eq_some_iff.mpr
    ⟨withReturns gap, withReturns body, withReturns rest, ?_, hgap', hbody', rfl⟩,
    gap, opener ++ (body ++ closer), rest, [], withReturns rest, ?_, .nothing, ?_, ?_⟩
  · simp only [Text.withReturns_append, hopener, hcloser]
  · simp only [List.append_assoc]
  · simp only [Text.byteLength_append, byteLength_opener, byteLength_closer, Nat.add_assoc]
  · simp only [Text.withReturns_append, hopener, hcloser, Text.byteLength_append,
      byteLength_opener, byteLength_closer, List.append_nil, Nat.add_assoc]

end Block

namespace LineRun

theorem first?_withReturns_eq_none {offset : Nat} {fresh : Bool} {t : Text}
    (h : first? offset fresh t = none) (offset' : Nat) :
    first? offset' fresh (withReturns t) = none := by
  rcases noDocLine_or_first fresh t with hno | ⟨gap, line, rfl, hgap, hfresh, hline⟩
  · have hreturns : NoDocLine fresh (withReturns t) [] := hno.withReturns
    rw [← List.append_nil (withReturns t), first?_append hreturns]
    rfl
  · rw [first?_append hgap, hfresh, first?_docLine hline] at h
    exact absurd h (Option.some_ne_none _)

/-- A run ends where it ended, or behind the carriage return put there. -/
theorem exists_takesIn {run rest : Text} (hrun : Unbroken run rest) (hends : Ends rest) :
    ∃ tail after, TakesIn rest tail after ∧ Unbroken (withReturns run ++ tail) after ∧
      Ends after := by
  rcases hends with rfl | ⟨after, rfl, hafter⟩
  · refine ⟨[], [], .nothing, ?_, Or.inl rfl⟩
    rw [List.append_nil]
    exact hrun.withReturns
  · refine ⟨['\r'], '\n' :: withReturns after, .carriageReturn rfl, ?_, Or.inr ⟨_, rfl, ?_⟩⟩
    · exact unbroken_append.mpr ⟨hrun.withReturns, unbroken_of_not_mem (by decide) _⟩
    · rwa [isDocLine_withReturns]

/-- The run that is found is found with carriage returns put in. -/
theorem exists_first?_withReturns {before t : Text} {s : Span}
    (h : first? before.byteLength (Cursor.lineBegins true before) t = some s) :
    ∃ s', first? (withReturns before).byteLength (Cursor.lineBegins true (withReturns before))
        (withReturns t) = some s' ∧ Corresponds before t s s' := by
  obtain ⟨lead, line, rfl, hlead, hfresh, hline, rfl⟩ := first?_eq_some_iff.mp h
  obtain ⟨ind, run, rest, rfl, hind, hrun, hends, hindent, hstop⟩ := exists_run hline
  obtain ⟨tail, after, htail, hrun', hends'⟩ := exists_takesIn hrun hends
  have hindFeed : '\n' ∉ ind := fun hmem => absurd (hind _ hmem) (by decide)
  have hslashes : withReturns ('/' :: '/' :: run) = '/' :: '/' :: withReturns run := by
    rw [Text.withReturns_cons (by decide), Text.withReturns_cons (by decide)]
  have hline' : withReturns (ind ++ ('/' :: '/' :: run ++ rest))
      = ind ++ ('/' :: '/' :: (withReturns run ++ tail) ++ after) := by
    rw [Text.withReturns_append, Text.withReturns_append, hslashes, htail.append_eq,
      Text.withReturns_of_not_mem hindFeed]
    simp only [List.cons_append, List.append_assoc]
  have hdoc' : isDocLine ('/' :: '/' :: (withReturns run ++ tail) ++ after) = true := by
    rw [← isDocLine_append hind, ← hline', isDocLine_withReturns]
    exact hline
  refine ⟨_, ?_, lead ++ ind, '/' :: '/' :: run, rest, tail, after, ?_, htail, ?_, rfl⟩
  · rw [Text.withReturns_append, lineBegins_withReturns, first?_append hlead.withReturns,
      lineBegins_withReturns, hfresh, hline', first?_run hind hdoc' hrun' hends']
    simp only [Text.withReturns_append, hslashes, Text.withReturns_of_not_mem hindFeed,
      Text.byteLength_append, Text.byteLength, Nat.add_assoc]
  · simp only [List.append_assoc]
  · rw [hindent, hstop]
    simp only [Text.byteLength_append, Nat.add_assoc]

end LineRun

namespace Shape

variable {shape : Shape} {before t : Text}

/-- A search finds with carriage returns put in what it finds without them. -/
theorem exists_nextFrom_withReturns {s : Span}
    (h : shape.nextFrom (Cursor.between before t) = some s) :
    ∃ s', shape.nextFrom (Cursor.between (withReturns before) (withReturns t)) = some s' ∧
      Corresponds before t s s' := by
  cases shape with
  | block =>
      exact Block.exists_first?_withReturns h
  | line =>
      exact LineRun.exists_first?_withReturns h

theorem nextFrom_withReturns_eq_none (h : shape.nextFrom (Cursor.between before t) = none) :
    shape.nextFrom (Cursor.between (withReturns before) (withReturns t)) = none := by
  cases shape with
  | block =>
      exact Block.first?_withReturns_eq_none h _
  | line =>
      show LineRun.first? _ (Cursor.lineBegins true (withReturns before)) (withReturns t) = none
      rw [LineRun.lineBegins_withReturns]
      exact LineRun.first?_withReturns_eq_none h _

/-- What is found with carriage returns put in belongs to something that is found without them. -/
theorem exists_corresponds {s' : Span}
    (h : shape.nextFrom (Cursor.between (withReturns before) (withReturns t)) = some s') :
    ∃ s, shape.nextFrom (Cursor.between before t) = some s ∧ Corresponds before t s s' := by
  cases hs : shape.nextFrom (Cursor.between before t) with
  | none =>
      rw [nextFrom_withReturns_eq_none hs] at h
      exact absurd h (Option.some_ne_none s').symm
  | some s =>
      obtain ⟨u', hu', hcorr⟩ := exists_nextFrom_withReturns hs
      obtain rfl : u' = s' := Option.some.inj (hu'.symm.trans h)
      exact ⟨s, rfl, hcorr⟩

end Shape

/-! ## Scans -/

namespace Scan

/-- The comment that a scan takes is taken with carriage returns put in. -/
theorem Chosen.withReturns {shapes : List Shape} {before t : Text} {s : Span}
    (h : Chosen (·.nextFrom (Cursor.between before t)) shapes s) :
    ∃ s', Chosen (·.nextFrom (Cursor.between (Text.withReturns before) (Text.withReturns t)))
        shapes s' ∧ Corresponds before t s s' := by
  obtain ⟨sooner, shape, later, hshapes, hshape, hsooner, hlater⟩ := h
  obtain ⟨s', hshape', hcorr⟩ := Shape.exists_nextFrom_withReturns hshape
  refine ⟨s', ⟨sooner, shape, later, hshapes, hshape', ?_, ?_⟩, hcorr⟩
  · intro other hother u' hu'
    obtain ⟨u, hu, hcorr'⟩ := Shape.exists_corresponds hu'
    exact hcorr.start_lt hcorr' (hsooner other hother u hu)
  · intro other hother u' hu'
    obtain ⟨u, hu, hcorr'⟩ := Shape.exists_corresponds hu'
    exact hcorr.start_le hcorr' (hlater other hother u hu)

end Scan

/-- A comment of a text and the same comment with carriage returns put in, perhaps with one at its
end. -/
def IsReturned (text text' : Text) : Prop :=
  ∃ tail, text' = withReturns text ++ tail ∧ (tail = [] ∨ tail = ['\r'])

theorem TakesIn.isReturned {rest tail after : Text} (h : TakesIn rest tail after) (text : Text) :
    IsReturned text (withReturns text ++ tail) := by
  cases h with
  | nothing =>
      exact ⟨[], rfl, Or.inl rfl⟩
  | carriageReturn =>
      exact ⟨['\r'], rfl, Or.inr rfl⟩

/-- A carriage return that a comment takes in makes no difference for what is found behind it. -/
theorem TakesIn.finds {rest tail after before : Text} {texts : List Text}
    (h : TakesIn rest tail after) (hfinds : Finds before (withReturns rest) texts) :
    Finds (before ++ tail) after texts := by
  cases h with
  | nothing =>
      rwa [List.append_nil]
  | @carriageReturn after hrest =>
      rw [hrest, Text.withReturns_lineFeed] at hfinds
      have hline : LineRun.isDocLine ('\n' :: withReturns after) = false :=
        LineRun.isDocLine_lineFeed _
      have hblock : Text.Absent Block.opener ['\r'] ('\n' :: withReturns after) :=
        Text.absent_of_not_mem _ (by decide)
      have hblank : ∀ c ∈ ['\r'], isInlineBlank c = true := List.forall_mem_singleton.mpr rfl
      exact hfinds.behind hblock (LineRun.noDocLine_of_blank hblank hline _)

/-- A scan with carriage returns put in finds the comments that the scan finds without them. -/
theorem Scan.FreshScan.withReturns {before t : Text} {spans : List Span}
    (h : FreshScan Shape.all (before ++ t) before.byteLength spans) :
    ∃ texts, Finds (Text.withReturns before) (Text.withReturns t) texts ∧
      List.Forall₂ IsReturned (spans.map (·.slice (before ++ t))) texts := by
  induction spans generalizing before t with
  | nil =>
      refine ⟨[], ⟨[], FreshScan.nil_of_eq_none fun shape hmem => ?_, rfl⟩, List.Forall₂.nil⟩
      exact Shape.nextFrom_withReturns_eq_none (h.eq_none_of_nil hmem)
  | cons s spans ih =>
      cases h with
      | next hchosen hrest =>
          rw [nextAt_between_fun] at hchosen
          obtain ⟨s', hchosen', gap, text, rest, tail, after, rfl, htail, rfl, rfl⟩ :=
            hchosen.withReturns
          have hsource : before ++ (gap ++ (text ++ rest)) = before ++ gap ++ text ++ rest := by
            simp only [List.append_assoc]
          rw [hsource] at hrest ⊢
          obtain ⟨texts, hfinds, hreturned⟩ := ih hrest
          have hslice := Span.slice_append (before ++ gap) text rest
          refine ⟨(Text.withReturns text ++ tail) :: texts, ?_, ?_⟩
          · have hahead : Text.withReturns (gap ++ (text ++ rest))
                = Text.withReturns gap ++ ((Text.withReturns text ++ tail) ++ after) := by
              rw [Text.withReturns_append, Text.withReturns_append, htail.append_eq,
                List.append_assoc]
            have hbehind := htail.finds hfinds
            rw [hahead] at hchosen' ⊢
            simp only [Text.withReturns_append, List.append_assoc] at hchosen' hbehind
            refine Finds.take (Text.withReturns gap) (Text.withReturns text ++ tail) ?_ ?_
            · simpa only [List.append_assoc] using hchosen'
            · simpa only [List.append_assoc] using hbehind
          · rw [List.map_cons, hslice]
            exact List.Forall₂.cons (htail.isReturned text) hreturned

/-- A source with carriage returns before its line feeds has the same comments, carriage returns put
in. -/
theorem scan_withReturns (source : Text) :
    List.Forall₂ IsReturned ((scan Shape.all source).map (·.slice source))
      ((scan Shape.all (withReturns source)).map (·.slice (withReturns source))) := by
  have hscan : Scan.FreshScan Shape.all ([] ++ source) (Text.byteLength [])
      (scan Shape.all source) := Scan.freshScan_scan Shape.all source
  obtain ⟨texts, hfinds, hreturned⟩ := hscan.withReturns
  rwa [← hfinds.scan_eq] at hreturned

end DocDigest
