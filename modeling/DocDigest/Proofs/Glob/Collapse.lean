import DocDigest.Proofs.Glob.Language

/-!
# Collapsed stars

The runs of stars of a pattern are collapsed before it is read. Outside of classes this changes
nothing, as a star beside another takes no more than the other alone. But it happens inside of
classes too, where a star is a character like any other: there it changes what is listed if the run
stands at an end of a range (`Glob.collapsed_range_loses_members`). A pattern stands for what it
stands for as written, except that its classes list what their collapsed characters list
(`Glob.accepts_written_iff`), and these are the same characters if no range starts or ends with a
star beside another one (`Glob.lists_mergeStars_iff`).
-/

set_option autoImplicit false

namespace DocDigest

namespace Glob

/-! ## Runs of stars -/

theorem mergeStars_star_star (t : Text) : mergeStars ('*' :: '*' :: t) = mergeStars ('*' :: t) := by
  rw [mergeStars]

/-- A character stays unless it is a star and another one follows. -/
theorem mergeStars_cons {c : Char} {t : Text} (h : ¬ (c = '*' ∧ t.head? = some '*')) :
    mergeStars (c :: t) = c :: mergeStars t := by
  refine mergeStars.eq_2 c t fun rest hc ht => h ⟨hc, ?_⟩
  rw [ht, List.head?_cons]

theorem mergeStars_cons_of_ne {c : Char} (h : c ≠ '*') (t : Text) :
    mergeStars (c :: t) = c :: mergeStars t :=
  mergeStars_cons fun hc => h hc.1

/-- The first character stays. -/
theorem head?_mergeStars (t : Text) : (mergeStars t).head? = t.head? := by
  fun_induction mergeStars t with
  | case1 rest ih => exact ih
  | case2 => rfl
  | case3 => rfl

theorem mem_of_mem_mergeStars {c : Char} {t : Text} (h : c ∈ mergeStars t) : c ∈ t := by
  fun_induction mergeStars t with
  | case1 rest ih => exact List.mem_cons_of_mem _ (ih h)
  | case2 d rest _ ih =>
      rcases List.mem_cons.mp h with rfl | h
      · exact List.mem_cons_self
      · exact List.mem_cons_of_mem d (ih h)
  | case3 => exact h

/-- A run of stars ends before any other character. -/
theorem mergeStars_append_cons {c : Char} (hc : c ≠ '*') (t u : Text) :
    mergeStars (t ++ c :: u) = mergeStars t ++ c :: mergeStars u := by
  fun_induction mergeStars t with
  | case1 rest ih => exact (mergeStars_star_star _).trans ih
  | case2 d rest hrun ih =>
      -- A star that ends the first part has no star behind it in the whole text either.
      rw [List.cons_append, mergeStars_cons, ih, List.cons_append]
      rintro ⟨rfl, hhead⟩
      cases rest with
      | nil => exact hc (Option.some.inj hhead)
      | cons d rest => exact hrun rest rfl (by rw [Option.some.inj hhead])
  | case3 => exact mergeStars_cons_of_ne hc u

/-- Behind its first character nothing is added to a text. -/
theorem mem_of_mem_tail_mergeStars {c d : Char} {t : Text} (h : d ∈ (mergeStars (c :: t)).tail) :
    d ∈ t := by
  by_cases hrun : c = '*' ∧ t.head? = some '*'
  · obtain ⟨rfl, hhead⟩ := hrun
    obtain ⟨rest, rfl⟩ := List.head?_eq_some_iff.mp hhead
    rw [mergeStars_star_star] at h
    exact mem_of_mem_mergeStars (List.mem_of_mem_tail h)
  · rw [mergeStars_cons hrun] at h
    exact mem_of_mem_mergeStars h

theorem mergeStars_cons_eq (c : Char) (t : Text) :
    mergeStars (c :: t) = c :: (mergeStars (c :: t)).tail := by
  obtain ⟨rest, hrest⟩ := List.head?_eq_some_iff.mp (head?_mergeStars (c :: t))
  rw [hrest, List.tail_cons]

/-! ## The pieces of a collapsed pattern -/

/-- The class with the runs of stars in it collapsed. -/
def Class.collapsed (cls : Class) : Class where
  negated := cls.negated
  first := cls.first
  more := (mergeStars cls.chars).tail
  first_ne := cls.first_ne
  not_mem_more := mt mem_of_mem_tail_mergeStars cls.not_mem_more

theorem Class.chars_collapsed (cls : Class) : cls.collapsed.chars = mergeStars cls.chars :=
  (mergeStars_cons_eq cls.first cls.more).symm

theorem mergeStars_class (cls : Class) (t : Text) :
    mergeStars (cls.text ++ t) = cls.collapsed.text ++ mergeStars t := by
  have hchars : mergeStars (cls.chars ++ ']' :: t)
      = cls.collapsed.chars ++ ']' :: mergeStars t := by
    rw [mergeStars_append_cons (by decide), cls.chars_collapsed]
  rw [Class.text_append, Class.text_append, mergeStars_cons_of_ne (by decide),
    show cls.collapsed.negated = cls.negated from rfl]
  cases cls.negated with
  | false => exact congrArg ('[' :: ·) hchars
  | true =>
      exact congrArg ('[' :: ·) ((mergeStars_cons_of_ne (by decide) _).trans (congrArg _ hchars))

def Piece.collapsed : Piece → Piece
  | .oneOf cls => .oneOf cls.collapsed
  | x => x

/-- The pieces with one star for every run of stars, and the same done inside of their classes. -/
def collapse : List Piece → List Piece
  | .star :: .star :: ps => collapse (.star :: ps)
  | x :: ps => x.collapsed :: collapse ps
  | [] => []

theorem mergeStars_piece {x : Piece} (h : x ≠ .star) (t : Text) :
    mergeStars (x.text ++ t) = x.collapsed.text ++ mergeStars t := by
  cases x with
  | star => exact absurd rfl h
  | any => exact mergeStars_cons_of_ne (by decide) t
  | oneOf cls => exact mergeStars_class cls t
  | char c hc => exact mergeStars_cons_of_ne (fun heq => hc (heq ▸ List.mem_cons_self)) t

/-- Only a star is written with a star at its start. -/
theorem exists_star_cons_of_head?_written {ps : List Piece} (h : (written ps).head? = some '*') :
    ∃ qs, ps = .star :: qs := by
  cases ps with
  | nil => exact nomatch h
  | cons x qs =>
      cases x with
      | star => exact ⟨qs, rfl⟩
      | any => exact absurd (Option.some.inj h) (by decide)
      | oneOf cls => exact absurd (Option.some.inj h) (by decide)
      | char c hc => exact absurd (Option.some.inj h) fun heq => hc (heq ▸ List.mem_cons_self)

/-- To collapse a pattern is to collapse its pieces. -/
theorem mergeStars_written (ps : List Piece) : mergeStars (written ps) = written (collapse ps) := by
  fun_induction collapse ps with
  | case1 ps ih => exact (mergeStars_star_star _).trans ih
  | case2 x ps hrun ih =>
      rw [written_cons, written_cons, ← ih]
      by_cases hstar : x = .star
      · -- The next piece is no star, so the star ends its run.
        subst hstar
        refine mergeStars_cons fun hhead => ?_
        obtain ⟨qs, rfl⟩ := exists_star_cons_of_head?_written hhead.2
        exact hrun qs rfl rfl
      · exact mergeStars_piece hstar (written ps)
  | case3 => exact mergeStars.eq_3

/-- The characters of a class list a character once the runs of stars among them are collapsed. -/
def ListsCollapsed (chars : Text) (c : Char) : Prop := Lists (mergeStars chars) c

theorem takes_collapsed_iff {x : Piece} {t : Text} :
    x.collapsed.Takes Lists t ↔ x.Takes ListsCollapsed t := by
  cases x with
  | star | any | char => exact Iff.rfl
  | oneOf cls =>
      rw [Piece.collapsed, Piece.Takes, Piece.Takes]
      refine exists_congr fun c => and_congr_right fun _ => ?_
      rw [Class.Holds, Class.Holds, Class.chars_collapsed]
      rfl

/-- A star beside another one takes nothing that the other does not. -/
theorem takesAll_star_star_iff {lists : Text → Char → Prop} {ps : List Piece} {t : Text} :
    TakesAll lists (.star :: .star :: ps) t ↔ TakesAll lists (.star :: ps) t := by
  constructor
  · rintro ⟨taken, _, rfl, -, taken', rest, rfl, -, hrest⟩
    exact ⟨taken ++ taken', rest, (List.append_assoc ..).symm, trivial, hrest⟩
  · intro h
    exact ⟨[], t, rfl, trivial, h⟩

theorem takesAll_collapse_iff {ps : List Piece} {t : Text} :
    TakesAll Lists (collapse ps) t ↔ TakesAll ListsCollapsed ps t := by
  fun_induction collapse ps generalizing t with
  | case1 ps ih => rw [ih, takesAll_star_star_iff]
  | case2 x ps _ ih =>
      rw [TakesAll, TakesAll]
      simp only [takes_collapsed_iff, ih]
  | case3 => exact Iff.rfl

/-! ## Collapsed classes -/

/-- No star at an end of a range stands beside another star. -/
inductive StarsApart : Text → Prop where
  | nil : StarsApart []
  | range {low high : Char} {rest : Text} :
      ¬ (high = '*' ∧ rest.head? = some '*') → StarsApart rest →
      StarsApart (low :: '-' :: high :: rest)
  | single {c : Char} {rest : Text} :
      ¬ StartsRange (c :: rest) → ¬ (c = '*' ∧ rest.head? = some '*' ∧ StartsRange rest) →
      StarsApart rest → StarsApart (c :: rest)

/-- Whether characters start with a range is seen on the collapsed characters too. -/
theorem startsRange_cons_mergeStars_iff {c : Char} {t : Text} :
    StartsRange (c :: mergeStars t) ↔ StartsRange (c :: t) := by
  constructor
  · rintro ⟨low, high, rest, heq⟩
    obtain ⟨rfl, ht⟩ := List.cons_eq_cons.mp heq
    -- The dash is no star, and what stands behind it does not vanish.
    cases t with
    | nil => exact nomatch mergeStars.eq_3.symm.trans ht
    | cons d t =>
        have hd : d = '-' := by
          rw [mergeStars_cons_eq] at ht
          exact (List.cons_eq_cons.mp ht).1
        subst hd
        rw [mergeStars_cons_of_ne (by decide)] at ht
        cases t with
        | nil => exact nomatch mergeStars.eq_3.symm.trans (List.cons_eq_cons.mp ht).2
        | cons high' t => exact ⟨c, high', t, rfl⟩
  · rintro ⟨low, high, rest, heq⟩
    obtain ⟨rfl, rfl⟩ := List.cons_eq_cons.mp heq
    rw [mergeStars_cons_of_ne (by decide), mergeStars_cons_eq]
    exact ⟨c, high, _, rfl⟩

/-- Collapsing changes nothing that characters list if their ranges do not start or end with a star
beside another one. -/
theorem lists_mergeStars_iff {chars : Text} (h : StarsApart chars) (d : Char) :
    Lists (mergeStars chars) d ↔ Lists chars d := by
  induction h with
  | nil => rw [mergeStars.eq_3]
  | @range low high rest hhigh _ ih =>
      have hlow : ¬ (low = '*' ∧ ('-' :: high :: rest).head? = some '*') :=
        fun h => absurd (Option.some.inj h.2) (by decide)
      rw [mergeStars_cons hlow, mergeStars_cons_of_ne (by decide), mergeStars_cons hhigh,
        lists_range_iff, lists_range_iff, ih]
  | @single c rest hsingle hapart _ ih =>
      by_cases hrun : c = '*' ∧ rest.head? = some '*'
      · -- The star is dropped, but the one behind it, which starts no range, lists the same.
        obtain ⟨rfl, hhead⟩ := hrun
        obtain ⟨rest, rfl⟩ := List.head?_eq_some_iff.mp hhead
        have hself : ¬ StartsRange ('*' :: rest) := fun hstarts => hapart ⟨rfl, hhead, hstarts⟩
        rw [mergeStars_star_star, ih, lists_single_iff hsingle]
        constructor
        · exact Or.inr
        · rintro (rfl | hrest)
          · exact .self hself
          · exact hrest
      · have hmerged : ¬ StartsRange (c :: mergeStars rest) :=
          mt startsRange_cons_mergeStars_iff.mp hsingle
        rw [mergeStars_cons hrun, lists_single_iff hmerged, lists_single_iff hsingle, ih]

theorem takesAll_congr {lists lists' : Text → Char → Prop} {ps : List Piece} {t : Text}
    (h : ∀ cls, .oneOf cls ∈ ps → ∀ c, lists cls.chars c ↔ lists' cls.chars c) :
    TakesAll lists ps t ↔ TakesAll lists' ps t := by
  induction ps generalizing t with
  | nil => exact Iff.rfl
  | cons x ps ih =>
      have htakes : ∀ taken, x.Takes lists taken ↔ x.Takes lists' taken := by
        intro taken
        cases x with
        | star | any | char => exact Iff.rfl
        | oneOf cls =>
            have hcls : lists cls.chars = lists' cls.chars :=
              funext fun c => propext (h cls List.mem_cons_self c)
            rw [Piece.Takes, Piece.Takes]
            refine exists_congr fun c => and_congr_right fun _ => ?_
            rw [Class.Holds, Class.Holds, hcls]
      have hrest : ∀ rest, TakesAll lists ps rest ↔ TakesAll lists' ps rest :=
        fun _ => ih fun cls hcls => h cls (List.mem_cons_of_mem x hcls)
      rw [TakesAll, TakesAll]
      simp only [htakes, hrest]

/-! ## Patterns as they are written -/

/-- The pattern with the range from `#` to `*` and behind it the range from `*` to `z`. -/
def touchingRanges : List Piece :=
  [.oneOf ⟨false, '#', "-**-z".toList, fun _ => by decide, by decide⟩]

/-- A class with two ranges that meet in a star does not accept what they list: one of the two stars
is dropped, and the second range with it. -/
theorem collapsed_range_loses_members :
    ¬ ∀ (ps : List Piece) (t : Text),
      (ofText (written ps)).accepts t = true ↔ TakesAll Lists ps t := by
  intro h
  have htakes : TakesAll Lists touchingRanges ['m'] :=
    ⟨['m'], [], rfl, ⟨'m', rfl, .afterRange (.inRange (by decide) (by decide))⟩, rfl⟩
  have haccepts : (ofText (written touchingRanges)).accepts ['m'] = true :=
    (h touchingRanges ['m']).mpr htakes
  exact absurd haccepts (by decide)

/-- A pattern whose classes are all closed accepts what its pieces take as they are written, runs of
stars and all, except that a class lists what its characters list with their own runs of stars
collapsed. These are the characters that it lists as it is written if no star at an end of a range
in it stands beside another star. -/
theorem accepts_written_iff {ps : List Piece} :
    (∀ t, (ofText (written ps)).accepts t = true ↔ TakesAll ListsCollapsed ps t) ∧
      ((∀ cls, .oneOf cls ∈ ps → StarsApart cls.chars) →
        ∀ t, (ofText (written ps)).accepts t = true ↔ TakesAll Lists ps t) := by
  have haccepts : ∀ t, (ofText (written ps)).accepts t = true ↔ TakesAll ListsCollapsed ps t :=
    fun t => (accepts_of_written (mergeStars_written ps) t).trans takesAll_collapse_iff
  refine ⟨haccepts, fun hapart t => (haccepts t).trans ?_⟩
  exact takesAll_congr fun cls hcls => lists_mergeStars_iff (hapart cls hcls)

/-- Two stars, and behind them a class with two stars and the range from `a` to `c`. -/
def starsBesideClass : List Piece :=
  [.star, .star, .oneOf ⟨false, '*', "*a-c".toList, fun _ => by decide, by decide⟩]

theorem accepts_stars_beside_class :
    (∀ cls, .oneOf cls ∈ starsBesideClass → StarsApart cls.chars) ∧
      ∀ t, (ofText (written starsBesideClass)).accepts t = true ↔
        TakesAll Lists starsBesideClass t := by
  have hapart : ∀ cls, .oneOf cls ∈ starsBesideClass → StarsApart cls.chars := by
    intro cls hcls
    simp only [starsBesideClass, List.mem_cons, reduceCtorEq, List.not_mem_nil, or_false,
      false_or, Piece.oneOf.injEq] at hcls
    subst hcls
    have hfirst : ¬ StartsRange "**a-c".toList := by simp [StartsRange]
    have hsecond : ¬ StartsRange "*a-c".toList := by simp [StartsRange]
    exact .single hfirst (fun h => hsecond h.2.2) <| .single hsecond (fun h => nomatch h.2.1) <|
      .range (fun h => nomatch h.2) .nil
  exact ⟨hapart, accepts_written_iff.2 hapart⟩

end Glob

end DocDigest
