import DocDigest.Proofs.Ignore.Combined
import DocDigest.Proofs.Project.Pruning

/-!
# Selecting under more rules

Rules only ever take files away. Under the rules of two texts, one below the other, what is selected
is what is selected under the first text without the files that the second one ignores, in the same
order (`Selection.candidates_filtering`), although the walk enters fewer directories then. And no
line that is added to the rules brings a file back (`Selection.candidates_sublist`).
-/

set_option autoImplicit false

namespace DocDigest

/-- Whether a filter leaves a file in a selection. What could not be visited is no file. -/
def Filter.leaves (f : Filter) : Except WalkError Candidate → Bool
  | .ok c => !f.ignores c.path
  | .error _ => true

namespace Selection

variable {s : Selection} {f g : Filter}

/-- The same selection under another filter. -/
def filtering (s : Selection) (f : Filter) : Selection := { s with filter := f }

theorem walkWith_filtering (h : f.root = s.filter.root) (prune : Text → Bool) :
    (s.filtering f).walkWith prune = s.walkWith prune := by
  rw [walkWith, walkWith, filtering, h]

/-- From the same walk, a filter that ignores more picks the same without the files that it ignores
beyond. -/
theorem pick_filtering (h : ∀ p, f.ignores p = (s.filter.ignores p || g.ignores p))
    (extension : Text) (found : List (Except WalkError Visit)) :
    (s.filtering f).pick extension found = (s.pick extension found).filter g.leaves := by
  rw [pick, pick, List.filter_filterMap]
  refine List.filterMap_congr fun visit _ => ?_
  cases visit with
  | error err => rfl
  | ok v =>
      have hselects : (s.filtering f).selects extension v
          = (s.selects extension v && !g.ignores v.path) := by
        rw [selects, selects, filtering, h, Bool.not_or, ← Bool.and_assoc]
        rfl
      simp only [hselects]
      cases s.selects extension v with
      | false => rfl
      | true =>
          cases hg : g.ignores v.path with
          | false => simp [Filter.leaves, Option.filter, hg]
          | true => simp [Filter.leaves, Option.filter, hg]

/-- Under a filter that extends another one, nothing is selected that was not selected before. -/
theorem candidates_sublist (h : f.Extends s.filter) (extensions : List Text) :
    ((s.filtering f).candidates extensions).Sublist (s.candidates extensions) := by
  refine List.Sublist.flatMap_right extensions fun extension _ => ?_
  have hignores : ∀ p, f.ignores p = (s.filter.ignores p || f.ignores p) := by
    intro p
    cases hp : s.filter.ignores p with
    | false => rfl
    | true => exact h.ignores hp
  have hwalk : (s.walkWith f.prunes).Sublist (s.walkWith s.filter.prunes) := by
    rw [walkWith, walkWith]
    split
    · exact List.Sublist.refl _
    · exact Walk.visits_sublist (w := ⟨s.tree, s.base, s.follow, f.prunes⟩) (fun _ => h.prunes) _
  -- Less is visited, and less is picked from what is visited.
  rw [pick_filtering hignores, walkWith_filtering h.root]
  exact List.filter_sublist.trans (hwalk.filterMap _)

/-- If a walk under a filter meets no error, a filter that extends it selects the same without the
files that it ignores beyond. -/
theorem candidates_filtering (htree : s.tree.WellFormed)
    (hok : ∀ err, .error err ∉ s.walkWith s.filter.prunes) (h : f.Extends s.filter)
    (hignores : ∀ p, f.ignores p = (s.filter.ignores p || g.ignores p)) (extensions : List Text) :
    (s.filtering f).candidates extensions = (s.candidates extensions).filter g.leaves := by
  rw [candidates, candidates, List.filter_flatMap]
  refine List.flatMap_congr fun extension _ => ?_
  -- The walk that enters fewer directories picks the same, and from one walk the filter decides.
  calc (s.filtering f).pick extension ((s.filtering f).walkWith f.prunes)
      = (s.filtering f).pick extension ((s.filtering f).walkWith s.filter.prunes) := by
        refine pick_walkWith (s := s.filtering f) htree (fun _ => h.prunes) (fun _ h => h) ?_
        rwa [walkWith_filtering h.root]
    _ = (s.filtering f).pick extension (s.walkWith s.filter.prunes) := by
        rw [walkWith_filtering h.root]
    _ = (s.pick extension (s.walkWith s.filter.prunes)).filter g.leaves :=
        pick_filtering hignores extension _

/-- Rules files compose. The rules of two texts, one below the other, are the rules of the first and
then those of the second. Together with the excluded names of both they ignore what one of the two
ignores with its own names. If the walk under the first meets no error, they select what the first
selects without what the second ignores. And a line more, wherever it stands, selects no file that
is not selected without it. -/
theorem candidates_of_rules_below (root : Path) (t u : Text) (d e : Excludes) :
    let first := Filter.ofText root t d
    let second := Filter.ofText root u e
    let both := Filter.ofText root (t ++ '\n' :: u) (d.extend e.names)
    both.rules = first.rules ++ second.rules ∧
      (∀ p, both.ignores p = (first.ignores p || second.ignores p)) ∧
      (∀ (tree : FileTree) (base : Location) (follow : Bool) (extensions : List Text),
        tree.WellFormed → (∀ err, .error err ∉ walkWith ⟨tree, base, first, follow⟩ first.prunes) →
          candidates ⟨tree, base, both, follow⟩ extensions
            = (candidates ⟨tree, base, first, follow⟩ extensions).filter second.leaves) ∧
      ∀ (line : Text) (tree : FileTree) (base : Location) (follow : Bool) (extensions : List Text),
        (candidates ⟨tree, base, .ofText root (t ++ '\n' :: (line ++ '\n' :: u)) d, follow⟩
          extensions).Sublist
        (candidates ⟨tree, base, .ofText root (t ++ '\n' :: u) d, follow⟩ extensions) := by
  intro first second both
  have hboth : both = first.combined second := Filter.ofText_append_lineFeed root t u d e
  have hignores : ∀ p, both.ignores p = (first.ignores p || second.ignores p) := by
    intro p
    rw [hboth]
    exact Filter.ignores_combined (f := first) (g := second) rfl p
  have hextends : both.Extends first := hboth ▸ Filter.combined_extends first second
  refine ⟨Rule.ofText_append_lineFeed t u, hignores, ?_, ?_⟩
  · intro tree base follow extensions htree hok
    exact candidates_filtering (s := ⟨tree, base, first, follow⟩) htree hok hextends hignores
      extensions
  · intro line tree base follow extensions
    exact candidates_sublist (s := ⟨tree, base, .ofText root (t ++ '\n' :: u) d, follow⟩)
      (Filter.ofText_with_line_extends root t line u d) extensions

/-- The rules `gen` and `d*` take two files away from what the rule `out` leaves, an excluded name
takes a third, and the line `!out` brings none back. -/
theorem candidates_of_three_lines_below_one :
    let entry (names : List String) (e : Entry) : Location × Entry := (names.map String.toList, e)
    let tree : FileTree :=
      ⟨[entry ["p"] .directory, entry ["p", "a.ts"] (.file []), entry ["p", "d.ts"] (.file []),
        entry ["p", "gen"] .directory, entry ["p", "gen", "c.ts"] (.file []),
        entry ["p", "lib"] .directory, entry ["p", "lib", "e.ts"] (.file []),
        entry ["p", "out"] .directory, entry ["p", "out", "b.ts"] (.file [])]⟩
    let root : Path := ⟨"/p".toList⟩
    let first := Filter.ofText root "out".toList .none
    let both := Filter.ofText root ("out".toList ++ '\n' :: "!out\r\ngen/\r\nd*".toList)
      (Excludes.none.extend ["lib".toList])
    let selected (paths : List String) : List (Except WalkError Candidate) :=
      paths.map fun path => .ok ⟨⟨path.toList⟩, ".ts".toList⟩
    tree.WellFormed ∧ (∀ err, .error err ∉ walkWith ⟨tree, [], first, false⟩ first.prunes) ∧
      candidates ⟨tree, [], first, false⟩ [".ts".toList]
        = selected ["/p/a.ts", "/p/d.ts", "/p/gen/c.ts", "/p/lib/e.ts"] ∧
      candidates ⟨tree, [], both, false⟩ [".ts".toList] = selected ["/p/a.ts"] := by
  intro entry tree root first both selected
  have htree : tree.WellFormed := ⟨by decide, by decide, by decide⟩
  have hwalk : walkWith ⟨tree, [], first, false⟩ first.prunes
      = [⟨root, .directory⟩, ⟨⟨"/p/a.ts".toList⟩, .file⟩, ⟨⟨"/p/d.ts".toList⟩, .file⟩,
          ⟨⟨"/p/gen".toList⟩, .directory⟩, ⟨⟨"/p/gen/c.ts".toList⟩, .file⟩,
          ⟨⟨"/p/lib".toList⟩, .directory⟩, ⟨⟨"/p/lib/e.ts".toList⟩, .file⟩].map .ok := by rfl
  have hok : ∀ err, .error err ∉ walkWith ⟨tree, [], first, false⟩ first.prunes := by
    intro err herr
    rw [hwalk] at herr
    obtain ⟨v, -, hv⟩ := List.mem_map.mp herr
    cases hv
  have hfirst : candidates ⟨tree, [], first, false⟩ [".ts".toList]
      = selected ["/p/a.ts", "/p/d.ts", "/p/gen/c.ts", "/p/lib/e.ts"] := by rfl
  have hboth := (candidates_of_rules_below root "out".toList "!out\r\ngen/\r\nd*".toList .none
    ⟨["lib".toList]⟩).2.2.1 tree [] false [".ts".toList] htree hok
  refine ⟨htree, hok, hfirst, hboth.trans ?_⟩
  rw [hfirst]
  rfl

end Selection

end DocDigest
