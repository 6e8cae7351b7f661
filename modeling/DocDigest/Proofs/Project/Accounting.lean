import DocDigest.Proofs.Project.Collect
import Mathlib.Algebra.GroupWithZero.Nat

/-!
# What a collection accounts for

A collection reads the candidates of a selection one after the other, and after each of them it
holds what the candidates so far hold (`Project.gather_append`). So it ends with an account of all
candidates, or at the first entry of the selection that fails with an account of the candidates
before it (`Project.collect_accounts`).
-/

set_option autoImplicit false

namespace DocDigest

namespace Project

variable {t : FileTree} {base : Location}

/-! ## The entries of a selection -/

/-- The comments of a candidate's file. A file that cannot be read has none. -/
def commentsOf (t : FileTree) (base : Location) (k : Candidate) : List Fragment :=
  match fragmentsOf t base k.path with
  | .ok found => found
  | .error _ => []

/-- Why an entry of a selection fails, if it does: it could not be visited, or it is a candidate
whose file cannot be read. -/
def failure? (t : FileTree) (base : Location) : Except WalkError Candidate → Option ProjectError
  | .error e => some (.walk e)
  | .ok k =>
    match fragmentsOf t base k.path with
    | .ok _ => none
    | .error e => some e

/-- The candidates' paths and how many comments each has, without those that have none. -/
def tally (t : FileTree) (base : Location) (ks : List Candidate) : List (Path × Nat) :=
  (ks.map fun k => (k.path, (commentsOf t base k).length)).filter (0 < ·.2)

theorem failure?_eq_none_iff {k : Candidate} :
    failure? t base (.ok k) = none ↔ fragmentsOf t base k.path = .ok (commentsOf t base k) := by
  rw [failure?, commentsOf]
  cases fragmentsOf t base k.path <;> simp

theorem tally_append (ks ls : List Candidate) :
    tally t base (ks ++ ls) = tally t base ks ++ tally t base ls := by
  rw [tally, List.map_append, List.filter_append, ← tally, ← tally]

theorem sum_tally (t : FileTree) (base : Location) (ks : List Candidate) :
    ((tally t base ks).map (·.2)).sum = (ks.flatMap (commentsOf t base)).length := by
  induction ks with
  | nil =>
      rfl
  | cons k rest ih =>
      have hone : ((tally t base [k]).map (·.2)).sum = (commentsOf t base k).length := by
        rcases Nat.eq_zero_or_pos (commentsOf t base k).length with hzero | hpos
        · simp [tally, hzero]
        · simp [tally, hpos]
      rw [← List.singleton_append, tally_append, List.map_append, List.sum_append, hone, ih,
        List.flatMap_append, List.length_append, List.flatMap_singleton]

/-! ## One candidate more -/

namespace Collection

/-- What is collected from candidates. -/
def ofCandidates (t : FileTree) (base : Location) (ks : List Candidate) : Collection where
  fragments := ks.flatMap (commentsOf t base)
  filesRead := ks.length
  filesWithComments := (tally t base ks).length
  seen := tally t base ks

theorem ofCandidates_nil : ofCandidates t base [] = empty := rfl

theorem add_ofCandidates (ks : List Candidate) (k : Candidate) :
    (ofCandidates t base ks).add k.path (commentsOf t base k)
      = ofCandidates t base (ks ++ [k]) := by
  cases hempty : (commentsOf t base k).isEmpty with
  | true =>
      have hnil := List.isEmpty_iff.mp hempty
      rw [add_of_isEmpty hempty]
      simp [ofCandidates, tally, hnil]
  | false =>
      have hpos : 0 < (commentsOf t base k).length :=
        List.length_pos_iff.mpr (List.isEmpty_eq_false_iff.mp hempty)
      rw [add_of_not_isEmpty hempty]
      simp [ofCandidates, tally, hpos]

end Collection

/-! ## Up to the first failure -/

/-- What a collection holds stays the account of the candidates read so far. -/
theorem gather_append (ks : List Candidate) {ls : List Candidate}
    (h : ∀ k ∈ ls, failure? t base (.ok k) = none) (rest : List (Except WalkError Candidate)) :
    gather t base (.ofCandidates t base ks) (ls.map .ok ++ rest)
      = gather t base (.ofCandidates t base (ks ++ ls)) rest := by
  induction ls generalizing ks with
  | nil =>
      rw [List.map_nil, List.nil_append, List.append_nil]
  | cons k ls ih =>
      obtain ⟨hk, hls⟩ := List.forall_mem_cons.mp h
      rw [List.map_cons, List.cons_append, gather, failure?_eq_none_iff.mp hk]
      show gather t base ((Collection.ofCandidates t base ks).add k.path _) (ls.map .ok ++ rest) = _
      rw [Collection.add_ofCandidates, ih (ks ++ [k]) hls, List.append_assoc, List.singleton_append]

theorem gather_of_failure {entry : Except WalkError Candidate} {e : ProjectError}
    (h : failure? t base entry = some e) (c : Collection)
    (rest : List (Except WalkError Candidate)) :
    gather t base c (entry :: rest) = .error ⟨c.seen, e⟩ := by
  cases entry with
  | error err =>
      cases h
      rfl
  | ok k =>
      rw [failure?] at h
      rw [gather]
      split at h
      · cases h
      · next hfragments =>
        cases h
        rw [hfragments]

/-- Either no entry of a selection fails, or one is the first that does. -/
theorem failure?_cases (t : FileTree) (base : Location)
    (entries : List (Except WalkError Candidate)) :
    (∃ ks : List Candidate,
        entries = ks.map .ok ∧ ∀ k ∈ ks, failure? t base (.ok k) = none) ∨
      ∃ (ks : List Candidate) (entry : Except WalkError Candidate)
        (rest : List (Except WalkError Candidate)) (e : ProjectError),
        entries = ks.map .ok ++ entry :: rest ∧ (∀ k ∈ ks, failure? t base (.ok k) = none) ∧
        failure? t base entry = some e := by
  induction entries with
  | nil =>
      exact Or.inl ⟨[], rfl, fun k hk => absurd hk List.not_mem_nil⟩
  | cons entry entries ih =>
      cases hentry : failure? t base entry with
      | some e =>
          exact Or.inr ⟨[], entry, entries, e, rfl, fun k hk => absurd hk List.not_mem_nil, hentry⟩
      | none =>
          cases entry with
          | error err =>
              cases hentry
          | ok k =>
              have hcons : ∀ ks : List Candidate, (∀ l ∈ ks, failure? t base (.ok l) = none) →
                  ∀ l ∈ k :: ks, failure? t base (.ok l) = none :=
                fun ks hks => List.forall_mem_cons.mpr ⟨hentry, hks⟩
              rcases ih with ⟨ks, rfl, hks⟩ | ⟨ks, entry, rest, e, rfl, hks, hentry⟩
              · exact Or.inl ⟨k :: ks, rfl, hcons ks hks⟩
              · exact Or.inr ⟨k :: ks, entry, rest, e, rfl, hcons ks hks, hentry⟩

theorem gather_eq_ok_of_reads {ks : List Candidate}
    (h : ∀ k ∈ ks, failure? t base (.ok k) = none) :
    gather t base .empty (ks.map .ok) = .ok (.ofCandidates t base ks) := by
  have hall := gather_append [] h []
  rwa [List.append_nil, List.nil_append, Collection.ofCandidates_nil] at hall

theorem gather_eq_error_of_failure {ks : List Candidate}
    (h : ∀ k ∈ ks, failure? t base (.ok k) = none) {entry : Except WalkError Candidate}
    {e : ProjectError} (hentry : failure? t base entry = some e)
    (rest : List (Except WalkError Candidate)) :
    gather t base .empty (ks.map .ok ++ entry :: rest) = .error ⟨tally t base ks, e⟩ := by
  have hall := gather_append [] h (entry :: rest)
  rw [List.nil_append, Collection.ofCandidates_nil] at hall
  rw [hall, gather_of_failure hentry]
  rfl

variable {entries : List (Except WalkError Candidate)}

theorem gather_eq_ok_iff {c : Collection} :
    gather t base .empty entries = .ok c ↔
      ∃ ks : List Candidate, entries = ks.map .ok ∧
        (∀ k ∈ ks, failure? t base (.ok k) = none) ∧ c = .ofCandidates t base ks := by
  constructor
  · intro h
    rcases failure?_cases t base entries with
      ⟨ks, rfl, hks⟩ | ⟨ks, entry, rest, e, rfl, hks, hentry⟩
    · rw [gather_eq_ok_of_reads hks] at h
      exact ⟨ks, rfl, hks, (Except.ok.inj h).symm⟩
    · rw [gather_eq_error_of_failure hks hentry] at h
      cases h
  · rintro ⟨ks, rfl, hks, rfl⟩
    exact gather_eq_ok_of_reads hks

theorem gather_eq_error_iff {f : Failure} :
    gather t base .empty entries = .error f ↔
      ∃ (ks : List Candidate) (entry : Except WalkError Candidate)
        (rest : List (Except WalkError Candidate)),
        entries = ks.map .ok ++ entry :: rest ∧ (∀ k ∈ ks, failure? t base (.ok k) = none) ∧
        failure? t base entry = some f.error ∧ f.seen = tally t base ks := by
  constructor
  · intro h
    rcases failure?_cases t base entries with
      ⟨ks, rfl, hks⟩ | ⟨ks, entry, rest, e, rfl, hks, hentry⟩
    · rw [gather_eq_ok_of_reads hks] at h
      cases h
    · rw [gather_eq_error_of_failure hks hentry] at h
      cases h
      exact ⟨ks, entry, rest, rfl, hks, hentry, rfl⟩
  · rintro ⟨ks, entry, rest, rfl, hks, hentry, hseen⟩
    rw [gather_eq_error_of_failure hks hentry, ← hseen]

/-! ## A whole collection -/

theorem rulesOf_of_error {root : Path} {cause : FileError}
    (h : t.read base (root.join ⟨rulesName⟩) = .error cause) (hcause : cause ≠ .notFound) :
    rulesOf t base root = .error (.rules (root.join ⟨rulesName⟩) cause) := by
  rw [rulesOf, h]
  cases cause with
  | notFound => exact absurd rfl hcause
  | _ => rfl

/-- A collection accounts for every candidate. If the rules file is there and cannot be read, the
collection fails with that error and has seen no file. Otherwise it succeeds if and only if every
entry of the selection is a candidate whose file can be read. Then it has the comments of all
candidates one after the other, counts every candidate as read, has seen those that have comments,
with how many each has, and these numbers add up to all comments. And it fails if and only if an
entry does, with the error of the first such entry and the account of the candidates before it. -/
theorem collect_accounts (t : FileTree) (base : Location) (root : Path) (options : Scope) :
    (∀ cause, t.read base (root.join ⟨rulesName⟩) = .error cause → cause ≠ .notFound →
        collect t base root options
          = .error ⟨[], .rules (root.join ⟨rulesName⟩) cause⟩) ∧
      ∀ rules, rulesOf t base root = .ok rules →
        let entries := Selection.candidates
          ⟨t, base, ⟨root, rules, options.excludes⟩, options.followSymlinks⟩ options.extensions
        (∀ c, collect t base root options = .ok c ↔
          ∃ ks : List Candidate, entries = ks.map .ok ∧
            (∀ k ∈ ks, fragmentsOf t base k.path = .ok (commentsOf t base k)) ∧
            c.fragments = ks.flatMap (commentsOf t base) ∧ c.filesRead = ks.length ∧
            c.seen = tally t base ks ∧ c.filesWithComments = c.seen.length ∧
            (c.seen.map (·.2)).sum = c.fragments.length) ∧
        ∀ f, collect t base root options = .error f ↔
          ∃ (ks : List Candidate) (entry : Except WalkError Candidate)
            (rest : List (Except WalkError Candidate)), entries = ks.map .ok ++ entry :: rest ∧
            (∀ k ∈ ks, fragmentsOf t base k.path = .ok (commentsOf t base k)) ∧
            failure? t base entry = some f.error ∧ f.seen = tally t base ks := by
  refine ⟨fun cause hread hcause => ?_, fun rules hrules => ⟨fun c => ?_, fun f => ?_⟩⟩
  · rw [collect, rulesOf_of_error hread hcause]
  · rw [collect, hrules]
    simp only [gather_eq_ok_iff, failure?_eq_none_iff]
    refine exists_congr fun ks => and_congr_right fun _ => and_congr_right fun _ => ?_
    constructor
    · rintro rfl
      exact ⟨rfl, rfl, rfl, rfl, sum_tally t base ks⟩
    · rintro ⟨hfragments, hread, hseen, hcount, -⟩
      obtain ⟨fragments, filesRead, filesWithComments, seen⟩ := c
      dsimp only at hfragments hread hseen hcount
      subst hfragments hread hseen hcount
      rfl
  · rw [collect, hrules]
    simp only [gather_eq_error_iff, failure?_eq_none_iff]

/-- A project with a link into itself. If links are not followed, both source files are read and one
has comments; otherwise the collection ends at the link. With a directory for a rules file it does
not begin. -/
theorem collect_accounts_with_loop :
    let entry (names : List String) (e : Entry) : Location × Entry := (names.map String.toList, e)
    let text (source : String) : Entry := .file (Utf8.encode source.toList)
    let files : List (Location × Entry) :=
      [entry ["p"] .directory, entry ["p", "a.ts"] (text "/** a *//** b */"),
        entry ["p", "b.ts"] (text "let b"), entry ["p", "c"] (.link ⟨"/p".toList⟩)]
    let root : Path := ⟨"/p".toList⟩
    let seen : List (Path × Nat) := [(⟨"/p/a.ts".toList⟩, 2)]
    (∃ c, collect ⟨files⟩ [] root ⟨[".ts".toList], .none, false⟩ = .ok c ∧
        c.filesRead = 2 ∧ c.seen = seen) ∧
      collect ⟨files⟩ [] root ⟨[".ts".toList], .none, true⟩
        = .error ⟨seen, .walk (.loop ⟨"/p/c".toList⟩ root)⟩ ∧
      collect ⟨entry ["p", ".gitignore"] .directory :: files⟩ [] root .default
        = .error ⟨[], .rules ⟨"/p/.gitignore".toList⟩ .isDirectory⟩ := by
  intro entry text files root seen
  let ks : List Candidate :=
    [⟨⟨"/p/a.ts".toList⟩, ".ts".toList⟩, ⟨⟨"/p/b.ts".toList⟩, ".ts".toList⟩]
  have hread : ∀ k ∈ ks, fragmentsOf ⟨files⟩ [] k.path = .ok (commentsOf ⟨files⟩ [] k) := by
    decide +kernel
  have hseen : seen = tally ⟨files⟩ [] ks := by decide +kernel
  have hrules : rulesOf ⟨files⟩ [] root = .ok [] := by decide +kernel
  have haccounts (follow : Bool) :=
    (collect_accounts ⟨files⟩ [] root ⟨[".ts".toList], .none, follow⟩).2 [] hrules
  refine ⟨?_, ?_, ?_⟩
  · have hcandidates : Selection.candidates ⟨⟨files⟩, [], ⟨root, [], .none⟩, false⟩ [".ts".toList]
        = ks.map .ok := by decide +kernel
    refine ⟨.ofCandidates ⟨files⟩ [] ks, ((haccounts false).1 _).mpr ?_, rfl, hseen.symm⟩
    exact ⟨ks, hcandidates, hread, rfl, rfl, rfl, rfl, sum_tally ⟨files⟩ [] ks⟩
  · have hcandidates : Selection.candidates ⟨⟨files⟩, [], ⟨root, [], .none⟩, true⟩ [".ts".toList]
        = ks.map .ok ++ [.error (.loop ⟨"/p/c".toList⟩ root)] := by decide +kernel
    exact ((haccounts true).2 _).mpr ⟨ks, _, [], hcandidates, hread, rfl, hseen⟩
  · exact (collect_accounts _ [] root .default).1 .isDirectory (by decide +kernel) (by decide)

end Project

end DocDigest
