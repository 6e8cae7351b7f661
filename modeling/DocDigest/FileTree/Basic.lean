import DocDigest.Path.Basic

/-!
# File trees

A file tree says what stands at each location below the root directory: a directory, a file with its
contents, or a symbolic link with its target. No file stands at two locations. Names and the targets
of links are texts; the trees of a system whose names are other bytes are left out.
-/

set_option autoImplicit false

namespace DocDigest

/-- Where an entry stands: the names on the way from the root directory to it. -/
abbrev Location := List Text

/-- What stands at a location. -/
inductive Entry where
  | directory
  | file (contents : Bytes)
  | link (target : Path)
deriving DecidableEq

namespace Entry

def isDirectory : Entry → Bool
  | .directory => true
  | _ => false

def isFile : Entry → Bool
  | .file _ => true
  | _ => false

def isLink : Entry → Bool
  | .link _ => true
  | _ => false

end Entry

def Location.path (l : Location) : Path := ⟨'/' :: Text.joinWith ['/'] l⟩

/-- The entries below the root directory, in no particular order. -/
structure FileTree where
  entries : List (Location × Entry)

namespace FileTree

def empty : FileTree := ⟨[]⟩

/-- What stands at a location. The root directory is always there. -/
def get? (t : FileTree) (l : Location) : Option Entry :=
  if l = [] then some .directory else t.entries.lookup l

def isDirectoryAt (t : FileTree) (l : Location) : Bool := (t.get? l).any Entry.isDirectory

/-- The tree without what stands at a location. -/
def erase (t : FileTree) (l : Location) : FileTree := ⟨t.entries.filter (·.1 != l)⟩

/-- The tree without what stands at a location and below it. -/
def eraseAll (t : FileTree) (l : Location) : FileTree :=
  ⟨t.entries.filter fun e => !l.isPrefixOf e.1⟩

def put (t : FileTree) (l : Location) (e : Entry) : FileTree := ⟨(l, e) :: (t.erase l).entries⟩

/-! ## Listing -/

/-- The name of a location in a directory, if it stands right below it. -/
def childName? (folder l : Location) : Option Text :=
  match after? folder l with
  | some [name] => some name
  | _ => none

/-- Whether a name comes before another one, code point by code point. -/
def comesBefore : Text → Text → Bool
  | _, [] => false
  | [], _ :: _ => true
  | c :: cs, d :: ds => if c.toNat = d.toNat then comesBefore cs ds else c.toNat < d.toNat

/-- Puts a named entry before the first one whose name does not come before its own. -/
def insertByName (child : Text × Entry) : List (Text × Entry) → List (Text × Entry)
  | [] => [child]
  | other :: rest =>
    if comesBefore other.1 child.1 then other :: insertByName child rest
    else child :: other :: rest

def sortByName (children : List (Text × Entry)) : List (Text × Entry) :=
  children.foldr insertByName []

/-- The entries of a directory with their names, in the order of the names. -/
def children (t : FileTree) (folder : Location) : List (Text × Entry) :=
  sortByName (t.entries.filterMap fun (l, e) => (childName? folder l).map (·, e))

/-! ## Looking up after a change -/

theorem lookup_filter_ne (es : List (Location × Entry)) (l m : Location) :
    (es.filter (·.1 != l)).lookup m = if m = l then none else es.lookup m := by
  induction es with
  | nil => simp
  | cons e es ih =>
    obtain ⟨k, v⟩ := e
    by_cases hk : k = l
    · have hf : (k != l) = false := by simp [hk]
      rw [List.filter_cons, hf, if_neg Bool.false_ne_true, ih]
      by_cases hm : m = l
      · rw [if_pos hm, if_pos hm]
      · have hb : (m == k) = false := by simpa [hk] using hm
        rw [if_neg hm, if_neg hm, List.lookup_cons, hb]
    · have hf : (k != l) = true := by simpa using hk
      rw [List.filter_cons, hf, if_pos rfl, List.lookup_cons, List.lookup_cons]
      by_cases hm : m = k
      · have hb : (m == k) = true := by simp [hm]
        rw [hb, if_neg (hm ▸ hk)]
      · have hb : (m == k) = false := by simpa using hm
        rw [hb]
        exact ih

/-- An entry that was put stands where it was put, and all else is as before. -/
theorem get?_put (t : FileTree) {l : Location} (m : Location) (e : Entry) (hl : l ≠ []) :
    (t.put l e).get? m = if m = l then some e else t.get? m := by
  by_cases hm : m = []
  · have h : ¬ m = l := fun h => hl (h.symm.trans hm)
    rw [if_neg h, get?, if_pos hm, get?, if_pos hm]
  · rw [get?, if_neg hm, get?, if_neg hm, put, List.lookup_cons]
    by_cases hml : m = l
    · have hb : (m == l) = true := by simp [hml]
      rw [if_pos hml, hb]
    · have hb : (m == l) = false := by simpa using hml
      rw [if_neg hml, hb, erase]
      simpa [hml] using lookup_filter_ne t.entries l m

/-- What was erased is gone, and all else is as before. -/
theorem get?_erase (t : FileTree) {l : Location} (m : Location) (hl : l ≠ []) :
    (t.erase l).get? m = if m = l then none else t.get? m := by
  by_cases hm : m = []
  · have h : ¬ m = l := fun h => hl (h.symm.trans hm)
    rw [if_neg h, get?, if_pos hm, get?, if_pos hm]
  · rw [get?, if_neg hm, get?, if_neg hm, erase, lookup_filter_ne]

/-! ## Well-formed trees -/

/-- Whether a text can be the name of an entry. -/
def isName (n : Text) : Bool := n != [] && n != ['.'] && n != ['.', '.'] && !n.contains '/'

/-- A tree as a file system holds it: no location has two entries, locations are made of names, and
every entry stands in a directory. -/
structure WellFormed (t : FileTree) : Prop where
  distinct : (t.entries.map (·.1)).Nodup
  named : ∀ e ∈ t.entries, e.1 ≠ [] ∧ ∀ n ∈ e.1, isName n = true
  housed : ∀ e ∈ t.entries, t.isDirectoryAt e.1.dropLast = true

theorem lookup_eq_some_iff {es : List (Location × Entry)} (hd : (es.map (·.1)).Nodup)
    {l : Location} {e : Entry} : es.lookup l = some e ↔ (l, e) ∈ es := by
  induction es with
  | nil => simp
  | cons f fs ih =>
    obtain ⟨k, v⟩ := f
    rw [List.map_cons, List.nodup_cons] at hd
    by_cases hk : l = k
    · have hb : (l == k) = true := by simp [hk]
      -- No location is listed twice, so the first entry is the only one.
      have hnot : (l, e) ∉ fs := fun hm =>
        hd.1 (List.mem_map.mpr ⟨(l, e), hm, hk⟩)
      rw [List.lookup_cons, hb, List.mem_cons]
      constructor
      · intro h
        exact Or.inl (by rw [hk, Option.some.inj h])
      · rintro (h | h)
        · rw [Prod.mk.inj h |>.2]
        · exact absurd h hnot
    · have hb : (l == k) = false := by simpa using hk
      rw [List.lookup_cons, hb, List.mem_cons]
      constructor
      · intro h
        exact Or.inr ((ih hd.2).mp h)
      · rintro (h | h)
        · exact absurd (Prod.mk.inj h).1 hk
        · exact (ih hd.2).mpr h

/-- What stands at a location below the root directory is what the tree lists for it. -/
theorem WellFormed.get?_eq_some_iff {t : FileTree} (h : WellFormed t) {l : Location} (hl : l ≠ [])
    {e : Entry} : t.get? l = some e ↔ (l, e) ∈ t.entries := by
  rw [get?, if_neg hl]
  exact lookup_eq_some_iff h.distinct

end FileTree

end DocDigest
