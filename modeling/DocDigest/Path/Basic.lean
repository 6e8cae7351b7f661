import DocDigest.Text.Utf8

/-!
# Paths

A path is a text whose parts are separated by slashes. Here are its components and the operations
on it that look at the text alone, never at a file tree.

To the system, a path is bytes. The paths here are those whose bytes are valid UTF-8. Such a path is
shown as it is (`Path.shown_eq`), so nothing is lost by taking its text, or a name in it, for what
is shown of it.
-/

set_option autoImplicit false

namespace DocDigest

structure Path where
  text : Text
deriving DecidableEq

namespace Path

/-! ## Bytes -/

/-- The bytes that a path is to the system. -/
def bytes (p : Path) : Bytes := Utf8.encode p.text

/-- What is shown of a path: its bytes read as text, with U+FFFD where they are none. -/
def shown (p : Path) : Text := Utf8.ofBytesLenient p.bytes

theorem shown_eq (p : Path) : p.shown = p.text := Utf8.ofBytesLenient_encode p.text

/-! ## Components -/

/-- A step of a path. -/
inductive Component where
  /-- The directory above all others, at the front of an absolute path. -/
  | root
  /-- A dot at the front of a relative path. -/
  | here
  | up
  | name (n : Text)
deriving DecidableEq

def Component.text : Component → Text
  | .root => ['/']
  | .here => ['.']
  | .up => ['.', '.']
  | .name n => n

def Component.name? : Component → Option Text
  | .name n => some n
  | _ => none

/-- The component between two slashes; between slashes, nothing and a dot are no component. -/
def inner (piece : Text) : Option Component :=
  if piece = [] ∨ piece = ['.'] then none
  else if piece = ['.', '.'] then some .up
  else some (.name piece)

def isAbsolute (p : Path) : Bool := p.text.head? == some '/'

def endsInSlash (p : Path) : Bool := p.text.getLast? == some '/'

/-- The components of a path. -/
def components (p : Path) : List Component :=
  match p.text with
  | '/' :: rest => .root :: (Text.splitOn '/' rest).filterMap inner
  | t =>
    match Text.splitOn '/' t with
    | ['.'] :: pieces => .here :: pieces.filterMap inner
    | pieces => pieces.filterMap inner

/-- The names among the components of a path, without its dots. -/
def names (p : Path) : List Text := p.components.filterMap Component.name?

def ofComponents : List Component → Path
  | .root :: cs => ⟨'/' :: Text.joinWith ['/'] (cs.map Component.text)⟩
  | cs => ⟨Text.joinWith ['/'] (cs.map Component.text)⟩

/-! ## Operations -/

/-- The path `q` seen from `p`: behind `p` and a slash, or `q` alone if it is absolute. -/
def join (p q : Path) : Path :=
  if q.isAbsolute then q
  else if p.text.isEmpty || p.endsInSlash then ⟨p.text ++ q.text⟩
  else ⟨p.text ++ ['/'] ++ q.text⟩

/-- The name at the end of a path; dots are no name. -/
def fileName? (p : Path) : Option Text := p.components.getLast?.bind Component.name?

/-- The paths that components are written as when the last one is left off, and the last two, and so
on, given the components with the last one first. -/
def shortened : List Component → List Path
  | [] => []
  | _ :: above => if above.isEmpty then [] else ofComponents above.reverse :: shortened above

/-- The paths of the directories above a path, the nearest one first, without the empty path. -/
def ancestors (p : Path) : List Path := shortened p.components.reverse

/-- The pieces between slashes without the last one that is a component, up to the component before
it. -/
def dropLastPiece (pieces : List Text) : List Text :=
  let isNothing (piece : Text) : Bool := (inner piece).isNone
  (((pieces.reverse.dropWhile isNothing).drop 1).dropWhile isNothing).reverse

/-- For a path with a name at its end, the path of the directory that the name stands in. It is
written as it is there, dots that lead nowhere and repeated slashes included. -/
def folder (p : Path) : Path :=
  match p.text with
  | '/' :: rest => ⟨'/' :: Text.joinWith ['/'] (dropLastPiece (Text.splitOn '/' rest))⟩
  | t =>
    match Text.splitOn '/' t with
    | ['.'] :: pieces => ⟨Text.joinWith ['/'] (['.'] :: dropLastPiece pieces)⟩
    | pieces => ⟨Text.joinWith ['/'] (dropLastPiece pieces)⟩

/-- The path with another name at its end, in place of the name there if there is one. -/
def withFileName (p : Path) (name : Text) : Path :=
  match p.fileName? with
  | some _ => p.folder.join ⟨name⟩
  | none => p.join ⟨name⟩

/-- The names on the way from `root` to `p`. A path outside the root keeps all its names. -/
def namesBelow (root p : Path) : List Text :=
  ((after? root.components p.components).getD p.components).filterMap Component.name?

/-- The absolute path for a path as seen from the directory `base`. Dots that lead nowhere go, two
dots stay, two slashes at the front stay two, and a slash at the end stays. The empty path has
none. -/
def absolute? (p base : Path) : Option Path :=
  if p.text.isEmpty then none
  else
    let steps := p.components.filter (· != .here)
    let built :=
      if p.isAbsolute then
        match p.text with
        -- three slashes count as one, two do not
        | '/' :: '/' :: '/' :: _ => ofComponents steps
        | '/' :: '/' :: _ => (steps.drop 1).foldl (fun q c => q.join ⟨c.text⟩) ⟨['/', '/']⟩
        | _ => ofComponents steps
      else steps.foldl (fun q c => q.join ⟨c.text⟩) base
    some (if p.endsInSlash then built.join ⟨[]⟩ else built)

example : components ⟨"./a//./b/..".toList⟩
    = [.here, .name ['a'], .name ['b'], .up] := by decide

example : absolute? ⟨"./x/../y/".toList⟩ ⟨"/w".toList⟩ = some ⟨"/w/x/../y/".toList⟩ := by decide

example : ancestors ⟨"/a//b/./c/".toList⟩
    = [⟨"/a/b".toList⟩, ⟨"/a".toList⟩, ⟨"/".toList⟩] := by decide

example : withFileName ⟨"docs/a.md".toList⟩ "b".toList = ⟨"docs/b".toList⟩ := by decide

example : withFileName ⟨"././x//./y//./a.md/.".toList⟩ "b".toList = ⟨"././x//./y/b".toList⟩ := by
  decide

end Path

end DocDigest
