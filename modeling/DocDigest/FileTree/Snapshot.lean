import DocDigest.FileTree.Basic
import DocDigest.Json.Basic

/-!
# Snapshots of file trees

The JSON form of a tree is an array with an object for each entry. The object names the entry by its
absolute path under the word for what it is; a file also has its text, or its bytes if they are no
text, and a link has its target.
-/

set_option autoImplicit false

namespace DocDigest

namespace FileTree

/-- The words in the objects of a snapshot. -/
def snapshotNames : List Text :=
  ["directory".toList, "file".toList, "text".toList, "bytes".toList, "link".toList,
    "target".toList]

def entryToJson (l : Location) : Entry → Json
  | .directory => Json.ofMembers [("directory".toList, Json.ofText l.path.text)]
  | .file contents =>
    Json.ofMembers [("file".toList, Json.ofText l.path.text),
      match Utf8.ofBytes? contents with
      | some text => ("text".toList, Json.ofText text)
      | none => ("bytes".toList, .array (contents.map fun b => Json.ofNat b.toNat))]
  | .link target =>
    Json.ofMembers [("link".toList, Json.ofText l.path.text),
      ("target".toList, Json.ofText target.text)]

def toJson (t : FileTree) : Json := .array (t.entries.map fun (l, e) => entryToJson l e)

/-- The location that a JSON value denotes. -/
def locationOf? (v : Json) : Option Location := v.asText?.map fun t => Path.names ⟨t⟩

def byteOf? (v : Json) : Option UInt8 :=
  v.asWord?.bind fun n => if n < 256 then some (UInt8.ofNat n) else none

def bytesOf? : Json → Option Bytes
  | .array items => items.mapM byteOf?
  | _ => none

/-- The location and the entry that a JSON value denotes. -/
def entryOfJson? (v : Json) : Option (Location × Entry) := do
  match ← Json.fields? snapshotNames true v with
  | [some p, none, none, none, none, none] => some (← locationOf? p, .directory)
  | [none, some p, some text, none, none, none] =>
    some (← locationOf? p, .file (Utf8.encode (← text.asText?)))
  | [none, some p, none, some bytes, none, none] =>
    some (← locationOf? p, .file (← bytesOf? bytes))
  | [none, none, none, none, some p, some target] =>
    some (← locationOf? p, .link ⟨← target.asText?⟩)
  | _ => none

def ofJson? : Json → Option FileTree
  | .array items => (items.mapM entryOfJson?).map FileTree.mk
  | _ => none

end FileTree

end DocDigest
