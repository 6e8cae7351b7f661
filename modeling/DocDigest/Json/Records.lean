import DocDigest.Comment.Fragment
import DocDigest.Document.Format
import DocDigest.Ignore.Excludes
import DocDigest.Json.Basic

/-!
# JSON forms

The JSON forms of spans, fragments, formats and excluded names.
-/

set_option autoImplicit false

namespace DocDigest

namespace Span

def toJson (s : Span) : Json :=
  Json.ofMembers [("start".toList, Json.ofNat s.start), ("end".toList, Json.ofNat s.stop)]

/-- The span that a JSON value denotes; other members of an object do not count. -/
def ofJson? (v : Json) : Option Span := do
  match ← Json.fields? ["start".toList, "end".toList] false v with
  | [some start, some stop] => some ⟨← start.asWord?, ← stop.asWord?⟩
  | _ => none

end Span

namespace Fragment

def toJson (f : Fragment) : Json :=
  Json.ofMembers [("file".toList, Json.ofText f.file), ("text".toList, Json.ofText f.text)]

/-- The fragment that a JSON value denotes; other members of an object do not count. -/
def ofJson? (v : Json) : Option Fragment := do
  match ← Json.fields? ["file".toList, "text".toList] false v with
  | [some file, some text] => some ⟨← file.asText?, ← text.asText?⟩
  | _ => none

end Fragment

namespace Format

def toJson (f : Format) : Json := Json.ofText f.name

/-- The format that a JSON value denotes: its name exactly, alone or as the key of `null`. -/
def ofJson? : Json → Option Format
  | .string us => if Json.textOf? us = some markdown.name then some markdown else none
  | .object [(k, .null)] => if Json.textOf? k = some markdown.name then some markdown else none
  | _ => none

end Format

namespace Excludes

def toJson (e : Excludes) : Json := Json.ofTexts e.names

/-- The excluded names that a JSON value denotes; a name may stand twice. -/
def ofJson? (v : Json) : Option Excludes := v.asTexts?.map Excludes.mk

end Excludes

end DocDigest
