import DocDigest.Comment.Span

/-!
# Runs of line comments

A doc line is a line that holds, after any indentation, two slashes, any white space, and a star. A
run is a longest sequence of consecutive doc lines. Its span goes from the two slashes of its first
line to the end of its last line, before the line feed.
-/

set_option autoImplicit false

namespace DocDigest

namespace LineRun

def isDocLine (t : Text) : Bool :=
  match t.dropWhile isInlineBlank with
  | '/' :: '/' :: t => (t.dropWhile isInlineBlank).head? == some '*'
  | _ => false

/-- The number of bytes of white space before the first line's first other character. -/
def indent (t : Text) : Nat := Text.byteLength (t.takeWhile isInlineBlank)

/-- The offset where the run ends that the text at `offset` is in the middle of: at the first line
feed after which no doc line follows, or at the end of the text. -/
def stop (offset : Nat) : Text → Nat
  | [] => offset
  | c :: cs =>
    if c = '\n' && !isDocLine cs then offset else stop (offset + c.utf8Size) cs

/-- The first run among the lines that begin in a text that begins at `offset`. -/
def first? (offset : Nat) (atLineStart : Bool) : Text → Option Span
  | [] => none
  | c :: cs =>
    if atLineStart && isDocLine (c :: cs) then
      some ⟨offset + indent (c :: cs), stop offset (c :: cs)⟩
    else
      first? (offset + c.utf8Size) (c == '\n') cs

example : first? 0 true "let a;\n // * b\n//*c\r\nd".toList = some ⟨8, 20⟩ := by decide

example : first? 0 true "x // * inline".toList = none := by decide

end LineRun

end DocDigest
