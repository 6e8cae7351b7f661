import DocDigest.Document.Clean
import DocDigest.Document.Format
import DocDigest.Document.Section

/-!
# The document

A document has a title and a part for each section: the file's name as a heading, and each comment,
cleaned, between fences.
-/

set_option autoImplicit false

namespace DocDigest

namespace Markdown

def title : Text := "# Project Documentation".toList

def fence : Text := "```".toList

/-- A comment's cleaned text between fences, and a blank line. -/
def fenced (body : Text) : Text := fence ++ ['\n'] ++ body ++ ['\n'] ++ fence ++ ['\n', '\n']

/-- A file's heading and a blank line. -/
def heading (file : Text) : Text := "## ".toList ++ file ++ ['\n', '\n']

/-- A file's heading and its comments. -/
def part (s : Section) : Text :=
  heading s.file ++ s.comments.flatMap (fun raw => fenced (clean raw))

/-- The document that fragments make up. -/
def document (fragments : List Fragment) : Text :=
  title ++ ['\n', '\n'] ++ (Section.ofFragments fragments).flatMap part

end Markdown

def render (format : Format) (fragments : List Fragment) : Text :=
  match format with
  | .markdown => Markdown.document fragments

/-- The document that fragments make up, in the format that a user's name stands for. -/
def renderAs (formatName : Text) (fragments : List Fragment) : Except UnsupportedFormat Text :=
  (Format.ofName formatName).map (render · fragments)

end DocDigest
