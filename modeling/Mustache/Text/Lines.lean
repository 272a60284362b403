/-! # Lines

Splitting text into lines that keep their line feeds, and indenting them.
-/

namespace Mustache.Text

/-- The lines of a text, each with its line feed; a last line without one counts if it is not
    empty. -/
def lines : List Char → List (List Char)
  | [] => []
  | c :: s =>
    if c == '\n' then [c] :: lines s
    else
      match lines s with
      | l :: ls => (c :: l) :: ls
      | [] => [[c]]

/-- Whether a line holds its line ending and nothing else. -/
def isEmptyLine (line : List Char) : Bool :=
  line == ['\n'] || line == ['\r', '\n']

/-- Text with `indent` before every line that is not empty. -/
def indentLines (indent s : List Char) : List Char :=
  (lines s).flatMap fun l => if isEmptyLine l then l else indent ++ l

end Mustache.Text
