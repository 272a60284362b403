import Mustache.Text.Search

/-! # Template paths

Templates have slash-separated names.  A template that a tag names is looked for beside the
template that holds the tag, or from the root if the name starts with a slash; it gets the
extension of the including template unless it ends with it already, and `.` and `..` are folded
away.
-/

namespace Mustache.Path

/-- The directory of a template name, with its slash, and the last segment of the name. -/
def splitDirectory (name : List Char) : List Char × List Char :=
  match Text.cutAtLast? '/' name with
  | some (dir, file) => (dir ++ ['/'], file.drop 1)
  | none => ([], name)

/-- The extension of a file name, from its last dot on. -/
def extension (file : List Char) : List Char :=
  match Text.cutAtLast? '.' file with
  | some (_, ext) => ext
  | none => []

/-- The segments left when `.`, `..` and empty segments are folded away; `kept` holds the ones
    before, last first.  A `..` takes away the segment before it and nothing at the root. -/
def fold : List (List Char) → List (List Char) → List (List Char)
  | kept, [] => kept.reverse
  | kept, seg :: segs =>
    if seg = [] ∨ seg = ['.'] then fold kept segs
    else if seg = ['.', '.'] then fold kept.tail segs
    else fold (seg :: kept) segs

def join : List (List Char) → List Char
  | [] => []
  | [seg] => seg
  | seg :: segs => seg ++ '/' :: join segs

/-- A path with its `.`, `..` and empty segments folded away. -/
def normalize (path : List Char) : List Char :=
  join (fold [] (Text.splitAtChar '/' path))

/-- The path that `name` stands for in a tag of the template `including`, before folding. -/
def unfolded (name including : List Char) : List Char :=
  let (dir, file) := splitDirectory including
  let ext := extension file
  let base :=
    match name with
    | '/' :: absolute => absolute
    | _ => dir ++ name
  -- The name decides about the extension, not the path that it stands for.
  if ext.isSuffixOf name then base else base ++ ext

/-- The path that `name` stands for in a tag of the template `including`. -/
def resolve (name including : String) : String :=
  .ofList (normalize (unfolded name.toList including.toList))

end Mustache.Path
