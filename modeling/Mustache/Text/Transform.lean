import Mustache.Text.Capital
import Mustache.Text.Search

/-! # Transforms

Functions on text that are told by data.  A lambda or a pragma handler may be any function on text;
these are the ones that can be asked for from outside, as by a program that is given its values to
render as text and so cannot be given functions.
-/

namespace Mustache.Text

/-- A function on text, told by data. -/
inductive Transform
  | identity
  /-- The text in capital letters, as far as the letters are ASCII. -/
  | upper
  | wrap (before after : String)
  | const (text : String)
  | twice
  | reverse
  | length
  | replace (old new : String)

/-- The function that is told. -/
def Transform.apply : Transform → String → String
  | .identity, s => s
  | .upper, s => Text.upper s
  | .wrap before after, s => before ++ s ++ after
  | .const text, _ => text
  | .twice, s => s ++ s
  | .reverse, s => .ofList s.toList.reverse
  | .length, s => Nat.repr s.length
  | .replace old new, s => .ofList (replaceAll old.toList new.toList s.toList 0)

end Mustache.Text
