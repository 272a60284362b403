/-! # Blank characters

The characters with Unicode's `White_Space` property, and trimming and splitting text at them.
Names and directives inside tags are trimmed with this set, which is wider than the set of
`Char.isWhitespace`.
-/

namespace Mustache.Text

/-- Whether a character has Unicode's `White_Space` property. -/
def isBlank (c : Char) : Bool :=
  let n := c.toNat
  (9 ≤ n && n ≤ 13) || n == 0x20 || n == 0x85 || n == 0xA0 || n == 0x1680 ||
  (0x2000 ≤ n && n ≤ 0x200A) || n == 0x2028 || n == 0x2029 || n == 0x202F || n == 0x205F ||
  n == 0x3000

/-- Whether a character is a space or a tab, the only characters that may stand beside a tag on
    a line of its own. -/
def isSpacing (c : Char) : Bool :=
  c == ' ' || c == '\t'

def trimStart (s : List Char) : List Char :=
  s.dropWhile isBlank

def trimEnd (s : List Char) : List Char :=
  (s.reverse.dropWhile isBlank).reverse

def trim (s : List Char) : List Char :=
  trimEnd (trimStart s)

/-- The maximal runs of characters that are not blank, in order. -/
def words : List Char → List (List Char)
  | [] => []
  | c :: s =>
    if isBlank c then words s
    else
      match s, words s with
      | d :: _, w :: ws => if isBlank d then [c] :: w :: ws else (c :: w) :: ws
      | _, ws => [c] :: ws

/-- The text before the first blank character, and the trimmed text after it. -/
def headWord (s : List Char) : List Char × List Char :=
  (s.takeWhile (!isBlank ·), trim (s.dropWhile (!isBlank ·)))

end Mustache.Text
