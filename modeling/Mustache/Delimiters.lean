import Mustache.Text.Blank

/-! # Delimiters

The pair of texts that open and close a tag.
-/

namespace Mustache

/-- The text that opens a tag and the text that closes it. -/
structure Delimiters where
  opening : String
  closing : String
deriving DecidableEq

namespace Delimiters

def standard : Delimiters :=
  ⟨"\x7b\x7b", "\x7d\x7d"⟩

instance : Inhabited Delimiters := ⟨standard⟩

/-- Whether a text can delimit tags: it is not empty and holds no blank character and no equals
    sign. -/
def isUsable (s : List Char) : Bool :=
  !s.isEmpty && s.all fun c => !Text.isBlank c && c != '='

def isValid (d : Delimiters) : Bool :=
  isUsable d.opening.toList && isUsable d.closing.toList

def isStandard (d : Delimiters) : Bool :=
  d = standard

/-- The pair as it stands in a delimiter tag. -/
def print (d : Delimiters) : String :=
  d.opening ++ " " ++ d.closing

end Delimiters

end Mustache
