import Mustache.Code

/-! # Printing

The tag syntax of a tree: literal text as it is, and every tag with its own delimiters.  What the
parser leaves out of the tree (comments, delimiter tags, the lines of tags that stand alone) does
not come back.
-/

namespace Mustache

def Delimiters.tag (d : Delimiters) (sigil name : String) : String :=
  d.opening ++ sigil ++ name ++ d.closing

def Interpolation.print (v : Interpolation) : String :=
  let d := v.origin.delimiters
  match v.style with
  | .escaped => d.tag "" v.name
  | .triple => d.opening ++ "\x7b" ++ v.name ++ "\x7d" ++ d.closing
  | .ampersand => d.tag "&" v.name

namespace Code

mutual

def print : Code → String
  | .text s => s
  | .value v => v.print
  | .sect ⟨origin, name, negated, close, _, body⟩ =>
    origin.delimiters.tag (if negated then "^" else "#") name ++ printAll body ++
      close.tag "/" name
  | .inclusion p => p.origin.delimiters.tag ">" p.name
  | .dynamic p => p.origin.delimiters.tag ">*" p.name
  | .extend ⟨origin, name, close, body, _⟩ =>
    origin.delimiters.tag "<" name ++ printAll body ++ close.tag "/" name
  | .block ⟨origin, name, close, body⟩ =>
    origin.delimiters.tag "$" name ++ printAll body ++ close.tag "/" name
  | .eof => ""

def printAll : List Code → String
  | [] => ""
  | c :: cs => c.print ++ printAll cs

end

end Code

end Mustache
