import Mustache.Code.Inversion
import Mustache.Code.Print
import Mustache.Text.Quoted

/-! # Templates

A compiled template, and what can be had from it without rendering: its tag syntax, and the data
behind a rendered text.
-/

namespace Mustache

structure Template where
  name : String
  source : String
  codes : List Code

namespace Template

def empty (name : String) : Template :=
  ⟨name, "", [.eof]⟩

def print (t : Template) : String :=
  Code.printAll t.codes

/-- The data that a template renders as a text, if any can be recovered. -/
def invert (t : Template) (text : String) : Option Value :=
  Code.invert t.codes text

def inspect (t : Template) : String :=
  "Template \x7b name: " ++ Text.quoted t.name ++ ", nodes: " ++ Nat.repr t.codes.length ++ " \x7d"

end Template

end Mustache
