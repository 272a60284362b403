import Mustache.Html.Reference

/-! # HTML encoding and decoding

Encoding replaces the characters with a meaning in HTML, and line feeds; an ampersand that
already starts a well-formed reference stays.  Decoding undoes it on rendered text, and reads
numeric references besides.
-/

namespace Mustache.Html

/-- The reference that replaces a character, if it has to be replaced wherever it stands. -/
def entity? (c : Char) : Option (List Char) :=
  if c = '<' then some ['&', 'l', 't', ';']
  else if c = '>' then some ['&', 'g', 't', ';']
  else if c = '"' then some ['&', 'q', 'u', 'o', 't', ';']
  else if c = '\n' then some ['&', '#', '1', '0', ';']
  else none

def escapeChars : List Char → List Char
  | [] => []
  | c :: s =>
    if c = '&' then
      if startsReference s then '&' :: escapeChars s
      else '&' :: 'a' :: 'm' :: 'p' :: ';' :: escapeChars s
    else
      match entity? c with
      | some e => e ++ escapeChars s
      | none => c :: escapeChars s

/-- The decoding of a list of characters of which the first `skip` are passed over, because a
    reference that is decoded already reaches across them. -/
def unescapeFrom : Nat → List Char → List Char
  | _, [] => []
  | skip + 1, _ :: s => unescapeFrom skip s
  | 0, c :: s =>
    if c = '&' then
      match decodeReference? s with
      -- What a reference decodes to is not decoded again.
      | some (d, span) => d :: unescapeFrom span s
      | none => '&' :: unescapeFrom 0 s
    else c :: unescapeFrom 0 s

def unescapeChars (s : List Char) : List Char :=
  unescapeFrom 0 s

def escape (text : String) : String :=
  .ofList (escapeChars text.toList)

def unescape (text : String) : String :=
  .ofList (unescapeChars text.toList)

end Mustache.Html
