import Mustache.Code
import Mustache.Table

/-! # Parsing

A single pass over the text.  Literal text is held back until a tag is met that makes a node; a
tag that encloses a body is followed by the nodes up to its close tag.  A tag that stands alone on
its line takes the line with it: the spacing before it is taken off the text held back, and the
spacing and the line ending after it are passed over.

* `parse` — the tree of a template.
* `parseBody` — the nodes up to the close tag of what is open, or up to the end.
-/

namespace Mustache

/-- What a pragma's text is turned into: text that takes the place of the tag, or nothing. -/
abbrev PragmaHandler := String → Option String

/-- What is the same for the whole of a template while it is parsed. -/
structure Source where
  file : String
  compilation : Nat
  pragmas : Table String PragmaHandler

namespace Source

/-- The text that a pragma tag leaves in its place. -/
def pragmaText (src : Source) (body : List Char) : List Char :=
  let (name, args) := Text.headWord body
  match src.pragmas.get? (.ofList name) with
  | some handler => ((handler (.ofList args)).getD "").toList
  | none => []

def origin (src : Source) (tag : Tag) : Origin where
  delimiters := tag.delimiters
  file := src.file
  line := tag.place.line
  startsLine := tag.startsLine
  site := .parsed src.compilation tag.place.offset

def fault (src : Source) (tag : Tag) (cause : SyntaxError.Cause) : SyntaxError :=
  ⟨src.file, tag.place.line, tag.place.column, cause⟩

end Source

namespace Code

/-- The text held back, as a node before others; empty text makes no node. -/
def flush (text : List Char) (codes : List Code) : List Code :=
  if text.isEmpty then codes else .text (.ofList text) :: codes

/-- A tag whose body is being read. -/
structure Opened where
  /-- The name that the close tag has to have. -/
  name : String
  tag : Tag

/-- The nodes of a body, and where it ends. -/
structure Body where
  codes : List Code
  /-- How many characters of the template stand before the end of the body. -/
  stop : Nat
  close : Delimiters
  after : Cursor

/-- A tag in the light of the line it stands on. -/
structure Settled where
  text : List Char
  /-- The spacing that was taken off the text, if the tag stands alone. -/
  indent : List Char
  after : Cursor

/-- Takes the line of a tag away with it, if the tag stands alone there. -/
def settle (text : List Char) (tag : Tag) (after : Cursor) : Settled :=
  match tag.lineRest? after with
  | some n => ⟨text.take (text.length - tag.indent.length), tag.indent, after.skip n⟩
  | none => ⟨text, [], after⟩

theorem length_after_settle_le (text : List Char) (tag : Tag) (after : Cursor) :
    (settle text tag after).after.rest.length ≤ after.rest.length := by
  unfold settle
  split
  · exact Cursor.length_rest_skip_le _ _
  · exact Nat.le_refl _

def rawText (start : Cursor) (stop : Nat) : String :=
  .ofList (start.rest.take (max stop start.offset - start.offset))

/-- The first node that may not stand in the body of an extension. -/
def illegalInExtension? (body : List Code) : Option Code :=
  body.find? fun c => !c.mayBeInExtension

/-- The node of a tag that encloses a body. -/
def ofBody (src : Source) (tag : Tag) (bracket : Tag.Bracket) (name : String) (start : Cursor)
    (body : Body) : Except SyntaxError Code :=
  let origin := src.origin tag
  match bracket with
  | .positive =>
    .ok (.sect ⟨origin, name, false, body.close, rawText start body.stop, body.codes⟩)
  | .negated =>
    .ok (.sect ⟨origin, name, true, body.close, rawText start body.stop, body.codes⟩)
  | .block => .ok (.block ⟨origin, name, body.close, body.codes⟩)
  | .extend =>
    match illegalInExtension? body.codes with
    | some code =>
      let line := (code.origin?.map Origin.line).getD tag.place.line
      .error ⟨src.file, line, tag.place.column, .illegalExtendContent name⟩
    | none => .ok (.extend ⟨origin, name, body.close, body.codes, blocksOf body.codes⟩)

/-- The nodes up to the close tag of `opened`, or up to the end if nothing is open.  `d` are the
    delimiters in force at `c`, and `text` is the literal text held back there. -/
def parseBody (src : Source) (opened : Option Opened) (d : Delimiters) (text : List Char)
    (c : Cursor) : Except SyntaxError { b : Body // b.after.rest.length ≤ c.rest.length } :=
  match hnext : Tag.next src.file d c with
  | .error e => .error e
  | .ok none =>
    -- No tag is left: the rest is literal text, and nothing may be open.
    match opened with
    | some o => .error (src.fault o.tag (.unclosedSection o.name))
    | none =>
      let after := c.skip c.rest.length
      .ok ⟨⟨flush (text ++ c.rest) [.eof], after.offset, d, after⟩,
        Cursor.length_rest_skip_le _ _⟩
  | .ok (some found) =>
    have hfound := Tag.length_after_of_next hnext
    let tag := found.tag
    let s := settle (text ++ found.before) tag found.after
    have hs : s.after.rest.length < c.rest.length :=
      Nat.lt_of_le_of_lt (length_after_settle_le _ _ _) hfound
    match tag.content with
    | .comment => do
      let r ← parseBody src opened d s.text s.after
      return ⟨r.1, Nat.le_trans r.2 (Nat.le_of_lt hs)⟩
    | .delimiters d' => do
      -- The new pair is in force up to the end of the body that the tag stands in.
      let r ← parseBody src opened d' s.text s.after
      return ⟨r.1, Nat.le_trans r.2 (Nat.le_of_lt hs)⟩
    | .pragma body => do
      let r ← parseBody src opened d (s.text ++ src.pragmaText body) s.after
      return ⟨r.1, Nat.le_trans r.2 (Nat.le_of_lt hs)⟩
    | .value style name => do
      let r ← parseBody src opened d [] s.after
      return ⟨{ r.1 with
        codes := flush s.text (.value ⟨src.origin tag, name, style⟩ :: r.1.codes) },
        Nat.le_trans r.2 (Nat.le_of_lt hs)⟩
    | .inclusion name => do
      let r ← parseBody src opened d [] s.after
      return ⟨{ r.1 with
        codes := flush s.text
          (.inclusion ⟨src.origin tag, name, .ofList s.indent⟩ :: r.1.codes) },
        Nat.le_trans r.2 (Nat.le_of_lt hs)⟩
    | .dynamic name => do
      let r ← parseBody src opened d [] s.after
      return ⟨{ r.1 with
        codes := flush s.text
          (.dynamic ⟨src.origin tag, name, .ofList s.indent⟩ :: r.1.codes) },
        Nat.le_trans r.2 (Nat.le_of_lt hs)⟩
    | .opening bracket name => do
      -- Whatever pair the body changes to, the one at the open tag is back in force after it.
      let inner ← parseBody src (some ⟨name, tag⟩) d [] s.after
      let code ← ofBody src tag bracket name s.after inner.1
      have hinner := Nat.lt_of_le_of_lt inner.2 hs
      let r ← parseBody src opened d [] inner.1.after
      return ⟨{ r.1 with codes := flush s.text (code :: r.1.codes) },
        Nat.le_trans r.2 (Nat.le_of_lt hinner)⟩
    | .close name =>
      match opened with
      | none => .error (src.fault tag (.unexpectedClose name))
      | some o =>
        if o.name = name then
          -- Spacing that was taken off the text is not part of the body.
          .ok ⟨⟨flush s.text [], tag.place.offset - s.indent.length, tag.delimiters, s.after⟩,
            Nat.le_of_lt hs⟩
        else .error (src.fault tag (.mismatchedSection o.name name))
termination_by c.rest.length

/-- The tree of a template, with the delimiters in force at its start. -/
def parse (src : Source) (d : Delimiters) (text : String) : Except SyntaxError (List Code) :=
  (parseBody src none d [] (.start text.toList)).map fun b => b.1.codes

end Code

end Mustache
