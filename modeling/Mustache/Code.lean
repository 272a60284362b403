import Mustache.Tag

/-! # Code

The compiled form of a template: a list of nodes, of which sections, blocks and extensions own
lists of their own.  Nodes made from tags keep where the tag came from and how it was written, so
that a tree can be printed as tags again.

A node also has a `Site`, which tells it apart from every other node: what lookups and inclusions
remember between renders is filed under it.
-/

namespace Mustache

/-- What tells one node from another. -/
inductive Site
  /-- The node of the tag that starts `offset` characters into the text of a compilation. -/
  | parsed (compilation offset : Nat)
  | grafted (extension node : Site)
deriving DecidableEq

/-- Where a tag came from and how it was written. -/
structure Origin where
  delimiters : Delimiters
  file : String
  /-- The line of the opening delimiter, counted from one. -/
  line : Nat
  /-- Whether only spaces and tabs stand before the tag on its line. -/
  startsLine : Bool
  site : Site
deriving DecidableEq

def Origin.at (o : Origin) (site : Site) : Origin :=
  { o with site }

structure Interpolation where
  origin : Origin
  name : String
  style : Interpolation.Style

/-- A section: a body that is rendered for the elements of a value, or, if negated, when there
    is nothing to render it for. -/
structure Section (γ : Type) where
  origin : Origin
  name : String
  negated : Bool
  /-- The delimiters the close tag is written with. -/
  close : Delimiters
  /-- The text between the open tag and the close tag. -/
  raw : String
  body : List γ

/-- A tag that includes another template, by its own name or by the text of a value. -/
structure Inclusion where
  origin : Origin
  name : String
  /-- What every line of the included template is indented by. -/
  indent : String

/-- A region with a default body that an extending template may replace. -/
structure Block (γ : Type) where
  origin : Origin
  name : String
  /-- The delimiters the close tag is written with. -/
  close : Delimiters
  body : List γ

/-- The extension of a parent template, with replacements for its blocks.  The replacements have
    different names. -/
structure Extension (γ : Type) where
  origin : Origin
  name : String
  /-- The delimiters the close tag is written with. -/
  close : Delimiters
  /-- The body as written. -/
  body : List γ
  replacements : List (Block γ)

/-- A node of a compiled template. -/
inductive Code
  | text (s : String)
  | value (v : Interpolation)
  | sect (s : Section Code)
  | inclusion (p : Inclusion)
  /-- A template included by the text of the value of a name. -/
  | dynamic (p : Inclusion)
  | extend (e : Extension Code)
  /-- A block that stands for its own body. -/
  | block (b : Block Code)
  | eof

namespace Code

def origin? : Code → Option Origin
  | .text _ => none
  | .value v => some v.origin
  | .sect s => some s.origin
  | .inclusion p => some p.origin
  | .dynamic p => some p.origin
  | .extend e => some e.origin
  | .block b => some b.origin
  | .eof => none

def name? : Code → Option String
  | .text _ => none
  | .value v => some v.name
  | .sect s => some s.name
  | .inclusion p => some p.name
  | .dynamic p => some p.name
  | .extend e => some e.name
  | .block b => some b.name
  | .eof => none

/-- Whether a node may stand in the body of an extension: text and blocks only. -/
def mayBeInExtension : Code → Bool
  | .text _ => true
  | .block _ => true
  | .eof => true
  | _ => false

end Code

/-! ## Replacements -/

/-- Blocks by name: adding one whose name is there already puts it in the place of the other. -/
def Block.insert {γ : Type} (b : Block γ) : List (Block γ) → List (Block γ)
  | [] => [b]
  | a :: as => if a.name = b.name then b :: as else a :: Block.insert b as

/-- The block of a name. -/
def Block.find? {γ : Type} (name : String) (blocks : List (Block γ)) : Option (Block γ) :=
  blocks.find? fun b => b.name = name

/-- The blocks that stand directly in a body, by name: a name keeps its first place and its last
    block. -/
def Code.blocksOf (body : List Code) : List (Block Code) :=
  body.foldl (fun acc c => match c with
    | .block b => b.insert acc
    | _ => acc) []

end Mustache
