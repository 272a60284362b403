import Mustache.Code.Inversion
import Mustache.Proofs.Code.Sites
import Mustache.Proofs.Code.Tokens

/-! # Printable trees

A tree need not come from the parser.  One that the parser could have made of tags in one pair of
delimiters is printed as its tokens are written in that pair.  Any tree can be revised to be
written in some pair, and then it is printed in it.

* `Printable`, `PrintableTag` — the trees that can be told from what is printed of them.
* `Revision`, `revise`, `reviseAll` — trees with other origins, delimiters and raw texts.
* `toList_printAll`, `toList_printAll_delimited` — what trees are printed as.
-/

namespace Mustache.Code

mutual

/-- A tag of a file in one pair of delimiters, and so are the tags in its body: with proper names,
    without indents, and with the replacements that stand in the body of an extension. -/
inductive PrintableTag (file : String) (d : Delimiters) : Code → Prop
  | value {o : Origin} {name : String} {style : Interpolation.Style} (ho : o.delimiters = d)
      (hfile : o.file = file) (hname : (Tag.Content.value style name).WellNamed) :
      PrintableTag file d (.value ⟨o, name, style⟩)
  | sect {o : Origin} {name raw : String} {negated : Bool} {body : List Code}
      (ho : o.delimiters = d) (hfile : o.file = file) (hname : Tag.IsName name)
      (hbody : Printable file d body) :
      PrintableTag file d (.sect ⟨o, name, negated, d, raw, body⟩)
  | inclusion {o : Origin} {name : String} (ho : o.delimiters = d) (hfile : o.file = file)
      (hname : (Tag.Content.inclusion name).WellNamed) :
      PrintableTag file d (.inclusion ⟨o, name, ""⟩)
  | dynamic {o : Origin} {name : String} (ho : o.delimiters = d) (hfile : o.file = file)
      (hname : Tag.IsName name) : PrintableTag file d (.dynamic ⟨o, name, ""⟩)
  | extend {o : Origin} {name : String} {body : List Code} (ho : o.delimiters = d)
      (hfile : o.file = file) (hname : Tag.IsName name) (hbody : Printable file d body)
      (hlegal : ∀ c ∈ body, c.mayBeInExtension = true) :
      PrintableTag file d (.extend ⟨o, name, d, body, blocksOf body⟩)
  | block {o : Origin} {name : String} {body : List Code} (ho : o.delimiters = d)
      (hfile : o.file = file) (hname : Tag.IsName name) (hbody : Printable file d body) :
      PrintableTag file d (.block ⟨o, name, d, body⟩)

/-- A body of such tags, with literals that are not empty and never stand side by side. -/
inductive Printable (file : String) (d : Delimiters) : List Code → Prop
  | nil : Printable file d []
  | literal {s : String} {cs : List Code} (hs : s ≠ "") (hcs : Printable file d cs)
      (hnext : Follow.firstLiteral? cs = none) : Printable file d (.text s :: cs)
  | tag {c : Code} {cs : List Code} (hc : PrintableTag file d c) (hcs : Printable file d cs) :
      Printable file d (c :: cs)

end

variable {file : String} {d : Delimiters}

/-! ## Printing -/

theorem written_enclosed (d : Delimiters) (bracket : Tag.Bracket) (name : String)
    (ts : List Token) : written d (enclosed bracket name ts) =
      (d.tag bracket.sigil name).toList ++ (written d ts ++ (d.tag "/" name).toList) := by
  simp [enclosed, Token.print, Tag.Content.print]

mutual

theorem toList_print {c : Code} (h : PrintableTag file d c) :
    c.print.toList = written d (tokens c) := by
  cases h with
  | @value o name style ho _ _ =>
    cases style <;> simp [print, Interpolation.print, tokens, Token.print, Tag.Content.print, ho]
  | @sect o name raw negated body ho _ _ hbody =>
    have hprint := toList_printAll hbody
    cases negated <;> simp [print, tokens, written_enclosed, Tag.Bracket.sigil, ho, hprint]
  | extend ho _ _ hbody _ | block ho _ _ hbody =>
    have hprint := toList_printAll hbody
    simp [print, tokens, written_enclosed, Tag.Bracket.sigil, ho, hprint]
  | inclusion ho _ _ | dynamic ho _ _ => simp [print, tokens, Token.print, Tag.Content.print, ho]

theorem toList_printAll {cs : List Code} (h : Printable file d cs) :
    (printAll cs).toList = written d (tokensAll cs) := by
  cases h with
  | nil => rfl
  | literal _ hcs _ => simp [printAll, print, tokensAll, tokens, Token.print, toList_printAll hcs]
  | tag hc hcs => simp [printAll, tokensAll, toList_print hc, toList_printAll hcs]

end

/-! ## Revised trees -/

/-- What some data of every tag becomes. -/
structure Revision where
  origin : Origin → Origin
  close : Delimiters → Delimiters
  /-- The raw text of a section, by its revised body. -/
  raw : List Code → String

/-- Every tag is written in one pair of delimiters, and raw text is what is printed then. -/
def Revision.delimited (d : Delimiters) : Revision where
  origin o := { o with delimiters := d }
  close _ := d
  raw := printAll

section

variable (d close : Delimiters) (o : Origin) (body : List Code)

@[simp] theorem Revision.origin_delimited :
    (delimited d).origin o = { o with delimiters := d } := rfl

@[simp] theorem Revision.close_delimited : (delimited d).close close = d := rfl

@[simp] theorem Revision.raw_delimited : (delimited d).raw body = printAll body := rfl

end

/-- What depends on where a tag stands in a text is left out, and raw text is too. -/
def Revision.unplaced : Revision where
  origin o := { o with line := 0, startsLine := false, site := .parsed 0 0 }
  close := id
  raw _ := ""

mutual

def revise (r : Revision) : Code → Code
  | .text s => .text s
  | .value ⟨origin, name, style⟩ => .value ⟨r.origin origin, name, style⟩
  | .sect ⟨origin, name, negated, close, _, body⟩ =>
    .sect ⟨r.origin origin, name, negated, r.close close, r.raw (reviseAll r body),
      reviseAll r body⟩
  | .inclusion ⟨origin, name, indent⟩ => .inclusion ⟨r.origin origin, name, indent⟩
  | .dynamic ⟨origin, name, indent⟩ => .dynamic ⟨r.origin origin, name, indent⟩
  | .extend ⟨origin, name, close, body, replacements⟩ =>
    .extend ⟨r.origin origin, name, r.close close, reviseAll r body, reviseBlocks r replacements⟩
  | .block ⟨origin, name, close, body⟩ =>
    .block ⟨r.origin origin, name, r.close close, reviseAll r body⟩
  | .eof => .eof

def reviseAll (r : Revision) : List Code → List Code
  | [] => []
  | c :: cs => revise r c :: reviseAll r cs

def reviseBlocks (r : Revision) : List (Block Code) → List (Block Code)
  | [] => []
  | ⟨origin, name, close, body⟩ :: bs =>
    ⟨r.origin origin, name, r.close close, reviseAll r body⟩ :: reviseBlocks r bs

end

def reviseBlock (r : Revision) (b : Block Code) : Block Code :=
  ⟨r.origin b.origin, b.name, r.close b.close, reviseAll r b.body⟩

theorem reviseAll_eq_map (r : Revision) (cs : List Code) : reviseAll r cs = cs.map (revise r) := by
  induction cs with
  | nil => rfl
  | cons c cs ih => rw [reviseAll, ih, List.map_cons]

theorem reviseBlocks_eq_map (r : Revision) (bs : List (Block Code)) :
    reviseBlocks r bs = bs.map (reviseBlock r) := by
  induction bs with
  | nil => rfl
  | cons b bs ih => rw [reviseBlocks, ih, List.map_cons]; rfl

/-- The blocks of a revised body are the revised blocks of the body. -/
theorem reviseBlocks_blocksOf (r : Revision) (body : List Code) :
    reviseBlocks r (blocksOf body) = blocksOf (reviseAll r body) := by
  rw [reviseBlocks_eq_map, reviseAll_eq_map]
  refine map_blocksOf (f := reviseBlock r) (g := revise r) (fun _ => rfl) (fun _ => rfl) ?_ body
  intro c hc b
  cases c with
  | block b => exact absurd rfl (hc b)
  | _ => simp [revise]

mutual

theorem toList_print_delimited (d : Delimiters) :
    ∀ c : Code, (revise (.delimited d) c).print.toList = written d (tokens c)
  | .text _ => by simp [revise, print, tokens, Token.print]
  | .value ⟨_, _, style⟩ => by
    cases style <;>
      simp [revise, print, Interpolation.print, tokens, Token.print, Tag.Content.print]
  | .sect ⟨_, _, negated, _, _, body⟩ => by
    have hprint := toList_printAll_delimited d body
    cases negated <;>
      simp [revise, print, tokens, written_enclosed, Tag.Bracket.sigil, hprint]
  | .inclusion _ => by simp [revise, print, tokens, Token.print, Tag.Content.print]
  | .dynamic _ => by simp [revise, print, tokens, Token.print, Tag.Content.print]
  | .extend ⟨_, _, _, body, _⟩ => by
    have hprint := toList_printAll_delimited d body
    simp [revise, print, tokens, written_enclosed, Tag.Bracket.sigil, hprint]
  | .block ⟨_, _, _, body⟩ => by
    have hprint := toList_printAll_delimited d body
    simp [revise, print, tokens, written_enclosed, Tag.Bracket.sigil, hprint]
  | .eof => by simp [revise, print, tokens]

theorem toList_printAll_delimited (d : Delimiters) :
    ∀ cs : List Code, (printAll (reviseAll (.delimited d) cs)).toList = written d (tokensAll cs)
  | [] => rfl
  | c :: cs => by
    simp [reviseAll, printAll, tokensAll, toList_print_delimited d c,
      toList_printAll_delimited d cs]

end

theorem printAll_delimited (d : Delimiters) (cs : List Code) :
    printAll (reviseAll (.delimited d) cs) = .ofList (written d (tokensAll cs)) := by
  rw [← toList_printAll_delimited, String.ofList_toList]

end Mustache.Code
