import Mustache.Proofs.Code.Elsewhere

/-! # Tags that stand alone

A node tells where its tag starts, so the tag can be found again in the text that the node comes
from, and its line tells whether it stands alone there.

* `Origin.found?`, `Origin.standsAlone` — the tag of a node, and whether it stands alone.
* `standsAlone_originAt` — it does if it stands alone as a piece of the text.
* `Section.closing?`, `Section.standsAlone` — the close tag of a section, and whether both of its
  tags stand alone.
-/

namespace Mustache

/-- The tag of a node, found again in the text that the node comes from. -/
def Origin.found? (text : String) (o : Origin) : Option Tag.Found :=
  match o.site with
  | .parsed _ offset =>
    (Tag.next o.file o.delimiters ((Cursor.start text.toList).skip offset)).toOption.join
  | .grafted _ _ => none

/-- Whether a tag that has been found stands alone on its line. -/
def Tag.Found.standsAlone (found : Tag.Found) : Bool :=
  (found.tag.lineRest? found.after).isSome

def Origin.standsAlone (text : String) (o : Origin) : Bool :=
  (o.found? text).any Tag.Found.standsAlone

/-- The close tag of a section, found again in the text that the section comes from: it follows the
    raw text, which starts behind the open tag. -/
def Section.closing? (text : String) (s : Section Code) : Option Tag.Found :=
  (s.origin.found? text).bind fun opening =>
    (Tag.next s.origin.file s.close
      ((Code.settleFound [] opening).after.skip s.raw.toList.length)).toOption.join

/-- Whether both the open tag and the close tag of a section stand alone on their lines. -/
def Section.standsAlone (text : String) (s : Section Code) : Bool :=
  s.origin.standsAlone text && (s.closing? text).any Tag.Found.standsAlone

namespace Code

variable {src : Source} {d : Delimiters} {content : Tag.Content} {p : Piece}
  {before inner q rest : List Char} {text : String}

/-- Where a tag is read, it is found again. -/
theorem found?_of_lexed
    (hscan : Tag.scanInside d (inner ++ d.closing.toList ++ rest) = .ok (content, rest))
    (htext : text.toList = before ++ (d.opening.toList ++ inner ++ d.closing.toList ++ rest)) :
    (src.originAt d before).found? text =
      some ⟨[], ⟨content, d, .past before (d.opening.toList ++ inner ++ d.closing.toList ++ rest)⟩,
        .past (before ++ (d.opening.toList ++ inner ++ d.closing.toList)) rest⟩ := by
  have hplace : (Cursor.start text.toList).skip before.length =
      .past before (d.opening.toList ++ inner ++ d.closing.toList ++ rest) := by
    rw [htext]
    exact @Cursor.skip_past [] _ before
  have hcut : Text.cut? d.opening.toList
      (Cursor.past before (d.opening.toList ++ inner ++ d.closing.toList ++ rest)).rest =
      some ([], inner ++ d.closing.toList ++ rest) := by
    have hfirst := Text.cut?_sep d.opening.toList (inner ++ d.closing.toList ++ rest)
    simpa [Cursor.past] using hfirst
  have hlength : (d.opening.toList ++ inner ++ d.closing.toList ++ rest).length - rest.length =
      (d.opening.toList ++ inner ++ d.closing.toList).length := by
    simp only [List.length_append]
    omega
  have hnext := next_of_cut? hcut hscan src.file
  have hskip : (Cursor.past before (d.opening.toList ++ inner ++ d.closing.toList ++ rest)).skip
      ([] : List Char).length =
        .past before (d.opening.toList ++ inner ++ d.closing.toList ++ rest) := rfl
  have hrest : (Cursor.past before (d.opening.toList ++ inner ++ d.closing.toList ++ rest)).rest =
      d.opening.toList ++ inner ++ d.closing.toList ++ rest := rfl
  rw [hskip, hrest, hlength, Cursor.skip_past] at hnext
  have hsite : (src.originAt d before).site = .parsed src.compilation before.length := rfl
  have hfile : (src.originAt d before).file = src.file := rfl
  have hdelimiters : (src.originAt d before).delimiters = d := rfl
  rw [Origin.found?, hsite]
  simp only [hfile, hdelimiters, hplace, hnext]
  rfl

/-- The tag of a piece is found again. -/
theorem found?_originAt (hp : p.Stands q rest) (htext : text.toList = q ++ (p.source ++ rest)) :
    (src.originAt p.delimiters (q ++ p.literal ++ p.lead)).found? text =
      some { p.found q rest with before := [] } := by
  have hwritten : text.toList = q ++ p.literal ++ p.lead ++
      (p.delimiters.opening.toList ++ p.inner ++ p.delimiters.closing.toList ++
        (p.trail ++ rest)) := by
    rw [htext, Piece.source]
    simp
  exact found?_of_lexed hp.lexed hwritten

theorem standsAlone_found :
    (p.found q rest).standsAlone = true ↔
      p.content.mayStandAlone = true ∧
        Text.StandsAlone (q ++ p.literal ++ p.lead) (p.trail ++ rest) :=
  isSome_lineRest?_past (rfl : (p.tag q rest).place = .past _ _)

/-- The tag of a piece stands alone where the piece says so. -/
theorem standsAlone_originAt (src : Source) (hp : p.Stands q rest)
    (htext : text.toList = q ++ (p.source ++ rest)) :
    (src.originAt p.delimiters (q ++ p.literal ++ p.lead)).standsAlone text = true ↔
      p.content.mayStandAlone = true ∧
        Text.StandsAlone (q ++ p.literal ++ p.lead) (p.trail ++ rest) := by
  rw [Origin.standsAlone, found?_originAt hp htext, Option.any_some]
  exact standsAlone_found

end Code

end Mustache
