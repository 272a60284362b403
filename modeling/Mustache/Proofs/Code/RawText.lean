import Mustache.Proofs.Code.Alone
import Mustache.Proofs.Code.Enclosed

/-! # Raw texts

The raw text of a section is what stands between its tags.  If both tags stand alone on their lines,
it is whole lines, and a tag in it stands alone where it does so in the template.  So the raw text
is a template of its own, with the body of the section for its tree.

* `Piece.Stands.wholeLines`, `Piece.Stands.wholeLines_before` — lines around a tag that stands
  alone.
* `closing?_eq` — the close tag of a section is found again.
* `parse_lines` — whole lines of a template, without the template.
* `exists_parse_raw` — the tree of the raw text.
-/

namespace Mustache.Code

open Text (WholeLines)

variable {src : Source} {d : Delimiters} {p p₁ : Piece} {q rest rest₁ x : List Char} {text : String}
  {sec : Section Code}

/-! ## Around a tag that stands alone -/

namespace Piece.Stands

/-- Behind a tag that stands alone a line starts, unless the text is at its end. -/
theorem wholeLines (h : p.Stands q rest) (hrest : rest ≠ [])
    (halone : p.content.mayStandAlone = true ∧
      Text.StandsAlone (q ++ p.literal ++ p.lead) (p.trail ++ rest)) :
    WholeLines (q ++ p.source) := by
  obtain ⟨-, -, -, spacing, hends⟩ | ⟨hnot, -⟩ := h.line
  · have htrail := hends.getLast?_eq hrest
    have hne : p.trail ≠ [] := fun hnil => by
      rw [hnil] at htrail
      cases htrail
    rw [Piece.source, ← List.append_assoc]
    exact .inr (by rw [List.getLast?_append_of_ne_nil _ hne, htrail])
  · exact absurd halone hnot

/-- In front of the spacing before a tag that stands alone, a line starts. -/
theorem wholeLines_before (h : p.Stands q rest)
    (halone : p.content.mayStandAlone = true ∧
      Text.StandsAlone (q ++ p.literal ++ p.lead) (p.trail ++ rest)) :
    WholeLines (q ++ p.literal) := by
  obtain ⟨-, ⟨hspacing, -⟩, hlead, -⟩ | ⟨hnot, -⟩ := h.line
  -- A last line that is all spacing starts where the spacing starts.
  · rw [← hlead] at hspacing
    rw [Text.lastLine_append, if_neg (Text.not_mem_of_all_isSpacing hspacing)] at hlead
    exact Text.wholeLines_of_lastLine (List.self_eq_append_left.mp hlead)
  · exact absurd halone hnot

/-- A piece without its literal text stands behind that. -/
theorem behind_literal (h : p.Stands q rest) :
    ({ p with literal := [] } : Piece).Stands (q ++ p.literal) rest := by
  have hcut := Text.cut?_of_onlyAtEnd (Text.onlyAtEnd_of_cut? h.next).right
    (p.inner ++ p.delimiters.closing.toList ++ (p.trail ++ rest))
  refine ⟨?_, h.lexed, ?_⟩
  · simpa [Piece.source] using hcut
  · rw [List.append_nil]
    exact h.line

end Piece.Stands

/-! ## The close tag -/

theorem sect_of_ofBody {tag : Tag} {bracket : Tag.Bracket} {name : String} {start : Cursor}
    {b : Body} (h : ofBody src tag bracket name start b = .ok (.sect sec)) :
    sec.origin = src.origin tag ∧ sec.close = b.close ∧ sec.raw = rawText start b.stop ∧
      sec.body = b.codes := by
  cases bracket with
  | positive | negated => cases h; exact ⟨rfl, rfl, rfl, rfl⟩
  | block => cases h
  | extend =>
    simp only [ofBody] at h
    split at h <;> cases h

/-- How a tag is settled on its line does not depend on the literal text in front of it. -/
theorem after_settle (held : List Char) (tag : Tag) (after : Cursor) :
    (settle held tag after).after = (settle [] tag after).after := by
  unfold settle
  split <;> rfl

/-- The close tag of a section is found again. -/
theorem closing?_eq {m : List Char} (hp : p.Stands q rest)
    (htext : text.toList = q ++ (p.source ++ rest)) (hrest : rest = m ++ (p₁.source ++ rest₁))
    (hp₁ : p₁.Stands (q ++ p.source ++ m) rest₁) (horigin : sec.origin = src.origin (p.tag q rest))
    (hclose : sec.close = p₁.delimiters) (hraw : sec.raw.toList = m) :
    sec.closing? text = some (p₁.found (q ++ p.source ++ m) rest₁) := by
  have hopening : sec.origin.found? text = some { p.found q rest with before := [] } := by
    rw [horigin, Piece.tag, origin_past]
    exact found?_originAt hp htext
  have hsettle : (settleFound [] { p.found q rest with before := [] }).after =
      .past (q ++ p.source) rest := by
    have hfound := congrArg Settled.after (hp.settleFound_eq [])
    rw [settleFound, after_settle] at hfound
    exact hfound
  rw [Section.closing?, hopening, Option.bind_some, hsettle, hclose, hraw, hrest, Cursor.skip_past,
    hp₁.next_eq]
  rfl

/-! ## Lines of a template -/

theorem file_at (src : Source) (n : Nat) : src.file = (src.at n).file :=
  rfl

theorem pragmas_at (src : Source) (n : Nat) : src.pragmas = (src.at n).pragmas :=
  rfl

/-- A source and another compilation of it, without lines and sites. -/
def recompiled (src : Source) (n : Nat) : Comparison :=
  ⟨src, src.at n, .unlined, .unlined, file_at src n, pragmas_at src n, rfl⟩

theorem fits_recompiled {a a' : List Char} (n : Nat) (ha : WholeLines a) (ha' : WholeLines a') :
    (recompiled src n).Fits a a' := by
  refine ⟨fun d q => ?_, fun _ _ _ => rfl, fun _ _ _ => rfl⟩
  change (src.originAt d (a ++ q)).unlined = ((src.at n).originAt d (a' ++ q)).unlined
  simp only [Origin.unlined, Origin.relabel, Origin.at, Source.originAt, Site.forget,
    Text.lastLine_append_of_wholeLines ha, Text.lastLine_append_of_wholeLines ha']
  rfl

/-- Whole lines that are scanned in a template, with nothing around them, are parsed alike without
    the template. -/
theorem parse_lines {a m r y : List Char} {u : Scan} (n : Nat) (ha : WholeLines a)
    (hm : WholeLines m)
    (hs : (⟨[], d, [], [], .past a (m ++ y)⟩ : Scan).Sound a (m ++ y))
    (hreaches : Scan.Reaches src ⟨[], d, [], [], .past a (m ++ y)⟩ u) (hframes : u.frames = [])
    (hrest : u.cursor.rest = r ++ y) (hcut : Text.cut? u.delimiters.opening.toList r = none) :
    ∃ codes, parse (src.at n) d (.ofList m) = .ok codes ∧
      adjustAll .unlined codes = adjustAll .unlined (u.codes ++ flush (u.text ++ r) [.eof]) := by
  have hstart : (⟨[], d, [], [], .past a (m ++ y)⟩ : Scan).Abreast (recompiled src n)
      (fun _ _ => False) a [] m y [] (.start d (.ofList m)) := by
    refine ⟨⟨.nil, rfl, fun _ => rfl, rfl⟩, [], m, rfl, by rwa [List.append_nil], ?_⟩
    have hsound := Scan.sound_start hs.delimiters (.ofList m)
    rw [String.toList_ofList] at hsound
    rwa [List.append_nil, List.append_nil]
  obtain ⟨u', hreaches', halike, q, r', -, hu, hu'⟩ := hstart.reaches
    (fits_recompiled n ha Text.wholeLines_nil) (fun _ _ hF => hF.elim) ha Text.wholeLines_nil
    (.inr hm) hreaches ⟨r, hrest⟩
  obtain rfl : r = r' := by
    rw [hu.cursor] at hrest
    exact (List.append_cancel_right hrest).symm
  rw [List.append_nil] at hu'
  have hframes' : u'.frames = [] := halike.frames_eq_nil hframes
  have hnext : Tag.next (src.at n).file u'.delimiters u'.cursor = .ok none := by
    rw [Tag.next_eq_none_iff, ← halike.delimiters, hu'.cursor]
    exact hcut
  refine ⟨u'.codes ++ flush (u'.text ++ u'.cursor.rest) [.eof], ?_, ?_⟩
  · rw [← Scan.answer_start]
    exact Scan.answer_eq_ok_iff.mpr ⟨u', hreaches', hnext, hframes', rfl⟩
  · have hcodes : adjustAll .unlined u.codes = adjustAll .unlined u'.codes := halike.codes
    have htext : u.text = u'.text := halike.text rfl
    rw [adjustAll_append, adjustAll_append, ← hcodes, ← htext, hu'.cursor]
    rfl

/-! ## Sections -/

theorem file_of_writtenIn {codes : List Code} (hd : d.isValid = true)
    (hparse : parse src d text = .ok codes) (hsec : WrittenIn (.sect sec) codes) :
    sec.origin.file = src.file := by
  obtain ⟨-, -, -, -, -, -, -, -, hcode⟩ := encloses_of_parse hd hparse hsec
  exact congrArg Origin.file (sect_of_ofBody hcode).1

theorem rawText_past (a m y : List Char) :
    rawText (.past a (m ++ y)) (a ++ m).length = .ofList m := by
  have hoffset : (Cursor.past a (m ++ y)).offset = a.length := rfl
  have hcount : max (a ++ m).length a.length - a.length = m.length := by
    simp only [List.length_append]
    omega
  rw [rawText, hoffset, hcount]
  exact congrArg String.ofList List.take_left

/-- **The raw text of a section is a template of its own.**  If both tags of a section stand alone
    on their lines, its raw text is parsed to its body, in the delimiters of its open tag. -/
theorem exists_parse_raw {codes : List Code} (hd : d.isValid = true)
    (hparse : parse src d text = .ok codes) (hsec : WrittenIn (.sect sec) codes)
    (halone : sec.standsAlone text = true) (n : Nat) :
    ∃ codes', parse (src.at n) sec.origin.delimiters sec.raw = .ok codes' ∧
      adjustAll .unlined codes' = adjustAll .unlined (sec.body ++ [.eof]) := by
  obtain @⟨p, q, rest, bracket, name, u, found, htext, hp, hdp, -, hreaches, hframes, hmeets, -,
    hcode⟩ := encloses_of_parse hd hparse hsec
  have hstart : (Scan.behind p q rest).Sound (q ++ p.source) rest :=
    Scan.sound_alone hdp (hp.fresh hdp)
  obtain ⟨x, rest₁, hrest, hu⟩ := hstart.reaches (C := .by src .same) hreaches
  obtain ⟨p₁, rest₂, rfl, hp₁, hd₁, rfl⟩ := hu.exists_piece hmeets
  obtain ⟨horigin, hclose, hraw, hbody⟩ := sect_of_ofBody hcode
  -- The literal text in front of the close tag belongs to the raw text.
  have hp₂ := hp₁.behind_literal
  rw [List.append_assoc _ x] at hp₂
  have hsplit : rest =
      x ++ p₁.literal ++ (({ p₁ with literal := [] } : Piece).source ++ rest₂) := by
    rw [hrest]
    simp [Piece.source]
  generalize hm : x ++ p₁.literal = m at hp₂ hsplit
  rw [Scan.stop_found hp₁, hsplit, List.append_assoc (q ++ p.source), hm, rawText_past] at hraw
  -- With both tags found again, both pieces are known to stand alone.
  have hclosing := closing?_eq hp htext hsplit hp₂ horigin hclose
    (by rw [hraw, String.toList_ofList])
  rw [Section.standsAlone, hclosing, horigin, Piece.tag, origin_past, Bool.and_eq_true,
    Option.any_some, standsAlone_found, standsAlone_originAt src hp htext] at halone
  have hopening := ne_nil_of_isUsable (Bool.and_eq_true_iff.mp hu.delimiters).1
  rw [← hd₁] at hopening
  have hne : rest ≠ [] := fun hnil => by
    rw [hrest] at hnil
    simp [Piece.source, hopening] at hnil
  -- So the raw text is whole lines, and no tag begins in the literal text at its end.
  have hlines : WholeLines m := by
    have hbefore := hp₂.wholeLines_before halone.2
    rw [List.append_nil] at hbefore
    exact hbefore.right
  have hcut : Text.cut? u.delimiters.opening.toList p₁.literal = none := by
    rw [← hd₁]
    exact (Text.onlyAtEnd_of_cut? hp₁.next).cut?_left hopening
  have hcursor : u.cursor.rest =
      p₁.literal ++ (({ p₁ with literal := [] } : Piece).source ++ rest₂) := by
    rw [hu.cursor]
    simp [Cursor.past, Piece.source]
  rw [hsplit] at hstart hreaches
  obtain ⟨codes', hparse', hcodes⟩ := parse_lines n (hp.wholeLines hne halone.1) hlines hstart
    hreaches hframes hcursor hcut
  refine ⟨codes', ?_, ?_⟩
  · rw [horigin, hraw]
    exact hparse'
  · have hnodes : sec.body = u.codes ++ flush (u.text ++ p₁.literal) [] :=
      hbody.trans (Scan.body_found hp₁ u)
    rw [hcodes, hnodes, Scan.flush_eq, List.append_assoc]

end Mustache.Code
