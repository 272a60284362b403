import Mustache.Proofs.Code.Alone
import Mustache.Proofs.Code.Trace
import Mustache.Proofs.Text.Indentation

/-! # Templates that are indented

A template that is included on a line of its own is indented before it is parsed.  Indentation puts
spacing in front of its lines and changes nothing else of its tree: if only comments go over several
lines, the same tags stand where they stood, alone or not, on the same lines.

* `Adjustment.outline`, `Adjustment.indented` — what is compared of the two trees.
* `Piece.exists_indented` — a piece of the template is a piece of the indented one.
* `TagsOnOneLine` — whether only comments go over several lines.
* `Scan.Indented` — a scan of the template and one of the indented template, side by side.
* `parse_indentLines` — an indented template.
-/

namespace Mustache

/-! ## What is compared -/

namespace Adjustment

/-- Literals, raw texts and sites are left out.  The tags stay, with their names, delimiters and
    lines, and the indents of inclusions. -/
def outline : Adjustment where
  origin := Origin.relabel .forget
  raw _ _ := ""
  indent _ := id
  literals := false

/-- The same, and inclusions that stand alone are indented further; others are not indented. -/
def indented (indent text : String) : Adjustment :=
  { outline with indent := fun o x => if o.standsAlone text then indent ++ x else "" }

end Adjustment

namespace Code

open Text (indentFrom startsBehind)

variable {src : Source} {d : Delimiters} {i : List Char} {p : Piece} {q r rest : List Char}
  {text : String}

/-! ## Pieces -/

namespace Piece

/-- What stands in front of the tag of a piece when the text is indented. -/
def indentedBefore (i q : List Char) (p : Piece) : List Char :=
  indentFrom i (startsBehind true q) (p.literal ++ p.lead) ++
    if startsBehind true (q ++ p.literal ++ p.lead) then i else []

theorem indentedBefore_eq (i q : List Char) (p : Piece) :
    p.indentedBefore i q = indentFrom i (startsBehind true q) (p.literal ++ p.lead) ++
      if startsBehind (startsBehind true q) (p.literal ++ p.lead) then i else [] := by
  rw [indentedBefore, List.append_assoc q, Text.startsBehind_append]

/-- What stands in the tag when the text is indented. -/
def indentedInner (i : List Char) (p : Piece) : List Char :=
  indentFrom i false p.inner ++ if startsBehind false p.inner then i else []

def indentedSource (i q : List Char) (p : Piece) : List Char :=
  p.indentedBefore i q ++ (p.delimiters.opening.toList ++ p.indentedInner i ++
    p.delimiters.closing.toList) ++ p.trail

theorem startsBehind_source (hd : p.delimiters.isValid = true) (b : Bool) :
    startsBehind b p.source = startsBehind false p.trail := by
  have hclosing := (Bool.and_eq_true_iff.mp hd).2
  rw [source, Text.startsBehind_append]
  congr 1
  rw [← List.append_assoc, Text.startsBehind_append, Text.startsBehind_delimiter hclosing]

/-- A piece does not end inside of a line ending. -/
theorem Stands.getLast?_source (hp : p.Stands q rest) (hd : p.delimiters.isValid = true) :
    p.source.getLast? ≠ some '\r' := by
  have hclosing := (Bool.and_eq_true_iff.mp hd).2
  have hdelimiter : p.delimiters.closing.toList.getLast? ≠ some '\r' := fun h => by
    cases not_isBlank_of_isUsable hclosing (List.mem_of_getLast? h)
  have hclose : (p.literal ++ p.lead ++ (p.delimiters.opening.toList ++ p.inner ++
      p.delimiters.closing.toList)).getLast? ≠ some '\r' := by
    rwa [← List.append_assoc, List.getLast?_append_of_ne_nil _ (ne_nil_of_isUsable hclosing)]
  rw [source]
  by_cases htrail : p.trail = []
  · rwa [htrail, List.append_nil]
  · rw [← List.append_assoc, List.getLast?_append_of_ne_nil _ htrail]
    obtain ⟨-, -, -, spacing, hends⟩ | ⟨-, -, hnil⟩ := hp.line
    · exact hends.getLast?_ne
    · exact absurd hnil htrail

/-- The text from a piece on, when it is indented. -/
theorem Stands.indentFrom_eq (hp : p.Stands q rest) (hd : p.delimiters.isValid = true)
    (i : List Char) : indentFrom i (startsBehind true q) (p.source ++ rest) =
      p.indentedSource i q ++ indentFrom i (startsBehind true (q ++ p.source)) rest := by
  obtain ⟨hopening, hclosing⟩ := Bool.and_eq_true_iff.mp hd
  have hsplit : p.source ++ rest = (p.literal ++ p.lead) ++ (p.delimiters.opening.toList ++
      (p.inner ++ (p.delimiters.closing.toList ++ (p.trail ++ rest)))) := by simp [source]
  have htrail : indentFrom i false (p.trail ++ rest) =
      p.trail ++ indentFrom i (startsBehind false p.trail) rest := by
    obtain ⟨-, -, -, spacing, hends⟩ | ⟨-, -, hnil⟩ := hp.line
    · exact hends.indentFrom i
    · rw [hnil]
      rfl
  have hsource : startsBehind true (q ++ p.source) = startsBehind false p.trail := by
    rw [Text.startsBehind_append, startsBehind_source hd]
  rw [hsplit, Text.indentFrom_before hopening, Text.indentFrom_before hclosing, htrail, hsource,
    indentedSource, indentedBefore_eq, indentedInner]
  simp only [List.append_assoc]

theorem Stands.indentFrom_source (hp : p.Stands q rest) (hd : p.delimiters.isValid = true)
    (i : List Char) :
    indentFrom i (startsBehind true q) p.source = p.indentedSource i q := by
  have hcut := Text.indentFrom_append (fun h => absurd h (hp.getLast?_source hd)) i
    (startsBehind true q) (y := rest)
  rw [hp.indentFrom_eq hd, ← Text.startsBehind_append] at hcut
  exact (List.append_cancel_right hcut).symm

/-- Where a tag stands when the text is indented. -/
theorem append_indentedBefore (hq : q.getLast? ≠ some '\r') (i : List Char) (p : Piece) :
    indentFrom i true q ++ p.indentedBefore i q =
      indentFrom i true (q ++ p.literal ++ p.lead) ++
        if startsBehind true (q ++ p.literal ++ p.lead) then i else [] := by
  rw [indentedBefore, ← List.append_assoc, ← Text.indentFrom_append (fun h => absurd h hq),
    List.append_assoc q]

theorem lastLine_indentedBefore (hi : i.all Text.isSpacing = true) (hq : q.getLast? ≠ some '\r')
    (p : Piece) : Text.lastLine (indentFrom i true q ++ p.indentedBefore i q) =
      i ++ Text.lastLine (q ++ p.literal ++ p.lead) := by
  rw [append_indentedBefore hq, Text.lastLine_indentFrom_append (Text.not_mem_of_all_isSpacing hi)]

/-- The spacing in front of a tag that stands alone is indented. -/
theorem indentedBefore_of_standsAlone (hlead : p.lead.all Text.isSpacing = true)
    (hline : p.lead = Text.lastLine (q ++ p.literal ++ p.lead)) (i : List Char) :
    p.indentedBefore i q = indentFrom i (startsBehind true q) p.literal ++ (i ++ p.lead) := by
  have hfeed := Text.not_mem_of_all_isSpacing hlead
  have hbefore : startsBehind (startsBehind true q) p.literal = true := by
    rw [Text.lastLine_append, if_neg hfeed] at hline
    rw [← Text.startsBehind_append, Text.startsBehind_eq,
      List.self_eq_append_left.mp hline]
    rfl
  have hcut : p.literal.getLast? = some '\r' → p.lead.head? ≠ some '\n' :=
    fun _ hhead => hfeed (List.mem_of_head? hhead)
  rw [indentedBefore_eq, Text.startsBehind_append, Text.indentFrom_append hcut, hbefore,
    (Text.indentFrom_of_not_mem hfeed i).2, List.append_assoc]
  congr 1
  cases hnil : p.lead with
  | nil => simp [startsBehind]
  | cons c lead =>
    have hlast : (c :: lead).getLast? ≠ some '\n' := fun h =>
      hfeed (hnil ▸ List.mem_of_getLast? h)
    simp [startsBehind, hlast]

/-- What a tag says is not changed by indentation, if it is a comment or on one line. -/
theorem scanInside_indentedInner (hi : i.all Text.isSpacing = true)
    (hd : p.delimiters.isValid = true) (hp : p.Stands q rest)
    (hinner : p.content = .comment ∨ '\n' ∉ p.inner) (after : List Char) :
    Tag.scanInside p.delimiters (p.indentedInner i ++ p.delimiters.closing.toList ++ after) =
      .ok (p.content, after) := by
  have hclosing := (Bool.and_eq_true_iff.mp hd).2
  have hlexed := hp.lexed
  -- Only a comment goes over lines, and with indentation in it, it is still a comment.
  by_cases hline : '\n' ∈ p.inner
  · have hcomment := hinner.resolve_right (not_not_intro hline)
    rw [hcomment, List.append_assoc] at hlexed ⊢
    obtain ⟨hfirst, hend⟩ := Tag.scanInside_comment_iff.mp hlexed
    rw [Text.head?_trim] at hfirst
    refine Tag.scanInside_comment_iff.mpr ⟨?_, Text.onlyAtEnd_indentFrom hclosing hi hend false⟩
    rw [Text.head?_trim]
    exact Text.head?_trimStart_indentFrom hi hfirst _
  · have hlast : p.inner.getLast? ≠ some '\n' := fun h => hline (List.mem_of_getLast? h)
    have hsame : p.indentedInner i = p.inner := by
      rw [indentedInner, (Text.indentFrom_of_not_mem hline i).1]
      simp [startsBehind, hlast]
    rw [hsame]
    exact Tag.scanInside_congr hlexed after

/-- What the spacing in front of a tag makes a piece, where the text is indented. -/
theorem stands_indented {literal lead : List Char} (hp : p.Stands q rest)
    (hd : p.delimiters.isValid = true) (hi : i.all Text.isSpacing = true)
    (hinner : p.content = .comment ∨ '\n' ∉ p.inner)
    (hbefore : literal ++ lead = p.indentedBefore i q) (after : List Char)
    (hline : p.content.mayStandAlone = true ∧
        Text.StandsAlone (indentFrom i true q ++ (literal ++ lead)) (p.trail ++ after) ∧
        lead = Text.lastLine (indentFrom i true q ++ (literal ++ lead)) ∧
        (∃ spacing, Text.EndsLine spacing p.trail after) ∨
      ¬ (p.content.mayStandAlone = true ∧
        Text.StandsAlone (indentFrom i true q ++ (literal ++ lead)) (p.trail ++ after)) ∧
        lead = [] ∧ p.trail = []) :
    (⟨literal, lead, p.indentedInner i, p.trail, p.delimiters, p.content⟩ : Piece).Stands
      (indentFrom i true q) after := by
  have hopening := (Bool.and_eq_true_iff.mp hd).1
  refine ⟨?_, scanInside_indentedInner hi hd hp hinner _, by rwa [← List.append_assoc] at hline⟩
  have hend : Text.OnlyAtEnd p.delimiters.opening.toList (literal ++ lead) := by
    rw [hbefore, indentedBefore_eq]
    exact Text.onlyAtEnd_indentFrom hopening hi (Text.onlyAtEnd_of_cut? hp.next) _
  have hnext := Text.cut?_of_onlyAtEnd hend
    (p.indentedInner i ++ p.delimiters.closing.toList ++ (p.trail ++ after))
  simpa [source] using hnext

/-- A piece of a text is a piece of the indented text.  Its spacing is indented if its tag stands
    alone. -/
theorem Stands.exists_indented (src : Source) (hp : p.Stands q rest)
    (hd : p.delimiters.isValid = true)
    (hi : i.all Text.isSpacing = true) (hq : q.getLast? ≠ some '\r')
    (hinner : p.content = .comment ∨ '\n' ∉ p.inner)
    (htext : text.toList = q ++ (p.source ++ rest)) :
    ∃ p' : Piece, p'.source = p.indentedSource i q ∧ p'.delimiters = p.delimiters ∧
      p'.content = p.content ∧ p'.literal ++ p'.lead = p.indentedBefore i q ∧
      p'.Stands (indentFrom i true q) (indentFrom i (startsBehind true (q ++ p.source)) rest) ∧
      (p.content.mayStandAlone = true → String.ofList p'.lead =
        if (src.originAt p.delimiters (q ++ p.literal ++ p.lead)).standsAlone text then
          String.ofList i ++ String.ofList p.lead
        else "") := by
  have halone := standsAlone_originAt src hp htext
  have hlast := lastLine_indentedBefore hi hq p
  obtain ⟨hmay, hstands, hlead, spacing, hends⟩ | ⟨hnot, hlead, htrail⟩ := id hp.line
  -- The tag stands alone, and the indentation adds to the spacing in front of it.
  · have hspacing : p.lead.all Text.isSpacing = true := hlead ▸ hstands.1
    have hbefore := indentedBefore_of_standsAlone hspacing hlead i
    rw [← hlead, hbefore] at hlast
    have hends' : Text.EndsLine spacing p.trail
        (indentFrom i (startsBehind true (q ++ p.source)) rest) :=
      hends.elsewhere (.inr fun hnil => by rw [hnil]; rfl)
    refine ⟨⟨indentFrom i (startsBehind true q) p.literal, i ++ p.lead, p.indentedInner i, p.trail,
      p.delimiters, p.content⟩, ?_, rfl, rfl, hbefore.symm,
      stands_indented hp hd hi hinner hbefore.symm _
        (.inl ⟨hmay, ⟨?_, spacing, _, _, rfl, hends'⟩, hlast.symm, spacing, hends'⟩), fun _ => ?_⟩
    · rw [indentedSource, hbefore]
      rfl
    · rw [hlast, List.all_append, hi, hspacing]
      rfl
    · rw [if_pos (halone.mpr ⟨hmay, hstands⟩), String.ofList_append]
  -- It does not, so its line goes on, and all that is in front of it is literal text.
  · have hbehind : startsBehind true (q ++ p.source) = false := by
      rw [Text.startsBehind_append, startsBehind_source hd, htrail]
      rfl
    have hnot' : ¬ (p.content.mayStandAlone = true ∧ Text.StandsAlone
        (indentFrom i true q ++ (p.indentedBefore i q ++ []))
        (p.trail ++ indentFrom i (startsBehind true (q ++ p.source)) rest)) := by
      rw [List.append_nil, Text.standsAlone_iff, hlast, htrail, hbehind, List.nil_append,
        Text.blankLineRest?_indentFrom, List.all_append, hi, Bool.true_and]
      rwa [Text.standsAlone_iff, htrail] at hnot
    refine ⟨⟨p.indentedBefore i q, [], p.indentedInner i, p.trail, p.delimiters, p.content⟩, ?_,
      rfl, rfl, List.append_nil _, stands_indented hp hd hi hinner
      (List.append_nil _) _ (.inr ⟨hnot', rfl, htrail⟩), fun _ => ?_⟩
    · rw [indentedSource, source]
      simp
    · rw [if_neg (mt halone.mp hnot)]

/-- Where a tag stands does not depend on the indentation, but for what is in front of its line. -/
theorem origin_indentedBefore (hi : i.all Text.isSpacing = true) (hq : q.getLast? ≠ some '\r')
    (p : Piece) : (src.originAt d (indentFrom i true q ++ p.indentedBefore i q)).relabel .forget =
      (src.originAt d (q ++ p.literal ++ p.lead)).relabel .forget := by
  have hfeed := Text.not_mem_of_all_isSpacing hi
  have hcount : (indentFrom i true q ++ p.indentedBefore i q).count '\n' =
      (q ++ p.literal ++ p.lead).count '\n' := by
    rw [append_indentedBefore hq, List.count_append, Text.count_indentFrom hfeed]
    split
    · rw [List.count_eq_zero.mpr hfeed, Nat.add_zero]
    · rfl
  simp only [Origin.relabel, Origin.at, Source.originAt, hcount, lastLine_indentedBefore hi hq,
    List.all_append, hi, Bool.true_and]
  rfl

end Piece

/-! ## Scans -/

/-- A template and the indented template. -/
def indentation (src : Source) (i : List Char) (text : String) : Comparison :=
  .between src (.indented (.ofList i) text) .outline rfl

namespace Scan

variable {s s' t : Scan} {codes : List Code}

/-- Whether the next tag, if there is one, is a comment or on one line. -/
def isOnOneLine (src : Source) (s : Scan) : Bool :=
  match Tag.next src.file s.delimiters s.cursor with
  | .ok (some found) => found.tag.content = .comment || found.tag.place.line = found.after.line
  | _ => true

theorem inner_of_isOnOneLine (hmeets : s.Meets src (p.found q rest))
    (h : s.isOnOneLine src = true) : p.content = .comment ∨ '\n' ∉ p.inner := by
  rw [isOnOneLine, hmeets] at h
  simp only [Bool.or_eq_true, decide_eq_true_eq] at h
  refine h.imp id fun hline hmem => ?_
  have hcount : (q ++ p.literal ++ p.lead).count '\n' + 1 =
      (q ++ p.literal ++ p.lead ++ p.written).count '\n' + 1 := hline
  have hinner := List.count_pos_iff.mpr hmem
  simp only [Piece.written, List.count_append] at hcount
  omega

/-- A scan of a template and a scan of the indented template that have come to the same point. -/
structure Indented (src : Source) (i : List Char) (text : String) (s s' : Scan) : Prop where
  alike : s.Alike (indentation src i text) (fun _ _ => True) s'
  /-- The text that has been passed does not end inside of a line ending. -/
  place : ∃ q r, text.toList = q ++ r ∧ q.getLast? ≠ some '\r' ∧ s.Sound q r ∧
    s'.Sound (indentFrom i true q) (indentFrom i (startsBehind true q) r)

theorem indented_start (hd : d.isValid = true) (i : List Char) (text : String) :
    (start d text).Indented src i text (start d (.ofList (indentFrom i true text.toList))) := by
  have hsound := sound_start hd (.ofList (indentFrom i true text.toList))
  rw [String.toList_ofList] at hsound
  exact ⟨⟨.nil, rfl, fun _ => rfl, rfl⟩, [], text.toList, rfl, (by simp),
    sound_start hd text, hsound⟩

/-- A tag that is passed in a template is passed in the indented template. -/
theorem Indented.step (h : s.Indented src i text s') (hi : i.all Text.isSpacing = true)
    (honeLine : s.isOnOneLine src = true) (hstep : s.Step src t) :
    ∃ t', s'.Step src t' ∧ t.Indented src i text t' := by
  obtain ⟨q, r, htext, hq, hsound, hsound'⟩ := h.place
  obtain ⟨found, hmeets, hpasses⟩ := hstep
  obtain ⟨p, rest, rfl, hp, hd, rfl⟩ := hsound.exists_piece hmeets
  have hvalid : p.delimiters.isValid = true := hd ▸ hsound.delimiters
  obtain ⟨p', hsource, hdelimiters, hcontent, hbefore, hp', hindent⟩ :=
    hp.exists_indented src hvalid hi hq (inner_of_isOnOneLine hmeets honeLine) htext
  have hd' : p'.delimiters = s'.delimiters := hdelimiters.trans (hd.trans h.alike.delimiters)
  rw [hp.indentFrom_eq hvalid, ← hsource] at hsound'
  have hpiece : p.Alike (indentation src i text) q rest p' (indentFrom i true q)
      (indentFrom i (startsBehind true (q ++ p.source)) rest) := by
    refine ⟨hcontent.symm, fun h => absurd h Bool.false_ne_true, ?_, ?_⟩
    · rw [Piece.tag, Piece.tag, origin_past, origin_past, hdelimiters,
        List.append_assoc _ p'.literal, hbefore]
      exact (Piece.origin_indentedBefore hi hq p).symm
    · rintro ⟨name, hname⟩
      have hmay : p.content.mayStandAlone = true := by
        obtain hname | hname := hname <;> rw [hname] <;> rfl
      rw [Piece.tag, origin_past]
      exact (hindent hmay).symm
  obtain ⟨t', hpasses', halike⟩ := h.alike.passes hp hp' hd hd' hpiece
    (fun _ _ _ _ => trivial) (fun _ _ _ => rfl) hpasses
  refine ⟨t', ⟨_, hsound'.meets hp' hd', hpasses'⟩, halike, q ++ p.source, rest,
    by rw [htext, List.append_assoc], ?_, hsound.passes hp hd hpasses, ?_⟩
  · rw [List.getLast?_append]
    cases hlast : p.source.getLast? with
    | none => exact hq
    | some c =>
      rw [Option.some_or, ← hlast]
      exact hp.getLast?_source hvalid
  -- What has been passed on the other side is what has been passed here, indented.
  · have hpassed : indentFrom i true (q ++ p.source) = indentFrom i true q ++ p'.source := by
      rw [Text.indentFrom_append (fun hreturn => absurd hreturn hq), hp.indentFrom_source hvalid,
        hsource]
    rw [hpassed]
    exact hsound'.passes hp' hd' hpasses'

theorem Indented.reaches (h : s.Indented src i text s') (hi : i.all Text.isSpacing = true)
    (honeLine : ∀ t, Reaches src s t → t.isOnOneLine src = true) (hreaches : Reaches src s t) :
    ∃ t', Reaches src s' t' ∧ t.Indented src i text t' := by
  induction hreaches with
  | refl => exact ⟨s', .refl, h⟩
  | @tail u t hreaches hstep ih =>
    obtain ⟨u', hreaches', hu⟩ := ih
    obtain ⟨t', hstep', ht⟩ := hu.step hi (honeLine u hreaches) hstep
    exact ⟨t', hreaches'.tail hstep', ht⟩

/-- Indentation puts no tag behind the last one. -/
theorem Indented.ends (h : s.Indented src i text s') (hi : i.all Text.isSpacing = true)
    (hends : s.Ends src codes) : ∃ codes', s'.Ends src codes' ∧
      adjustAll (.indented (.ofList i) text) codes = adjustAll .outline codes' := by
  obtain ⟨q, r, -, -, hsound, hsound'⟩ := h.place
  refine h.alike.ends hends ?_ fun h => absurd h Bool.false_ne_true
  have hnext := Tag.next_eq_none_iff.mp hends.1
  rw [hsound.cursor] at hnext
  rw [Tag.next_eq_none_iff, ← h.alike.delimiters, hsound'.cursor]
  exact Text.cut?_indentFrom_eq_none (Bool.and_eq_true_iff.mp hsound.delimiters).1 hi hnext _

end Scan

/-! ## Indented templates -/

/-- No tag of a template goes over several lines, except for comments. -/
def TagsOnOneLine (src : Source) (d : Delimiters) (text : String) : Prop :=
  Scan.Throughout src d text (Scan.isOnOneLine src)

instance (src : Source) (d : Delimiters) (text : String) : Decidable (TagsOnOneLine src d text) :=
  inferInstanceAs (Decidable (Scan.Throughout src d text (Scan.isOnOneLine src)))

theorem exists_parse_indentFrom {codes : List Code} (hd : d.isValid = true)
    (hi : i.all Text.isSpacing = true) (hlines : TagsOnOneLine src d text)
    (hparse : parse src d text = .ok codes) :
    ∃ codes', parse src d (.ofList (indentFrom i true text.toList)) = .ok codes' ∧
      adjustAll (.indented (.ofList i) text) codes = adjustAll .outline codes' := by
  rw [← Scan.answer_start] at hparse
  obtain ⟨t, hreaches, hends⟩ := Scan.answer_eq_ok_iff.mp hparse
  obtain ⟨t', hreaches', ht⟩ := (Scan.indented_start hd i text).reaches hi hlines hreaches
  obtain ⟨codes', hends', hcodes⟩ := ht.ends hi hends
  refine ⟨codes', ?_, hcodes⟩
  rw [← Scan.answer_start]
  exact Scan.answer_eq_ok_iff.mpr ⟨t', hreaches', hends'⟩

/-- **An indented template has the same outline.**  If only comments go over several lines, a
    template is parsed to the same tags after it is indented, with the same nesting and on the same
    lines.  Inclusions that stand alone are indented further.  All others have no indent, before and
    after. -/
theorem parse_indentLines {indent : String} {codes : List Code} (hd : d.isValid = true)
    (hindent : indent.toList.all Text.isSpacing = true) (hlines : TagsOnOneLine src d text)
    (hparse : parse src d text = .ok codes) :
    (∃ codes', parse src d (.ofList (Text.indentLines indent.toList text.toList)) = .ok codes' ∧
      adjustAll (.indented indent text) codes = adjustAll .outline codes') ∧
    adjustAll (.indented "" text) codes = adjustAll .outline codes := by
  constructor
  · obtain ⟨codes', hparse', hcodes⟩ := exists_parse_indentFrom hd hindent hlines hparse
    rw [String.ofList_toList] at hcodes
    exact ⟨codes', by rw [Text.indentLines_eq]; exact hparse', hcodes⟩
  · obtain ⟨codes', hparse', hcodes⟩ := exists_parse_indentFrom (i := []) hd rfl hlines hparse
    rw [Text.indentFrom_nil, String.ofList_toList, hparse] at hparse'
    exact Except.ok.inj hparse' ▸ hcodes

theorem parse_indentLines_page :
    let src : Source := ⟨"page", 0, []⟩
    let text := "{{#s}}\r\n\r\n  {{> p}}\nx {{> p}}\n{{=| |=}}\n|! c\nd |\n\t|>*n|\r\n|/s|\n{{> p}}"
    ∃ codes codes', parse src .standard text = .ok codes ∧
      parse src .standard (.ofList (Text.indentLines [' ', '\t'] text.toList)) = .ok codes' ∧
      adjustAll (.indented " \t" text) codes = adjustAll .outline codes' ∧
      adjustAll (.indented "" text) codes = adjustAll .outline codes := by
  intro src text
  have hparse := eq_ok_of_isSome (x := parse src .standard text) (by decide +kernel) []
  obtain ⟨⟨codes', hparse', hcodes⟩, hself⟩ := parse_indentLines (by decide +kernel)
    (by decide +kernel : " \t".toList.all Text.isSpacing = true) (by decide +kernel) hparse
  exact ⟨_, codes', hparse, hparse', hcodes, hself⟩

end Code

end Mustache
