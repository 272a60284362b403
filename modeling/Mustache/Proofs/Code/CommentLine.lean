import Mustache.Proofs.Code.Seams
import Mustache.Proofs.Code.Trace

/-! # Comments on lines of their own

A comment that stands alone on its line goes away with it.  A template with such a line put in is
parsed to the same tree as without it, and fails in the same way: all that differs are the lines
that are counted, and the raw texts of the sections that the line stands in.

* `CommentLine` — a line with a comment and nothing else.
* `Adjustment.around` — what is left of a tree when lines and the raw texts of some sections are
  left out.
* `Scan.Stops` — a scan stops outside of any tag.
* `Scan.Abreast.outcome_eq` — the end of a text behind one text and behind another.
* `parse_commentLine` — a line with a comment is put in.
-/

namespace Mustache

/-- Lines and sites are left out, and so are the raw texts of the sections at some sites. -/
def Adjustment.around (sites : List Site) : Adjustment :=
  { unlined with raw := fun o raw => if o.site ∈ sites then "" else raw }

theorem Adjustment.raw_around_of_mem {sites : List Site} {o : Origin} (h : o.site ∈ sites)
    (raw : String) : (around sites).raw o raw = "" :=
  if_pos h

theorem Adjustment.raw_around_of_not_mem {sites : List Site} {o : Origin} (h : o.site ∉ sites)
    (raw : String) : (around sites).raw o raw = raw :=
  if_neg h

namespace Code

open Text (WholeLines)

/-- A line with a comment on it, and nothing else but spaces and tabs.  The comment may go on over
    several lines. -/
inductive CommentLine (d : Delimiters) : List Char → Prop
  | intro {lead inner spacing ending : List Char} (hlead : lead.all Text.isSpacing = true)
      (hcomment : (Text.trim inner).head? = some '!')
      (hinner : Text.OnlyAtEnd d.closing.toList inner)
      (hspacing : spacing.all Text.isSpacing = true)
      (hending : ending = ['\n'] ∨ ending = ['\r', '\n']) :
      CommentLine d (lead ++ (d.opening.toList ++ inner ++ d.closing.toList) ++
        (spacing ++ ending))

variable {src : Source} {d : Delimiters} {line a q r x rest : List Char}

theorem CommentLine.wholeLines (h : CommentLine d line) : WholeLines line := by
  obtain ⟨-, -, -, -, rfl | rfl⟩ := h
  · exact .inr (by simp)
  · exact .inr (by simp)

/-- Behind whole lines, a line with a comment is a piece together with the literal text in front of
    it. -/
theorem CommentLine.exists_piece (h : CommentLine d line) (hd : d.isValid = true)
    (hqr : WholeLines (q ++ r)) (hcut : Text.cut? d.opening.toList r = none) (rest : List Char) :
    ∃ p : Piece, p.source = r ++ line ∧ p.Stands q rest ∧ p.delimiters = d ∧
      p.content = .comment ∧ p.literal = r := by
  obtain @⟨lead, inner, spacing, ending, hlead, hcomment, hinner, hspacing, hending⟩ := h
  have hopening := (Bool.and_eq_true_iff.mp hd).1
  have hbefore : Text.lastLine (q ++ r ++ lead) = lead := by
    rw [Text.lastLine_append_of_wholeLines hqr,
      Text.lastLine_of_not_mem (Text.not_mem_of_all_isSpacing hlead)]
  have htrail : Text.EndsLine spacing (spacing ++ ending) rest := by
    obtain rfl | rfl := hending
    · exact .lineFeed hspacing rest
    · exact .carriageReturn hspacing rest
  refine ⟨⟨r, lead, inner, spacing ++ ending, d, .comment⟩, by simp [Piece.source], ⟨?_, ?_, ?_⟩,
    rfl, rfl, rfl⟩
  · have hr : WholeLines r := hqr.right
    have hnext := Text.cut?_append_of_wholeLines (not_mem_of_isUsable hopening) hr hcut
      (lead ++ (d.opening.toList ++ (inner ++ d.closing.toList ++ (spacing ++ ending ++ rest))))
    rw [Text.cut?_spacing hopening hlead] at hnext
    simpa [Piece.source] using hnext
  · have hlexed : Tag.scanInside d (inner ++ (d.closing.toList ++ (spacing ++ ending ++ rest))) =
        .ok (.comment, spacing ++ ending ++ rest) :=
      Tag.scanInside_comment_iff.mpr ⟨hcomment, hinner⟩
    simpa using hlexed
  · exact .inl ⟨rfl, ⟨by rw [hbefore]; exact hlead, spacing, _, rest, rfl, htrail⟩,
      hbefore.symm, spacing, htrail⟩

namespace Scan

variable {s t u u' : Scan} {e : SyntaxError}

/-- A scan goes no further, and not because a tag is cut off: it is at the end of the text, or a
    whole tag is at fault. -/
structure Stops (src : Source) (s : Scan) : Prop where
  last : ∀ t, ¬ s.Step src t
  outside : ∀ e, Tag.next src.file s.delimiters s.cursor = .error e → e.cause.isCutOff = false

/-- Whether the next tag, if there is one, is not cut off. -/
def isOutside (src : Source) (s : Scan) : Bool :=
  match Tag.next src.file s.delimiters s.cursor with
  | .error e => !e.cause.isCutOff
  | .ok _ => true

theorem stops_iff : s.Stops src ↔ (step? src s).isNone = true ∧ s.isOutside src = true := by
  have houtside : s.isOutside src = true ↔
      ∀ e, Tag.next src.file s.delimiters s.cursor = .error e → e.cause.isCutOff = false := by
    rw [isOutside]
    cases Tag.next src.file s.delimiters s.cursor <;> simp
  rw [houtside, Option.isNone_iff_eq_none]
  refine ⟨fun h => ⟨Option.eq_none_iff_forall_ne_some.mpr fun t ht => ?_, h.outside⟩,
    fun h => ⟨not_step_of_step?_eq_none h.1, h.2⟩⟩
  exact h.last t (step?_eq_some_iff.mp ht)

instance (src : Source) (s : Scan) : Decidable (s.Stops src) :=
  decidable_of_iff _ stops_iff.symm

/-- Passing a line with a comment on it, together with the literal text in front of it. -/
theorem step_commentLine (h : CommentLine s.delimiters line) (hs : s.Sound q (r ++ (line ++ x)))
    (hqr : WholeLines (q ++ r)) (hcut : Text.cut? s.delimiters.opening.toList r = none) :
    s.Step src { s with text := s.text ++ r, cursor := .past (q ++ r ++ line) x } := by
  obtain ⟨p, hsource, hp, hd, hcontent, rfl⟩ := h.exists_piece hs.delimiters hqr hcut x
  have hsound : s.Sound q (p.source ++ x) := by rwa [hsource, List.append_assoc]
  refine ⟨p.found q x, hsound.meets hp hd, ?_⟩
  have hpasses : s.Passes src (p.found q x) _ := .comment hcontent
  rwa [hp.settleFound_eq, hsource, ← List.append_assoc] at hpasses

end Scan

/-- What is left of what the parser makes of a template when its data are adjusted, and lines of
    errors are left out. -/
def outcome (f : Adjustment) (r : Except SyntaxError (List Code)) :
    Except SyntaxError (List Code) :=
  match r with
  | .ok codes => .ok (adjustAll f codes)
  | .error e => .error e.unlined

/-! ## A line is put in -/

/-- The sites of the tags that are open. -/
def Scan.openSites (src : Source) (s : Scan) : List Site :=
  s.frames.map fun F => (src.origin F.tag).site

variable {C : Comparison} {sites : List Site} {y y' : List Char}

theorem fits_around {a a' : List Char} (ha : WholeLines a) (ha' : WholeLines a')
    (hsites : ∀ site ∈ sites, ∃ n k, site = .parsed n k ∧ k < a.length ∧ k < a'.length) :
    (Comparison.by src (.around sites)).Fits a a' := by
  -- Behind the text, no tag is at a site in it.
  have hnot {q : List Char} (d : Delimiters) {b : List Char}
      (hb : ∀ site ∈ sites, ∃ n k, site = .parsed n k ∧ k < b.length) :
      (src.originAt d (b ++ q)).site ∉ sites := by
    intro hmem
    obtain ⟨n, k, heq, hlt⟩ := hb _ hmem
    have hk : (b ++ q).length = k := (Site.parsed.inj heq).2
    rw [List.length_append] at hk
    omega
  have hleft (q : List Char) (d : Delimiters) : (src.originAt d (a ++ q)).site ∉ sites :=
    hnot d fun site hmem => by
      obtain ⟨n, k, heq, hlt, -⟩ := hsites site hmem
      exact ⟨n, k, heq, hlt⟩
  have hright (q : List Char) (d : Delimiters) : (src.originAt d (a' ++ q)).site ∉ sites :=
    hnot d fun site hmem => by
      obtain ⟨n, k, heq, -, hlt⟩ := hsites site hmem
      exact ⟨n, k, heq, hlt⟩
  refine ⟨fun d q => ?_, fun d q raw => ?_, fun _ _ _ => rfl⟩
  · change (src.originAt d (a ++ q)).unlined = (src.originAt d (a' ++ q)).unlined
    simp only [Origin.unlined, Origin.relabel, Origin.at, Source.originAt, Site.forget,
      Text.lastLine_append_of_wholeLines ha, Text.lastLine_append_of_wholeLines ha']
  · exact (Adjustment.raw_around_of_not_mem (hleft q d) raw).trans
      (Adjustment.raw_around_of_not_mem (hright q d) raw).symm

/-- The tags that are open in front of two texts are the same. -/
theorem Frame.Abreast.same {F F' : Frame} {m : List Char} (h : F.Abreast [] [] m y y' F')
    (src : Source) :
    (src.origin F.tag).site = (src.origin F'.tag).site ∧
      F.tag.place.column = F'.tag.place.column ∧
      ∃ n k, (src.origin F.tag).site = .parsed n k ∧ k < m.length := by
  obtain ⟨content, d, q₀, after, after', q₁, r₁, rfl, hlt, htag, htag', -, -⟩ := h
  refine ⟨by rw [htag, htag', origin_past, origin_past],
    by rw [htag, htag', column_past, column_past], src.compilation, q₀.length,
    by rw [htag, origin_past]; rfl, ?_⟩
  rw [List.length_append]
  omega

/-- Tags in the same column, both of them at sites that are known. -/
def Frame.Listed (src : Source) (sites : List Site) (F F' : Frame) : Prop :=
  F.tag.place.column = F'.tag.place.column ∧
    (src.origin F.tag).site ∈ sites ∧ (src.origin F'.tag).site ∈ sites

namespace Scan

variable {s t u u' : Scan} {e : SyntaxError}

/-- The raw texts of the tags at some sites are left out, wherever the tags are closed. -/
theorem settled_listed (src : Source) (sites : List Site) (a a' : List Char) :
    Settled (.by src (.around sites)) (Frame.Listed src sites) a a' := by
  rintro F F' ⟨-, hF, hF'⟩ x
  exact (Adjustment.raw_around_of_mem hF _).trans (Adjustment.raw_around_of_mem hF' _).symm

/-- Origins behind a text, and behind the text with a line put in, are adjusted alike: the tags that
    are open in the text are at sites of their own. -/
theorem fits_openSites (src : Source) {m : List Char} (hm : WholeLines m)
    (hline : WholeLines line) (h : u.Alike C (Frame.Abreast [] [] m y y') u') :
    (Comparison.by src (.around (u.openSites src))).Fits m (m ++ line) := by
  have hframes : ∀ F ∈ u.frames, ∃ n k,
      (src.origin F.tag).site = .parsed n k ∧ k < m.length :=
    ((List.forall₂_and_left _ _).mp
      (h.frames.imp fun F F' hF => ⟨(hF.2.same src).2.2, trivial⟩)).1
  refine fits_around hm (hm.append hline) fun site hsite => ?_
  obtain ⟨F, hF, rfl⟩ := List.mem_map.mp hsite
  obtain ⟨n, k, hsite, hlt⟩ := hframes F hF
  refine ⟨n, k, hsite, hlt, ?_⟩
  rw [List.length_append]
  omega

/-- The tags that are open in front of two texts are listed. -/
theorem listed_openSites {m : List Char} (h : u.Alike C (Frame.Abreast [] [] m y y') u')
    (src : Source) : List.Forall₂ (fun F F' => F.Alike C F' ∧ F.Listed src (u.openSites src) F')
      u.frames u'.frames := by
  have hopen : ∀ F ∈ u.frames, (src.origin F.tag).site ∈ u.openSites src := fun F hF =>
    List.mem_map_of_mem hF
  refine ((List.forall₂_and_left _ _).mpr ⟨hopen, h.frames⟩).imp ?_
  rintro F F' ⟨hmem, hF, habreast⟩
  obtain ⟨hsame, hcolumn, -⟩ := habreast.same src
  exact ⟨hF, hcolumn, hmem, hsame ▸ hmem⟩

/-- The end of a text comes to the same behind one text and behind another. -/
theorem Abreast.outcome_eq {Old : Frame → Frame → Prop} {a a' m : List Char}
    (h : s.Abreast C Old a a' m [] [] u) (hC : C.Fits a a') (hold : Settled C Old a a')
    (hcolumns : ∀ F F', Old F F' → F.tag.place.column = F'.tag.place.column)
    (ha : WholeLines a) (ha' : WholeLines a') :
    outcome C.f (answer C.src s) = outcome C.f' (answer C.src' u) := by
  obtain ⟨t, hreaches, hstop⟩ := exists_stop C.src s
  obtain ⟨t', hreaches', ht⟩ :=
    h.reaches hC hold ha ha' (.inl rfl) hreaches ⟨_, (List.append_nil _).symm⟩
  rw [answer_reaches hreaches, answer_reaches hreaches']
  obtain ⟨codes, hends⟩ | ⟨e, hfault⟩ := hstop
  · obtain ⟨codes', hends', hcodes⟩ := ht.ends hends
    rw [answer_ends hends, answer_ends hends']
    exact congrArg Except.ok hcodes
  · obtain ⟨e', hfault', he⟩ := ht.fault hC ha ha' hcolumns hfault
    rw [answer_fault hfault, answer_fault hfault']
    exact congrArg Except.error he.symm

/-- Behind a line with a comment, a scan goes on as it does without the line. -/
theorem outcome_commentLine {b : String} {u₁ u₂ : Scan}
    (ha : WholeLines (q ++ r)) (hline : CommentLine u₁.delimiters line)
    (hcut : Text.cut? u₁.delimiters.opening.toList r = none)
    (h₁ : u₁.Sound q (r ++ b.toList)) (h₂ : u₂.Sound q (r ++ (line ++ b.toList)))
    (halike : u₁.Alike (.by src (.around (u₁.openSites src)))
      (Frame.Abreast [] [] (q ++ r) b.toList (line ++ b.toList)) u₂) :
    outcome (.around (u₁.openSites src)) (answer src u₁) =
      outcome (.around (u₁.openSites src)) (answer src u₂) := by
  have hfits := fits_openSites src ha hline.wholeLines halike
  have hlisted := listed_openSites halike src
  generalize u₁.openSites src = sites at halike hfits hlisted ⊢
  -- The literal text in front of the line is passed on one side, and the line with it on the other.
  let v₁ : Scan := u₁.pass q r b.toList
  let v₂ : Scan := { u₂ with text := u₂.text ++ r, cursor := .past (q ++ r ++ line) b.toList }
  have hpass : answer src u₁ = answer src v₁ :=
    answer_pass h₁.cursor h₁.delimiters ha.right hcut
  have hstep : answer src u₂ = answer src v₂ := by
    rw [halike.delimiters] at hline hcut
    exact answer_reaches (.single (step_commentLine hline h₂ ha hcut))
  have hv : v₁.Abreast (.by src (.around sites)) (Frame.Listed src sites) (q ++ r)
      (q ++ r ++ line) b.toList [] [] v₂ := by
    refine ⟨⟨?_, halike.delimiters, fun _ => ?_, halike.codes⟩, [], b.toList, rfl, ?_, ?_⟩
    · exact hlisted.imp fun F F' hF => ⟨hF.1, .inr hF.2⟩
    · exact congrArg (· ++ r) (halike.text rfl)
    · rw [List.append_nil, List.append_nil]
      exact ⟨rfl, h₁.delimiters, h₁.frames, fresh_of_wholeLines ha _⟩
    · rw [List.append_nil, List.append_nil]
      exact ⟨rfl, h₂.delimiters, h₂.frames,
        fresh_of_wholeLines (ha.append hline.wholeLines) _⟩
  rw [hpass, hstep]
  exact hv.outcome_eq hfits (settled_listed src sites _ _) (fun F F' hF => hF.1) ha
    (ha.append hline.wholeLines)

/-- The sites of open tags do not depend on the text behind them. -/
theorem openSites_of_alike {P : Frame → Frame → Prop} (h : u.Alike (.by src .same) P u') :
    u.openSites src = u'.openSites src := by
  rw [openSites, openSites, ← List.forall₂_eq_eq_eq, List.forall₂_map_left_iff,
    List.forall₂_map_right_iff]
  refine h.frames.imp ?_
  rintro F F' ⟨hF, -⟩
  have horigin : src.origin F.tag = src.origin F'.tag := hF.origin
  exact congrArg Origin.site horigin

/-- Where a whole tag is at fault, it is at fault whatever follows. -/
theorem answer_of_stops {a text : String} {z : List Char} (hd : d.isValid = true)
    (ha : WholeLines a.toList) (htext : text.toList = a.toList ++ z)
    (hreaches : (start d a).Reaches src u) (hstops : u.Stops src)
    (hnext : Tag.next src.file u.delimiters u.cursor ≠ .ok none) (hfault : u.Fault src e) :
    ∃ e', parse src d text = .error e' ∧ e'.unlined = e.unlined := by
  obtain ⟨u', q, r, hreaches', hqr, hu, hu', halike⟩ := exists_reaches_append hd ha htext hreaches
  have hcertain : u.Certain src := by
    cases h : Tag.next src.file u.delimiters u.cursor with
    | error e' => exact .inr ⟨e', h, hstops.outside e' h⟩
    | ok found? =>
      cases found? with
      | none => exact absurd h hnext
      | some found => exact .inl ⟨found, h⟩
  obtain ⟨e', hfault', he⟩ := halike.fault (Comparison.fits_by src .same []) Text.wholeLines_nil
    Text.wholeLines_nil (q := q) hu hu'
    (fun F F' hF => column_abreast Text.wholeLines_nil Text.wholeLines_nil hF)
    (.inr ⟨hqr ▸ ha, hcertain⟩) hfault
  refine ⟨e', ?_, he⟩
  rw [← answer_start, answer_reaches hreaches', answer_fault hfault']

end Scan

/-- **A comment on a line of its own is invisible.**  Where a scan stops outside of any tag, at the
    end of whole lines, a line with a comment in the delimiters in force there may be put in: the
    same tree is made, or there is the same error, but for lines and for the raw texts of the
    sections that are open there. -/
theorem parse_commentLine {a b line : String} {u : Scan} (hd : d.isValid = true)
    (ha : WholeLines a.toList) (hreaches : (Scan.start d a).Reaches src u)
    (hstops : u.Stops src) (hline : CommentLine u.delimiters line.toList) :
    outcome (.around (u.openSites src)) (parse src d (a ++ line ++ b)) =
      outcome (.around (u.openSites src)) (parse src d (a ++ b)) := by
  have htext : (a ++ line ++ b).toList = a.toList ++ (line.toList ++ b.toList) := by
    rw [String.toList_append, String.toList_append, List.append_assoc]
  -- The scan stops at the end of the lines, or at a fault that both texts have.
  by_cases hnext : Tag.next src.file u.delimiters u.cursor = .ok none
  · obtain ⟨u₁, q, r, hreaches₁, hqr, hu, hu₁, halike₁⟩ :=
      Scan.exists_reaches_append hd ha (String.toList_append (s := a) (t := b)) hreaches
    rw [Scan.openSites_of_alike halike₁]
    rw [halike₁.delimiters] at hline hnext
    have hcut : Text.cut? u₁.delimiters.opening.toList r = none := by
      rw [hu.cursor] at hnext
      exact Tag.next_eq_none_iff.mp hnext
    obtain ⟨u₂, hreaches₂, halike, q₂, r₂, hqr₂, hsound₁, hsound₂⟩ := Scan.exists_reaches_front
      (Comparison.fits_by src (.around (u₁.openSites src)) []) hd ha String.toList_append htext
      hreaches₁ ⟨r, congrArg Cursor.rest hu₁.cursor⟩
    obtain rfl : r = r₂ := by
      have hrest := congrArg Cursor.rest (hu₁.cursor.symm.trans hsound₁.cursor)
      exact List.append_cancel_right hrest
    obtain rfl : q = q₂ := List.append_cancel_right (hqr.symm.trans hqr₂)
    rw [hqr] at ha halike
    rw [← Scan.answer_start, ← Scan.answer_start, Scan.answer_reaches hreaches₁,
      Scan.answer_reaches hreaches₂]
    refine (Scan.outcome_commentLine ha hline hcut hsound₁ hsound₂ ?_).symm
    exact ⟨halike.frames.imp fun F F' hF => ⟨hF.1, hF.2.resolve_right id⟩, halike.delimiters,
      halike.text, halike.codes⟩
  · obtain ⟨t, hstep⟩ | ⟨codes, hend, -⟩ | ⟨e, hfault⟩ := Scan.progress src u
    · exact absurd hstep (hstops.last t)
    · exact absurd hend hnext
    · obtain ⟨e₁, herror₁, he₁⟩ := Scan.answer_of_stops hd ha htext hreaches hstops hnext hfault
      obtain ⟨e₂, herror₂, he₂⟩ :=
        Scan.answer_of_stops hd ha String.toList_append hreaches hstops hnext hfault
      rw [herror₁, herror₂]
      exact congrArg Except.error (he₁.trans he₂.symm)

theorem parse_commentLine_page :
    let src : Source := ⟨"page", 0, []⟩
    let a := "{{#s}}\n{{=| |=}}\n"
    let line := "  |! c\nd|\t\r\n"
    let b := "x\n|>p|\n|/s|"
    ∃ u, (Scan.start .standard a).Reaches src u ∧ u.Stops src ∧
      CommentLine u.delimiters line.toList ∧
      outcome (.around (u.openSites src)) (parse src .standard (a ++ line ++ b)) =
        outcome (.around (u.openSites src)) (parse src .standard (a ++ b)) := by
  intro src a line b
  have hlast : (Scan.states src 17 (.start .standard a)).any
      (fun u => decide (u.Stops src ∧ u.delimiters = ⟨"|", "|"⟩)) = true := by decide +kernel
  obtain ⟨u, hmem, hu⟩ := List.any_eq_true.mp hlast
  obtain ⟨hstops, hdelimiters⟩ := of_decide_eq_true hu
  have hsplit : line.toList = [' ', ' '] ++ (['|'] ++ ['!', ' ', 'c', '\n', 'd'] ++ ['|']) ++
      (['\t'] ++ ['\r', '\n']) := by decide +kernel
  have hline : CommentLine u.delimiters line.toList := by
    rw [hdelimiters, hsplit]
    exact .intro (by decide) (by decide +kernel) (by decide +kernel) (by decide) (.inr rfl)
  have hreaches := Scan.reaches_of_mem_states hmem
  exact ⟨u, hreaches, hstops, hline,
    parse_commentLine (by decide +kernel) (.inr (by decide +kernel)) hreaches hstops hline⟩

end Code

end Mustache
