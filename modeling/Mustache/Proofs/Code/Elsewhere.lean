import Mustache.Proofs.Code.Lexing
import Mustache.Proofs.Code.Parallel
import Mustache.Proofs.Code.Reading
import Mustache.Proofs.Text.WholeLines

/-! # The same text elsewhere

What a tag says is a matter of its own text, and whether it stands alone is a matter of its line.
So the same lines are read in the same way wherever they stand: behind other lines, and in front of
another text.  Only where the tags stand is told from the text around them.

* `Piece.Stands.elsewhere` — a piece stands in the same way elsewhere.
* `Scan.Abreast` — scans of the same text in two places, at the same point of it.
* `Scan.Abreast.reaches` — they go on alike.
* `Scan.Abreast.fault`, `Scan.Abreast.ends` — they stop alike in front of the same text.
-/

namespace Mustache

/-! ## Pieces -/

namespace Code

open Text (WholeLines)

variable {p : Piece} {a a' q r y y' : List Char}

/-- A tag at fault is at fault elsewhere, in the same column.  More text may follow it, unless it is
    cut off. -/
theorem next_error_elsewhere {file : String} {d : Delimiters} {x z : List Char} {e : SyntaxError}
    (h : Tag.next file d (.past (a ++ q) x) = .error e) (ha : WholeLines a) (ha' : WholeLines a')
    (hd : d.isValid = true) (hz : z = [] ∨ e.cause.isCutOff = false) :
    ∃ e', Tag.next file d (.past (a' ++ q) (x ++ z)) = .error e' ∧ e'.unlined = e.unlined := by
  obtain ⟨before, inside, cause, hcut, hscan, rfl⟩ := Tag.next_eq_error_iff.mp h
  -- The opening delimiter is found where it was, so it is all about the text in the tag.
  have hcut' : Text.cut? d.opening.toList (x ++ z) = some (before, inside ++ z) := by
    rw [Text.eq_append_of_cut? hcut, List.append_assoc, List.append_assoc]
    exact Text.cut?_of_onlyAtEnd (Text.onlyAtEnd_of_cut? hcut) _
  have hscan' : Tag.scanInside d (inside ++ z) = .error cause := by
    obtain rfl | hcause := hz
    · rwa [List.append_nil]
    · exact Tag.scanInside_error_append hd hscan hcause z
  refine ⟨_, Tag.next_eq_error_iff.mpr ⟨before, inside ++ z, cause, hcut', hscan', rfl⟩, ?_⟩
  simp only [SyntaxError.unlined, List.append_assoc, Text.lastLine_append_of_wholeLines ha,
    Text.lastLine_append_of_wholeLines ha']

/-- A tag that is found between two texts is found between two other ones. -/
theorem Piece.Stands.elsewhere (h : p.Stands (a ++ q) (r ++ y)) (ha : WholeLines a)
    (ha' : WholeLines a') (hy : y = y' ∨ '\n' ∈ p.trail ++ r) :
    p.Stands (a' ++ q) (r ++ y') := by
  have hbefore : Text.lastLine (a' ++ q ++ p.literal ++ p.lead) =
      Text.lastLine (a ++ q ++ p.literal ++ p.lead) := by
    simp only [List.append_assoc, Text.lastLine_append_of_wholeLines ha,
      Text.lastLine_append_of_wholeLines ha']
  have hcut := Text.onlyAtEnd_of_cut? h.next
  refine ⟨?_, ?_, ?_⟩
  · have hnext := Text.cut?_of_onlyAtEnd hcut
      (p.inner ++ p.delimiters.closing.toList ++ (p.trail ++ (r ++ y')))
    simpa [Piece.source] using hnext
  · exact Tag.scanInside_congr h.lexed _
  · obtain ⟨hmay, ⟨hspacing, -⟩, hlead, spacing, htrail⟩ | ⟨hnot, hlead, htrail⟩ := h.line
    -- Without a line feed, only the end of the text ends a line.
    · have htrail' : Text.EndsLine spacing p.trail (r ++ y') := by
        refine htrail.elsewhere ?_
        obtain rfl | hfeed := hy
        · exact .inr id
        · refine (List.mem_append.mp hfeed).imp_right fun hmem hnil => ?_
          rw [(List.append_eq_nil_iff.mp hnil).1] at hmem
          cases hmem
      exact .inl ⟨hmay, ⟨hbefore ▸ hspacing, spacing, _, _, rfl, htrail'⟩, hbefore ▸ hlead,
        spacing, htrail'⟩
    · refine .inr ⟨?_, hlead, htrail⟩
      rintro ⟨hmay, hstands⟩
      refine hnot ⟨hmay, ?_⟩
      rw [Text.standsAlone_iff] at hstands ⊢
      rw [hbefore] at hstands
      refine ⟨hstands.1, ?_⟩
      -- Whether the line goes on blank is told before the first line feed.
      obtain rfl | hfeed := hy
      · exact hstands.2
      · rw [← List.append_assoc, Text.blankLineRest?_append hfeed] at hstands ⊢
        exact hstands.2

/-! ## Scans -/

theorem origin_past {src : Source} (content : Tag.Content) (d : Delimiters)
    (before after : List Char) :
    src.origin ⟨content, d, .past before after⟩ = src.originAt d before := by
  have hstarts := @startsLine_past before after ⟨content, d, .past before after⟩ rfl
  simp only [Source.origin, Source.originAt, hstarts]
  rfl

theorem column_past (before after : List Char) :
    (Cursor.past before after).column = (Text.lastLine before).length + 1 := by
  simp [Cursor.column, Cursor.past, Text.lastLine]

/-- Origins behind one text and behind another one are adjusted alike. -/
structure Comparison.Fits (C : Comparison) (a a' : List Char) : Prop where
  origin : ∀ d q, C.f.origin (C.src.originAt d (a ++ q)) = C.f'.origin (C.src'.originAt d (a' ++ q))
  raw : ∀ d q raw, C.f.raw (C.src.originAt d (a ++ q)) raw =
    C.f'.raw (C.src'.originAt d (a' ++ q)) raw
  indent : ∀ d q indent, C.f.indent (C.src.originAt d (a ++ q)) indent =
    C.f'.indent (C.src'.originAt d (a' ++ q)) indent

/-- The same data on both sides are adjusted alike. -/
theorem Comparison.fits_by (src : Source) (f : Adjustment) (a : List Char) :
    (Comparison.by src f).Fits a a :=
  ⟨fun _ _ => rfl, fun _ _ _ => rfl, fun _ _ _ => rfl⟩

/-- Tags of the same text that are open in two places. -/
def Frame.Abreast (a a' m y y' : List Char) (F F' : Frame) : Prop :=
  ∃ content d q₀ after after' q r, m = q ++ r ∧ q₀.length < q.length ∧
    F.tag = ⟨content, d, .past (a ++ q₀) after⟩ ∧ F'.tag = ⟨content, d, .past (a' ++ q₀) after'⟩ ∧
    F.start = .past (a ++ q) (r ++ y) ∧ F'.start = .past (a' ++ q) (r ++ y')

/-- Raw text is the same in two places. -/
theorem rawText_abreast {m q₁ r₁ : List Char} (hm : m = q ++ r) (hm₁ : m = q₁ ++ r₁) :
    rawText (.past (a ++ q) (r ++ y)) (a ++ q₁).length =
      rawText (.past (a' ++ q) (r ++ y')) (a' ++ q₁).length := by
  have hlength := congrArg List.length (hm.symm.trans hm₁)
  simp only [List.length_append] at hlength
  have hoffset (a y : List Char) : (Cursor.past (a ++ q) (r ++ y)).offset = (a ++ q).length := rfl
  have hcount (a : List Char) : max (a ++ q₁).length (a ++ q).length - (a ++ q).length =
      q₁.length - q.length := by
    simp only [List.length_append]
    omega
  have htake (y : List Char) : (r ++ y).take (q₁.length - q.length) =
      r.take (q₁.length - q.length) :=
    List.take_append_of_le_length (by omega)
  rw [rawText, rawText, hoffset, hoffset, hcount, hcount]
  exact congrArg String.ofList ((htake y).trans (htake y').symm)

namespace Scan

variable {C : Comparison} {Old : Frame → Frame → Prop} {s s' t : Scan} {m : List Char}

/-- Scans of a text that stands behind `a` and in front of `y` on one side, and behind `a'` and in
    front of `y'` on the other one, at the same point of the text.  Of the tags that were open in
    front of it, something else may be known. -/
structure Abreast (C : Comparison) (Old : Frame → Frame → Prop) (a a' m y y' : List Char)
    (s s' : Scan) : Prop where
  alike : s.Alike C (fun F F' => F.Abreast a a' m y y' F' ∨ Old F F') s'
  place : ∃ q r, m = q ++ r ∧ s.Sound (a ++ q) (r ++ y) ∧ s'.Sound (a' ++ q) (r ++ y')

/-- What of the tags open in front of a text has to be known for the scans to go on alike. -/
def Settled (C : Comparison) (Old : Frame → Frame → Prop) (a a' : List Char) : Prop :=
  ∀ F F', Old F F' → ∀ q,
    C.f.raw (C.src.origin F.tag) (rawText F.start (a ++ q).length) =
      C.f'.raw (C.src'.origin F'.tag) (rawText F'.start (a' ++ q).length)

/-- The same piece is alike in two places. -/
theorem alike_elsewhere (hC : C.Fits a a') (p : Piece) (q rest rest' : List Char) :
    p.Alike C (a ++ q) rest p (a' ++ q) rest' := by
  have hplace (a rest : List Char) : p.tag (a ++ q) rest =
      ⟨p.content, p.delimiters, .past (a ++ (q ++ p.literal ++ p.lead))
        (p.written ++ (p.trail ++ rest))⟩ := by
    simp only [Piece.tag, List.append_assoc]
  refine ⟨rfl, fun _ => rfl, ?_, fun _ => ?_⟩
  · rw [hplace, hplace, origin_past, origin_past]
    exact hC.origin _ _
  · rw [hplace, hplace, origin_past, origin_past]
    exact hC.indent _ _ _

/-- A tag does not end a line, so behind a tag that is in whole lines there is a line feed. -/
theorem mem_trail_of_wholeLines {p : Piece} (hd : p.delimiters.isValid = true)
    (hm : WholeLines (q ++ (p.source ++ r))) : '\n' ∈ p.trail ++ r := by
  have hclosing := (Bool.and_eq_true_iff.mp hd).2
  have hsource : q ++ (p.source ++ r) = q ++ p.literal ++ p.lead ++ p.delimiters.opening.toList ++
      p.inner ++ (p.delimiters.closing.toList ++ (p.trail ++ r)) := by
    simp [Piece.source]
  have hright : WholeLines (p.delimiters.closing.toList ++ (p.trail ++ r)) := (hsource ▸ hm).right
  refine hright.right.mem fun hnil => ?_
  rw [hnil, List.append_nil] at hright
  exact not_mem_of_isUsable hclosing (hright.mem (ne_nil_of_isUsable hclosing))

/-- What is alike of the tags that are open is enough for their raw texts. -/
theorem raw_abreast (hC : C.Fits a a') (hold : Settled C Old a a') {q r : List Char}
    (hm : m = q ++ r) {F F' : Frame} (hF : F.Abreast a a' m y y' F' ∨ Old F F') :
    C.f.raw (C.src.origin F.tag) (rawText F.start (a ++ q).length) =
      C.f'.raw (C.src'.origin F'.tag) (rawText F'.start (a' ++ q).length) := by
  obtain ⟨content, d, q₀, after, after', q₁, r₁, hm₁, -, htag, htag', hstart, hstart'⟩ | hF := hF
  · rw [htag, htag', hstart, hstart', origin_past, origin_past,
      rawText_abreast (a := a) (y := y) hm₁ hm]
    exact hC.raw _ _ _
  · exact hold F F' hF q

/-- A step within the text is made on the other side, too. -/
theorem Abreast.step (h : s.Abreast C Old a a' m y y' s') (hC : C.Fits a a')
    (hold : Settled C Old a a') (ha : WholeLines a) (ha' : WholeLines a')
    (hy : y = y' ∨ WholeLines m) (hstep : s.Step C.src t) (hrest : ∃ r, t.cursor.rest = r ++ y) :
    ∃ t', s'.Step C.src' t' ∧ t.Abreast C Old a a' m y y' t' := by
  obtain ⟨q, r, hm, hsound, hsound'⟩ := h.place
  obtain ⟨found, hmeets, hpasses⟩ := hstep
  obtain ⟨p, rest, htext, hp, hd, rfl⟩ := hsound.exists_piece hmeets
  -- The scan has not left the text yet, so the piece is within it.
  obtain ⟨r₁, hr₁⟩ := hrest
  obtain rfl : rest = r₁ ++ y := by
    rw [← hr₁, cursor_passes hpasses, hp.settleFound_eq]
    rfl
  obtain rfl : r = p.source ++ r₁ :=
    List.append_cancel_right (htext.trans (List.append_assoc p.source r₁ y).symm)
  have hvalid : p.delimiters.isValid = true := hd ▸ hsound.delimiters
  have hfeed : y = y' ∨ '\n' ∈ p.trail ++ r₁ :=
    hy.imp_right fun hwhole => mem_trail_of_wholeLines hvalid (hm ▸ hwhole)
  have hp' := hp.elsewhere ha ha' hfeed
  have hd' : p.delimiters = s'.delimiters := hd.trans h.alike.delimiters
  rw [List.append_assoc] at hsound hsound'
  have hbehind : m = (q ++ p.source) ++ r₁ := by rw [hm, List.append_assoc]
  have hshort : (q ++ p.literal ++ p.lead).length < (q ++ p.source).length := by
    have hopening := List.length_pos_iff.mpr (ne_nil_of_isUsable (Bool.and_eq_true_iff.mp hvalid).1)
    simp only [Piece.source, List.length_append]
    omega
  have hinside : m = (q ++ p.literal) ++ (p.lead ++ p.written ++ p.trail ++ r₁) := by
    rw [hm, Piece.source_eq]
    simp only [List.append_assoc]
  obtain ⟨t', hpasses', halike⟩ := h.alike.passes hp hp' hd hd' (alike_elsewhere hC p q _ _)
    (fun bracket name before before' => .inl ⟨p.content, p.delimiters, q ++ p.literal ++ p.lead, _,
      _, q ++ p.source, r₁, hbehind, hshort, by simp only [Piece.tag, List.append_assoc]; rfl,
      by simp only [Piece.tag, List.append_assoc]; rfl, by rw [List.append_assoc],
      by rw [List.append_assoc]⟩)
    (fun F F' hF => by
      rw [List.append_assoc, List.append_assoc]
      exact raw_abreast hC hold hinside hF) hpasses
  refine ⟨t', ⟨_, hsound'.meets hp' hd', hpasses'⟩, halike, q ++ p.source, r₁, hbehind, ?_, ?_⟩
  · rw [← List.append_assoc]
    exact hsound.passes hp hd hpasses
  · rw [← List.append_assoc]
    exact hsound'.passes hp' hd' hpasses'

/-- What a scan has left is the end of what it had left before. -/
theorem Sound.reaches {passed rest : List Char} (h : s.Sound passed rest)
    (hreaches : Reaches C.src s t) :
    ∃ x rest', rest = x ++ rest' ∧ t.Sound (passed ++ x) rest' := by
  induction hreaches with
  | refl => exact ⟨[], rest, rfl, by rwa [List.append_nil]⟩
  | tail _ hstep ih =>
    obtain ⟨x, rest', rfl, hsound⟩ := ih
    obtain ⟨found, hmeets, hpasses⟩ := hstep
    obtain ⟨p, rest'', rfl, hp, hd, rfl⟩ := hsound.exists_piece hmeets
    refine ⟨x ++ p.source, rest'', by rw [List.append_assoc], ?_⟩
    rw [← List.append_assoc]
    exact hsound.passes hp hd hpasses

/-- **The same text is scanned alike elsewhere**, as long as the scan stays within it. -/
theorem Abreast.reaches (h : s.Abreast C Old a a' m y y' s') (hC : C.Fits a a')
    (hold : Settled C Old a a') (ha : WholeLines a) (ha' : WholeLines a')
    (hy : y = y' ∨ WholeLines m) (hreaches : Reaches C.src s t)
    (hrest : ∃ r, t.cursor.rest = r ++ y) :
    ∃ t', Reaches C.src' s' t' ∧ t.Abreast C Old a a' m y y' t' := by
  induction hreaches with
  | refl => exact ⟨s', .refl, h⟩
  | @tail u t hreaches hstep ih =>
    obtain ⟨q, r, -, hsound, -⟩ := h.place
    obtain ⟨x, rest, -, hu⟩ := hsound.reaches hreaches
    obtain ⟨x', rest', rfl, ht⟩ := hu.reaches (.single hstep)
    obtain ⟨r₁, hr₁⟩ := hrest
    -- A scan that ends within the text has been within it all along.
    have hwithin : ∃ r, u.cursor.rest = r ++ y := by
      rw [ht.cursor] at hr₁
      obtain rfl : rest' = r₁ ++ y := hr₁
      exact ⟨x' ++ r₁, by rw [hu.cursor]; exact (List.append_assoc x' r₁ y).symm⟩
    obtain ⟨u', hreaches', hu'⟩ := ih hwithin
    obtain ⟨t', hstep', ht'⟩ := hu'.step hC hold ha ha' hy hstep ⟨r₁, hr₁⟩
    exact ⟨t', hreaches'.tail hstep', ht'⟩

/-! ## Where both stop -/

/-- What comes next is told by the text that there is, whatever follows it: a tag, or a tag at fault
    that is not cut off. -/
def Certain (src : Source) (s : Scan) : Prop :=
  (∃ found, s.Meets src found) ∨
    ∃ e, Tag.next src.file s.delimiters s.cursor = .error e ∧ e.cause.isCutOff = false

variable {P : Frame → Frame → Prop} {q x z : List Char} {e : SyntaxError} {codes : List Code}

/-- A tag at fault is met on both sides. -/
theorem Alike.fault_lexing (h : s.Alike C P s') (ha : WholeLines a) (ha' : WholeLines a')
    (hs : s.Sound (a ++ q) x) (hs' : s'.Sound (a' ++ q) (x ++ z))
    (hz : z = [] ∨ e.cause.isCutOff = false)
    (hnext : Tag.next C.src.file s.delimiters s.cursor = .error e) :
    ∃ e', s'.Fault C.src' e' ∧ e'.unlined = e.unlined := by
  rw [hs.cursor] at hnext
  have herror := next_error_elsewhere hnext ha ha' hs.delimiters hz
  rw [C.file, h.delimiters, ← hs'.cursor] at herror
  obtain ⟨e', he', hsame⟩ := herror
  exact ⟨e', .lexing he', hsame⟩

/-- At the end of the same text, the same tag is open on both sides. -/
theorem Alike.fault_unclosed {F : Frame} {frames : List Frame} (h : s.Alike C P s')
    (hs : s.Sound (a ++ q) x) (hs' : s'.Sound (a' ++ q) x)
    (hcolumns : ∀ F F', P F F' → F.tag.place.column = F'.tag.place.column)
    (hnext : Tag.next C.src.file s.delimiters s.cursor = .ok none)
    (hframes : s.frames = F :: frames) :
    ∃ e', s'.Fault C.src' e' ∧
      e'.unlined = (C.src.fault F.tag (.unclosedSection F.name)).unlined := by
  obtain ⟨F', frames', hframes', hF, hP, -⟩ := h.exists_frames hframes
  have hnext' : Tag.next C.src'.file s'.delimiters s'.cursor = .ok none := by
    rw [Tag.next_eq_none_iff, hs.cursor, h.delimiters] at hnext
    rw [Tag.next_eq_none_iff, hs'.cursor]
    exact hnext
  refine ⟨_, .unclosedSection hnext' hframes', ?_⟩
  simp only [Source.fault, SyntaxError.unlined, C.file, hcolumns F F' hP, hF.name]

/-- What is wrong at the next tag is wrong on both sides, if the tag stands in both texts. -/
theorem Alike.fault_tag {found : Tag.Found} (h : s.Alike C P s') (hC : C.Fits a a')
    (ha : WholeLines a) (ha' : WholeLines a') (hs : s.Sound (a ++ q) x)
    (hs' : s'.Sound (a' ++ q) (x ++ z))
    (hcolumns : ∀ F F', P F F' → F.tag.place.column = F'.tag.place.column)
    (hz : z = [] ∨ WholeLines (q ++ x)) (hmeets : s.Meets C.src found)
    (hfault : s.Fault C.src e) : ∃ e', s'.Fault C.src' e' ∧ e'.unlined = e.unlined := by
  obtain ⟨p, rest, rfl, hp, hd, rfl⟩ := hs.exists_piece hmeets
  have hfeed : [] = z ∨ '\n' ∈ p.trail ++ rest :=
    hz.imp Eq.symm (mem_trail_of_wholeLines (hd ▸ hs.delimiters))
  have hp' : p.Stands (a' ++ q) (rest ++ z) :=
    Piece.Stands.elsewhere (by rwa [List.append_nil]) ha ha' hfeed
  have hd' : p.delimiters = s'.delimiters := hd.trans h.delimiters
  rw [List.append_assoc] at hs'
  have hcolumn : (p.tag (a ++ q) rest).place.column =
      (p.tag (a' ++ q) (rest ++ z)).place.column := by
    simp only [Piece.tag, column_past, List.append_assoc, Text.lastLine_append_of_wholeLines ha,
      Text.lastLine_append_of_wholeLines ha']
  exact h.fault_found hp hp' (alike_elsewhere hC p q _ _) hcolumn hcolumns hmeets
    (hs'.meets hp' hd') hfault

/-- Scans that are alike and have the same text to come are at fault alike.  On one side there may
    be more text behind it, if what comes next is certain without it. -/
theorem Alike.fault (h : s.Alike C P s') (hC : C.Fits a a') (ha : WholeLines a)
    (ha' : WholeLines a') (hs : s.Sound (a ++ q) x) (hs' : s'.Sound (a' ++ q) (x ++ z))
    (hcolumns : ∀ F F', P F F' → F.tag.place.column = F'.tag.place.column)
    (hz : z = [] ∨ WholeLines (q ++ x) ∧ s.Certain C.src) (hfault : s.Fault C.src e) :
    ∃ e', s'.Fault C.src' e' ∧ e'.unlined = e.unlined := by
  have htag {found : Tag.Found} (hmeets : s.Meets C.src found) :
      ∃ e', s'.Fault C.src' e' ∧ e'.unlined = e.unlined :=
    h.fault_tag hC ha ha' hs hs' hcolumns (hz.imp_right And.left) hmeets hfault
  cases id hfault with
  | lexing hnext =>
    refine h.fault_lexing ha ha' hs hs' (hz.imp_right ?_) hnext
    rintro ⟨-, ⟨found, hmeets⟩ | ⟨e', he', hcut⟩⟩
    · cases hmeets.symm.trans hnext
    · exact Except.error.inj (hnext.symm.trans he') ▸ hcut
  | unclosedSection hnext hframes =>
    -- That the text is at its end is not certain, so nothing follows on the other side.
    obtain rfl : z = [] := hz.resolve_right fun hcertain => by
      obtain ⟨-, ⟨found, hmeets⟩ | ⟨e', he', -⟩⟩ := hcertain
      · cases hmeets.symm.trans hnext
      · cases he'.symm.trans hnext
    rw [List.append_nil] at hs'
    exact h.fault_unclosed hs hs' hcolumns hnext hframes
  | unexpectedClose hmeets => exact htag hmeets
  | mismatchedSection hmeets => exact htag hmeets
  | illegalExtendContent hmeets => exact htag hmeets

/-- The columns of tags that are open in both places are the same. -/
theorem column_abreast {F F' : Frame} (ha : WholeLines a) (ha' : WholeLines a')
    (h : F.Abreast a a' m y y' F') : F.tag.place.column = F'.tag.place.column := by
  obtain ⟨content, d, q₀, after, after', q₁, r₁, -, -, htag, htag', -, -⟩ := h
  simp only [htag, htag', column_past, Text.lastLine_append_of_wholeLines ha,
    Text.lastLine_append_of_wholeLines ha']

/-- Scans in front of the same text are at fault alike. -/
theorem Abreast.fault (h : s.Abreast C Old a a' m y y s') (hC : C.Fits a a') (ha : WholeLines a)
    (ha' : WholeLines a') (hold : ∀ F F', Old F F' → F.tag.place.column = F'.tag.place.column)
    (hfault : s.Fault C.src e) : ∃ e', s'.Fault C.src' e' ∧ e'.unlined = e.unlined := by
  obtain ⟨q, r, -, hsound, hsound'⟩ := h.place
  exact h.alike.fault hC ha ha' hsound (z := []) (by rwa [List.append_nil])
    (fun F F' hF => hF.elim (column_abreast ha ha') (hold F F')) (.inl rfl) hfault

/-- Scans in front of the same text come to the end alike. -/
theorem Abreast.ends (h : s.Abreast C Old a a' m y y s') (hends : s.Ends C.src codes) :
    ∃ codes', s'.Ends C.src' codes' ∧ adjustAll C.f codes = adjustAll C.f' codes' := by
  obtain ⟨q, r, -, hsound, hsound'⟩ := h.place
  have hrest : s.cursor.rest = s'.cursor.rest := by
    rw [hsound.cursor, hsound'.cursor]
    rfl
  refine h.alike.ends hends ?_ fun _ => hrest
  rw [Tag.next_eq_none_iff, ← hrest, ← h.alike.delimiters, ← Tag.next_eq_none_iff]
  exact hends.1

end Scan

end Code

end Mustache
