import Mustache.Proofs.Path.Segments

/-! # Extensions of paths

The path that a name stands for in a tag gets the extension of the including template.  The
extension is put behind the name before anything is folded away, and it is the name that decides
whether it is there already.  Folding does not take it away again: a segment that ends with an
extension names something, as long as the extension is more than a dot, and as the last segment it
has nothing behind it that would lead back out of it.  So the path ends with the extension, and is
its own path from the root, wherever it is asked for.

* `Path.IsExtension` — the extension of a name, as it is written.
* `Path.suffix_normalize` — folding keeps what a path ends with, if it is more than dots.
* `Path.normalize_of_isFolded` — there is nothing to fold away in a folded path.
* `Path.resolve_stable` — a path keeps its extension, and stands for itself from then on.
-/

namespace Mustache

namespace Text

variable {sep : Char} {s a b : List Char}

theorem not_mem_of_cutAtLast?_eq_none (h : cutAtLast? sep s = none) : sep ∉ s := by
  induction s with
  | nil => exact List.not_mem_nil
  | cons c s ih =>
    rw [cutAtLast?] at h
    split at h
    · cases h
    · next hrest =>
      split at h
      · cases h
      · next hc =>
        simp only [List.mem_cons, not_or]
        exact ⟨fun heq => hc (by simp [heq]), ih hrest⟩

/-- A text is cut at the last occurrence of a character: behind it there is none. -/
theorem exists_of_cutAtLast?_eq_some (h : cutAtLast? sep s = some (a, b)) :
    ∃ t, b = sep :: t ∧ s = a ++ sep :: t ∧ sep ∉ t := by
  induction s generalizing a with
  | nil => cases h
  | cons c s ih =>
    rw [cutAtLast?] at h
    split at h
    · next p hrest =>
      cases h
      obtain ⟨t, hb, hs, ht⟩ := ih hrest
      exact ⟨t, hb, by rw [hs, List.cons_append], ht⟩
    · next hrest =>
      split at h
      · next hc =>
        cases h
        obtain rfl := eq_of_beq hc
        exact ⟨s, rfl, rfl, not_mem_of_cutAtLast?_eq_none hrest⟩
      · cases h

/-- There is one way to cut a text at the last occurrence of a character. -/
theorem eq_of_append_cons_eq {a' t t' : List Char} (h : a ++ sep :: t = a' ++ sep :: t')
    (ht : sep ∉ t) (ht' : sep ∉ t') : a = a' ∧ t = t' := by
  obtain ⟨m, rfl, hm⟩ | ⟨m, rfl, hm⟩ := List.append_eq_append_iff.mp h
  · cases m with
    | nil => exact ⟨(List.append_nil a).symm, (List.cons.inj hm).2⟩
    | cons c m =>
      obtain ⟨-, rfl⟩ := List.cons.inj hm
      exact absurd (by simp) ht
  · cases m with
    | nil => exact ⟨List.append_nil a', (List.cons.inj hm).2.symm⟩
    | cons c m =>
      obtain ⟨-, rfl⟩ := List.cons.inj hm
      exact absurd (by simp) ht'

end Text

namespace Path

variable {name ext file seg x path : List Char} {segs kept : List (List Char)}

/-! ## The extension of a name -/

/-- The last segment of a name: what stands behind its last slash. -/
def IsLastSegment (file name : List Char) : Prop :=
  '/' ∉ file ∧ (name = file ∨ ∃ dir, name = dir ++ '/' :: file)

/-- The extension of a name: what stands from the last dot of its last segment on, or nothing if
    there is no dot. -/
def IsExtension (ext name : List Char) : Prop :=
  ∃ file, IsLastSegment file name ∧
    (ext = [] ∧ '.' ∉ file ∨
      ∃ stem letters, ext = '.' :: letters ∧ file = stem ++ ext ∧ '.' ∉ letters)

theorem isLastSegment_iff : IsLastSegment file name ↔ (splitDirectory name).2 = file := by
  have hcut : IsLastSegment (splitDirectory name).2 name := by
    unfold splitDirectory
    split
    · next dir rest hcut =>
      obtain ⟨t, rfl, hname, ht⟩ := Text.exists_of_cutAtLast?_eq_some hcut
      exact ⟨ht, .inr ⟨dir, hname⟩⟩
    · next hnone => exact ⟨Text.not_mem_of_cutAtLast?_eq_none hnone, .inl rfl⟩
  refine ⟨fun h => ?_, fun h => h ▸ hcut⟩
  obtain ⟨hfile, hname⟩ := h
  generalize (splitDirectory name).2 = file' at hcut
  obtain ⟨hfile', hname'⟩ := hcut
  obtain rfl | ⟨dir, rfl⟩ := hname
  · obtain rfl | ⟨dir', rfl⟩ := hname'
    · rfl
    · exact absurd (by simp) hfile
  · obtain rfl | ⟨dir', hdir'⟩ := hname'
    · exact absurd (by simp) hfile'
    · exact (Text.eq_of_append_cons_eq hdir' hfile hfile').2.symm

/-- Every name has one extension. -/
theorem isExtension_iff : IsExtension ext name ↔ extension (splitDirectory name).2 = ext := by
  have hcut (file : List Char) : extension file = [] ∧ '.' ∉ file ∨
      ∃ stem letters, extension file = '.' :: letters ∧ file = stem ++ extension file ∧
        '.' ∉ letters := by
    unfold extension
    split
    · next stem rest hcut =>
      obtain ⟨t, rfl, hfile, ht⟩ := Text.exists_of_cutAtLast?_eq_some hcut
      exact .inr ⟨stem, t, rfl, hfile, ht⟩
    · next hnone => exact .inl ⟨rfl, Text.not_mem_of_cutAtLast?_eq_none hnone⟩
  constructor
  · rintro ⟨file, hfile, hext⟩
    rw [isLastSegment_iff.mp hfile]
    have hcut := hcut file
    generalize extension file = ext' at hcut
    obtain ⟨rfl, hno⟩ | ⟨stem, letters, rfl, hstem, hletters⟩ := hext
    · obtain ⟨rfl, -⟩ | ⟨stem', letters', rfl, rfl, -⟩ := hcut
      · rfl
      · exact absurd (by simp) hno
    · obtain ⟨rfl, hno⟩ | ⟨stem', letters', rfl, hstem', hletters'⟩ := hcut
      · exact absurd (by simp [hstem]) hno
      · rw [(Text.eq_of_append_cons_eq (hstem ▸ hstem') hletters hletters').2]
  · rintro rfl
    exact ⟨_, isLastSegment_iff.mpr rfl, hcut _⟩

/-- An extension that is more than a dot starts with a dot, and has neither dots nor slashes behind
    it. -/
theorem IsExtension.exists_letters (h : IsExtension ext name) (hext : 1 < ext.length) :
    ∃ letters, ext = '.' :: letters ∧ letters ≠ [] ∧ '.' ∉ letters ∧ '/' ∉ ext := by
  obtain ⟨file, ⟨hslash, -⟩, ⟨rfl, -⟩ | ⟨stem, letters, rfl, rfl, hletters⟩⟩ := h
  · cases hext
  · refine ⟨letters, rfl, ?_, hletters, fun hmem => hslash (List.mem_append_right _ hmem)⟩
    rintro rfl
    exact absurd hext (Nat.lt_irrefl 1)

theorem IsExtension.head?_ne (h : IsExtension ext name) : ext.head? ≠ some '/' := by
  obtain ⟨file, -, ⟨rfl, -⟩ | ⟨stem, letters, rfl, -, -⟩⟩ := h <;> simp

/-! ## Folding keeps the last segment -/

/-- A last segment that names something stays. -/
theorem fold_concat (hseg : IsOrdinary seg) :
    fold kept (segs ++ [seg]) = fold kept segs ++ [seg] := by
  obtain ⟨hempty, hdot, hparent⟩ := hseg
  induction segs generalizing kept with
  | nil => simp [fold, hempty, hdot, hparent]
  | cons w segs ih =>
    rw [List.cons_append, fold, fold]
    split
    · exact ih
    · split
      · exact ih
      · exact ih

theorem suffix_join_concat (segs : List (List Char)) (seg : List Char) :
    seg <:+ join (segs ++ [seg]) := by
  induction segs with
  | nil => exact List.suffix_refl seg
  | cons w segs ih =>
    have hcons : join (w :: segs ++ [seg]) = w ++ '/' :: join (segs ++ [seg]) := by
      cases segs <;> rfl
    rw [hcons]
    exact ih.trans ((List.suffix_cons _ _).trans (List.suffix_append _ _))

/-- What a path ends with is at the end of its last segment, if there is no slash in it. -/
theorem exists_splitAtChar_append (a : List Char) (hx : '/' ∉ x) :
    ∃ segs w, Text.splitAtChar '/' (a ++ x) = segs ++ [w ++ x] := by
  cases hcut : Text.cutAtLast? '/' a with
  | none =>
    have ha := Text.not_mem_of_cutAtLast?_eq_none hcut
    exact ⟨[], a, Text.splitAtChar_of_not_mem (by simp [ha, hx])⟩
  | some p =>
    obtain ⟨w, -, ha, hw⟩ := Text.exists_of_cutAtLast?_eq_some hcut
    have hpiece : Text.splitAtChar '/' (w ++ x) = [w ++ x] :=
      Text.splitAtChar_of_not_mem (by simp [hw, hx])
    refine ⟨Text.splitAtChar '/' p.1, w, ?_⟩
    rw [ha, List.append_assoc, List.cons_append, Text.splitAtChar_append, hpiece]

/-- A segment that is not all dots names something. -/
theorem isOrdinary_of_mem {c : Char} (hc : c ∈ seg) (hdot : c ≠ '.') : IsOrdinary seg := by
  refine ⟨?_, ?_, ?_⟩
  all_goals
    rintro rfl
    simp [hdot] at hc

/-- Folding keeps an extension that is more than a dot. -/
theorem suffix_normalize {letters : List Char} (hletters : letters ≠ []) (hdot : '.' ∉ letters)
    (hslash : '/' ∉ '.' :: letters) (h : '.' :: letters <:+ path) :
    '.' :: letters <:+ normalize path := by
  obtain ⟨a, rfl⟩ := h
  obtain ⟨segs, w, hsegs⟩ := exists_splitAtChar_append a hslash
  obtain ⟨c, hc⟩ := List.exists_mem_of_ne_nil letters hletters
  have hordinary : IsOrdinary (w ++ '.' :: letters) :=
    isOrdinary_of_mem (c := c) (by simp [hc]) fun heq => hdot (heq ▸ hc)
  rw [normalize, hsegs, fold_concat hordinary]
  exact (List.suffix_append w _).trans (suffix_join_concat _ _)

/-! ## What a name stands for -/

/-- The path that a name stands for ends with the extension before it is folded. -/
theorem suffix_unfolded {including : List Char} (hext : IsExtension ext including) :
    ext <:+ unfolded name including := by
  have hhead := hext.head?_ne
  obtain rfl := isExtension_iff.mp hext
  unfold unfolded
  simp only
  split
  · next hends =>
    rw [List.isSuffixOf_iff_suffix] at hends
    split
    -- A slash at the start of the name is no part of the extension.
    · next absolute =>
      obtain heq | hends := List.suffix_cons_iff.mp hends
      · exact absurd (by rw [heq]; rfl) hhead
      · exact hends
    · exact hends.trans (List.suffix_append _ _)
  · exact List.suffix_append _ _

theorem fold_of_forall_isOrdinary (h : ∀ seg ∈ segs, IsOrdinary seg) :
    fold kept segs = kept.reverse ++ segs := by
  induction segs generalizing kept with
  | nil => simp [fold]
  | cons seg segs ih =>
    obtain ⟨hempty, hdot, hparent⟩ := h seg List.mem_cons_self
    rw [fold, if_neg (not_or.mpr ⟨hempty, hdot⟩), if_neg hparent,
      ih fun w hw => h w (List.mem_cons_of_mem _ hw)]
    simp

/-- There is nothing to fold away in a folded path. -/
theorem normalize_of_isFolded (h : IsFolded path) : normalize path = path := by
  obtain rfl | h := h
  · rfl
  · rw [normalize, fold_of_forall_isOrdinary h]
    exact join_splitAtChar path

/-- A path that ends with the extension stands for itself from the root, once it is folded. -/
theorem unfolded_of_suffix {including : List Char} (hext : IsExtension ext including)
    (h : ext <:+ path) : unfolded ('/' :: path) including = path := by
  obtain rfl := isExtension_iff.mp hext
  have hends := List.isSuffixOf_iff_suffix.mpr (h.trans (List.suffix_cons '/' path))
  simp only [unfolded, hends, if_true]

/-- **Paths are stable.**  Unless the extension of the including template is a lone dot, the path
    that a name stands for ends with it, and is the path that it stands for itself from the root in
    any template with that extension. -/
theorem resolve_stable (name including : String) {ext : List Char}
    (hext : IsExtension ext including.toList) (hmore : ext = [] ∨ 1 < ext.length) :
    ext <:+ (resolve name including).toList ∧
      ∀ other : String, IsExtension ext other.toList →
        resolve ("/" ++ resolve name including) other = resolve name including := by
  have hends : ext <:+ (resolve name including).toList := by
    rw [resolve, String.toList_ofList]
    obtain rfl | hmore := hmore
    · exact List.nil_suffix
    · obtain ⟨letters, rfl, hletters, hdot, hslash⟩ := hext.exists_letters hmore
      exact suffix_normalize hletters hdot hslash (suffix_unfolded hext)
  refine ⟨hends, fun other hother => ?_⟩
  have hslash :
      ("/" ++ resolve name including).toList = '/' :: (resolve name including).toList := by
    rw [String.toList_append]
    rfl
  rw [resolve, hslash, unfolded_of_suffix hother hends,
    normalize_of_isFolded (isFolded_resolve name including), String.ofList_toList]

/-- A name with slashes and dots in it that ends in the extension, and a template elsewhere. -/
theorem resolve_stable_page :
    IsExtension ".html".toList "site/a.b/list.tar.html".toList ∧
      ".html".toList <:+ (resolve ".//../x/../nav.html" "site/a.b/list.tar.html").toList ∧
      resolve ("/" ++ resolve ".//../x/../nav.html" "site/a.b/list.tar.html") ".html" =
        resolve ".//../x/../nav.html" "site/a.b/list.tar.html" := by
  have hext : IsExtension ".html".toList "site/a.b/list.tar.html".toList :=
    isExtension_iff.mpr (by decide +kernel)
  obtain ⟨hends, hstable⟩ := resolve_stable ".//../x/../nav.html" "site/a.b/list.tar.html" hext
    (.inr (by decide))
  exact ⟨hext, hends, hstable ".html" (isExtension_iff.mpr (by decide +kernel))⟩

/-- Behind a lone dot there may be nothing that keeps the last segment. -/
example : resolve "." "a." = "" := by decide +kernel

end Path

end Mustache
