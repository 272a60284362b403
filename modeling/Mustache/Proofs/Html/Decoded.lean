import Mustache.Proofs.Html.Denoted

/-! # Decoded text

The encoder keeps the well-formed references, and writes others that the decoder undoes.  So what
is decoded from escaped text is the text with a character in the place of each reference that stands
for one, and everything else as it was.  Decoding the text itself comes to the same, unless it has a
number with a plus sign, which the decoder reads and the encoder does not keep.

* `Html.Resolved` — a text with characters in the place of references.
* `Html.unescape_escape` — decoding escaped text.
* `Html.unescape_escape_eq_unescape_iff` — when it comes to the same as decoding the text itself.
-/

namespace Mustache.Html

variable {n : Nat} {c : Char} {body r s t : List Char}

/-! ## Replacing references -/

/-- A text with every reference that stands for a character by `D` replaced by that character, and
    with everything else as it is. -/
inductive Resolved (D : List Char → Char → Prop) : List Char → List Char → Prop
  | nil : Resolved D [] []
  | reference {body s t : List Char} {c : Char} (h : D body c) (hs : Resolved D s t) :
      Resolved D ('&' :: (body ++ ';' :: s)) (c :: t)
  | char {c : Char} {s t : List Char} (h : c = '&' → ¬ Starts D s) (hs : Resolved D s t) :
      Resolved D (c :: s) (c :: t)

theorem unescapeFrom_append (r s : List Char) :
    unescapeFrom r.length (r ++ s) = unescapeFrom 0 s := by
  induction r with
  | nil => rfl
  | cons c r ih => simpa [unescapeFrom] using ih

theorem unescapeChars_reference (h : Reads body c) (s : List Char) :
    unescapeChars ('&' :: (body ++ ';' :: s)) = c :: unescapeChars s := by
  have hskip := unescapeFrom_append (body ++ [';']) s
  simp only [List.length_append, List.length_singleton, List.append_assoc,
    List.singleton_append] at hskip
  simp [unescapeChars, unescapeFrom, decodeReference?_append h, hskip]

theorem unescapeChars_ampersand (h : ¬ Starts Reads s) :
    unescapeChars ('&' :: s) = '&' :: unescapeChars s := by
  cases hdecode : decodeReference? s with
  | none => simp [unescapeChars, unescapeFrom, hdecode]
  | some p =>
    obtain ⟨body, rest, hs, -, hreads⟩ := starts_of_decodeReference? hdecode
    exact absurd ⟨body, rest, _, hs, hreads⟩ h

/-- A function replaces references if it does so at the first character of any text. -/
theorem resolved_of_forall {D : List Char → Char → Prop} {f : List Char → List Char}
    (hnil : f [] = [])
    (hreference : ∀ {body c}, D body c → ∀ s, f ('&' :: (body ++ ';' :: s)) = c :: f s)
    (hampersand : ∀ {s}, ¬ Starts D s → f ('&' :: s) = '&' :: f s)
    (hchar : ∀ {c}, c ≠ '&' → ∀ s, f (c :: s) = c :: f s) (s : List Char) :
    Resolved D s (f s) := by
  -- A reference is passed over as a whole, so the induction is on the length.
  induction hlen : s.length using Nat.strongRecOn generalizing s with
  | _ k ih =>
    subst hlen
    cases s with
    | nil =>
      rw [hnil]
      exact .nil
    | cons c s =>
      have htail := ih s.length (by simp) s rfl
      by_cases hc : c = '&'
      · subst hc
        by_cases hstarts : Starts D s
        · obtain ⟨body, rest, d, rfl, h⟩ := hstarts
          rw [hreference h]
          exact .reference h (ih rest.length (by simp; omega) rest rfl)
        · rw [hampersand hstarts]
          exact .char (fun _ => hstarts) htail
      · rw [hchar hc]
        exact .char (fun h => absurd h hc) htail

/-- The decoder replaces what it reads. -/
theorem resolved_unescapeChars (s : List Char) : Resolved Reads s (unescapeChars s) :=
  resolved_of_forall rfl unescapeChars_reference unescapeChars_ampersand unescapeChars_cons s

/-! ## Decoding escaped text -/

/-- What the decoder reads in escaped text stood there before. -/
theorem Refers.starts (h : Refers s) (hstarts : Starts Reads (Html.escapeChars s)) :
    Starts Denotes s := by
  obtain ⟨body, rest, c, hbody, hreads⟩ := hstarts
  have hkept := h.escapeChars
  rw [hbody] at hkept
  obtain ⟨r, hr, t, rfl⟩ := h
  rw [escapeChars_append hr.stays] at hbody
  obtain ⟨body', rfl, hmem⟩ := hr.exists_body
  -- Both reach to the first semicolon.
  have hcut := cutAtChar?_append (t := rest) hreads.not_mem.1
  rw [← hbody, List.append_assoc, List.singleton_append, cutAtChar?_append hmem] at hcut
  simp only [Option.some.injEq, Prod.mk.injEq] at hcut
  obtain ⟨rfl, -⟩ := hcut
  exact ⟨body', t, c, by simp, hreads.denotes hkept⟩

/-- The encoder passes over a reference that stands for a character. -/
theorem Denotes.escapeChars (h : Denotes body c) (s : List Char) :
    Html.escapeChars ('&' :: (body ++ ';' :: s)) = '&' :: (body ++ ';' :: Html.escapeChars s) := by
  have hkept := startsReference_iff.mpr (h.refers s)
  have happend := escapeChars_append h.reference.stays s
  simp only [List.append_assoc, List.singleton_append] at happend
  simp [Html.escapeChars, hkept, happend]

theorem unescapeChars_escapeChars_ampersand (h : ¬ Starts Denotes s) :
    unescapeChars (escapeChars ('&' :: s)) = '&' :: unescapeChars (escapeChars s) := by
  rw [escapeChars, if_pos rfl]
  split
  · next hkept =>
    apply unescapeChars_ampersand
    intro hstarts
    exact h ((startsReference_iff.mp hkept).starts hstarts)
  · exact unescapeChars_reference (.inl .amp) _

theorem unescapeChars_escapeChars_cons (hc : c ≠ '&') (s : List Char) :
    unescapeChars (escapeChars (c :: s)) = c :: unescapeChars (escapeChars s) := by
  rw [escapeChars, if_neg hc]
  cases hentity : entity? c with
  | none => exact unescapeChars_cons hc _
  | some e => exact unescapeChars_entity hentity _

/-- Decoding escaped text replaces the well-formed references that stand for a character. -/
theorem resolved_unescapeChars_escapeChars (s : List Char) :
    Resolved Denotes s (unescapeChars (escapeChars s)) := by
  apply resolved_of_forall (f := fun s => unescapeChars (escapeChars s))
  · rfl
  · intro body c h s
    rw [h.escapeChars, unescapeChars_reference (.inl h)]
  · exact unescapeChars_escapeChars_ampersand
  · exact unescapeChars_escapeChars_cons

/-! ## There is one such text -/

namespace Resolved

variable {D : List Char → Char → Prop} {t' : List Char}

theorem of_cons (h : Resolved D (c :: s) t) (hc : c ≠ '&') :
    ∃ t', t = c :: t' ∧ Resolved D s t' := by
  generalize heq : c :: s = u at h
  cases h with
  | nil => cases heq
  | reference => exact absurd (List.cons.inj heq).1 hc
  | char _ hs =>
    obtain ⟨rfl, rfl⟩ := List.cons.inj heq
    exact ⟨_, rfl, hs⟩

theorem of_append (h : Resolved D (r ++ s) t) (hr : '&' ∉ r) :
    ∃ t', t = r ++ t' ∧ Resolved D s t' := by
  induction r generalizing t with
  | nil => exact ⟨t, rfl, h⟩
  | cons c r ih =>
    simp only [List.mem_cons, not_or] at hr
    obtain ⟨t₁, rfl, hrest⟩ := of_cons h (Ne.symm hr.1)
    obtain ⟨t₂, rfl, hs⟩ := ih hrest hr.2
    exact ⟨t₂, rfl, hs⟩

theorem of_ampersand (h : Resolved D ('&' :: s) t) :
    (∃ body rest c t', s = body ++ ';' :: rest ∧ D body c ∧ t = c :: t' ∧ Resolved D rest t') ∨
      ¬ Starts D s ∧ ∃ t', t = '&' :: t' ∧ Resolved D s t' := by
  generalize heq : '&' :: s = u at h
  cases h with
  | nil => cases heq
  | reference h hs => exact .inl ⟨_, _, _, _, (List.cons.inj heq).2, h, rfl, hs⟩
  | char h hs =>
    obtain ⟨hc, rfl⟩ := List.cons.inj heq
    subst hc
    exact .inr ⟨h rfl, _, rfl, hs⟩

theorem unique (hD : ∀ {body c}, D body c → Reads body c) (h : Resolved D s t)
    (h' : Resolved D s t') : t = t' := by
  induction h generalizing t' with
  | nil =>
    cases h'
    rfl
  | @reference body s t c hbody _ ih =>
    obtain ⟨body', rest, d, u, heq, hbody', rfl, hrest⟩ | ⟨hnot, -⟩ := of_ampersand h'
    · obtain ⟨rfl, rfl, rfl⟩ := (hD hbody).unique (hD hbody') heq
      rw [ih hrest]
    · exact absurd ⟨body, s, c, rfl, hbody⟩ hnot
  | @char c s t hc _ ih =>
    by_cases hamp : c = '&'
    · subst hamp
      obtain ⟨body, rest, d, u, heq, hbody, -, -⟩ | ⟨-, u, rfl, hrest⟩ := of_ampersand h'
      · exact absurd ⟨body, rest, d, heq, hbody⟩ (hc rfl)
      · rw [ih hrest]
    · obtain ⟨u, rfl, hrest⟩ := of_cons h' hamp
      rw [ih hrest]

end Resolved

/-- **Decoding escaped text.**  It gives the text with each of its well-formed references that
    stands for a character replaced by that character, and with everything else as it is.  A text
    without well-formed references comes back. -/
theorem unescape_escape (text : String) :
    (∀ out : String, Resolved Denotes text.toList out.toList ↔ out = unescape (escape text)) ∧
      (IsBare text.toList → unescape (escape text) = text) := by
  have htoList : (unescape (escape text)).toList = unescapeChars (escapeChars text.toList) := by
    rw [unescape, escape, String.toList_ofList, String.toList_ofList]
  have hresolved : Resolved Denotes text.toList (unescape (escape text)).toList := by
    rw [htoList]
    exact resolved_unescapeChars_escapeChars text.toList
  refine ⟨fun out => ⟨fun h => ?_, fun h => h ▸ hresolved⟩, fun hbare => ?_⟩
  · exact String.toList_injective (h.unique .inl hresolved)
  · exact String.toList_injective (htoList.trans (unescapeChars_escapeChars hbare))

/-! ## Numbers with a plus sign -/

/-- A text in which no ampersand starts a number with a plus sign that the decoder reads. -/
def IsUnsigned (s : List Char) : Prop :=
  ∀ a b, s = a ++ '&' :: b → ¬ Starts Signed b

theorem isUnsigned_cons : IsUnsigned (c :: s) ↔ (c = '&' → ¬ Starts Signed s) ∧ IsUnsigned s :=
  forall_behind_cons

theorem isUnsigned_append (hr : '&' ∉ r) : IsUnsigned (r ++ s) ↔ IsUnsigned s := by
  induction r with
  | nil => rfl
  | cons c r ih =>
    simp only [List.mem_cons, not_or] at hr
    rw [List.cons_append, isUnsigned_cons, ih hr.2]
    exact and_iff_right fun hc => absurd hc.symm hr.1

theorem Starts.not_refers (h : Starts Signed s) : ¬ Refers s := by
  obtain ⟨body, rest, c, rfl, hsigned⟩ := h
  exact hsigned.not_refers rest

theorem Denotes.isUnsigned (h : Denotes body c) (hs : IsUnsigned s) :
    IsUnsigned ('&' :: (body ++ ';' :: s)) := by
  have hbody : '&' ∉ body := (Reads.not_mem (.inl h)).2
  rw [isUnsigned_cons, isUnsigned_append hbody, isUnsigned_cons]
  refine ⟨fun _ hstarts => hstarts.not_refers (h.refers s), ?_, hs⟩
  simp

theorem Resolved.of_isUnsigned (h : Resolved Reads s t) (hs : IsUnsigned s) :
    Resolved Denotes s t := by
  induction h with
  | nil => exact .nil
  | @reference body s t c hbody _ ih =>
    obtain ⟨hnot, hrest⟩ := isUnsigned_cons.mp hs
    have hdenotes := hbody.resolve_right fun hsigned => hnot rfl ⟨body, s, c, rfl, hsigned⟩
    rw [isUnsigned_append hbody.not_mem.2] at hrest
    exact .reference hdenotes (ih (isUnsigned_cons.mp hrest).2)
  | char hc _ ih =>
    refine .char (fun hamp h => hc hamp ?_) (ih (isUnsigned_cons.mp hs).2)
    obtain ⟨body, rest, d, heq, hdenotes⟩ := h
    exact ⟨body, rest, d, heq, .inl hdenotes⟩

/-- Reading a number with a plus sign makes a text shorter. -/
theorem Resolved.length_le {t' : List Char} (h : Resolved Reads s t) (h' : Resolved Denotes s t') :
    t.length ≤ t'.length ∧ (t.length = t'.length → IsUnsigned s) := by
  induction h generalizing t' with
  | nil =>
    cases h'
    exact ⟨Nat.le_refl _, fun _ a b h => by simp at h⟩
  | @reference body s t c hbody _ ih =>
    obtain ⟨body', rest, d, u, heq, hdenotes, rfl, hrest⟩ | ⟨hnot, u, rfl, hrest⟩ :=
      of_ampersand h'
    · obtain ⟨rfl, rfl, rfl⟩ := hbody.unique (.inl hdenotes) heq
      obtain ⟨hle, hsame⟩ := ih hrest
      simp only [List.length_cons, Nat.add_right_cancel_iff]
      exact ⟨by omega, fun hlen => hdenotes.isUnsigned (hsame hlen)⟩
    -- The number stays as it is on the other side, so that is longer.
    · obtain ⟨v, rfl, hbehind⟩ := of_append hrest hbody.not_mem.2
      obtain ⟨w, rfl, hs⟩ := of_cons hbehind (by decide)
      have hle := (ih hs).1
      simp only [List.length_cons, List.length_append]
      exact ⟨by omega, fun hlen => by omega⟩
  | @char c s t hc _ ih =>
    by_cases hamp : c = '&'
    · subst hamp
      obtain ⟨body, rest, d, u, heq, hdenotes, -, -⟩ | ⟨-, u, rfl, hrest⟩ := of_ampersand h'
      · exact absurd ⟨body, rest, d, heq, .inl hdenotes⟩ (hc rfl)
      · obtain ⟨hle, hsame⟩ := ih hrest
        simp only [List.length_cons, Nat.add_right_cancel_iff]
        refine ⟨by omega, fun hlen => isUnsigned_cons.mpr ⟨fun _ h => hc rfl ?_, hsame hlen⟩⟩
        obtain ⟨body, rest, d, heq, hsigned⟩ := h
        exact ⟨body, rest, d, heq, .inr hsigned⟩
    · obtain ⟨u, rfl, hrest⟩ := of_cons h' hamp
      obtain ⟨hle, hsame⟩ := ih hrest
      simp only [List.length_cons, Nat.add_right_cancel_iff]
      exact ⟨by omega, fun hlen =>
        isUnsigned_cons.mpr ⟨fun h => absurd h hamp, hsame hlen⟩⟩

/-- **What the decoder reads and the encoder does not keep.**  Escaping a text first makes no
    difference to the decoder just if no ampersand in it starts a number with a plus sign in front
    of its digits.  Whatever else the decoder reads is a well-formed reference. -/
theorem unescape_escape_eq_unescape_iff (text : String) :
    (unescape (escape text) = unescape text ↔ IsUnsigned text.toList) ∧
      ∀ s, (decodeReference? s).isSome = true →
        (startsReference s = true ↔ ¬ Starts Signed s) := by
  have hkept := resolved_unescapeChars_escapeChars text.toList
  have hread := resolved_unescapeChars text.toList
  have hchars : unescape (escape text) = unescape text ↔
      unescapeChars (escapeChars text.toList) = unescapeChars text.toList := by
    simp [unescape, escape, String.ofList_inj]
  refine ⟨hchars.trans ⟨fun h => ?_, fun h => ?_⟩, fun s hs => ?_⟩
  · exact (hread.length_le hkept).2 (congrArg List.length h).symm
  · exact hkept.unique .inl (hread.of_isUnsigned h)
  · obtain ⟨⟨c, n⟩, hdecode⟩ := Option.isSome_iff_exists.mp hs
    obtain ⟨body, rest, rfl, -, hreads⟩ := starts_of_decodeReference? hdecode
    rw [startsReference_iff]
    constructor
    · intro hrefers hstarts
      exact hstarts.not_refers hrefers
    · intro hnot
      exact (hreads.resolve_right fun hsigned => hnot ⟨body, rest, c, rfl, hsigned⟩).refers rest

/-- A number with a plus sign is decoded, but not if the text is escaped first. -/
theorem unescape_escape_plus : unescape (escape "&#+41;") ≠ unescape "&#+41;" := by
  decide

end Mustache.Html
