import Mustache.Html.Escape

/-! # Escaped text

Escaped text has none of the characters that have a meaning in HTML, and no line feed, and every
ampersand in it starts a well-formed reference.  Whether an ampersand stays is decided by the text
behind it before that is escaped; it makes no difference, as references hold nothing to escape.

* `Html.Reference` — what stands behind the ampersand of a well-formed reference.
* `Html.IsEscaped` — the form of escaped text.
* `Html.isEscaped_escape` — escaping brings text into that form, and leaves text that has it alone.
* `Html.unescapeChars_escapeChars` — text without references of its own is decoded again.
-/

namespace Mustache.Html

/-! ## Well-formed references -/

/-- What stands behind the ampersand of a well-formed reference: a name or a number, and a
    semicolon. -/
inductive Reference : List Char → Prop
  | name {s : List Char} (hs : s ≠ []) (h : ∀ c ∈ s, isNameChar c = true) : Reference (s ++ [';'])
  | decimal {s : List Char} (hs : s ≠ []) (h : ∀ c ∈ s, c.isDigit = true) :
      Reference ('#' :: (s ++ [';']))
  | hexadecimal {s : List Char} {x : Char} (hx : x = 'x' ∨ x = 'X') (hs : s ≠ [])
      (h : ∀ c ∈ s, isHexDigit c = true) : Reference ('#' :: x :: (s ++ [';']))

/-- A text starts with what makes a well-formed reference of an ampersand before it. -/
def Refers (s : List Char) : Prop :=
  ∃ r, Reference r ∧ r <+: s

variable {p : Char → Bool} {c : Char} {r s : List Char}

theorem closedRun_iff (hp : p ';' = false) :
    closedRun p s = true ↔ ∃ a, a ≠ [] ∧ (∀ c ∈ a, p c = true) ∧ a ++ [';'] <+: s := by
  constructor
  · intro h
    unfold closedRun at h
    split at h
    · next d a c rest htake hdrop =>
      obtain rfl : c = ';' := by simpa using h
      refine ⟨d :: a, List.cons_ne_nil _ _, fun e he => ?_, rest, ?_⟩
      · rw [← htake] at he
        exact List.all_eq_true.mp List.all_takeWhile e he
      · rw [List.append_assoc, List.singleton_append, ← htake, ← hdrop,
          List.takeWhile_append_dropWhile]
    · cases h
  · rintro ⟨a, ha, hrun, rest, rfl⟩
    have htake : (a ++ [';'] ++ rest).takeWhile p = a := by
      rw [List.append_assoc, List.takeWhile_append_of_pos hrun, List.singleton_append,
        List.takeWhile_cons_of_neg (by simp [hp]), List.append_nil]
    have hdrop : (a ++ [';'] ++ rest).dropWhile p = ';' :: rest := by
      rw [List.append_assoc, List.dropWhile_append_of_pos hrun, List.singleton_append,
        List.dropWhile_cons_of_neg (by simp [hp])]
    rw [closedRun, htake, hdrop]
    cases a with
    | nil => exact absurd rfl ha
    | cons d a => rfl

/-- A run that starts with a character has it in its class. -/
theorem head_of_closedRun {a : List Char} (ha : a ≠ []) (hrun : ∀ d ∈ a, p d = true)
    (h : a ++ [';'] <+: c :: s) : p c = true := by
  cases a with
  | nil => exact absurd rfl ha
  | cons d a =>
    obtain ⟨rfl, -⟩ := List.cons_prefix_cons.mp h
    exact hrun d List.mem_cons_self

/-- A number sign stands at the start of numbers only. -/
theorem not_name_of_sign {a : List Char} (ha : a ≠ []) (hrun : ∀ d ∈ a, isNameChar d = true) :
    ¬ a ++ [';'] <+: '#' :: s := fun hprefix =>
  absurd (head_of_closedRun ha hrun hprefix) (by decide)

theorem refers_hexadecimal_iff {x : Char} (hx : x = 'x' ∨ x = 'X') :
    Refers ('#' :: x :: s) ↔ closedRun isHexDigit s = true := by
  rw [closedRun_iff (by decide)]
  constructor
  · rintro ⟨r, hr, hprefix⟩
    cases hr with
    | name ha hrun => exact absurd hprefix (not_name_of_sign ha hrun)
    | decimal ha hrun =>
      have hdigit := head_of_closedRun ha hrun (List.cons_prefix_cons.mp hprefix).2
      obtain rfl | rfl := hx <;> exact absurd hdigit (by decide)
    | hexadecimal _ ha hrun =>
      have hprefix := (List.cons_prefix_cons.mp hprefix).2
      exact ⟨_, ha, hrun, (List.cons_prefix_cons.mp hprefix).2⟩
  · rintro ⟨a, ha, hrun, hprefix⟩
    exact ⟨_, .hexadecimal hx ha hrun, by simpa using hprefix⟩

theorem refers_decimal_iff (hx : ∀ t, s ≠ 'x' :: t) (hX : ∀ t, s ≠ 'X' :: t) :
    Refers ('#' :: s) ↔ closedRun Char.isDigit s = true := by
  rw [closedRun_iff (by decide)]
  constructor
  · rintro ⟨r, hr, hprefix⟩
    cases hr with
    | name ha hrun => exact absurd hprefix (not_name_of_sign ha hrun)
    | decimal ha hrun => exact ⟨_, ha, hrun, (List.cons_prefix_cons.mp hprefix).2⟩
    | hexadecimal h =>
      obtain ⟨t, rfl⟩ := (List.cons_prefix_cons.mp hprefix).2
      obtain rfl | rfl := h
      · exact absurd rfl (hx _)
      · exact absurd rfl (hX _)
  · rintro ⟨a, ha, hrun, hprefix⟩
    exact ⟨_, .decimal ha hrun, by simpa using hprefix⟩

theorem refers_name_iff (hsign : ∀ t, s ≠ '#' :: t) :
    Refers s ↔ closedRun isNameChar s = true := by
  rw [closedRun_iff (by decide)]
  constructor
  · rintro ⟨r, hr, t, rfl⟩
    cases hr with
    | name ha hrun => exact ⟨_, ha, hrun, List.prefix_append _ _⟩
    | decimal | hexadecimal => exact absurd rfl (hsign _)
  · rintro ⟨a, ha, hrun, hprefix⟩
    exact ⟨_, .name ha hrun, hprefix⟩

/-- The encoder looks for well-formed references. -/
theorem startsReference_iff : startsReference s = true ↔ Refers s := by
  unfold startsReference
  split
  · exact (refers_hexadecimal_iff (.inl rfl)).symm
  · exact (refers_hexadecimal_iff (.inr rfl)).symm
  · next s hx hX => exact (refers_decimal_iff hx hX).symm
  · next _ _ hsign => exact (refers_name_iff hsign).symm

instance : Decidable (Refers s) :=
  decidable_of_iff _ startsReference_iff

/-! ## The form of escaped text -/

/-- A text without characters that have to be escaped wherever they stand, in which every ampersand
    starts a well-formed reference. -/
structure IsEscaped (s : List Char) : Prop where
  plain : ∀ c ∈ s, c ≠ '<' ∧ c ≠ '>' ∧ c ≠ '"' ∧ c ≠ '\n'
  refers : ∀ a b, s = a ++ '&' :: b → Refers b

theorem entity?_eq_none_iff : entity? c = none ↔ c ≠ '<' ∧ c ≠ '>' ∧ c ≠ '"' ∧ c ≠ '\n' := by
  grind [entity?]

theorem isEscaped_nil : IsEscaped [] :=
  ⟨nofun, by simp⟩

/-- What is said of the text behind every ampersand, one character at a time. -/
theorem forall_behind_cons {P : List Char → Prop} : (∀ a b, c :: s = a ++ '&' :: b → P b) ↔
    (c = '&' → P s) ∧ ∀ a b, s = a ++ '&' :: b → P b := by
  refine ⟨fun h => ⟨fun hc => h [] s (by rw [hc]; rfl), fun a b hs => ?_⟩, fun h a b hs => ?_⟩
  · exact h (c :: a) b (by rw [hs, List.cons_append])
  · cases a with
    | nil =>
      obtain ⟨hc, rfl⟩ := List.cons.inj hs
      exact h.1 hc
    | cons c' a => exact h.2 a b (List.cons.inj hs).2

/-- What escaped text is, one character at a time. -/
theorem isEscaped_iff : IsEscaped (c :: s) ↔
    (entity? c = none ∧ (c = '&' → Refers s)) ∧ IsEscaped s := by
  rw [entity?_eq_none_iff]
  constructor
  · intro h
    obtain ⟨hrefers, hbehind⟩ := forall_behind_cons.mp h.refers
    obtain ⟨hc, hplain⟩ := List.forall_mem_cons.mp h.plain
    exact ⟨⟨hc, hrefers⟩, hplain, hbehind⟩
  · rintro ⟨⟨hc, hrefers⟩, h⟩
    exact ⟨List.forall_mem_cons.mpr ⟨hc, h.plain⟩, forall_behind_cons.mpr ⟨hrefers, h.refers⟩⟩

theorem isEscaped_cons (hc : c ≠ '&') : IsEscaped (c :: s) ↔ entity? c = none ∧ IsEscaped s := by
  simp [isEscaped_iff, hc]

theorem isEscaped_ampersand : IsEscaped ('&' :: s) ↔ Refers s ∧ IsEscaped s := by
  simp [isEscaped_iff, show entity? '&' = none by decide]

/-! ## References stay as they are -/

/-- A character that stays as it is wherever it stands. -/
def Stays (c : Char) : Prop :=
  c ≠ '&' ∧ entity? c = none

theorem Reference.stays (hr : Reference r) : ∀ c ∈ r, Stays c := by
  -- The characters to escape are in none of the classes.
  have hrun {p : Char → Bool} {s : List Char} (h : ∀ c ∈ s, p c = true) (hamp : p '&' = false)
      (hlt : p '<' = false) (hgt : p '>' = false) (hquote : p '"' = false)
      (hfeed : p '\n' = false) : ∀ c ∈ s ++ [';'], Stays c := by
    intro c hc
    obtain hc | hc := List.mem_append.mp hc
    · refine ⟨?_, entity?_eq_none_iff.mpr ⟨?_, ?_, ?_, ?_⟩⟩ <;> rintro rfl <;> simp_all
    · obtain rfl := List.mem_singleton.mp hc
      exact ⟨by decide, by decide⟩
  cases hr with
  | name _ h => exact hrun h rfl rfl rfl rfl rfl
  | decimal _ h =>
    intro c hc
    obtain rfl | hc := List.mem_cons.mp hc
    · exact ⟨by decide, by decide⟩
    · exact hrun h rfl rfl rfl rfl rfl c hc
  | hexadecimal hx _ h =>
    intro c hc
    obtain rfl | hc := List.mem_cons.mp hc
    · exact ⟨by decide, by decide⟩
    obtain rfl | hc := List.mem_cons.mp hc
    · obtain rfl | rfl := hx <;> exact ⟨by decide, by decide⟩
    · exact hrun h rfl rfl rfl rfl rfl c hc

theorem escapeChars_append (hr : ∀ c ∈ r, Stays c) (s : List Char) :
    escapeChars (r ++ s) = r ++ escapeChars s := by
  induction r with
  | nil => rfl
  | cons c r ih =>
    obtain ⟨hc, hentity⟩ := hr c List.mem_cons_self
    rw [List.cons_append, escapeChars, if_neg hc, hentity,
      ih fun d hd => hr d (List.mem_cons_of_mem _ hd), List.cons_append]

theorem Refers.escapeChars (h : Refers s) : Refers (escapeChars s) := by
  obtain ⟨r, hr, t, rfl⟩ := h
  exact ⟨r, hr, by rw [escapeChars_append hr.stays]; exact List.prefix_append _ _⟩

theorem isEscaped_append (hr : ∀ c ∈ r, Stays c) (hs : IsEscaped s) : IsEscaped (r ++ s) := by
  induction r with
  | nil => exact hs
  | cons c r ih =>
    obtain ⟨hc, hentity⟩ := hr c List.mem_cons_self
    exact (isEscaped_cons hc).mpr ⟨hentity, ih fun d hd => hr d (List.mem_cons_of_mem _ hd)⟩

/-- A well-formed reference keeps a text escaped. -/
theorem Reference.isEscaped (hr : Reference r) (hs : IsEscaped s) : IsEscaped ('&' :: (r ++ s)) :=
  isEscaped_ampersand.mpr ⟨⟨r, hr, List.prefix_append _ _⟩, isEscaped_append hr.stays hs⟩

/-! ## Escaping -/

theorem reference_amp : Reference ['a', 'm', 'p', ';'] :=
  @Reference.name ['a', 'm', 'p'] (List.cons_ne_nil _ _) (List.all_eq_true.mp rfl)

/-- A character is replaced by a well-formed reference. -/
theorem exists_of_entity? {e : List Char} (h : entity? c = some e) :
    ∃ r, Reference r ∧ e = '&' :: r := by
  simp only [entity?] at h
  split at h
  · exact ⟨_, @Reference.name ['l', 't'] (List.cons_ne_nil _ _) (List.all_eq_true.mp rfl),
      (Option.some.inj h).symm⟩
  split at h
  · exact ⟨_, @Reference.name ['g', 't'] (List.cons_ne_nil _ _) (List.all_eq_true.mp rfl),
      (Option.some.inj h).symm⟩
  split at h
  · exact ⟨_, @Reference.name ['q', 'u', 'o', 't'] (List.cons_ne_nil _ _) (List.all_eq_true.mp rfl),
      (Option.some.inj h).symm⟩
  split at h
  · exact ⟨_, @Reference.decimal ['1', '0'] (List.cons_ne_nil _ _) (List.all_eq_true.mp rfl),
      (Option.some.inj h).symm⟩
  · cases h

theorem isEscaped_escapeChars (s : List Char) : IsEscaped (escapeChars s) := by
  induction s with
  | nil => exact isEscaped_nil
  | cons c s ih =>
    rw [escapeChars]
    split
    · split
      · next hstarts =>
        -- The reference was found in the text, and is there in the escaped text too.
        exact isEscaped_ampersand.mpr ⟨(startsReference_iff.mp hstarts).escapeChars, ih⟩
      · exact reference_amp.isEscaped ih
    · next hc =>
      split
      · next e he =>
        obtain ⟨r, hr, rfl⟩ := exists_of_entity? he
        exact hr.isEscaped ih
      · next hentity => exact (isEscaped_cons hc).mpr ⟨hentity, ih⟩

theorem escapeChars_of_isEscaped (h : IsEscaped s) : escapeChars s = s := by
  induction s with
  | nil => rfl
  | cons c s ih =>
    by_cases hc : c = '&'
    · subst hc
      obtain ⟨hrefers, hs⟩ := isEscaped_ampersand.mp h
      rw [escapeChars, if_pos rfl, if_pos (startsReference_iff.mpr hrefers), ih hs]
    · obtain ⟨hentity, hs⟩ := (isEscaped_cons hc).mp h
      rw [escapeChars, if_neg hc, hentity, ih hs]

/-- **Escaping settles text.**  Escaped text has none of the characters that have a meaning in HTML
    and no line feed, and every ampersand in it starts a well-formed reference.  A text is left as
    it is just if it has this form, and so escaped text is left as it is. -/
theorem isEscaped_escape (text : String) :
    IsEscaped (escape text).toList ∧ (escape text = text ↔ IsEscaped text.toList) ∧
      escape (escape text) = escape text := by
  have hescaped (text : String) : IsEscaped (escape text).toList := by
    rw [escape, String.toList_ofList]
    exact isEscaped_escapeChars _
  have hleft {text : String} (h : IsEscaped text.toList) : escape text = text := by
    rw [escape, escapeChars_of_isEscaped h, String.ofList_toList]
  exact ⟨hescaped text, ⟨fun h => h ▸ hescaped text, hleft⟩, hleft (hescaped text)⟩

/-! ## Decoding what was encoded -/

/-- A text in which no ampersand starts a well-formed reference. -/
def IsBare (s : List Char) : Prop :=
  ∀ a b, s = a ++ '&' :: b → ¬ Refers b

theorem isBare_nil : IsBare [] := fun a b h => by simp at h

theorem isBare_cons : IsBare (c :: s) ↔ (c = '&' → ¬ Refers s) ∧ IsBare s :=
  forall_behind_cons

instance decidableIsBare : (s : List Char) → Decidable (IsBare s)
  | [] => .isTrue isBare_nil
  | _ :: s =>
    have := decidableIsBare s
    decidable_of_iff _ isBare_cons.symm

theorem unescapeChars_cons (hc : c ≠ '&') (s : List Char) :
    unescapeChars (c :: s) = c :: unescapeChars s := by
  rw [unescapeChars, unescapeFrom, if_neg hc]
  rfl

/-- What a character is replaced by is decoded to it again. -/
theorem unescapeChars_entity {e : List Char} (h : entity? c = some e) (s : List Char) :
    unescapeChars (e ++ s) = c :: unescapeChars s := by
  simp only [entity?] at h
  split at h
  · next hc => cases h; rw [hc]; rfl
  split at h
  · next hc => cases h; rw [hc]; rfl
  split at h
  · next hc => cases h; rw [hc]; rfl
  split at h
  · next hc => cases h; rw [hc]; rfl
  · cases h

/-- A text without references of its own is what its escaped text is decoded to. -/
theorem unescapeChars_escapeChars (h : IsBare s) : unescapeChars (escapeChars s) = s := by
  induction s with
  | nil => rfl
  | cons c s ih =>
    rw [escapeChars]
    split
    · next hc =>
      subst hc
      rw [if_neg fun hstarts => h [] s rfl (startsReference_iff.mp hstarts)]
      exact congrArg ('&' :: ·) (ih (isBare_cons.mp h).2)
    · next hc =>
      split
      · next e he => rw [unescapeChars_entity he, ih (isBare_cons.mp h).2]
      · rw [unescapeChars_cons hc, ih (isBare_cons.mp h).2]

end Mustache.Html
