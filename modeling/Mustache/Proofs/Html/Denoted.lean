import Mustache.Proofs.Html.Escaped

/-! # What references stand for

Of the well-formed references some stand for a character: four names, and the numbers of characters.
The decoder reads these, and one thing more: in its numbers a plus sign may stand in front of the
digits, which is no well-formed reference.

* `Html.Numeral` — numbers in digits of a base.
* `Html.Denotes`, `Html.Signed` — what the decoder reads, and for which character.
* `Html.decodeBody?_eq_some_iff` — it reads nothing else.
* `Html.Denotes.reference`, `Html.Signed.not_refers` — which of it is well formed.
-/

namespace Mustache.Html

/-! ## Numbers -/

/-- A number as it is written in digits of a base, the most significant one first. -/
inductive Numeral (base : Nat) : List Char → Nat → Prop
  | digit {c : Char} {d : Nat} (hc : digitValue? c = some d) (hd : d < base) : Numeral base [c] d
  | snoc {s : List Char} {n : Nat} {c : Char} {d : Nat} (hs : Numeral base s n)
      (hc : digitValue? c = some d) (hd : d < base) : Numeral base (s ++ [c]) (n * base + d)

variable {base n : Nat} {c : Char} {body r s t : List Char}

theorem Numeral.ne_nil (h : Numeral base s n) : s ≠ [] := by
  cases h <;> simp

theorem Numeral.exists_digit (h : Numeral base s n) :
    ∀ c ∈ s, ∃ d, digitValue? c = some d ∧ d < base := by
  induction h with
  | digit hc hd =>
    intro c hmem
    obtain rfl := List.mem_singleton.mp hmem
    exact ⟨_, hc, hd⟩
  | snoc _ hc hd ih =>
    intro c hmem
    cases List.mem_append.mp hmem with
    | inl hmem => exact ih c hmem
    | inr hmem =>
      obtain rfl := List.mem_singleton.mp hmem
      exact ⟨_, hc, hd⟩

/-- A number starts with a digit. -/
theorem not_numeral_cons (hc : digitValue? c = none) : ¬ Numeral base (c :: s) n := by
  intro h
  obtain ⟨d, hd, -⟩ := h.exists_digit c List.mem_cons_self
  simp [hc] at hd

theorem digits?_snoc (acc : Nat) {d : Nat} (hc : digitValue? c = some d) (hd : d < base)
    (h : digits? base acc s = some n) : digits? base acc (s ++ [c]) = some (n * base + d) := by
  induction s generalizing acc with
  | nil =>
    simp only [digits?, Option.some.injEq] at h
    simp [digits?, hc, hd, h]
  | cons e s ih =>
    simp only [List.cons_append, digits?] at h ⊢
    split at h
    · split at h
      · simp_all
      · cases h
    · cases h

theorem Numeral.digits? (h : Numeral base s n) : Html.digits? base 0 s = some n := by
  induction h with
  | digit hc hd => simp [Html.digits?, hc, hd]
  | snoc _ hc hd ih => exact digits?_snoc 0 hc hd ih

/-- Reading on behind digits reads one number. -/
theorem Numeral.append_of_digits? {acc : Nat} (hs : Numeral base s acc)
    (h : Html.digits? base acc t = some n) : Numeral base (s ++ t) n := by
  induction t generalizing s acc with
  | nil =>
    simp only [Html.digits?, Option.some.injEq] at h
    simpa [h] using hs
  | cons c t ih =>
    simp only [Html.digits?] at h
    split at h
    · next d hc =>
      split at h
      · next hd => simpa using ih (hs.snoc hc hd) h
      · cases h
    · cases h

theorem numeral_of_digits? (hs : s ≠ []) (h : digits? base 0 s = some n) : Numeral base s n := by
  cases s with
  | nil => exact absurd rfl hs
  | cons c s =>
    simp only [digits?] at h
    split at h
    · next d hc =>
      split at h
      · next hd =>
        rw [Nat.zero_mul, Nat.zero_add] at h
        exact (Numeral.digit hc hd).append_of_digits? h
      · cases h
    · cases h

/-- A number may have one plus sign in front of its digits. -/
theorem number?_eq_some_iff :
    number? base s = some n ↔ Numeral base s n ∨ ∃ t, s = '+' :: t ∧ Numeral base t n := by
  constructor
  · intro h
    unfold number? at h
    split at h
    · cases h
    · cases h
    · next t ht => exact .inr ⟨t, rfl, numeral_of_digits? (fun hnil => ht (by simp [hnil])) h⟩
    · next hnil _ _ => exact .inl (numeral_of_digits? hnil h)
  · have hplus : digitValue? '+' = none := by decide
    intro h
    cases h with
    | inl h =>
      have hdigits := h.digits?
      unfold number?
      split
      · exact absurd rfl h.ne_nil
      · exact absurd h (not_numeral_cons hplus)
      · exact absurd h (not_numeral_cons hplus)
      · exact hdigits
    | inr h =>
      obtain ⟨t, rfl, h⟩ := h
      cases t with
      | nil => exact absurd rfl h.ne_nil
      | cons c t => exact h.digits?

/-! ## Characters -/

theorem scalar?_eq_some_iff : scalar? n = some c ↔ n = c.toNat := by
  unfold scalar?
  constructor
  · intro h
    by_cases hn : n.isValidChar
    · rw [dif_pos hn] at h
      obtain rfl := Option.some.inj h
      exact UInt32.toNat_ofNatLT.symm
    · rw [dif_neg hn] at h
      cases h
  · rintro rfl
    have hvalid : c.toNat.isValidChar := c.valid
    rw [dif_pos hvalid]
    exact congrArg some (Char.ext (UInt32.ofNatLT_toNat _))

/-- The character that a well-formed reference stands for, if it stands for one, by the text between
    its ampersand and its semicolon. -/
inductive Denotes : List Char → Char → Prop
  | amp : Denotes ['a', 'm', 'p'] '&'
  | lt : Denotes ['l', 't'] '<'
  | gt : Denotes ['g', 't'] '>'
  | quot : Denotes ['q', 'u', 'o', 't'] '"'
  | decimal {s : List Char} {c : Char} (h : Numeral 10 s c.toNat) : Denotes ('#' :: s) c
  | hexadecimal {s : List Char} {x c : Char} (hx : x = 'x' ∨ x = 'X') (h : Numeral 16 s c.toNat) :
      Denotes ('#' :: x :: s) c

/-- The character whose number has a plus sign in front of its digits. -/
inductive Signed : List Char → Char → Prop
  | decimal {s : List Char} {c : Char} (h : Numeral 10 s c.toNat) : Signed ('#' :: '+' :: s) c
  | hexadecimal {s : List Char} {x c : Char} (hx : x = 'x' ∨ x = 'X') (h : Numeral 16 s c.toNat) :
      Signed ('#' :: x :: '+' :: s) c

theorem decodeBody?_hexadecimal {x : Char} (hx : x = 'x' ∨ x = 'X') :
    decodeBody? ('#' :: x :: s) = (number? 16 s).bind scalar? := by
  obtain rfl | rfl := hx <;> simp [decodeBody?]

theorem decodeBody?_decimal (hx : ∀ t, s ≠ 'x' :: t) (hX : ∀ t, s ≠ 'X' :: t) :
    decodeBody? ('#' :: s) = (number? 10 s).bind scalar? := by
  simp [decodeBody?]

theorem bind_scalar?_eq_some_iff : (number? base s).bind scalar? = some c ↔
    Numeral base s c.toNat ∨ ∃ t, s = '+' :: t ∧ Numeral base t c.toNat := by
  rw [← number?_eq_some_iff, Option.bind_eq_some_iff]
  simp only [scalar?_eq_some_iff, exists_eq_right]

theorem Denotes.decodeBody? (h : Denotes body c) : Html.decodeBody? body = some c := by
  have hx : digitValue? 'x' = none := by decide
  have hX : digitValue? 'X' = none := by decide
  cases h with
  | amp | lt | gt | quot => rfl
  | decimal h =>
    rw [decodeBody?_decimal]
    · exact bind_scalar?_eq_some_iff.mpr (.inl h)
    · rintro t rfl
      exact not_numeral_cons hx h
    · rintro t rfl
      exact not_numeral_cons hX h
  | hexadecimal hx h =>
    rw [decodeBody?_hexadecimal hx]
    exact bind_scalar?_eq_some_iff.mpr (.inl h)

theorem Signed.decodeBody? (h : Signed body c) : Html.decodeBody? body = some c := by
  cases h with
  | decimal h =>
    rw [decodeBody?_decimal (by simp) (by simp)]
    exact bind_scalar?_eq_some_iff.mpr (.inr ⟨_, rfl, h⟩)
  | hexadecimal hx h =>
    rw [decodeBody?_hexadecimal hx]
    exact bind_scalar?_eq_some_iff.mpr (.inr ⟨_, rfl, h⟩)

/-- What the decoder reads between an ampersand and a semicolon, and for which character. -/
def Reads (body : List Char) (c : Char) : Prop :=
  Denotes body c ∨ Signed body c

theorem Reads.decimal (h : (number? 10 s).bind scalar? = some c) : Reads ('#' :: s) c := by
  obtain hnumber | ⟨t, rfl, hnumber⟩ := bind_scalar?_eq_some_iff.mp h
  · exact .inl (.decimal hnumber)
  · exact .inr (.decimal hnumber)

theorem Reads.hexadecimal {x : Char} (hx : x = 'x' ∨ x = 'X')
    (h : (number? 16 s).bind scalar? = some c) : Reads ('#' :: x :: s) c := by
  obtain hnumber | ⟨t, rfl, hnumber⟩ := bind_scalar?_eq_some_iff.mp h
  · exact .inl (.hexadecimal hx hnumber)
  · exact .inr (.hexadecimal hx hnumber)

theorem decodeBody?_eq_some_iff : decodeBody? body = some c ↔ Reads body c := by
  constructor
  · intro h
    unfold decodeBody? at h
    split at h
    · next hbody =>
      cases h
      exact .inl (hbody ▸ .amp)
    split at h
    · next hbody =>
      cases h
      exact .inl (hbody ▸ .lt)
    split at h
    · next hbody =>
      cases h
      exact .inl (hbody ▸ .gt)
    split at h
    · next hbody =>
      cases h
      exact .inl (hbody ▸ .quot)
    split at h
    · exact .hexadecimal (.inl rfl) h
    · exact .hexadecimal (.inr rfl) h
    · exact .decimal h
    · cases h
  · intro h
    cases h with
    | inl h => exact h.decodeBody?
    | inr h => exact h.decodeBody?

/-! ## References -/

theorem isDigit_of_digitValue? {d : Nat} (h : digitValue? c = some d) (hd : d < 10) :
    c.isDigit = true := by
  unfold digitValue? at h
  split at h
  · assumption
  split at h
  · simp only [Option.some.injEq] at h
    omega
  split at h
  · simp only [Option.some.injEq] at h
    omega
  · cases h

theorem isHexDigit_of_digitValue? {d : Nat} (h : digitValue? c = some d) :
    isHexDigit c = true := by
  unfold digitValue? at h
  unfold isHexDigit
  split at h
  · simp [*]
  split at h
  · simp_all
  split at h
  · simp_all
  · cases h

/-- What stands for a character is a well-formed reference. -/
theorem Denotes.reference (h : Denotes body c) : Reference (body ++ [';']) := by
  cases h with
  | amp => exact reference_amp
  | lt => exact @Reference.name ['l', 't'] (List.cons_ne_nil _ _) (List.all_eq_true.mp rfl)
  | gt => exact @Reference.name ['g', 't'] (List.cons_ne_nil _ _) (List.all_eq_true.mp rfl)
  | quot =>
    exact @Reference.name ['q', 'u', 'o', 't'] (List.cons_ne_nil _ _) (List.all_eq_true.mp rfl)
  | decimal h =>
    refine .decimal h.ne_nil fun c hc => ?_
    obtain ⟨d, hvalue, hd⟩ := h.exists_digit c hc
    exact isDigit_of_digitValue? hvalue hd
  | hexadecimal hx h =>
    refine .hexadecimal hx h.ne_nil fun c hc => ?_
    obtain ⟨d, hvalue, -⟩ := h.exists_digit c hc
    exact isHexDigit_of_digitValue? hvalue

/-- What the decoder reads ends at the first semicolon, and in front of the next ampersand. -/
theorem Reads.not_mem (h : Reads body c) : ';' ∉ body ∧ '&' ∉ body := by
  have hnumeral {s : List Char} {base n : Nat} (h : Numeral base s n) : ';' ∉ s ∧ '&' ∉ s := by
    constructor
    · intro hmem
      obtain ⟨d, hd, -⟩ := h.exists_digit _ hmem
      exact absurd hd (by simp [show digitValue? ';' = none by decide])
    · intro hmem
      obtain ⟨d, hd, -⟩ := h.exists_digit _ hmem
      exact absurd hd (by simp [show digitValue? '&' = none by decide])
  cases h with
  | inl h =>
    cases h with
    | amp | lt | gt | quot => simp
    | decimal h => simp [hnumeral h]
    | hexadecimal hx h => obtain rfl | rfl := hx <;> simp [hnumeral h]
  | inr h =>
    cases h with
    | decimal h => simp [hnumeral h]
    | hexadecimal hx h => obtain rfl | rfl := hx <;> simp [hnumeral h]

/-- Between the ampersand and the first semicolon behind it stands what has a character by `D`. -/
def Starts (D : List Char → Char → Prop) (s : List Char) : Prop :=
  ∃ body rest c, s = body ++ ';' :: rest ∧ D body c

theorem cutAtChar?_append {sep : Char} (h : sep ∉ s) :
    Text.cutAtChar? sep (s ++ sep :: t) = some (s, t) := by
  induction s with
  | nil => simp [Text.cutAtChar?]
  | cons c s ih =>
    simp only [List.mem_cons, not_or] at h
    have hc : (c == sep) = false := by simpa using Ne.symm h.1
    simp [Text.cutAtChar?, hc, ih h.2]

theorem eq_append_of_cutAtChar? {sep : Char} (h : Text.cutAtChar? sep s = some (r, t)) :
    s = r ++ sep :: t := by
  induction s generalizing r t with
  | nil => cases h
  | cons c s ih =>
    rw [Text.cutAtChar?] at h
    split at h
    · next hc =>
      cases h
      simpa using hc
    · obtain ⟨p, hp, hq⟩ := Option.map_eq_some_iff.mp h
      cases hq
      simpa using ih hp

theorem decodeReference?_append (h : Reads body c) (rest : List Char) :
    decodeReference? (body ++ ';' :: rest) = some (c, body.length + 1) := by
  rw [decodeReference?, cutAtChar?_append h.not_mem.1]
  simp [decodeBody?_eq_some_iff.mpr h]

theorem starts_of_decodeReference? (h : decodeReference? s = some (c, n)) :
    ∃ body rest, s = body ++ ';' :: rest ∧ n = body.length + 1 ∧ Reads body c := by
  unfold decodeReference? at h
  split at h
  · cases h
  · next body rest hcut =>
    obtain ⟨d, hd, heq⟩ := Option.map_eq_some_iff.mp h
    cases heq
    exact ⟨body, rest, eq_append_of_cutAtChar? hcut, rfl, decodeBody?_eq_some_iff.mp hd⟩

/-- The text of a reference, and the character it stands for, can be told. -/
theorem Reads.unique {body' : List Char} {c' : Char} {rest rest' : List Char} (h : Reads body c)
    (h' : Reads body' c') (heq : body ++ ';' :: rest = body' ++ ';' :: rest') :
    body = body' ∧ c = c' ∧ rest = rest' := by
  have hcut := cutAtChar?_append (t := rest) h.not_mem.1
  rw [heq, cutAtChar?_append h'.not_mem.1] at hcut
  simp only [Option.some.injEq, Prod.mk.injEq] at hcut
  obtain ⟨rfl, rfl⟩ := hcut
  have hc := (decodeBody?_eq_some_iff.mpr h).symm.trans (decodeBody?_eq_some_iff.mpr h')
  exact ⟨rfl, Option.some.inj hc, rfl⟩

/-! ## What is kept and what is read -/

/-- The encoder keeps no number with a plus sign. -/
theorem Signed.not_refers (h : Signed body c) (rest : List Char) :
    ¬ Refers (body ++ ';' :: rest) := by
  have hplus (p : Char → Bool) (hp : p '+' = false) (s : List Char) :
      closedRun p ('+' :: s) = false := by
    simp [closedRun, hp]
  rw [← startsReference_iff]
  cases h with
  | decimal _ => simp [startsReference, hplus Char.isDigit (by decide)]
  | hexadecimal hx _ =>
    obtain rfl | rfl := hx <;> simp [startsReference, hplus isHexDigit (by decide)]

theorem Denotes.refers (h : Denotes body c) (rest : List Char) : Refers (body ++ ';' :: rest) :=
  ⟨body ++ [';'], h.reference, rest, by simp⟩

/-- Of the references that are kept, the decoder reads those that stand for a character. -/
theorem Reads.denotes {rest : List Char} (h : Reads body c)
    (hrefers : Refers (body ++ ';' :: rest)) : Denotes body c :=
  h.resolve_right fun hsigned => hsigned.not_refers rest hrefers

/-- A reference ends at the first semicolon in it. -/
theorem Reference.exists_body (hr : Reference r) : ∃ body, r = body ++ [';'] ∧ ';' ∉ body := by
  have hrun {p : Char → Bool} {s : List Char} (h : ∀ c ∈ s, p c = true) (hp : p ';' = false) :
      ';' ∉ s := by
    intro hmem
    exact absurd (h ';' hmem) (by simp [hp])
  cases hr with
  | name _ h => exact ⟨_, rfl, hrun h rfl⟩
  | decimal _ h => exact ⟨'#' :: _, rfl, by simpa using hrun h rfl⟩
  | hexadecimal hx _ h =>
    refine ⟨'#' :: _ :: _, rfl, ?_⟩
    obtain rfl | rfl := hx <;> simpa using hrun h rfl

end Mustache.Html
