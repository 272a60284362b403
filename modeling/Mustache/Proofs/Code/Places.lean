import Mathlib.Data.List.TakeWhile
import Mustache.Proofs.Code.Bodies

/-! # Places in a template

A cursor counts lines and keeps the characters of the line it is on.  All of that can be told from
the text that it has passed, so whether a tag stands alone on its line is a matter of the text
before and after the tag, and not of how the cursor came there.

* `Text.lastLine`, `Text.EndsLine`, `Text.StandsAlone` — standing alone on a line.
* `Cursor.past` — the cursor that has passed a text.
* `Tag.next_past` — what the text is made of where a tag is found.
* `Code.settle_of_standsAlone`, `Code.settle_of_not_standsAlone` — how a tag is settled on its line.
-/

namespace Mustache

namespace Text

/-! ## Lines -/

/-- The text after the last line feed. -/
def lastLine (s : List Char) : List Char :=
  (s.reverse.takeWhile (· != '\n')).reverse

/-- A text that ends a line, in front of the rest of the text: spaces and tabs, and then a line
    ending, unless nothing is left. -/
inductive EndsLine (spacing : List Char) : List Char → List Char → Prop
  | lineFeed (h : spacing.all isSpacing = true) (rest : List Char) :
      EndsLine spacing (spacing ++ ['\n']) rest
  | carriageReturn (h : spacing.all isSpacing = true) (rest : List Char) :
      EndsLine spacing (spacing ++ ['\r', '\n']) rest
  | atEnd (h : spacing.all isSpacing = true) : EndsLine spacing spacing []

/-- Nothing but spaces and tabs stands on the line between the text before and the text after. -/
def StandsAlone (before after : List Char) : Prop :=
  (lastLine before).all isSpacing = true ∧
    ∃ spacing trail rest, after = trail ++ rest ∧ EndsLine spacing trail rest

variable {a b s trail rest spacing before after : List Char} {n : Nat}

theorem lastLine_append :
    lastLine (a ++ b) = if '\n' ∈ b then lastLine b else lastLine a ++ b := by
  have hall : (b.reverse.takeWhile (· != '\n')).length = b.reverse.length ↔ '\n' ∉ b := by
    constructor
    · intro h hmem
      have hb := (List.takeWhile_prefix (· != '\n')).eq_of_length h
      have hne := List.mem_takeWhile_imp (hb ▸ List.mem_reverse.mpr hmem)
      simp at hne
    · intro h
      rw [List.takeWhile_eq_self_iff.mpr]
      intro c hc
      have hne : c ≠ '\n' := fun heq => h (heq ▸ List.mem_reverse.mp hc)
      simpa using hne
  rw [lastLine, List.reverse_append, List.takeWhile_append]
  by_cases h : '\n' ∈ b
  · rw [if_neg (fun hlen => hall.mp hlen h), if_pos h, lastLine]
  · rw [if_pos (hall.mpr h), if_neg h, lastLine]
    simp

theorem blankLineRest?_of_endsLine (h : EndsLine spacing trail rest) :
    Tag.blankLineRest? (trail ++ rest) = some trail.length := by
  have htake {s : List Char} (hs : spacing.all isSpacing = true) :
      (spacing ++ s).takeWhile isSpacing = spacing ++ s.takeWhile isSpacing := by
    rw [List.takeWhile_append_of_pos (by simpa using hs)]
  have hdrop {s : List Char} (hs : spacing.all isSpacing = true) :
      (spacing ++ s).dropWhile isSpacing = s.dropWhile isSpacing := by
    rw [List.dropWhile_append_of_pos (by simpa using hs)]
  have hfeed : isSpacing '\n' = false := rfl
  have hreturn : isSpacing '\r' = false := rfl
  cases h with
  | lineFeed hs rest =>
    simp [Tag.blankLineRest?, htake hs, hdrop hs, hfeed]
  | carriageReturn hs rest =>
    simp [Tag.blankLineRest?, htake hs, hdrop hs, hreturn]
  | atEnd hs =>
    have ht := htake (s := []) hs
    have hd := hdrop (s := []) hs
    rw [Tag.blankLineRest?, ht, hd]
    simp

theorem endsLine_of_blankLineRest? (h : Tag.blankLineRest? s = some n) :
    ∃ spacing trail rest, s = trail ++ rest ∧ n = trail.length ∧ EndsLine spacing trail rest := by
  have hs := (List.takeWhile_append_dropWhile (p := isSpacing) (l := s)).symm
  have hall : (s.takeWhile isSpacing).all isSpacing = true := List.all_takeWhile
  unfold Tag.blankLineRest? at h
  simp only at h
  split at h
  · next heq =>
    rw [heq, List.append_nil] at hs
    simp only [Option.some.injEq] at h
    exact ⟨_, _, [], by rw [List.append_nil]; exact hs, h.symm, .atEnd hall⟩
  · next rest heq =>
    rw [heq] at hs
    simp only [Option.some.injEq] at h
    exact ⟨_, s.takeWhile isSpacing ++ ['\n'], rest, by simpa using hs, by simp [← h],
      .lineFeed hall rest⟩
  · next rest heq =>
    rw [heq] at hs
    simp only [Option.some.injEq] at h
    exact ⟨_, s.takeWhile isSpacing ++ ['\r', '\n'], rest, by simpa using hs, by simp [← h],
      .carriageReturn hall rest⟩
  · cases h

theorem standsAlone_iff :
    StandsAlone before after ↔
      (lastLine before).all isSpacing = true ∧ (Tag.blankLineRest? after).isSome = true := by
  refine and_congr_right fun _ => ?_
  constructor
  · rintro ⟨spacing, trail, rest, rfl, h⟩
    rw [blankLineRest?_of_endsLine h]
    rfl
  · intro h
    obtain ⟨n, hn⟩ := Option.isSome_iff_exists.mp h
    obtain ⟨spacing, trail, rest, rfl, -, hends⟩ := endsLine_of_blankLineRest? hn
    exact ⟨spacing, trail, rest, rfl, hends⟩

end Text

/-! ## Cursors -/

namespace Cursor

variable {passed rest s : List Char}

/-- The cursor that has passed a text and has another one still to come. -/
def past (passed rest : List Char) : Cursor where
  line := passed.count '\n' + 1
  lead := passed.reverse.takeWhile (· != '\n')
  offset := passed.length
  rest := rest

theorem start_eq_past (s : List Char) : start s = past [] s := rfl

theorem next_past (c : Char) : (past passed (c :: rest)).next = past (passed ++ [c]) rest := by
  unfold next past
  by_cases hc : c = '\n'
  · subst hc
    simp
  · simp [hc]

theorem skip_past : (past passed (s ++ rest)).skip s.length = past (passed ++ s) rest := by
  induction s generalizing passed with
  | nil => simp [skip]
  | cons c s ih =>
    rw [List.length_cons, List.cons_append, skip, next_past, ih, List.append_assoc,
      List.singleton_append]

theorem lead_past : (past passed rest).lead.reverse = Text.lastLine passed := rfl

end Cursor

/-! ## Tags -/

namespace Tag

variable {d : Delimiters} {c : Cursor} {passed text inside rest : List Char} {content : Content}
  {file : String} {found : Found}

/-- A tag ends with its closing delimiter. -/
theorem eq_append_of_scanInside (h : scanInside d inside = .ok (content, rest)) :
    ∃ inner, inside = inner ++ d.closing.toList ++ rest := by
  unfold scanInside at h
  split at h
  · next raw =>
    split at h
    · next s r hcut =>
      cases htriple : Content.ofTriple (Text.trim s) with
      | error e => simp [htriple, Except.map] at h
      | ok c =>
        simp only [htriple, Except.map, Except.ok.injEq, Prod.mk.injEq] at h
        obtain ⟨-, rfl⟩ := h
        exact ⟨'\x7b' :: s ++ ['\x7d'], by simp [Text.eq_append_of_cut? hcut]⟩
    · split at h <;> cases h
  · split at h
    · next s r hcut =>
      cases hchars : Content.ofChars (Text.trim s) with
      | error e => simp [hchars, Except.map] at h
      | ok c =>
        simp only [hchars, Except.map, Except.ok.injEq, Prod.mk.injEq] at h
        obtain ⟨-, rfl⟩ := h
        exact ⟨s, by simp [Text.eq_append_of_cut? hcut]⟩
    · cases h

theorem next_eq_none_iff :
    next file d c = .ok none ↔ Text.cut? d.opening.toList c.rest = none := by
  unfold next
  cases hcut : Text.cut? d.opening.toList c.rest with
  | none => simp
  | some p =>
    simp only [reduceCtorEq, iff_false]
    cases scanInside d p.2 <;> simp

/-- Where a tag is found, the text is the literal text before it, the tag and the rest. -/
theorem next_past (h : next file d (.past passed text) = .ok (some found)) :
    ∃ inner rest,
      Text.cut? d.opening.toList text =
        some (found.before, inner ++ d.closing.toList ++ rest) ∧
      scanInside d (inner ++ d.closing.toList ++ rest) = .ok (found.tag.content, rest) ∧
      text = found.before ++ (d.opening.toList ++ inner ++ d.closing.toList ++ rest) ∧
      found.tag.delimiters = d ∧
      found.tag.place = .past (passed ++ found.before)
        (d.opening.toList ++ inner ++ d.closing.toList ++ rest) ∧
      found.after = .past
        (passed ++ found.before ++ (d.opening.toList ++ inner ++ d.closing.toList)) rest := by
  unfold next at h
  split at h
  · cases h
  · next before inside hcut =>
    simp only at h
    split at h
    · cases h
    · next content rest hscan =>
      simp only [Except.ok.injEq, Option.some.injEq] at h
      obtain ⟨inner, rfl⟩ := eq_append_of_scanInside hscan
      have htext : text =
          before ++ (d.opening.toList ++ inner ++ d.closing.toList ++ rest) := by
        have happend : text = _ := Text.eq_append_of_cut? hcut
        simpa using happend
      have hplace : (Cursor.past passed text).skip before.length = .past (passed ++ before)
          (d.opening.toList ++ inner ++ d.closing.toList ++ rest) := by
        rw [htext, Cursor.skip_past]
      subst h
      refine ⟨inner, rest, hcut, hscan, htext, rfl, hplace, ?_⟩
      have hlength : (Cursor.past (passed ++ before)
          (d.opening.toList ++ inner ++ d.closing.toList ++ rest)).rest.length - rest.length =
          (d.opening.toList ++ inner ++ d.closing.toList).length := by
        simp only [Cursor.past, List.length_append]
        omega
      simp only [hplace, hlength, Cursor.skip_past]

end Tag

/-! ## Settling -/

namespace Code

variable {text before raw passed after spacing trail rest : List Char} {tag : Tag}

theorem startsLine_past (hplace : tag.place = .past before raw) :
    tag.startsLine = (Text.lastLine before).all Text.isSpacing := by
  rw [Tag.startsLine, hplace, ← @Cursor.lead_past before raw, List.all_reverse]

theorem lineRest?_past (hplace : tag.place = .past before raw) :
    tag.lineRest? (.past passed after) =
      if tag.content.mayStandAlone && (Text.lastLine before).all Text.isSpacing then
        Tag.blankLineRest? after
      else none := by
  rw [Tag.lineRest?, startsLine_past hplace]
  rfl

theorem isSome_lineRest?_past (hplace : tag.place = .past before raw) :
    (tag.lineRest? (.past passed after)).isSome = true ↔
      tag.content.mayStandAlone = true ∧ Text.StandsAlone before after := by
  rw [lineRest?_past hplace, Text.standsAlone_iff]
  cases tag.content.mayStandAlone <;> cases (Text.lastLine before).all Text.isSpacing <;> simp

/-- A tag that stands alone takes the spacing before it off the text, and the rest of its line. -/
theorem settle_of_standsAlone (hplace : tag.place = .past before raw)
    (hcontent : tag.content.mayStandAlone = true)
    (hbefore : (Text.lastLine before).all Text.isSpacing = true)
    (htrail : Text.EndsLine spacing trail rest) :
    settle text tag (.past passed (trail ++ rest)) =
      ⟨text.take (text.length - (Text.lastLine before).length), Text.lastLine before,
        .past (passed ++ trail) rest⟩ := by
  have hindent : tag.indent = Text.lastLine before := by rw [Tag.indent, hplace]; rfl
  rw [settle, lineRest?_past hplace, hcontent, hbefore, Text.blankLineRest?_of_endsLine htrail]
  simp only [Bool.and_self, if_true, hindent, Cursor.skip_past]

theorem settle_of_not_standsAlone (hplace : tag.place = .past before raw)
    (halone : tag.content.mayStandAlone = true → ¬ Text.StandsAlone before after) :
    settle text tag (.past passed after) = ⟨text, [], .past passed after⟩ := by
  have hnone : tag.lineRest? (.past passed after) = none := by
    rw [lineRest?_past hplace]
    split
    · next h =>
      rw [Bool.and_eq_true] at h
      have hline := halone h.1
      rw [Text.standsAlone_iff] at hline
      cases hrest : Tag.blankLineRest? after with
      | none => rfl
      | some n => exact absurd ⟨h.2, by rw [hrest]; rfl⟩ hline
    · rfl
  rw [settle, hnone]

end Code

end Mustache
