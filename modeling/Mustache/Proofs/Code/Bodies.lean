import Mustache.Code.Parser

/-! # Parsing, step by step

`parseBody` carries a proof that it moves on.  Without that proof it is `bodyOf`, which one equation
describes: read a tag, take its line away, and go on by what the tag is for.  The equation is what
facts about the parser are proved from, by induction on the text that is left; `Parsed` is how a
body that is parsed is made up, for facts about what it holds.
-/

namespace Mustache.Code

/-- The body that is parsed at a place. -/
def bodyOf (src : Source) (opened : Option Opened) (d : Delimiters) (text : List Char)
    (c : Cursor) : Except SyntaxError Body :=
  (parseBody src opened d text c).map (·.1)

/-- A body with nodes put before its own. -/
def Body.before (text : List Char) (code : Code) (b : Body) : Body :=
  { b with codes := flush text (code :: b.codes) }

/-- The body after the last tag. -/
def bodyAtEnd (src : Source) (opened : Option Opened) (d : Delimiters) (text : List Char)
    (c : Cursor) : Except SyntaxError Body :=
  match opened with
  | some o => .error (src.fault o.tag (.unclosedSection o.name))
  | none =>
    let after := c.skip c.rest.length
    .ok ⟨flush (text ++ c.rest) [.eof], after.offset, d, after⟩

/-- The body before a close tag. -/
def bodyAtClose (src : Source) (opened : Option Opened) (tag : Tag) (name : String)
    (s : Settled) : Except SyntaxError Body :=
  match opened with
  | none => .error (src.fault tag (.unexpectedClose name))
  | some o =>
    if o.name = name then
      .ok ⟨flush s.text [], tag.place.offset - s.indent.length, tag.delimiters, s.after⟩
    else .error (src.fault tag (.mismatchedSection o.name name))

/-- A tag, settled on its line behind the text held back. -/
def settleFound (text : List Char) (found : Tag.Found) : Settled :=
  settle (text ++ found.before) found.tag found.after

/-- Parsing goes on after a tag by what the tag is for. -/
def bodyAtTag (src : Source) (opened : Option Opened) (d : Delimiters) (tag : Tag)
    (s : Settled) : Except SyntaxError Body :=
  match tag.content with
  | .comment => bodyOf src opened d s.text s.after
  | .delimiters d' => bodyOf src opened d' s.text s.after
  | .pragma body => bodyOf src opened d (s.text ++ src.pragmaText body) s.after
  | .value style name =>
    (bodyOf src opened d [] s.after).map
      (.before s.text (.value ⟨src.origin tag, name, style⟩))
  | .inclusion name =>
    (bodyOf src opened d [] s.after).map
      (.before s.text (.inclusion ⟨src.origin tag, name, .ofList s.indent⟩))
  | .dynamic name =>
    (bodyOf src opened d [] s.after).map
      (.before s.text (.dynamic ⟨src.origin tag, name, .ofList s.indent⟩))
  | .opening bracket name =>
    (bodyOf src (some ⟨name, tag⟩) d [] s.after).bind fun inner =>
      (ofBody src tag bracket name s.after inner).bind fun code =>
        (bodyOf src opened d [] inner.after).map (.before s.text code)
  | .close name => bodyAtClose src opened tag name s

section

variable {ε α β γ : Type}

theorem map_map (x : Except ε α) (f : α → β) (g : β → γ) :
    (x.map f).map g = x.map fun a => g (f a) := by
  cases x <;> rfl

theorem exists_ok_of_map {x : Except ε α} {f : α → β} {b : β} (h : x.map f = .ok b) :
    ∃ a, x = .ok a ∧ f a = b := by
  cases x with
  | error e => cases h
  | ok a => exact ⟨a, rfl, Except.ok.inj h⟩

theorem exists_ok_of_bind {x : Except ε α} {f : α → Except ε β} {b : β} (h : x.bind f = .ok b) :
    ∃ a, x = .ok a ∧ f a = .ok b := by
  cases x with
  | error e => cases h
  | ok a => exact ⟨a, rfl, h⟩

theorem eq_ok_of_isSome {x : Except ε α} (h : x.toOption.isSome = true) (default : α) :
    x = .ok (x.toOption.getD default) := by
  cases x with
  | error e => cases h
  | ok a => rfl

theorem map_bind_pure (x : Except ε α) (f : α → β) (g : β → γ) :
    (x >>= fun a => pure (f a)).map g = x.map fun a => g (f a) := by
  cases x <;> rfl

end

theorem bodyOf_eq (src : Source) (opened : Option Opened) (d : Delimiters) (text : List Char)
    (c : Cursor) :
    bodyOf src opened d text c =
      match Tag.next src.file d c with
      | .error e => .error e
      | .ok none => bodyAtEnd src opened d text c
      | .ok (some found) => bodyAtTag src opened d found.tag (settleFound text found) := by
  rw [bodyOf, parseBody.eq_def]
  split
  · next e h => simp only [h]; rfl
  · next h =>
    simp only [h, bodyAtEnd]
    cases opened <;> rfl
  · next found h =>
    simp only [h, bodyAtTag, settleFound, bodyOf]
    cases found.tag.content with
    | comment | delimiters | pragma => exact map_bind_pure _ _ _
    | value | inclusion | dynamic =>
      simp only [map_bind_pure, map_map]
      rfl
    | opening bracket name =>
      dsimp only
      cases parseBody src (some ⟨name, found.tag⟩) d []
          (settle (text ++ found.before) found.tag found.after).after with
      | error e => rfl
      | ok inner =>
        simp only [bind, Except.map, Except.bind]
        cases ofBody src found.tag bracket name
            (settle (text ++ found.before) found.tag found.after).after inner.1 with
        | error e => rfl
        | ok code => cases parseBody src opened d [] inner.1.after <;> rfl
    | close name =>
      dsimp only [bodyAtClose]
      cases opened with
      | none => rfl
      | some o =>
        dsimp only
        split <;> rfl

/-! ## Moving on -/

variable {src : Source} {opened : Option Opened} {d : Delimiters} {text : List Char} {c : Cursor}

theorem length_after_of_bodyOf {b : Body} (h : bodyOf src opened d text c = .ok b) :
    b.after.rest.length ≤ c.rest.length := by
  cases hparse : parseBody src opened d text c with
  | error e => simp [bodyOf, hparse, Except.map] at h
  | ok r =>
    obtain rfl : r.1 = b := by simpa [bodyOf, hparse, Except.map] using h
    exact r.2

theorem length_settleFound_lt {found : Tag.Found} (text : List Char)
    (h : Tag.next src.file d c = .ok (some found)) :
    (settleFound text found).after.rest.length < c.rest.length :=
  Nat.lt_of_le_of_lt (length_after_settle_le _ _ _) (Tag.length_after_of_next h)

theorem parse_eq (src : Source) (d : Delimiters) (text : String) :
    parse src d text = (bodyOf src none d [] (.start text.toList)).map Body.codes :=
  (map_map _ _ _).symm

/-! ## What is parsed -/

/-- A body that is parsed: nodes one after another, up to the end of the text or a close tag. -/
inductive Parsed (src : Source) : Option Opened → Body → Prop
  | atEnd (text : List Char) (stop : Nat) (d : Delimiters) (after : Cursor) :
      Parsed src none ⟨flush text [.eof], stop, d, after⟩
  | atClose (o : Opened) (text : List Char) (stop : Nat) (d : Delimiters) (after : Cursor) :
      Parsed src (some o) ⟨flush text [], stop, d, after⟩
  | value {opened : Option Opened} {b : Body} (text : List Char) (v : Interpolation)
      (h : Parsed src opened b) : Parsed src opened (.before text (.value v) b)
  | inclusion {opened : Option Opened} {b : Body} (text : List Char) (p : Inclusion)
      (h : Parsed src opened b) : Parsed src opened (.before text (.inclusion p) b)
  | dynamic {opened : Option Opened} {b : Body} (text : List Char) (p : Inclusion)
      (h : Parsed src opened b) : Parsed src opened (.before text (.dynamic p) b)
  | opening {opened : Option Opened} {b inner : Body} {tag : Tag} {bracket : Tag.Bracket}
      {name : String} {start : Cursor} {code : Code} (text : List Char)
      (hinner : Parsed src (some ⟨name, tag⟩) inner)
      (hcode : ofBody src tag bracket name start inner = .ok code) (h : Parsed src opened b) :
      Parsed src opened (.before text code b)

/-- What holds of the bodies that are parsed, with some tag open and some delimiters in force. -/
theorem bodyOf_induction {motive : Option Opened → Delimiters → Body → Prop}
    (atEnd : ∀ (d : Delimiters) (text : List Char) (stop : Nat) (after : Cursor),
      motive none d ⟨flush text [.eof], stop, d, after⟩)
    (atClose : ∀ {d c found} (o : Opened) (text : List Char) (stop : Nat) (after : Cursor),
      Tag.next src.file d c = .ok (some found) →
      motive (some o) d ⟨flush text [], stop, found.tag.delimiters, after⟩)
    (delimiters : ∀ {opened d d' c found b}, Tag.next src.file d c = .ok (some found) →
      found.tag.content = .delimiters d' → motive opened d' b → motive opened d b)
    (value : ∀ {opened d c found b style name} (text : List Char),
      Tag.next src.file d c = .ok (some found) → found.tag.content = .value style name →
      motive opened d b →
        motive opened d (.before text (.value ⟨src.origin found.tag, name, style⟩) b))
    (inclusion : ∀ {opened d c found b name} (text : List Char) (indent : String),
      Tag.next src.file d c = .ok (some found) → found.tag.content = .inclusion name →
      motive opened d b →
        motive opened d (.before text (.inclusion ⟨src.origin found.tag, name, indent⟩) b))
    (dynamic : ∀ {opened d c found b name} (text : List Char) (indent : String),
      Tag.next src.file d c = .ok (some found) → found.tag.content = .dynamic name →
      motive opened d b →
        motive opened d (.before text (.dynamic ⟨src.origin found.tag, name, indent⟩) b))
    (opening : ∀ {opened d c found b inner bracket name start code} (text : List Char),
      Tag.next src.file d c = .ok (some found) → found.tag.content = .opening bracket name →
      motive (some ⟨name, found.tag⟩) d inner →
      ofBody src found.tag bracket name start inner = .ok code → motive opened d b →
        motive opened d (.before text code b))
    {b : Body} (h : bodyOf src opened d text c = .ok b) : motive opened d b := by
  -- A tag uses up text, so the induction is on the text that is left.
  induction hlen : c.rest.length using Nat.strongRecOn generalizing opened d text c b with
  | _ k ih =>
    subst hlen
    rw [bodyOf_eq] at h
    cases hnext : Tag.next src.file d c with
    | error e => simp [hnext] at h
    | ok found? =>
      rw [hnext] at h
      cases found? with
      | none =>
        simp only [bodyAtEnd] at h
        cases opened with
        | some o => cases h
        | none =>
          cases h
          exact atEnd _ _ _ _
      | some found =>
        simp only at h
        have hlt := length_settleFound_lt text hnext
        generalize settleFound text found = s at hlt h
        simp only [bodyAtTag] at h
        cases hcontent : found.tag.content with
        | comment | pragma _ =>
          rw [hcontent] at h
          exact ih _ hlt h rfl
        | delimiters d' =>
          rw [hcontent] at h
          exact delimiters hnext hcontent (ih _ hlt h rfl)
        | value style name =>
          rw [hcontent] at h
          obtain ⟨more, hmore, rfl⟩ := exists_ok_of_map h
          exact value _ hnext hcontent (ih _ hlt hmore rfl)
        | inclusion name =>
          rw [hcontent] at h
          obtain ⟨more, hmore, rfl⟩ := exists_ok_of_map h
          exact inclusion _ _ hnext hcontent (ih _ hlt hmore rfl)
        | dynamic name =>
          rw [hcontent] at h
          obtain ⟨more, hmore, rfl⟩ := exists_ok_of_map h
          exact dynamic _ _ hnext hcontent (ih _ hlt hmore rfl)
        | close name =>
          rw [hcontent] at h
          simp only [bodyAtClose] at h
          split at h
          · cases h
          · split at h
            · cases h
              exact atClose _ _ _ _ hnext
            · cases h
        | opening bracket name =>
          rw [hcontent] at h
          obtain ⟨inner, hinner, h⟩ := exists_ok_of_bind h
          obtain ⟨code, hcode, h⟩ := exists_ok_of_bind h
          obtain ⟨more, hmore, rfl⟩ := exists_ok_of_map h
          have hafter := Nat.lt_of_le_of_lt (length_after_of_bodyOf hinner) hlt
          exact opening _ hnext hcontent (ih _ hlt hinner rfl) hcode (ih _ hafter hmore rfl)

theorem parsed_of_bodyOf {b : Body} (h : bodyOf src opened d text c = .ok b) :
    Parsed src opened b :=
  bodyOf_induction (motive := fun opened _ b => Parsed src opened b)
    (fun d text stop after => .atEnd text stop d after)
    (fun o text stop after _ => .atClose o text stop _ after)
    (fun _ _ ih => ih)
    (fun text _ _ ih => .value text _ ih)
    (fun text _ _ _ ih => .inclusion text _ ih)
    (fun text _ _ _ ih => .dynamic text _ ih)
    (fun text _ _ hinner hcode ih => .opening text hinner hcode ih) h

theorem parsed_of_parse {text : String} {codes : List Code} (h : parse src d text = .ok codes) :
    ∃ b, Parsed src none b ∧ b.codes = codes := by
  rw [parse_eq] at h
  obtain ⟨b, hb, rfl⟩ := exists_ok_of_map h
  exact ⟨b, parsed_of_bodyOf hb, rfl⟩

theorem getLast?_flush {cs : List Code} {code : Code} (text : List Char)
    (h : cs.getLast? = some code) : (flush text cs).getLast? = some code := by
  rw [flush]
  split
  · exact h
  · rw [List.getLast?_cons, h]
    rfl

/-- The last node of a template stands for its end. -/
theorem getLast?_of_parse {text : String} {codes : List Code}
    (h : parse src d text = .ok codes) : codes.getLast? = some .eof := by
  obtain ⟨b, hb, rfl⟩ := parsed_of_parse h
  have hbefore {text : List Char} {code : Code} {b : Body} (hb : b.codes.getLast? = some .eof) :
      (Body.before text code b).codes.getLast? = some .eof :=
    getLast?_flush text (by rw [List.getLast?_cons, hb]; rfl)
  clear h
  generalize hopened : (none : Option Opened) = opened at hb
  induction hb with
  | atEnd text => exact getLast?_flush text rfl
  | atClose => cases hopened
  | value _ _ _ ih | inclusion _ _ _ ih | dynamic _ _ _ ih => exact hbefore (ih hopened)
  | opening _ _ _ _ _ ih => exact hbefore (ih hopened)

end Mustache.Code
