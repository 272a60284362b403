import Mathlib.Data.List.DropRight
import Mathlib.Data.List.Induction
import Mustache.Proofs.Code.Inside
import Mustache.Proofs.Code.Lexing
import Mustache.Proofs.Code.Pieces

/-! # Well-formed trees

What rendering, inversion and substitution may count on in a tree that was parsed: literals are not
empty and never stand side by side, names are trimmed, the delimiters that nodes keep are valid,
and the replacements of an extension are the last blocks of their names in its body.

* `Tag.Content.Proper` — what the name in a tag is like; `Tag.proper_of_next` has it of every tag
  that is read.
* `IsLastBlock`, `find?_blocksOf_iff` — which block replaces the blocks of a name.
* `WellFormed`, `WellFormedTag` — well-formed lists of nodes, and the tags in them.
* `exists_wellFormed_of_parse` — a parsed tree is a well-formed list and the end of the text.
-/

namespace Mustache

namespace Text

variable {s : List Char}

theorem trim_idem (s : List Char) : trim (trim s) = trim s := by
  -- A trimmed text starts with no blank, so there is nothing to take off its start.
  have hstart : trimStart (trim s) = trim s := by
    cases htrim : trim s with
    | nil => rfl
    | cons c t =>
      have hc : isBlank c = false := by
        have hhead := List.head?_dropWhile_not isBlank s
        rw [← trimStart, ← head?_trim, htrim] at hhead
        simpa using hhead
      exact List.dropWhile_cons_of_neg (by simp [hc])
  rw [trim, hstart]
  exact List.rdropWhile_idempotent isBlank (trimStart s)

end Text

/-! ## Names in tags -/

namespace Tag

/-- What the name in a tag is like.  A plain value has none of the signs that make another tag of
    it, and a template that is included by its own name has no star; a brace may start a name, if
    something blank stands before it. -/
def Content.Proper : Content → Prop
  | .value .escaped name => IsName name ∧ ∀ c ∈ name.toList.head?, isSigil c = false
  | .inclusion name => IsName name ∧ name.toList.head? ≠ some '*'
  | .value _ name | .opening _ name | .close name | .dynamic name => IsName name
  | .delimiters d => d.isValid = true
  | .comment | .pragma _ => True

variable {content : Content} {s : List Char}

theorem Named.isName {name : String} (h : Named s name) : IsName name :=
  ⟨h.ne, by rw [← h.trim, Text.trim_idem]⟩

theorem Content.Inside.proper (h : content.Inside s) : content.Proper := by
  cases h with
  | escaped hname hplain _ => exact ⟨hname.isName, hplain⟩
  | inclusion _ hname hstar => exact ⟨hname.isName, hstar⟩
  | triple _ hname => exact hname.isName
  | ampersand _ hname | opening _ hname | close _ hname => exact hname.isName
  | dynamic _ _ hname => exact hname.isName
  | delimiters _ _ hvalid => exact hvalid
  | comment _ | pragma _ _ => trivial

theorem proper_of_scanInside {d : Delimiters} {inside rest : List Char}
    (h : scanInside d inside = .ok (content, rest)) : content.Proper := by
  obtain ⟨inner, rfl⟩ := eq_append_of_scanInside h
  exact (Content.Inside.of_scanInside h).proper

/-- Every tag that is read has a proper name, and keeps the delimiters it was read with. -/
theorem proper_of_next {file : String} {d : Delimiters} {c : Cursor} {found : Found}
    (h : next file d c = .ok (some found)) :
    found.tag.content.Proper ∧ found.tag.delimiters = d := by
  unfold next at h
  split at h
  · cases h
  · simp only at h
    split at h
    · cases h
    · next hscan =>
      cases h
      exact ⟨proper_of_scanInside hscan, rfl⟩

end Tag

namespace Code

/-! ## The last block of a name -/

/-- A block that stands directly in a body, with no other of its name behind it. -/
def IsLastBlock (name : String) (b : Block Code) (body : List Code) : Prop :=
  ∃ before after, body = before ++ .block b :: after ∧ b.name = name ∧
    ∀ a, .block a ∈ after → a.name ≠ name

section

variable {name : String} {a b : Block Code} {as : List (Block Code)} {body : List Code} {c : Code}

theorem find?_insert (name : String) (b : Block Code) (as : List (Block Code)) :
    Block.find? name (b.insert as) = if b.name = name then some b else Block.find? name as := by
  induction as with
  | nil => by_cases hb : b.name = name <;> simp [Block.insert, Block.find?, hb]
  | cons a as ih =>
    rw [Block.find?] at ih ⊢
    rw [Block.insert]
    split
    · next hname =>
      by_cases hb : b.name = name <;> simp [Block.find?, hname, hb]
    · next hname =>
      by_cases ha : a.name = name
      · simp [Block.find?, ha, ha ▸ Ne.symm hname]
      · simp [Block.find?, ha, ih]

theorem nodup_insert (b : Block Code) (h : (as.map Block.name).Nodup) :
    ((b.insert as).map Block.name).Nodup := by
  have hmem : ∀ {n : String} {as : List (Block Code)}, n ∈ (b.insert as).map Block.name →
      n = b.name ∨ n ∈ as.map Block.name := by
    intro n as hn
    obtain ⟨a, ha, rfl⟩ := List.mem_map.mp hn
    have hfound : (Block.find? a.name (b.insert as)).isSome = true :=
      List.find?_isSome.mpr ⟨a, ha, by simp⟩
    rw [find?_insert] at hfound
    split at hfound
    · next hname => exact .inl hname.symm
    · obtain ⟨a', ha', hname⟩ := List.find?_isSome.mp hfound
      exact .inr (List.mem_map.mpr ⟨a', ha', by simpa using hname⟩)
  induction as with
  | nil => simp [Block.insert]
  | cons a as ih =>
    rw [List.map_cons, List.nodup_cons] at h
    rw [Block.insert]
    split
    · next hname => simpa [← hname] using h
    · next hname =>
      rw [List.map_cons, List.nodup_cons]
      refine ⟨fun hin => ?_, ih h.2⟩
      obtain heq | hin := hmem hin
      · exact hname heq
      · exact h.1 hin

theorem find?_of_nodup (h : (as.map Block.name).Nodup) (hb : b ∈ as) :
    Block.find? b.name as = some b := by
  induction as with
  | nil => cases hb
  | cons a as ih =>
    rw [List.map_cons, List.nodup_cons] at h
    obtain rfl | hb := List.mem_cons.mp hb
    · simp [Block.find?]
    · have hne : a.name ≠ b.name := fun heq => h.1 (heq ▸ List.mem_map_of_mem hb)
      rw [Block.find?, List.find?_cons_of_neg (by simpa using hne)]
      exact ih h.2 hb

theorem IsLastBlock.mem (h : IsLastBlock name b body) : .block b ∈ body := by
  obtain ⟨before, after, rfl, -⟩ := h
  simp

theorem blocksOf_concat_block (body : List Code) (b : Block Code) :
    blocksOf (body ++ [.block b]) = b.insert (blocksOf body) := by
  simp [blocksOf]

theorem blocksOf_concat_of_ne_block (body : List Code) (h : ∀ b, c ≠ .block b) :
    blocksOf (body ++ [c]) = blocksOf body := by
  cases c with
  | block b => exact absurd rfl (h b)
  | _ => simp [blocksOf]

theorem isLastBlock_concat_iff :
    IsLastBlock name b (body ++ [c]) ↔
      c = .block b ∧ b.name = name ∨
        IsLastBlock name b body ∧ ∀ a, c = .block a → a.name ≠ name := by
  constructor
  · rintro ⟨before, after, heq, hname, hafter⟩
    obtain rfl | ⟨after, c', rfl⟩ := List.eq_nil_or_concat after
    · obtain ⟨rfl, hc⟩ := List.append_inj' heq rfl
      exact .inl ⟨(List.cons.inj hc).1, hname⟩
    · have hsplit : body ++ [c] = (before ++ .block b :: after) ++ [c'] := by simpa using heq
      obtain ⟨rfl, hc⟩ := List.append_inj' hsplit rfl
      obtain rfl := (List.cons.inj hc).1
      refine .inr ⟨⟨before, after, rfl, hname, fun a ha => hafter a (by simp [ha])⟩, ?_⟩
      rintro a rfl
      exact hafter a (by simp)
  · rintro (⟨rfl, hname⟩ | ⟨⟨before, after, rfl, hname, hafter⟩, hlast⟩)
    · exact ⟨body, [], rfl, hname, by simp⟩
    · refine ⟨before, after ++ [c], by simp, hname, fun a ha => ?_⟩
      obtain ha | ha := List.mem_append.mp ha
      · exact hafter a ha
      · exact hlast a (List.mem_singleton.mp ha).symm

/-- The blocks that are collected from a body hold the last block of each name. -/
theorem find?_blocksOf_iff :
    Block.find? name (blocksOf body) = some b ↔ IsLastBlock name b body := by
  -- A later block takes the place of an earlier one, so the induction is from the end.
  induction body using List.reverseRecOn with
  | nil => simp [blocksOf, Block.find?, IsLastBlock]
  | append_singleton body c ih =>
    rw [isLastBlock_concat_iff]
    cases c with
    | block a =>
      rw [blocksOf_concat_block, find?_insert]
      by_cases ha : a.name = name
      · simp only [ha, if_true, Option.some.injEq, Code.block.injEq]
        constructor
        · rintro rfl
          exact .inl ⟨rfl, ha⟩
        · rintro (⟨rfl, -⟩ | ⟨-, hne⟩)
          · rfl
          · exact absurd ha (hne a rfl)
      · rw [if_neg ha, ih]
        constructor
        · intro h
          refine .inr ⟨h, ?_⟩
          rintro _ ⟨rfl⟩
          exact ha
        · rintro (⟨⟨rfl⟩, hname⟩ | ⟨h, -⟩)
          · exact absurd hname ha
          · exact h
    | _ =>
      rw [blocksOf_concat_of_ne_block _ (by simp), ih]
      simp

/-- The blocks that are collected from a body have different names. -/
theorem nodup_blocksOf (body : List Code) : ((blocksOf body).map Block.name).Nodup := by
  induction body using List.reverseRecOn with
  | nil => exact List.nodup_nil
  | append_singleton body c ih =>
    cases c with
    | block b =>
      rw [blocksOf_concat_block]
      exact nodup_insert b ih
    | _ =>
      rw [blocksOf_concat_of_ne_block _ (by simp)]
      exact ih

end

/-! ## Well-formed trees -/

mutual

/-- A tag with a proper name and valid delimiters, around a well-formed body.  An extension has
    text and blocks in its body only, and the last block of each name for a replacement. -/
inductive WellFormedTag : Code → Prop
  | value {o : Origin} {name : String} {style : Interpolation.Style}
      (ho : o.delimiters.isValid = true) (hname : (Tag.Content.value style name).Proper) :
      WellFormedTag (.value ⟨o, name, style⟩)
  | sect {o : Origin} {name raw : String} {negated : Bool} {close : Delimiters} {body : List Code}
      (ho : o.delimiters.isValid = true) (hclose : close.isValid = true)
      (hname : Tag.IsName name) (hbody : WellFormed body) :
      WellFormedTag (.sect ⟨o, name, negated, close, raw, body⟩)
  | inclusion {o : Origin} {name indent : String} (ho : o.delimiters.isValid = true)
      (hname : (Tag.Content.inclusion name).Proper) : WellFormedTag (.inclusion ⟨o, name, indent⟩)
  | dynamic {o : Origin} {name indent : String} (ho : o.delimiters.isValid = true)
      (hname : Tag.IsName name) : WellFormedTag (.dynamic ⟨o, name, indent⟩)
  | extend {o : Origin} {name : String} {close : Delimiters} {body : List Code}
      {replacements : List (Block Code)} (ho : o.delimiters.isValid = true)
      (hclose : close.isValid = true) (hname : Tag.IsName name) (hbody : WellFormed body)
      (hlegal : ∀ c ∈ body, (∃ s, c = .text s) ∨ ∃ b, c = .block b)
      (hnodup : (replacements.map Block.name).Nodup)
      (hlast : ∀ blockName b,
        Block.find? blockName replacements = some b ↔ IsLastBlock blockName b body) :
      WellFormedTag (.extend ⟨o, name, close, body, replacements⟩)
  | block {o : Origin} {name : String} {close : Delimiters} {body : List Code}
      (ho : o.delimiters.isValid = true) (hclose : close.isValid = true)
      (hname : Tag.IsName name) (hbody : WellFormed body) :
      WellFormedTag (.block ⟨o, name, close, body⟩)

/-- Tags and literals one after another: no literal is empty or stands before another one, and the
    end of the text does not stand among them. -/
inductive WellFormed : List Code → Prop
  | nil : WellFormed []
  | literal {s : String} {cs : List Code} (hs : s ≠ "") (hcs : WellFormed cs)
      (hnext : ∀ s', cs.head? ≠ some (.text s')) : WellFormed (.text s :: cs)
  | tag {c : Code} {cs : List Code} (hc : WellFormedTag c) (hcs : WellFormed cs) :
      WellFormed (c :: cs)

end

section

variable {c : Code} {cs : List Code}

theorem WellFormedTag.ne_text (h : WellFormedTag c) (s : String) : c ≠ .text s := by
  rintro rfl
  cases h

theorem WellFormed.mem (h : WellFormed cs) (hc : c ∈ cs) :
    (∃ s, c = .text s ∧ s ≠ "") ∨ WellFormedTag c := by
  induction cs with
  | nil => cases hc
  | cons c' cs ih =>
    cases h with
    | literal hs hcs _ =>
      obtain rfl | hc := List.mem_cons.mp hc
      · exact .inl ⟨_, rfl, hs⟩
      · exact ih hcs hc
    | tag hc' hcs =>
      obtain rfl | hc := List.mem_cons.mp hc
      · exact .inr hc'
      · exact ih hcs hc

/-- What stands in a well-formed list, however deep, is text or a well-formed tag. -/
theorem WellFormed.inside (h : WellFormed cs) (hc : Inside c cs) :
    (∃ s, c = .text s ∧ s ≠ "") ∨ WellFormedTag c := by
  induction hc with
  | here hc => exact h.mem hc
  | sect hs _ ih =>
    obtain ⟨_, hs, -⟩ | hs := h.mem hs
    · cases hs
    · cases hs with
      | sect _ _ _ hbody => exact ih hbody
  | block hb _ ih =>
    obtain ⟨_, hb, -⟩ | hb := h.mem hb
    · cases hb
    · cases hb with
      | block _ _ _ hbody => exact ih hbody
  | replacement he hb _ ih =>
    obtain ⟨_, he, -⟩ | he := h.mem he
    · cases he
    · cases he with
      | extend _ _ _ hbody _ hnodup hlast =>
        -- A replacement is a block of the body, which is well formed.
        have hmem := ((hlast _ _).mp (find?_of_nodup hnodup hb)).mem
        obtain ⟨_, hblock, -⟩ | hblock := hbody.mem hmem
        · cases hblock
        · cases hblock with
          | block _ _ _ hinner => exact ih hinner

theorem WellFormed.flush (h : WellFormed cs) (hnext : ∀ s, cs.head? ≠ some (.text s))
    (text : List Char) : WellFormed (Code.flush text cs) := by
  unfold Code.flush
  split
  · exact h
  · next hempty => exact .literal (by simpa using hempty) h hnext

theorem wellFormedTag_ofBody {src : Source} {tag : Tag} {bracket : Tag.Bracket} {name : String}
    {start : Cursor} {b : Body} (hcode : ofBody src tag bracket name start b = .ok c)
    (htag : tag.delimiters.isValid = true) (hname : Tag.IsName name) (hb : WellFormed b.codes)
    (hclose : b.close.isValid = true) : WellFormedTag c := by
  cases bracket with
  | positive | negated =>
    cases hcode
    exact .sect htag hclose hname hb
  | block =>
    cases hcode
    exact .block htag hclose hname hb
  | extend =>
    simp only [ofBody] at hcode
    split at hcode
    · cases hcode
    · next hlegal =>
      cases hcode
      refine .extend htag hclose hname hb (fun c hc => ?_) (nodup_blocksOf _)
        fun _ _ => find?_blocksOf_iff
      have hmay : c.mayBeInExtension = true := by
        simpa using List.find?_eq_none.mp hlegal c hc
      obtain ⟨s, rfl, -⟩ | htag := hb.mem hc
      · exact .inl ⟨s, rfl⟩
      · cases htag with
        | block => exact .inr ⟨_, rfl⟩
        | _ => cases hmay

/-- What ends the nodes of a body: the end of the text, where no tag is open. -/
def ending : Option Opened → List Code
  | none => [.eof]
  | some _ => []

theorem flush_append (text : List Char) (cs ds : List Code) :
    Code.flush text (cs ++ ds) = Code.flush text cs ++ ds := by
  unfold Code.flush
  split <;> rfl

/-- A body that is well formed up to its end, and was closed with valid delimiters. -/
structure Body.WellEnded (opened : Option Opened) (b : Body) : Prop where
  codes : ∃ nodes, b.codes = nodes ++ ending opened ∧ WellFormed nodes
  close : b.close.isValid = true

theorem Body.WellEnded.before {opened : Option Opened} {b : Body} (h : b.WellEnded opened)
    (text : List Char) (hc : WellFormedTag c) : (b.before text c).WellEnded opened := by
  obtain ⟨nodes, hcodes, hnodes⟩ := h.codes
  refine ⟨⟨Code.flush text (c :: nodes), ?_, ?_⟩, h.close⟩
  · rw [Body.before, hcodes, ← List.cons_append, flush_append]
  · refine (WellFormed.tag hc hnodes).flush (fun s => ?_) text
    simpa using hc.ne_text s

end

section

variable {src : Source} {opened : Option Opened} {d : Delimiters} {text : List Char} {c : Cursor}

theorem wellEnded_of_bodyOf {b : Body} (hd : d.isValid = true)
    (h : bodyOf src opened d text c = .ok b) : b.WellEnded opened := by
  have hproper {d : Delimiters} {c : Cursor} {found : Tag.Found} {content : Tag.Content}
      (hnext : Tag.next src.file d c = .ok (some found)) (hcontent : found.tag.content = content) :
      content.Proper := hcontent ▸ (Tag.proper_of_next hnext).1
  have hvalid {d : Delimiters} {c : Cursor} {found : Tag.Found} (hd : d.isValid = true)
      (hnext : Tag.next src.file d c = .ok (some found)) :
      found.tag.delimiters.isValid = true := (Tag.proper_of_next hnext).2 ▸ hd
  refine bodyOf_induction (motive := fun opened d b => d.isValid = true → b.WellEnded opened)
    ?atEnd ?atClose ?delimiters ?value ?inclusion ?dynamic ?opening h hd
  case atEnd =>
    intro d text stop after hd
    exact ⟨⟨_, flush_append _ [] _, WellFormed.nil.flush (by simp) _⟩, hd⟩
  case atClose =>
    intro d c found o text stop after hnext hd
    exact ⟨⟨_, (List.append_nil _).symm, WellFormed.nil.flush (by simp) _⟩, hvalid hd hnext⟩
  case delimiters =>
    intro opened d d' c found b hnext hcontent ih _
    exact ih (hproper hnext hcontent)
  case value =>
    intro opened d c found b style name text hnext hcontent ih hd
    exact (ih hd).before text (.value (hvalid hd hnext) (hproper hnext hcontent))
  case inclusion =>
    intro opened d c found b name text indent hnext hcontent ih hd
    exact (ih hd).before text (.inclusion (hvalid hd hnext) (hproper hnext hcontent))
  case dynamic =>
    intro opened d c found b name text indent hnext hcontent ih hd
    exact (ih hd).before text (.dynamic (hvalid hd hnext) (hproper hnext hcontent))
  case opening =>
    intro opened d c found b inner bracket name start code text hnext hcontent hinner hcode ih hd
    have hbody := hinner hd
    obtain ⟨nodes, hcodes, hnodes⟩ := hbody.codes
    rw [ending, List.append_nil] at hcodes
    exact (ih hd).before text (wellFormedTag_ofBody hcode (hvalid hd hnext)
      (hproper hnext hcontent) (hcodes ▸ hnodes) hbody.close)

/-- A template that is parsed is well formed at every depth, up to the end of the text, which
    comes last and nowhere else. -/
theorem exists_wellFormed_of_parse {text : String} {codes : List Code} (hd : d.isValid = true)
    (h : parse src d text = .ok codes) :
    ∃ nodes, codes = nodes ++ [.eof] ∧ WellFormed nodes := by
  rw [parse_eq] at h
  obtain ⟨b, hb, rfl⟩ := exists_ok_of_map h
  exact (wellEnded_of_bodyOf hd hb).codes

theorem exists_wellFormed_of_parse_page :
    let src : Source := ⟨"page", 0, [("up", fun args => some args)]⟩
    let text := "a{{%up c}}\n{{#s}}{{=| |=}}|x| |/s|\n{{<p}} {{$b}}1{{/b}}{{$b}}{{>q}}{{/b}}{{/p}}"
    ∃ nodes, parse src .standard text = .ok (nodes ++ [.eof]) ∧ WellFormed nodes := by
  intro src text
  have hparse : parse src .standard text = .ok _ :=
    eq_ok_of_isSome (by decide +kernel) []
  obtain ⟨nodes, hnodes, hwell⟩ := exists_wellFormed_of_parse (by decide) hparse
  exact ⟨nodes, hnodes ▸ hparse, hwell⟩

end

end Code

end Mustache
