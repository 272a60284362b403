import Mustache.Proofs.Code.Bare
import Mustache.Proofs.Code.Printable

/-! # Reading a printed tree

A tree is printed and read again.  If its tokens can be told apart in the printed text, the parser
passes them one by one and makes the node that was printed of each: only where a tag stands is told
from the text now.  The delimiters do not matter as long as the tokens can be told apart, so in
another pair it is the same tree.

* `placed`, `placedAll` — a tree as it is read at a place in a text.
* `bodyOf_node`, `bodyOf_nodes` — the parser passes a node, and a body.
* `unplacedAll_placedAll` — what is read is what was printed.
* `delimitedAll_placedAll` — what is read in other delimiters.
* `parse_printAll` — printing and reading a whole tree.
-/

namespace Mustache

/-- The origin of a tag that is written behind a text. -/
def Source.originAt (src : Source) (d : Delimiters) (passed : List Char) : Origin where
  delimiters := d
  file := src.file
  line := passed.count '\n' + 1
  startsLine := (Text.lastLine passed).all Text.isSpacing
  site := .parsed src.compilation passed.length

namespace Code

mutual

/-- A node as it is read behind a text that has been passed. -/
def placed (src : Source) (d : Delimiters) (passed : List Char) : Code → Code
  | .text s => .text s
  | .value ⟨_, name, style⟩ => .value ⟨src.originAt d passed, name, style⟩
  | .sect ⟨_, name, negated, _, _, body⟩ =>
    let bracket := if negated then .negated else .positive
    .sect ⟨src.originAt d passed, name, negated, d, .ofList (written d (tokensAll body)),
      placedAll src d (passed ++ written d [.tag (.opening bracket name)]) body⟩
  | .inclusion ⟨_, name, _⟩ => .inclusion ⟨src.originAt d passed, name, ""⟩
  | .dynamic ⟨_, name, _⟩ => .dynamic ⟨src.originAt d passed, name, ""⟩
  | .extend ⟨_, name, _, body, _⟩ =>
    let body := placedAll src d (passed ++ written d [.tag (.opening .extend name)]) body
    .extend ⟨src.originAt d passed, name, d, body, blocksOf body⟩
  | .block ⟨_, name, _, body⟩ =>
    .block ⟨src.originAt d passed, name, d,
      placedAll src d (passed ++ written d [.tag (.opening .block name)]) body⟩
  | .eof => .eof

def placedAll (src : Source) (d : Delimiters) (passed : List Char) : List Code → List Code
  | [] => []
  | c :: cs => placed src d passed c :: placedAll src d (passed ++ written d (tokens c)) cs

end

variable {src : Source} {opened : Option Opened} {file name : String} {d d' : Delimiters}
  {passed held rest : List Char} {content : Tag.Content} {bracket : Tag.Bracket}
  {pre post ts : List Token} {code : Code} {body cs : List Code} {tag : Tag}

/-! ## Passing a node -/

/-- The place between tokens that have been passed and tokens to come. -/
def between (d : Delimiters) (pre post : List Token) : Cursor :=
  .past (written d pre) (written d post)

/-- A body with other nodes put before its own, behind a text held back. -/
def Body.behind (text : List Char) (codes : List Code) (b : Body) : Body :=
  { b with codes := flush text (codes ++ b.codes) }

/-- Nodes are read up to the tokens behind them, if these end the body. -/
def ReadsBody (src : Source) (opened : Option Opened) (d : Delimiters) (pre post : List Token)
    (cs : List Code) : Prop :=
  ∀ (held : List Char) (b : Body), held = [] ∨ Follow.firstLiteral? cs = none →
    (∀ held, bodyOf src opened d held (between d (pre ++ tokensAll cs) post) =
      .ok (b.behind held [])) →
    bodyOf src opened d held (between d pre (tokensAll cs ++ post)) =
      .ok (b.behind held (placedAll src d (written d pre) cs))

theorem origin_between :
    src.origin ⟨content, d, between d pre post⟩ = src.originAt d (written d pre) := by
  have hstarts := @startsLine_past _ _ ⟨content, d, between d pre post⟩ rfl
  simp only [Source.origin, Source.originAt, hstarts]
  rfl

theorem bodyOf_token (hl : Legible d (pre ++ .tag content :: post)) (h : content.WellNamed) :
    bodyOf src opened d held (between d pre (.tag content :: post)) =
      bodyAtTag src opened d ⟨content, d, between d pre (.tag content :: post)⟩
        ⟨held, [], between d (pre ++ [.tag content]) post⟩ := by
  simp only [between, written_append, written_cons, written_nil, List.append_nil]
  exact bodyOf_tag h (hl.ends (.tag content) (by simp)) (hl.stays pre (.tag content) post rfl)

theorem bodyOf_leaf (hl : Legible d (pre ++ .tag content :: post)) (h : content.WellNamed)
    (hleaf : ∀ tag, tag.content = content → src.origin tag = src.originAt d (written d pre) →
      Scan.leaf? src tag [] = some code) :
    bodyOf src opened d held (between d pre (.tag content :: post)) =
      (bodyOf src opened d [] (between d (pre ++ [.tag content]) post)).map
        (.before held code) := by
  rw [bodyOf_token hl h]
  exact Scan.bodyAtTag_leaf (hleaf _ rfl origin_between)

theorem bodyOf_close (hl : Legible d (pre ++ .tag (.close name) :: post))
    (hname : Tag.IsName name) :
    bodyOf src (some ⟨name, tag⟩) d held (between d pre (.tag (.close name) :: post)) =
      .ok ⟨flush held [], (written d pre).length, d,
        between d (pre ++ [.tag (.close name)]) post⟩ := by
  rw [bodyOf_token hl hname]
  simp [bodyAtTag, bodyAtClose, between, Cursor.past]

theorem rawText_between :
    rawText (between d pre (ts ++ post)) (written d (pre ++ ts)).length =
      .ofList (written d ts) := by
  simp [rawText, between, Cursor.past]

theorem Legible.inside (h : Legible d (pre ++ (enclosed bracket name ts ++ post))) :
    Legible d ((pre ++ [.tag (.opening bracket name)]) ++ (ts ++ .tag (.close name) :: post)) := by
  simpa [enclosed] using h

/-- A tag with a body is passed if its body is read up to the close tag. -/
theorem bodyOf_enclosed (hl : Legible d (pre ++ (enclosed bracket name (tokensAll body) ++ post)))
    (hname : Tag.IsName name)
    (hbody : ∀ tag, ReadsBody src (some ⟨name, tag⟩) d (pre ++ [.tag (.opening bracket name)])
      (.tag (.close name) :: post) body)
    (hcode : ∀ tag start b, src.origin tag = src.originAt d (written d pre) → b.close = d →
      rawText start b.stop = .ofList (written d (tokensAll body)) →
      b.codes = placedAll src d (written d (pre ++ [.tag (.opening bracket name)])) body →
        ofBody src tag bracket name start b = .ok code) :
    bodyOf src opened d held (between d pre (enclosed bracket name (tokensAll body) ++ post)) =
      (bodyOf src opened d [] (between d (pre ++ enclosed bracket name (tokensAll body)) post)).map
        (.before held code) := by
  have hinside := hl.inside
  have henclosed : enclosed bracket name (tokensAll body) ++ post =
      .tag (.opening bracket name) :: (tokensAll body ++ .tag (.close name) :: post) := by
    simp [enclosed]
  rw [henclosed] at hl ⊢
  rw [bodyOf_token hl hname]
  -- What stands in front of the body, from here on.
  generalize hpre : pre ++ [.tag (.opening bracket name)] = opens at hinside hbody hcode ⊢
  have hread (tag : Tag) : ∃ b, bodyOf src (some ⟨name, tag⟩) d []
      (between d opens (tokensAll body ++ .tag (.close name) :: post)) = .ok b ∧
        b.close = d ∧ b.stop = (written d (opens ++ tokensAll body)).length ∧
        b.codes = placedAll src d (written d opens) body ∧
        b.after = between d (opens ++ tokensAll body ++ [.tag (.close name)]) post :=
    ⟨_, hbody tag [] ⟨[], _, d, _⟩ (.inl rfl) fun held =>
      bodyOf_close (by rw [List.append_assoc]; exact hinside) hname, rfl, rfl, List.append_nil _, rfl⟩
  simp only [bodyAtTag]
  generalize htag : (⟨.opening bracket name, d, between d pre
    (.tag (.opening bracket name) :: (tokensAll body ++ .tag (.close name) :: post))⟩ : Tag) = tag
  obtain ⟨b, hb, hclose, hstop, hcodes, hafter⟩ := hread tag
  have hnode := hcode tag (between d opens (tokensAll body ++ .tag (.close name) :: post)) b
    (htag ▸ origin_between) hclose (hstop ▸ rawText_between) hcodes
  simp only [hb, hnode, hafter, Except.bind]
  simp [← hpre, enclosed]

/-! ## Passing a body -/

/-- A text that ends, or goes on with a tag. -/
def TagNext (ts : List Token) : Prop :=
  ts = [] ∨ ∃ content ts', content.WellNamed ∧ ts = .tag content :: ts'

theorem TagNext.written (h : TagNext ts) :
    written d ts = [] ∨ ∃ inside, written d ts = d.opening.toList ++ inside := by
  obtain rfl | ⟨content, ts', hname, rfl⟩ := h
  · exact .inl rfl
  · refine .inr ⟨content.inner ++ content.closer d ++ Code.written d ts', ?_⟩
    simp [Token.print, content.toList_print d hname]

theorem tagNext_tokens {c : Code} (h : PrintableTag file d c) : TagNext (tokens c ++ ts) := by
  cases h with
  | value _ _ hname | inclusion _ _ hname => exact .inr ⟨_, _, hname, rfl⟩
  | dynamic _ _ hname => exact .inr ⟨.dynamic _, _, hname, rfl⟩
  | sect _ _ hname _ | extend _ _ hname _ _ | block _ _ hname _ =>
    exact .inr ⟨.opening _ _, _, hname, rfl⟩

theorem tagNext_tokensAll (h : Printable file d cs) (hnext : Follow.firstLiteral? cs = none)
    (hts : TagNext ts) : TagNext (tokensAll cs ++ ts) := by
  cases h with
  | nil => exact hts
  | literal => cases hnext
  | tag hc _ =>
    rw [tokensAll, List.append_assoc]
    exact tagNext_tokens hc

theorem mayBeInExtension_placed (c : Code) :
    (placed src d passed c).mayBeInExtension = c.mayBeInExtension := by
  cases c <;> rfl

theorem illegalInExtension?_placedAll (h : ∀ c ∈ cs, c.mayBeInExtension = true) :
    illegalInExtension? (placedAll src d passed cs) = none := by
  rw [illegalInExtension?, List.find?_eq_none]
  induction cs generalizing passed with
  | nil => intro c hc; cases hc
  | cons c cs ih =>
    intro c' hc'
    rw [placedAll, List.mem_cons] at hc'
    obtain rfl | hc' := hc'
    · simp [mayBeInExtension_placed, h c List.mem_cons_self]
    · exact ih (fun c hc => h c (List.mem_cons_of_mem _ hc)) c' hc'

mutual

/-- The parser reads a tag that is printed, and goes on behind it. -/
theorem bodyOf_node (hd : d'.opening.toList ≠ []) {c : Code} (h : PrintableTag file d c)
    (opened : Option Opened) (held : List Char) (pre post : List Token)
    (hl : Legible d' (pre ++ (tokens c ++ post))) :
    bodyOf src opened d' held (between d' pre (tokens c ++ post)) =
      (bodyOf src opened d' [] (between d' (pre ++ tokens c) post)).map
        (.before held (placed src d' (written d' pre) c)) := by
  cases h with
  | value _ _ hname | inclusion _ _ hname | dynamic _ _ hname =>
    refine bodyOf_leaf hl hname fun tag hcontent ho => ?_
    simp [Scan.leaf?, hcontent, ho, placed]
  | @sect o name raw negated body _ _ hname hbody =>
    have hread tag := bodyOf_nodes hd hbody (some ⟨name, tag⟩) _ _ (Legible.inside hl)
      (.inr ⟨.close _, _, hname, rfl⟩)
    refine bodyOf_enclosed hl hname hread fun tag start b ho hclose hraw hcodes => ?_
    cases negated <;> simp [ofBody, placed, ho, hclose, hraw, hcodes]
  | @extend o name body _ _ hname hbody hlegal =>
    have hread tag := bodyOf_nodes hd hbody (some ⟨name, tag⟩) _ _ (Legible.inside hl)
      (.inr ⟨.close _, _, hname, rfl⟩)
    refine bodyOf_enclosed hl hname hread fun tag start b ho hclose _ hcodes => ?_
    simp [ofBody, placed, ho, hclose, hcodes, illegalInExtension?_placedAll hlegal]
  | @block o name body _ _ hname hbody =>
    have hread tag := bodyOf_nodes hd hbody (some ⟨name, tag⟩) _ _ (Legible.inside hl)
      (.inr ⟨.close _, _, hname, rfl⟩)
    refine bodyOf_enclosed hl hname hread fun tag start b ho hclose _ hcodes => ?_
    simp [ofBody, placed, ho, hclose, hcodes]

/-- The parser reads a body that is printed up to its end. -/
theorem bodyOf_nodes (hd : d'.opening.toList ≠ []) {cs : List Code} (h : Printable file d cs)
    (opened : Option Opened) (pre post : List Token)
    (hl : Legible d' (pre ++ (tokensAll cs ++ post))) (hpost : TagNext post) :
    ReadsBody src opened d' pre post cs := by
  intro held b hheld hend
  cases h with
  | nil => simpa [tokensAll, placedAll] using hend held
  | @literal s cs hs hcs hnext =>
    obtain rfl : held = [] := hheld.resolve_right fun hfirst => by cases hfirst
    have hl' : Legible d' ((pre ++ [.literal s]) ++ (tokensAll cs ++ post)) := by
      simpa [tokensAll, tokens] using hl
    have hrest := bodyOf_nodes hd hcs opened (pre ++ [.literal s]) post hl' hpost s.toList b
      (.inr hnext) (by simpa [tokensAll, tokens] using hend)
    have hheld : bodyOf src opened d' [] (between d' pre (.literal s :: (tokensAll cs ++ post))) =
        bodyOf src opened d' s.toList (between d' (pre ++ [.literal s]) (tokensAll cs ++ post)) := by
      simp only [between, written_append d' pre, written_cons, written_nil, Token.print,
        List.append_nil]
      exact bodyOf_literal hd (hl.ends (.literal s) (by simp [tokensAll, tokens]))
        (tagNext_tokensAll hcs hnext hpost).written
    have hs' : s.toList.isEmpty = false := by simpa using hs
    rw [tokensAll, tokens, List.append_assoc, List.singleton_append, hheld, hrest]
    simp [Body.behind, flush, hs', placedAll, placed, tokens, Token.print]
  | @tag c cs hc hcs =>
    have hl' : Legible d' ((pre ++ tokens c) ++ (tokensAll cs ++ post)) := by
      simpa [tokensAll] using hl
    rw [tokensAll, List.append_assoc, bodyOf_node hd hc opened held pre _ (by simpa using hl'),
      bodyOf_nodes hd hcs opened (pre ++ tokens c) post hl' hpost [] b (.inl rfl)
        (by simpa [tokensAll] using hend)]
    simp [Except.map, Body.before, Body.behind, placedAll, flush]

end

/-! ## Whole trees -/

theorem parse_written (hd : d'.isValid = true) (h : Printable file d cs)
    (hl : Legible d' (tokensAll cs)) :
    parse src d' (.ofList (written d' (tokensAll cs))) =
      .ok (placedAll src d' [] cs ++ [.eof]) := by
  have hopening := ne_nil_of_isUsable (Bool.and_eq_true_iff.mp hd).1
  have hend : ∀ held, bodyOf src none d' held (between d' (tokensAll cs) []) =
      .ok (Body.behind held [] ⟨[.eof], (written d' (tokensAll cs)).length, d',
        between d' (tokensAll cs) []⟩) := by
    intro held
    rw [bodyOf_eq, between, written_nil,
      Tag.next_of_onlyAtEnd hopening (Text.onlyAtEnd_nil _)]
    simp [bodyAtEnd, Body.behind, Cursor.past, Cursor.skip]
  have hread : bodyOf src none d' [] (between d' [] (tokensAll cs ++ [])) = .ok _ :=
    bodyOf_nodes hopening h none [] [] (by simpa using hl) (.inl rfl) [] _ (.inl rfl)
      hend
  rw [List.append_nil] at hread
  rw [parse_eq, String.toList_ofList, Cursor.start_eq_past]
  exact congrArg (Except.map Body.codes) hread

mutual

/-- What is read is what was printed, but for where it stands. -/
theorem unplaced_placed {c : Code} (h : PrintableTag src.file d c) (passed : List Char) :
    revise .unplaced (placed src d passed c) = revise .unplaced c := by
  cases h with
  | value ho hfile _ | inclusion ho hfile _ | dynamic ho hfile _ =>
    simp [placed, revise, Revision.unplaced, Source.originAt, ho, hfile]
  | sect ho hfile _ hbody | block ho hfile _ hbody =>
    simp only [placed, revise, unplacedAll_placedAll hbody]
    simp [Revision.unplaced, Source.originAt, ho, hfile]
  | extend ho hfile _ hbody _ =>
    simp only [placed, revise, reviseBlocks_blocksOf, unplacedAll_placedAll hbody]
    simp [Revision.unplaced, Source.originAt, ho, hfile]

theorem unplacedAll_placedAll {cs : List Code} (h : Printable src.file d cs)
    (passed : List Char) :
    reviseAll .unplaced (placedAll src d passed cs) = reviseAll .unplaced cs := by
  cases h with
  | nil => rfl
  | literal _ hcs _ =>
    simp only [placedAll, reviseAll, unplacedAll_placedAll hcs]
    rfl
  | tag hc hcs => simp only [placedAll, reviseAll, unplaced_placed hc, unplacedAll_placedAll hcs]

end

/-! ## Other delimiters -/

/-- Two texts that end on the same line, and both at the start of it or both not. -/
structure Alike (passed passed' : List Char) : Prop where
  lines : passed.count '\n' = passed'.count '\n'
  starts : (Text.lastLine passed).all Text.isSpacing = (Text.lastLine passed').all Text.isSpacing

variable {passed' : List Char}

theorem Alike.append (h : Alike passed passed') (s : List Char) :
    Alike (passed ++ s) (passed' ++ s) := by
  constructor
  · simp [h.lines]
  · rw [Text.lastLine_append, Text.lastLine_append]
    by_cases hs : '\n' ∈ s <;> simp [hs, h.starts]

theorem Alike.delimiters {s s' : List Char} (h : Alike passed passed')
    (hs : Delimiters.isUsable s = true) (hs' : Delimiters.isUsable s' = true) :
    Alike (passed ++ s) (passed' ++ s') := by
  constructor
  · simp [h.lines, List.count_eq_zero.mpr (not_mem_of_isUsable hs),
      List.count_eq_zero.mpr (not_mem_of_isUsable hs')]
  · simp [Text.lastLine_append, not_mem_of_isUsable, all_isSpacing_of_isUsable, hs, hs']

theorem exists_inner (content : Tag.Content) : (∀ d, content.print d = "") ∨
    ∃ inner, ∀ d, (content.print d).toList = d.opening.toList ++ inner ++ d.closing.toList := by
  have htag (sigil name : String) : ∃ inner, ∀ d : Delimiters,
      (d.tag sigil name).toList = d.opening.toList ++ inner ++ d.closing.toList :=
    ⟨sigil.toList ++ name.toList, fun d => by simp [Delimiters.tag]⟩
  cases content with
  | value style name =>
    cases style with
    | triple => exact .inr ⟨'\x7b' :: name.toList ++ ['\x7d'], fun d => by simp [Tag.Content.print]⟩
    | escaped | ampersand => exact .inr (htag _ name)
  | comment | delimiters | pragma => exact .inl fun _ => rfl
  | opening _ name | close name | inclusion name | dynamic name => exact .inr (htag _ name)

theorem Alike.written (h : Alike passed passed') (hd : d.isValid = true) (hd' : d'.isValid = true)
    (ts : List Token) : Alike (passed ++ written d ts) (passed' ++ written d' ts) := by
  obtain ⟨hopening, hclosing⟩ := Bool.and_eq_true_iff.mp hd
  obtain ⟨hopening', hclosing'⟩ := Bool.and_eq_true_iff.mp hd'
  induction ts generalizing passed passed' with
  | nil => simpa using h
  | cons t ts ih =>
    rw [written_cons, written_cons, ← List.append_assoc, ← List.append_assoc]
    apply ih
    cases t with
    | literal s => exact h.append s.toList
    | tag content =>
      simp only [Token.print]
      obtain hnil | ⟨inner, hinner⟩ := exists_inner content
      · simpa [hnil] using h
      · rw [hinner, hinner]
        simp only [← List.append_assoc]
        exact ((h.delimiters hopening hopening').append inner).delimiters hclosing hclosing'

mutual

theorem tokens_placed (src : Source) (d : Delimiters) (passed : List Char) :
    ∀ c : Code, tokens (placed src d passed c) = tokens c
  | .sect ⟨_, _, _, _, _, body⟩ => by simp only [placed, tokens, tokensAll_placedAll src d _ body]
  | .extend ⟨_, _, _, body, _⟩ => by simp only [placed, tokens, tokensAll_placedAll src d _ body]
  | .block ⟨_, _, _, body⟩ => by simp only [placed, tokens, tokensAll_placedAll src d _ body]
  | .text _ => rfl
  | .value _ => rfl
  | .inclusion _ => rfl
  | .dynamic _ => rfl
  | .eof => rfl

theorem tokensAll_placedAll (src : Source) (d : Delimiters) (passed : List Char) :
    ∀ cs : List Code, tokensAll (placedAll src d passed cs) = tokensAll cs
  | [] => rfl
  | c :: cs => by
    simp only [placedAll, tokensAll, tokens_placed src d passed c, tokensAll_placedAll src d _ cs]

end

section

variable (src) (hd : d.isValid = true) (hd' : d'.isValid = true)

theorem origin_delimited (h : Alike passed passed') :
    ({ src.originAt d passed with delimiters := d' } : Origin).relabel .forget =
      (src.originAt d' passed').relabel .forget := by
  simp [Source.originAt, Origin.relabel, Origin.at, Site.forget, h.lines, h.starts]

include hd hd'

mutual

theorem delimited_placed : ∀ (c : Code) {passed passed' : List Char}, Alike passed passed' →
    bare (revise (.delimited d') (placed src d passed c)) = bare (placed src d' passed' c)
  | .text _, _, _, _ => rfl
  | .value ⟨_, _, _⟩, _, _, h => by
    simp only [placed, revise, bare, relabel, Revision.origin_delimited, origin_delimited src h]
  | .inclusion ⟨_, _, _⟩, _, _, h => by
    simp only [placed, revise, bare, relabel, Revision.origin_delimited, origin_delimited src h]
  | .dynamic ⟨_, _, _⟩, _, _, h => by
    simp only [placed, revise, bare, relabel, Revision.origin_delimited, origin_delimited src h]
  | .sect ⟨_, name, negated, _, _, body⟩, _, _, h => by
    have hbody := delimitedAll_placedAll body
      (h.written hd hd' [.tag (.opening (if negated then .negated else .positive) name)])
    simp only [placed, revise, bare, relabel, Revision.origin_delimited, Revision.close_delimited,
      Revision.raw_delimited, origin_delimited src h, printAll_delimited, tokensAll_placedAll, hbody]
  | .extend ⟨_, name, _, body, _⟩, _, _, h => by
    have hbody := delimitedAll_placedAll body (h.written hd hd' [.tag (.opening .extend name)])
    simp only [placed, revise, bare, relabel, reviseBlocks_blocksOf, relabelBlocks_blocksOf,
      Revision.origin_delimited, Revision.close_delimited, origin_delimited src h, hbody]
  | .block ⟨_, name, _, body⟩, _, _, h => by
    have hbody := delimitedAll_placedAll body (h.written hd hd' [.tag (.opening .block name)])
    simp only [placed, revise, bare, relabel, Revision.origin_delimited, Revision.close_delimited,
      origin_delimited src h, hbody]
  | .eof, _, _, _ => rfl

theorem delimitedAll_placedAll : ∀ (cs : List Code) {passed passed' : List Char},
    Alike passed passed' → bareAll (reviseAll (.delimited d') (placedAll src d passed cs)) =
      bareAll (placedAll src d' passed' cs)
  | [], _, _, _ => rfl
  | c :: cs, _, _, h => by
    have hhead := delimited_placed c h
    have htail := delimitedAll_placedAll cs (h.written hd hd' (tokens c))
    exact congrArg₂ List.cons hhead htail

end

end

/-! ## There and back -/

theorem printAll_eof (cs : List Code) : printAll (cs ++ [.eof]) = printAll cs := by
  simp [printAll_append, printAll, print]

/-- A printed tree is read back as it was: the same but for where its tags stand, and with the text
    that its bodies are printed as for raw text.  Written in other delimiters, it is read back as the
    same tree in those. -/
theorem parse_printAll (src : Source) {d : Delimiters} {codes : List Code}
    (hd : d.isValid = true) (h : Printable src.file d codes) (hl : Legible d (tokensAll codes)) :
    ∃ parsed, parse src d (printAll (codes ++ [.eof])) = .ok parsed ∧
      reviseAll .unplaced parsed = reviseAll .unplaced (codes ++ [.eof]) ∧
      bareAll (reviseAll (.delimited d) parsed) = bareAll parsed ∧
      ∀ d' : Delimiters, d'.isValid = true → Legible d' (tokensAll codes) →
        ∃ parsed', parse src d' (printAll (reviseAll (.delimited d') (codes ++ [.eof]))) =
            .ok parsed' ∧
          bareAll (reviseAll (.delimited d') parsed) = bareAll parsed' := by
  have hprint : printAll (codes ++ [.eof]) = .ofList (written d (tokensAll codes)) := by
    rw [printAll_eof, ← toList_printAll h, String.ofList_toList]
  have hrevise (d' : Delimiters) (hd' : d'.isValid = true) :
      bareAll (reviseAll (.delimited d') (placedAll src d [] codes ++ [.eof])) =
        bareAll (placedAll src d' [] codes ++ [.eof]) := by
    have hplaced := delimitedAll_placedAll src hd hd' codes (⟨rfl, rfl⟩ : Alike [] [])
    simp only [bareAll, relabelAll_eq_map, reviseAll_eq_map, List.map_append] at hplaced ⊢
    rw [hplaced]
    rfl
  refine ⟨_, by rw [hprint]; exact parse_written hd h hl, ?_, hrevise d hd, fun d' hd' hl' => ?_⟩
  · have hplaced := unplacedAll_placedAll h []
    simp only [reviseAll_eq_map, List.map_append] at hplaced ⊢
    rw [hplaced]
  · refine ⟨_, ?_, hrevise d' hd'⟩
    have hprint' : printAll (reviseAll (.delimited d') (codes ++ [.eof])) =
        .ofList (written d' (tokensAll codes)) := by
      rw [reviseAll_eq_map, List.map_append, ← reviseAll_eq_map]
      exact (printAll_eof _).trans (printAll_delimited d' codes)
    rw [hprint']
    exact parse_written hd' h hl'

theorem parse_printAll_page :
    let o : Origin := ⟨.standard, "page", 7, true, .parsed 0 0⟩
    let block : Code := .block ⟨o, "c", .standard, [.text "d ", .value ⟨o, "e", .triple⟩]⟩
    let codes : List Code := [.text "<",
      .sect ⟨o, "a", true, .standard, "", [.value ⟨o, "b", .escaped⟩, .text "\n"]⟩,
      .extend ⟨o, "f", .standard, [block], blocksOf [block]⟩, .inclusion ⟨o, "g", ""⟩]
    let d' : Delimiters := ⟨"<%", "%>"⟩
    printAll (reviseAll (.delimited d') (codes ++ [.eof])) =
      "<<%^a%><%b%>\n<%/a%><%<f%><%$c%>d <%\x7be\x7d%><%/c%><%/f%><%>g%>" ∧
    ∃ parsed, parse ⟨"page", 1, []⟩ .standard (printAll (codes ++ [.eof])) = .ok parsed ∧
      reviseAll .unplaced parsed = reviseAll .unplaced (codes ++ [.eof]) ∧
      bareAll (reviseAll (.delimited .standard) parsed) = bareAll parsed ∧
      ∃ parsed', parse ⟨"page", 1, []⟩ d' (printAll (reviseAll (.delimited d') (codes ++ [.eof]))) =
          .ok parsed' ∧
        bareAll (reviseAll (.delimited d') parsed) = bareAll parsed' := by
  intro o block codes d'
  have hname {name : String} (hne : name ≠ "") (htrim : Text.trim name.toList = name.toList) :
      Tag.IsName name := ⟨hne, htrim⟩
  have hblock : PrintableTag "page" .standard block :=
    .block rfl rfl (hname (by decide) (by decide +kernel))
      (.literal (by decide) (.tag (.value rfl rfl (hname (by decide) (by decide +kernel))) .nil) rfl)
  have hsect : PrintableTag "page" .standard
      (.sect ⟨o, "a", true, .standard, "", [.value ⟨o, "b", .escaped⟩, .text "\n"]⟩) :=
    .sect rfl rfl (hname (by decide) (by decide +kernel))
      (.tag (.value rfl rfl ⟨hname (by decide) (by decide +kernel), by simp [Tag.isSigil]⟩)
        (.literal (by decide) .nil rfl))
  have hextend : PrintableTag "page" .standard
      (.extend ⟨o, "f", .standard, [block], blocksOf [block]⟩) :=
    .extend rfl rfl (hname (by decide) (by decide +kernel)) (.tag hblock .nil)
      fun c hc => by rw [List.mem_singleton.mp hc]; rfl
  have hprintable : Printable "page" .standard codes :=
    .literal (by decide)
      (.tag hsect
        (.tag hextend
          (.tag (.inclusion rfl rfl ⟨hname (by decide) (by decide +kernel), by simp⟩) .nil)))
      rfl
  obtain ⟨parsed, hparse, hsame, hraw, hother⟩ := parse_printAll ⟨"page", 1, []⟩ (d := .standard)
    (by decide +kernel) hprintable (by decide +kernel)
  exact ⟨by decide +kernel, parsed, hparse, hsame, hraw,
    hother d' (by decide +kernel) (by decide +kernel)⟩

end Code

end Mustache
