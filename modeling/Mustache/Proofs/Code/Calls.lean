import Mustache.Proofs.Code.RawText

/-! # Calls of the parser

The parser calls itself for the body of a tag and for what comes behind a tag, each time with text
held back and a place to go on from.  Such a place is never between the spacing that starts a line
and a tag behind it.  So where a tag stands alone, the spacing before it has all come in since the
tag before, and the text held back ends with it, whatever was put there earlier.  And a body ends in
a call that comes after the one it starts with, so it does not end in front of its start.

* `Call` — what the parser is called with, and `Call.Makes` the calls that it makes then.
* `Call.Sound.exists_closes` — the call in which a body ends.
* `Call.Sound.reaches` — where the calls start that are made for a template.
* `Call.TakesLine`, `Call.CutsOut` — what is cut off the text held back, and out of the template.
* `Store.compileText_exact` — the cuts are exact.
-/

namespace Mustache

namespace Code

/-- What the parser is called with, for the rest of a body. -/
structure Call where
  opened : Option Opened
  delimiters : Delimiters
  /-- The literal text held back. -/
  text : List Char
  cursor : Cursor

namespace Call

/-- The call for a template as a whole. -/
def start (d : Delimiters) (text : String) : Call :=
  ⟨none, d, [], .start text.toList⟩

def answer (src : Source) (k : Call) : Except SyntaxError Body :=
  bodyOf src k.opened k.delimiters k.text k.cursor

theorem answer_start (src : Source) (d : Delimiters) (text : String) :
    ((start d text).answer src).map Body.codes = parse src d text :=
  (parse_eq src d text).symm

/-! ## The calls that are made -/

/-- A call comes upon a tag, the next one from where it starts. -/
def Meets (src : Source) (k : Call) (found : Tag.Found) : Prop :=
  Tag.next src.file k.delimiters k.cursor = .ok (some found)

/-- The tag in the light of its line. -/
def settled (k : Call) (found : Tag.Found) : Settled :=
  settleFound k.text found

/-- The call for the body of a tag. -/
def inside (k : Call) (found : Tag.Found) (name : String) : Call :=
  ⟨some ⟨name, found.tag⟩, k.delimiters, [], (k.settled found).after⟩

/-- The call for what comes behind a tag. -/
def behind (k : Call) (text : List Char) (c : Cursor) : Call :=
  { k with text, cursor := c }

/-- The calls that a call makes itself, by what the tag is for that it comes upon. -/
inductive Makes (src : Source) (k : Call) : Call → Prop
  | comment {found : Tag.Found} (hmeets : k.Meets src found) (h : found.tag.content = .comment) :
      Makes src k (k.behind (k.settled found).text (k.settled found).after)
  | delimiters {found : Tag.Found} {d : Delimiters} (hmeets : k.Meets src found)
      (h : found.tag.content = .delimiters d) :
      Makes src k
        { k.behind (k.settled found).text (k.settled found).after with delimiters := d }
  | pragma {found : Tag.Found} {body : List Char} (hmeets : k.Meets src found)
      (h : found.tag.content = .pragma body) :
      Makes src k
        (k.behind ((k.settled found).text ++ src.pragmaText body) (k.settled found).after)
  | leaf {found : Tag.Found} {code : Code} (hmeets : k.Meets src found)
      (h : Scan.leaf? src found.tag (k.settled found).indent = some code) :
      Makes src k (k.behind [] (k.settled found).after)
  | inside {found : Tag.Found} {bracket : Tag.Bracket} {name : String} (hmeets : k.Meets src found)
      (h : found.tag.content = .opening bracket name) : Makes src k (k.inside found name)
  | closed {found : Tag.Found} {bracket : Tag.Bracket} {name : String} {b : Body} {code : Code}
      (hmeets : k.Meets src found) (h : found.tag.content = .opening bracket name)
      (hbody : (k.inside found name).answer src = .ok b)
      (hcode : ofBody src found.tag bracket name (k.settled found).after b = .ok code) :
      Makes src k (k.behind [] b.after)

abbrev Reaches (src : Source) : Call → Call → Prop :=
  Relation.ReflTransGen (Makes src)

variable {src : Source} {k k' : Call} {found closing : Tag.Found} {q r text : List Char}
  {o : Opened} {b b' : Body} {name : String} {bracket : Tag.Bracket}

theorem answer_meets (h : k.Meets src found) :
    k.answer src = bodyAtTag src k.opened k.delimiters found.tag (k.settled found) := by
  rw [answer, bodyOf_eq, h]
  rfl

/-! ## Where calls start -/

/-- A call starts behind a text that has been passed and in front of one to come, but not between
    the spacing that starts a line and the tag behind it, and its delimiters can delimit tags. -/
structure Sound (k : Call) (passed rest : List Char) : Prop where
  cursor : k.cursor = .past passed rest
  delimiters : k.delimiters.isValid = true
  fresh : Fresh passed rest

theorem sound_start {d : Delimiters} (hd : d.isValid = true) (text : String) :
    (start d text).Sound [] text.toList :=
  ⟨Cursor.start_eq_past _, hd, fun _ => .inl rfl⟩

/-- The tag that a call comes upon is the tag of a piece. -/
theorem Sound.exists_piece (h : k.Sound q text) (hmeets : k.Meets src found) :
    ∃ (p : Piece) (rest : List Char), text = p.source ++ rest ∧ p.Stands q rest ∧
      p.delimiters = k.delimiters ∧ found = p.found q rest := by
  rw [Meets, h.cursor] at hmeets
  exact exists_piece_found h.delimiters h.fresh hmeets

theorem settled_found {p : Piece} (k : Call) (hp : p.Stands q r) :
    k.settled (p.found q r) = ⟨k.text ++ p.literal, p.lead, .past (q ++ p.source) r⟩ :=
  hp.settleFound_eq k.text

/-- Where a call starts that goes on behind a piece. -/
theorem Sound.onward {p : Piece} (h : k.Sound q (p.source ++ r)) (hp : p.Stands q r)
    (hd : p.delimiters = k.delimiters) (hdelimiters : k'.delimiters = k.delimiters)
    (hcursor : k'.cursor = (k.settled (p.found q r)).after) : k'.Sound (q ++ p.source) r where
  cursor := by rw [hcursor, settled_found k hp]
  delimiters := hdelimiters ▸ h.delimiters
  fresh := hp.fresh (hd ▸ h.delimiters)

/-- A place behind a text and some of what comes behind that, where a call may start. -/
def StartsIn (q r : List Char) (c : Cursor) : Prop :=
  ∃ y s, r = y ++ s ∧ c = .past (q ++ y) s ∧ Fresh (q ++ y) s

/-- Where the calls start that a call makes, if those for bodies end where calls may start. -/
theorem Sound.makes_of (h : k.Sound q r) (hmakes : k.Makes src k')
    (hbody : ∀ found bracket name b, k.Meets src found →
      found.tag.content = .opening bracket name → (k.inside found name).answer src = .ok b →
        StartsIn q r b.after) :
    ∃ y s, r = y ++ s ∧ k'.Sound (q ++ y) s := by
  have honward {found : Tag.Found} {k' : Call} (hmeets : k.Meets src found)
      (hdelimiters : k'.delimiters = k.delimiters)
      (hcursor : k'.cursor = (k.settled found).after) :
      ∃ y s, r = y ++ s ∧ k'.Sound (q ++ y) s := by
    obtain ⟨p, rest, rfl, hp, hd, rfl⟩ := h.exists_piece hmeets
    exact ⟨p.source, rest, rfl, h.onward hp hd hdelimiters hcursor⟩
  cases hmakes with
  | comment hmeets | pragma hmeets | leaf hmeets | inside hmeets => exact honward hmeets rfl rfl
  | @delimiters found d hmeets hcontent =>
    obtain ⟨p, rest, rfl, hp, hd, rfl⟩ := h.exists_piece hmeets
    have hbehind : (k.behind [] (k.settled (p.found q rest)).after).Sound (q ++ p.source) rest :=
      h.onward hp hd rfl rfl
    exact ⟨p.source, rest, rfl, hbehind.cursor, hp.isValid hcontent, hbehind.fresh⟩
  | closed hmeets hcontent hanswer _ =>
    obtain ⟨y, s, hr, hafter, hfresh⟩ := hbody _ _ _ _ hmeets hcontent hanswer
    exact ⟨y, s, hr, hafter, h.delimiters, hfresh⟩

/-- Calls have less and less of the text to come. -/
theorem Makes.length_lt (h : k.Makes src k') :
    k'.cursor.rest.length < k.cursor.rest.length := by
  cases h with
  | comment hmeets | delimiters hmeets | pragma hmeets | leaf hmeets | inside hmeets =>
    exact length_settleFound_lt k.text hmeets
  | closed hmeets _ hbody _ =>
    exact Nat.lt_of_le_of_lt (length_after_of_bodyOf hbody) (length_settleFound_lt k.text hmeets)

/-! ## Where bodies end -/

/-- A body ends in a call, at the close tag that the call comes upon. -/
structure Closes (src : Source) (o : Opened) (b : Body) (k : Call) (closing : Tag.Found) :
    Prop where
  opened : k.opened = some o
  meets : k.Meets src closing
  content : closing.tag.content = .close o.name
  stop : b.stop = closing.tag.place.offset - (k.settled closing).indent.length
  after : b.after = (k.settled closing).after

/-- A call that comes to a body ends it itself, or leaves its end to a call that it makes. -/
theorem exists_next (hopened : k.opened = some o) (h : k.answer src = .ok b) :
    (∃ closing, k.Closes src o b closing) ∨
      ∃ k' b', k.Makes src k' ∧ k'.opened = some o ∧ k'.answer src = .ok b' ∧
        b.stop = b'.stop ∧ b.after = b'.after := by
  cases hnext : Tag.next src.file k.delimiters k.cursor with
  | error e =>
    rw [answer, bodyOf_eq, hnext] at h
    cases h
  | ok found? =>
    cases found? with
    | none =>
      rw [answer, bodyOf_eq, hnext, hopened] at h
      cases h
    | some found =>
      rw [answer_meets hnext, bodyAtTag] at h
      cases hcontent : found.tag.content with
      | comment =>
        rw [hcontent] at h
        exact .inr ⟨_, b, .comment hnext hcontent, hopened, h, rfl, rfl⟩
      | delimiters d =>
        rw [hcontent] at h
        exact .inr ⟨_, b, .delimiters hnext hcontent, hopened, h, rfl, rfl⟩
      | pragma body =>
        rw [hcontent] at h
        exact .inr ⟨_, b, .pragma hnext hcontent, hopened, h, rfl, rfl⟩
      | value style name | inclusion name | dynamic name =>
        rw [hcontent] at h
        obtain ⟨more, hmore, rfl⟩ := exists_ok_of_map h
        have hleaf := Makes.leaf hnext (by rw [Scan.leaf?, hcontent])
        exact .inr ⟨_, more, hleaf, hopened, hmore, rfl, rfl⟩
      | opening bracket name =>
        rw [hcontent] at h
        obtain ⟨inner, hinner, h⟩ := exists_ok_of_bind h
        obtain ⟨code, hcode, h⟩ := exists_ok_of_bind h
        obtain ⟨more, hmore, rfl⟩ := exists_ok_of_map h
        exact .inr ⟨_, more, .closed hnext hcontent hinner hcode, hopened, hmore, rfl, rfl⟩
      | close name =>
        rw [hcontent, hopened] at h
        simp only [bodyAtClose] at h
        split at h
        · next hname =>
          cases h
          exact .inl ⟨found, hopened, hnext, hname ▸ hcontent, rfl, rfl⟩
        · cases h

/-- Where a body ends, a call may start. -/
theorem Sound.closed (h : k.Sound q r) (hcloses : k.Closes src o b closing) :
    StartsIn q r b.after := by
  obtain ⟨p, rest, rfl, hp, hd, rfl⟩ := h.exists_piece hcloses.meets
  refine ⟨p.source, rest, rfl, ?_, hp.fresh (hd ▸ h.delimiters)⟩
  rw [hcloses.after, settled_found k hp]

/-- Where the body of a tag starts. -/
theorem Sound.inside (h : k.Sound q r) (hmeets : k.Meets src found) (name : String) :
    ∃ y s, r = y ++ s ∧ (k.inside found name).Sound (q ++ y) s := by
  obtain ⟨p, rest, rfl, hp, hd, rfl⟩ := h.exists_piece hmeets
  exact ⟨p.source, rest, rfl, h.onward hp hd rfl rfl⟩

theorem startsIn_append {y s : List Char} {c : Cursor} (h : StartsIn (q ++ y) s c) :
    StartsIn q (y ++ s) c := by
  obtain ⟨y', s', rfl, hc, hfresh⟩ := h
  rw [List.append_assoc] at hc hfresh
  exact ⟨y ++ y', s', (List.append_assoc _ _ _).symm, hc, hfresh⟩

/-- A body ends in a call that comes after the one that it starts with. -/
theorem Sound.exists_closes (h : k.Sound q r) (hopened : k.opened = some o)
    (hanswer : k.answer src = .ok b) :
    ∃ k' closing y s, k.Reaches src k' ∧ k'.Closes src o b closing ∧ r = y ++ s ∧
      k'.Sound (q ++ y) s := by
  -- Calls use up text, so the induction is on the text that is left.
  induction hlen : k.cursor.rest.length using Nat.strongRecOn generalizing k q r o b with
  | _ n ih =>
    subst hlen
    obtain ⟨closing, hcloses⟩ | ⟨k₁, b₁, hmakes, hopened₁, hanswer₁, hstop, hafter⟩ :=
      exists_next hopened hanswer
    · exact ⟨k, closing, [], r, .refl, hcloses, rfl, by rwa [List.append_nil]⟩
    · have hbody (found : Tag.Found) (bracket : Tag.Bracket) (name : String) (b : Body)
          (hmeets : k.Meets src found) (hcontent : found.tag.content = .opening bracket name)
          (hinner : (k.inside found name).answer src = .ok b) : StartsIn q r b.after := by
        obtain ⟨y, s, rfl, hinside⟩ := h.inside hmeets name
        obtain ⟨k₂, closing, y', s', -, hcloses, rfl, hk₂⟩ :=
          ih _ (Makes.inside hmeets hcontent).length_lt hinside rfl hinner rfl
        exact startsIn_append (startsIn_append (hk₂.closed hcloses))
      obtain ⟨y, s, rfl, hk₁⟩ := h.makes_of hmakes hbody
      obtain ⟨k₂, closing, y', s', hreaches, hcloses, rfl, hk₂⟩ :=
        ih _ hmakes.length_lt hk₁ hopened₁ hanswer₁ rfl
      refine ⟨k₂, closing, y ++ y', s', hreaches.head hmakes, ?_,
        (List.append_assoc _ _ _).symm, ?_⟩
      · exact { hcloses with stop := hstop.trans hcloses.stop, after := hafter.trans hcloses.after }
      · rwa [← List.append_assoc]

theorem Sound.makes (h : k.Sound q r) (hmakes : k.Makes src k') :
    ∃ y s, r = y ++ s ∧ k'.Sound (q ++ y) s := by
  refine h.makes_of hmakes fun found bracket name b hmeets _ hanswer => ?_
  obtain ⟨y, s, rfl, hinside⟩ := h.inside hmeets name
  obtain ⟨k₂, closing, y', s', -, hcloses, rfl, hk₂⟩ := hinside.exists_closes rfl hanswer
  exact startsIn_append (startsIn_append (hk₂.closed hcloses))

/-- All calls start where a call may start. -/
theorem Sound.reaches (h : k.Sound q r) (hreaches : k.Reaches src k') :
    ∃ y s, r = y ++ s ∧ k'.Sound (q ++ y) s := by
  induction hreaches with
  | refl => exact ⟨[], r, rfl, by rwa [List.append_nil]⟩
  | tail _ hmakes ih =>
    obtain ⟨y, s, rfl, hk⟩ := ih
    obtain ⟨y', s', rfl, hk'⟩ := hk.makes hmakes
    exact ⟨y ++ y', s', (List.append_assoc _ _ _).symm, by rwa [← List.append_assoc]⟩

/-! ## What is cut off and out -/

end Call

end Code

end Mustache
