import Mustache.Proofs.Code.Recovered

/-! # Matching

What matching a tree with a text recovers on every level of names, and when what is recovered at
the end bears out how the text was read.

A level of names is the template itself or the body of a section that is not negated: matching
recovers a map for each of them.

* `Code.invertAll_grows` — matching only adds names of the level.
* `Code.isTidyAll` — trees in which no section or negated section takes its name from further out.
* `Code.isBorneOutAll` — what was recovered at the end bears out how a text was read.
* `Code.Rounds` — the rounds of a section, one after another.
-/

namespace Mustache.Code

open Recovered (Grows Leaf IsProper currentName head path at? valueOf)

/-! ## Levels of names -/

mutual

/-- The names under which a node has something recovered on its level. -/
def heads : Code → List String
  | .value v => [head v.name]
  | .sect ⟨_, name, negated, _, _, body⟩ => head name :: if negated then headsAll body else []
  | .block ⟨_, _, _, body⟩ => headsAll body
  | _ => []

def headsAll : List Code → List String
  | [] => []
  | c :: cs => heads c ++ headsAll cs

end

/-- The names of a level, and the names of the levels further out. -/
structure Level where
  names : List String
  outer : List String

namespace Level

/-- Whether the scope of the level as a whole stands in the text. -/
def isWhole (l : Level) : Bool :=
  l.names.contains currentName

/-- The level of the body of a section that stands on a level. -/
def inner (l : Level) (body : List Code) : Level :=
  ⟨headsAll body, l.names ++ l.outer⟩

end Level

mutual

/-- Whether the tags of a node can be told apart by what is recovered: names are proper, a level
    has either names or the whole scope, and the names of sections are not those of levels further
    out. -/
def isTidy (l : Level) : Code → Bool
  | .value v => if l.isWhole then v.name = currentName else IsProper v.name
  | .sect ⟨_, name, negated, _, _, body⟩ =>
    !l.isWhole && IsProper name && !l.outer.contains (head name) &&
      isTidyAll (if negated then l else l.inner body) body
  | .block ⟨_, _, _, body⟩ => isTidyAll l body
  | _ => true

def isTidyAll (l : Level) : List Code → Bool
  | [] => true
  | c :: cs => isTidy l c && isTidyAll l cs

end

variable {l : Level}

mutual

/-- On a level whose scope stands in the text as a whole there are no other names. -/
theorem eq_of_mem_heads (hwhole : l.isWhole = true) :
    ∀ {c : Code}, isTidy l c = true → ∀ k ∈ heads c, k = currentName
  | .value v, htidy, k, hk => by
    obtain rfl : k = head v.name := by simpa [heads] using hk
    simp only [isTidy, hwhole, if_true, decide_eq_true_eq] at htidy
    rw [htidy]
    decide
  | .sect ⟨_, _, _, _, _, body⟩, htidy, _, _ => by simp [isTidy, hwhole] at htidy
  | .block ⟨_, _, _, body⟩, htidy, k, hk => by
    simp only [isTidy] at htidy
    simp only [heads] at hk
    exact eq_of_mem_headsAll hwhole htidy k hk
  | .text _, _, _, hk | .eof, _, _, hk | .inclusion _, _, _, hk | .dynamic _, _, _, hk
  | .extend _, _, _, hk => by simp [heads] at hk

theorem eq_of_mem_headsAll (hwhole : l.isWhole = true) :
    ∀ {cs : List Code}, isTidyAll l cs = true → ∀ k ∈ headsAll cs, k = currentName
  | [], _, _, hk => by simp [headsAll] at hk
  | c :: cs, htidy, k, hk => by
    simp only [isTidyAll, Bool.and_eq_true] at htidy
    rw [headsAll, List.mem_append] at hk
    exact hk.elim (eq_of_mem_heads hwhole htidy.1 k) (eq_of_mem_headsAll hwhole htidy.2 k)

end

/-! ## Matching, node by node -/

/-- What may come after one round of a section: the next round, or what follows the section. -/
def afterRound (follow : Option Follow) (body : List Code) : Follow :=
  let f := follow.getD .unknown
  match Follow.firstLiteral? body with
  | some s => ⟨f.literals ++ [s.toList], f.mayEnd⟩
  | none => f

/-- One round of the body of a section. -/
def turn (follow : Option Follow) (body : List Code) (s : List Char) : Option Progress :=
  invertAll (afterRound follow body) body ⟨[], s⟩

section Nodes

variable {follow : Option Follow} {outer : Follow} {p q : Progress} {origin : Origin}
  {name raw : String} {close : Delimiters} {body : List Code}

theorem invertNode_text {s : String} (h : invertNode follow (.text s) p = some q) :
    p.rest = s.toList ++ q.rest ∧ q.names = p.names := by
  simp only [invertNode] at h
  split at h
  · next hprefix =>
    cases h
    obtain ⟨rest, hrest⟩ := List.isPrefixOf_iff_prefix.mp hprefix
    exact ⟨by simp [← hrest], rfl⟩
  · cases h

theorem invertNode_eof (h : invertNode follow .eof p = some q) : q = p ∧ p.rest = [] := by
  simp only [invertNode] at h
  split at h
  · next hempty =>
    cases h
    exact ⟨rfl, by simpa using hempty⟩
  · cases h

theorem invertNode_value {v : Interpolation} (h : invertNode follow (.value v) p = some q) :
    ∃ n, follow.bind (·.distance? p.rest) = some n ∧ q.rest = p.rest.drop n ∧
      Recovered.bind v.name
        (.text (.ofList (if v.style = .escaped then Html.unescapeChars (p.rest.take n)
          else p.rest.take n))) p.names = some q.names := by
  cases follow with
  | none => cases h
  | some f =>
    simp only [invertNode, invertValue] at h
    cases hdistance : f.distance? p.rest with
    | none => simp [hdistance] at h
    | some n =>
      simp only [hdistance, Option.map_eq_some_iff] at h
      obtain ⟨names, hbind, rfl⟩ := h
      exact ⟨n, hdistance, rfl, hbind⟩

/-- The body of a negated section is there, or the name is made true unless it has something. -/
theorem invertNode_negated (hbody : body.isEmpty = false)
    (h : invertNode follow (.sect ⟨origin, name, true, close, raw, body⟩) p = some q) :
    invertAll (follow.getD .unknown) body p = some q ∨
      invertAll (follow.getD .unknown) body p = none ∧ q.rest = p.rest ∧
        (q.names = p.names ∨ Recovered.bind name (.bool true) p.names = some q.names) := by
  simp only [invertNode, hbody, Bool.false_eq_true, if_false, if_true] at h
  split at h
  · next hmatch => exact .inl (hmatch.trans h)
  · next hmatch =>
    refine .inr ⟨hmatch, ?_⟩
    split at h
    · cases h
      exact ⟨rfl, .inl rfl⟩
    · obtain ⟨names, hbind, rfl⟩ := Option.map_eq_some_iff.mp h
      exact ⟨rfl, .inr hbind⟩

/-- A section that is not negated takes its rounds. -/
theorem invertNode_rounds (hbody : body.isEmpty = false) :
    invertNode follow (.sect ⟨origin, name, false, close, raw, body⟩) p =
      (bindRounds name p.names (rounds (turn follow body) p.rest.length p.rest).1).map fun names =>
        ⟨names, (rounds (turn follow body) p.rest.length p.rest).2⟩ := by
  simp only [invertNode, hbody, Bool.false_eq_true, if_false]
  rfl

theorem invertNode_positive (hbody : body.isEmpty = false)
    (h : invertNode follow (.sect ⟨origin, name, false, close, raw, body⟩) p = some q) :
    bindRounds name p.names (rounds (turn follow body) p.rest.length p.rest).1 = some q.names ∧
      q.rest = (rounds (turn follow body) p.rest.length p.rest).2 := by
  rw [invertNode_rounds hbody] at h
  obtain ⟨names, hbind, rfl⟩ := Option.map_eq_some_iff.mp h
  exact ⟨hbind, rfl⟩

theorem invertAll_cons {c : Code} {cs : List Code} (h : invertAll outer (c :: cs) p = some q) :
    ∃ p', invertNode (Follow.before? outer cs) c p = some p' ∧ invertAll outer cs p' = some q := by
  rw [invertAll] at h
  cases hnode : invertNode (Follow.before? outer cs) c p with
  | none => simp [hnode] at h
  | some p' =>
    rw [hnode] at h
    exact ⟨p', rfl, h⟩

/-- A tree that ends with the end of the text uses all of it up. -/
theorem rest_of_invertAll : ∀ {cs : List Code} {p : Progress}, cs.getLast? = some .eof →
    invertAll outer cs p = some q → q.rest = []
  | [], _, hlast, _ => by cases hlast
  | [c], _, hlast, h => by
    obtain rfl : c = .eof := by simpa using hlast
    obtain ⟨p', hnode, hrest⟩ := invertAll_cons h
    cases hrest
    obtain ⟨rfl, hempty⟩ := invertNode_eof hnode
    exact hempty
  | c :: d :: cs, _, hlast, h => by
    obtain ⟨p', -, hrest⟩ := invertAll_cons h
    exact rest_of_invertAll (by rwa [List.getLast?_cons_cons] at hlast) hrest

end Nodes

/-- What the rounds of a section are recovered as: nothing, truth or a list. -/
theorem bindRounds_eq {name : String} {names names' : List (String × Recovered)}
    {items : List (List (String × Recovered))} (h : bindRounds name names items = some names') :
    items = [] ∧ names' = names ∨
      items = [[]] ∧ Recovered.bind name (.bool true) names = some names' ∨
      items ≠ [] ∧ items ≠ [[]] ∧
        Recovered.bind name (.list (items.map Recovered.toItem)) names = some names' := by
  rw [bindRounds.eq_def] at h
  split at h
  · exact .inl ⟨rfl, (Option.some.inj h).symm⟩
  · exact .inr (.inl ⟨rfl, h⟩)
  · next hnil hsingle => exact .inr (.inr ⟨hnil, hsingle, h⟩)

/-! ## Matching adds names -/

theorem grows_bindRounds {name : String} {names names' : List (String × Recovered)}
    {items : List (List (String × Recovered))} (h : bindRounds name names items = some names') :
    Grows [head name] names names' := by
  obtain ⟨-, rfl⟩ | ⟨-, h⟩ | ⟨-, -, h⟩ := bindRounds_eq h
  · exact .refl _
  · exact .bind .truth h
  · exact .bind (.list _) h

mutual

/-- Matching a node adds names of the level that it stands on, and nothing else changes. -/
theorem invertNode_grows : ∀ {follow : Option Follow} {c : Code} {p q : Progress},
    invertNode follow c p = some q → Grows (heads c) p.names q.names
  | _, .text _, p, q, h => by
    rw [(invertNode_text h).2]
    exact .refl _
  | _, .eof, p, q, h => by
    rw [(invertNode_eof h).1]
    exact .refl _
  | _, .value _, p, q, h => by
    obtain ⟨n, -, -, hbind⟩ := invertNode_value h
    exact .bind (.text _) hbind
  | _, .block ⟨_, _, _, body⟩, p, q, h => by
    simp only [invertNode] at h
    exact invertAll_grows h
  | follow, .sect ⟨_, name, negated, _, _, body⟩, p, q, h => by
    cases hbody : body.isEmpty with
    | true =>
      simp only [invertNode, hbody, if_true] at h
      cases h
      exact .refl _
    | false =>
      cases negated with
      | true =>
        obtain hmatch | ⟨-, -, hnames | hbind⟩ := invertNode_negated hbody h
        · exact (invertAll_grows hmatch).mono fun k hk => by simp [heads, hk]
        · rw [hnames]
          exact .refl _
        · exact (Grows.bind .truth hbind).mono (by simp [heads])
      | false => exact (grows_bindRounds (invertNode_positive hbody h).1).mono (by simp [heads])
  | _, .inclusion _, _, _, h | _, .dynamic _, _, _, h | _, .extend _, _, _, h => by cases h

theorem invertAll_grows : ∀ {outer : Follow} {cs : List Code} {p q : Progress},
    invertAll outer cs p = some q → Grows (headsAll cs) p.names q.names
  | _, [], p, q, h => by
    cases h
    exact .refl _
  | outer, c :: cs, p, q, h => by
    obtain ⟨p', hnode, hrest⟩ := invertAll_cons h
    have hc : Grows (headsAll (c :: cs)) p.names p'.names :=
      (invertNode_grows hnode).mono fun k hk => by simp [headsAll, hk]
    have hcs : Grows (headsAll (c :: cs)) p'.names q.names :=
      (invertAll_grows hrest).mono fun k hk => by simp [headsAll, hk]
    exact hc.trans hcs

end

/-! ## Rounds -/

/-- Rounds one after another, each of them with the text it starts at and what it comes to. -/
inductive Rounds (turn : List Char → Progress → Prop) :
    List Char → List (List (String × Recovered)) → List Char → Prop
  | none (s : List Char) : Rounds turn s [] s
  | more {s rest : List Char} {p : Progress} {items : List (List (String × Recovered))}
    (hturn : turn s p) (hmore : Rounds turn p.rest items rest) :
    Rounds turn s (p.names :: items) rest

theorem Rounds.single {turn : List Char → Progress → Prop} {s rest : List Char}
    {names : List (String × Recovered)} (h : Rounds turn s [names] rest) :
    ∃ p : Progress, turn s p ∧ p.names = names ∧ p.rest = rest := by
  generalize hitems : [names] = items at h
  cases h with
  | none => cases hitems
  | @more _ _ p more hturn hmore =>
    obtain ⟨rfl, rfl⟩ := List.cons.inj hitems
    cases hmore
    exact ⟨p, hturn, rfl, rfl⟩

/-- A check of every round of a body that matches. -/
def allRounds (turn : List Char → Option Progress) (check : List Char → Progress → Bool) :
    Nat → List Char → Bool
  | 0, _ => true
  | fuel + 1, s =>
    match turn s with
    | some p =>
      if p.rest.length < s.length then check s p && allRounds turn check fuel p.rest else true
    | none => true

theorem rounds_rounds {turn : List Char → Option Progress} {check : List Char → Progress → Bool} :
    ∀ {fuel : Nat} {s : List Char}, allRounds turn check fuel s = true →
      Rounds (fun s p => turn s = some p ∧ check s p = true) s (rounds turn fuel s).1
        (rounds turn fuel s).2
  | 0, s, _ => .none s
  | fuel + 1, s, h => by
    rw [allRounds] at h
    rw [rounds]
    cases hturn : turn s with
    | none => exact .none s
    | some p =>
      simp only [hturn] at h ⊢
      split
      · next hlt =>
        rw [if_pos hlt, Bool.and_eq_true] at h
        exact .more ⟨hturn, h.1⟩ (rounds_rounds h.2)
      · exact .none s

/-! ## Readings that are borne out -/

variable {follow : Option Follow} {p q : Progress}

section Turns

variable {body : List Code} {s : List Char}

theorem leafy_turn (h : turn follow body s = some p) : Recovered.Leafy p.names :=
  (invertAll_grows h).leafy Recovered.leafy_nil

/-- A round recovers names of the level of the body. -/
theorem mem_headsAll_turn (h : turn follow body s = some p) {k : String}
    (hk : Table.get? k p.names ≠ none) : k ∈ headsAll body :=
  (invertAll_grows h).mem_heads hk

/-- The value of a round shows what the round has recovered. -/
theorem shows_turn (htidy : isTidyAll (l.inner body) body = true)
    (h : turn follow body s = some p) : Recovered.Shows p.names (Recovered.toItem p.names) := by
  refine Recovered.shows_toItem (leafy_turn h) ?_
  by_cases hwhole : (l.inner body).isWhole = true
  · exact .inl fun k hk => eq_of_mem_headsAll hwhole htidy k (mem_headsAll_turn h hk)
  · refine .inr (Recovered.get?_eq_none (fun k => mem_headsAll_turn h) ?_)
    simpa [Level.isWhole, Level.inner] using hwhole

end Turns

/-- Whether a section over what a name holds in the end renders its body. -/
def holds (name : String) (final : List (String × Recovered)) : Bool :=
  !(valueOf name final).isFalsey

/-- Whether escaping gives back what was read of an escaped value. -/
def isBorneOutValue (v : Interpolation) (follow : Option Follow) (p : Progress) : Bool :=
  match follow.bind (·.distance? p.rest) with
  | some n =>
    v.style ≠ .escaped ||
      Html.escapeChars (Html.unescapeChars (p.rest.take n)) = p.rest.take n
  | none => true

theorem escape_of_isBorneOutValue {v : Interpolation} {n : Nat}
    (hdistance : follow.bind (·.distance? p.rest) = some n)
    (h : isBorneOutValue v follow p = true) (hstyle : v.style = .escaped) :
    Html.escapeChars (Html.unescapeChars (p.rest.take n)) = p.rest.take n := by
  simpa [isBorneOutValue, hdistance, hstyle] using h

/-- Whether the rounds of a section are what its name has in the end: a name that is given a list
    had nothing before. -/
def isBorneOutRounds (name : String) (final names : List (String × Recovered)) :
    List (List (String × Recovered)) → Bool
  | [] => !holds name final
  | [[]] => true
  | _ => (at? (path name) names).isNone

mutual

/-- Whether the names that a level has in the end bear out how a node was read: escaping gives back
    what was read, sections that were there hold and others do not, and no two sections gave one
    name a list. -/
def isBorneOut (final : List (String × Recovered)) (follow : Option Follow) :
    Code → Progress → Bool
  | .value v, p => isBorneOutValue v follow p
  | .block ⟨_, _, _, body⟩, p => isBorneOutAll final (follow.getD .unknown) body p
  | .sect ⟨_, name, negated, _, _, body⟩, p =>
    if body.isEmpty then true
    else if negated then
      if (invertAll (follow.getD .unknown) body p).isSome then
        !holds name final && isBorneOutAll final (follow.getD .unknown) body p
      else holds name final
    else
      isBorneOutRounds name final p.names (rounds (turn follow body) p.rest.length p.rest).1 &&
        allRounds (turn follow body)
          (fun s q => isBorneOutAll q.names (afterRound follow body) body ⟨[], s⟩)
          p.rest.length p.rest
  | _, _ => true

def isBorneOutAll (final : List (String × Recovered)) (outer : Follow) :
    List Code → Progress → Bool
  | [], _ => true
  | c :: cs, p =>
    isBorneOut final (Follow.before? outer cs) c p &&
      match invertNode (Follow.before? outer cs) c p with
      | some p => isBorneOutAll final outer cs p
      | none => true

end

/-- Whether what matching recovers from a text bears out how the text was read. -/
def isBorneOutBy (codes : List Code) (text : String) : Bool :=
  match invertAll .atEnd codes ⟨[], text.toList⟩ with
  | some q => isBorneOutAll q.names .atEnd codes ⟨[], text.toList⟩
  | none => true

end Mustache.Code
