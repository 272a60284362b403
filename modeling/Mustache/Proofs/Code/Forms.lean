import Mustache.Proofs.Code.Matching
import Mustache.Proofs.Code.Tokens
import Mustache.Proofs.Html.Escaped

/-! # Forms

A form is a list of literals and of fields: values, each of them right before a literal.  Where the
text that is filled in for a field can be told from the literal behind it, matching takes just this
text for the field.  So a form that has been filled in gives back what it was filled in with, and a
section over a form gives that back round by round.

* `Code.IsForm`, `Code.fields` — forms and their fields.
* `Code.filled`, `Code.entries` — the text of a form, and what matching recovers from it.
* `Code.invertAll_filled` — matching a form with its text.
* `Code.rounds_flatMap` — rounds that are found one after another.
* `Code.invert_form`, `Code.invert_sect` — the data that are recovered.
-/

namespace Mustache

/-! ## Words -/

namespace Recovered

/-- A name in one part.  There is something in it, as there is in the name of every tag. -/
def IsWord (name : String) : Prop :=
  name ≠ "" ∧ '.' ∉ name.toList

instance (name : String) : Decidable (IsWord name) :=
  inferInstanceAs (Decidable (_ ∧ _))

variable {name : String}

theorem IsWord.ne_currentName (h : IsWord name) : name ≠ currentName := by
  rintro rfl
  exact h.2 (by decide)

theorem IsWord.isProper (h : IsWord name) : IsProper name := by
  rw [IsProper, Text.splitAtChar_of_not_mem h.2]
  simpa using h.1

theorem IsWord.segments (h : IsWord name) : Lookup.segments name = (name, []) := by
  rw [Lookup.segments, Text.splitAtChar_of_not_mem h.2]
  simp

theorem IsWord.path (h : IsWord name) : path name = [name] := by
  rw [path_eq_segments h.isProper, h.segments]

/-- A word that is new comes in at the end. -/
theorem IsWord.bind (h : IsWord name) {names : List (String × Recovered)}
    (hnew : Table.get? name names = none) (v : Value) :
    bind name v names = some (names ++ [(name, .value v)]) := by
  simp only [Recovered.bind, h.path, bindAt, hnew, Table.insert_of_get?_eq_none hnew]

/-- Where no name stands for the whole scope, a round is the map of its names. -/
theorem toItem_of_forall_ne {names : List (String × Recovered)}
    (h : ∀ e ∈ names, e.1 ≠ currentName) : toItem names = .map (toEntries names) := by
  have hget : Table.get? currentName names = none := by
    rw [← Table.erase_of_forall_ne h, Table.get?_erase, if_pos rfl]
  simp only [toItem, hget, Table.erase_of_forall_ne h]

end Recovered

namespace Code

open Recovered (IsWord currentName)

/-! ## Forms and their fields -/

/-- A value, and the literal right behind it. -/
structure Field where
  value : Interpolation
  behind : String

namespace Field

/-- The text that is written for a field. -/
def written (e : Field) (s : String) : List Char :=
  if e.value.style = .escaped then Html.escapeChars s.toList else s.toList

/-- What is written for a field can be read again: the literal behind it shows where it ends, and
    decoding gives back what was encoded. -/
structure Fits (e : Field) (s : String) : Prop where
  ends : Text.OnlyAtEnd e.behind.toList (e.written s)
  bare : e.value.style = .escaped → Html.IsBare s.toList

instance (e : Field) (s : String) : Decidable (e.Fits s) :=
  decidable_of_iff (_ ∧ _) ⟨fun h => ⟨h.1, h.2⟩, fun h => ⟨h.ends, h.bare⟩⟩

theorem Fits.decoded {e : Field} {s : String} (h : e.Fits s) :
    (if e.value.style = .escaped then Html.unescapeChars (e.written s) else e.written s) =
      s.toList := by
  unfold written
  split
  · next hescaped => exact Html.unescapeChars_escapeChars (h.bare hescaped)
  · rfl

end Field

/-- The fields of a list of nodes. -/
def fields : List Code → List Field
  | .value v :: .text s :: cs => ⟨v, s⟩ :: fields cs
  | _ :: cs => fields cs
  | [] => []

/-- Whether all nodes are literals or values, and a literal stands right behind every value. -/
def isPunctuated : List Code → Bool
  | [] => true
  | .text _ :: cs => isPunctuated cs
  | .value _ :: .text _ :: cs => isPunctuated cs
  | _ => false

/-- Literals, and fields with words for their names that are all different, before literals that are
    not empty. -/
structure IsForm (form : List Code) : Prop where
  punctuated : isPunctuated form = true
  behind : ∀ e ∈ fields form, e.behind ≠ ""
  words : ∀ e ∈ fields form, IsWord e.value.name
  nodup : ((fields form).map (·.value.name)).Nodup

instance (form : List Code) : Decidable (IsForm form) :=
  decidable_of_iff (_ ∧ _ ∧ _ ∧ _)
    ⟨fun h => ⟨h.1, h.2.1, h.2.2.1, h.2.2.2⟩, fun h => ⟨h.punctuated, h.behind, h.words, h.nodup⟩⟩

/-- The text of a form that is filled in. -/
def filled (f : String → String) : List Code → List Char
  | .text s :: cs => s.toList ++ filled f cs
  | .value v :: .text s :: cs =>
    Field.written ⟨v, s⟩ (f v.name) ++ (s.toList ++ filled f cs)
  | _ :: cs => filled f cs
  | [] => []

/-- Everything that a form is filled in with can be read again. -/
def Fits (f : String → String) (form : List Code) : Prop :=
  ∀ e ∈ fields form, e.Fits (f e.value.name)

instance (f : String → String) (form : List Code) : Decidable (Fits f form) :=
  inferInstanceAs (Decidable (∀ e ∈ fields form, e.Fits (f e.value.name)))

/-- What the fields of a form are filled in with, as data. -/
def data (f : String → String) (form : List Code) : Value :=
  .map ((fields form).map fun e => (e.value.name, .text (f e.value.name)))

/-- What the rounds of a section over a form are filled in with, as data. -/
def sectData (fs : List (String → String)) (sec : Section Code) : Value :=
  .map [(sec.name, .list (fs.map (data · sec.body)))]

/-- What the fields of a form are filled in with, as what is recovered from its text. -/
def entries (f : String → String) (form : List Code) : List (String × Recovered) :=
  (fields form).map fun e => (e.value.name, .value (.text (f e.value.name)))

variable {f : String → String} {form more : List Code} {names : List (String × Recovered)}
  {outer : Follow} {rest : List Char} {s : String}

theorem toEntries_entries :
    Recovered.toEntries (entries f form) =
      (fields form).map fun e => (e.value.name, .text (f e.value.name)) := by
  rw [Recovered.toEntries_eq_map, entries, List.map_map]
  rfl

/-- No field of a form stands for the whole scope. -/
theorem IsForm.ne_currentName (hform : IsForm form) :
    ∀ entry ∈ entries f form, entry.1 ≠ currentName := by
  intro entry hentry
  obtain ⟨e, he, rfl⟩ := List.mem_map.mp hentry
  exact (hform.words e he).ne_currentName

theorem IsForm.toItem_entries (hform : IsForm form) :
    Recovered.toItem (entries f form) = data f form := by
  rw [Recovered.toItem_of_forall_ne hform.ne_currentName, toEntries_entries, data]

/-! ## Matching a form -/

theorem invertAll_text (s : String) (more : List Code) (names : List (String × Recovered))
    (rest : List Char) : invertAll outer (.text s :: more) ⟨names, s.toList ++ rest⟩ =
      invertAll outer more ⟨names, rest⟩ := by
  simp [invertAll, invertNode]

theorem distance?_literal {t : List Char} (h : Text.OnlyAtEnd s.toList t) (rest : List Char) :
    (Follow.literal s).distance? (t ++ (s.toList ++ rest)) = some t.length := by
  simp [Follow.distance?, Follow.literal, Text.cut?_of_onlyAtEnd h]

/-- A field takes the text that was written for it, and leaves the literal behind it. -/
theorem invertAll_field {e : Field} (hword : IsWord e.value.name) (hfits : e.Fits s)
    (hnew : Table.get? e.value.name names = none) (more : List Code) (rest : List Char) :
    invertAll outer (.value e.value :: .text e.behind :: more)
        ⟨names, e.written s ++ (e.behind.toList ++ rest)⟩ =
      invertAll outer more ⟨names ++ [(e.value.name, .value (.text s))], rest⟩ := by
  have hvalue : invertNode (some (.literal e.behind)) (.value e.value)
      ⟨names, e.written s ++ (e.behind.toList ++ rest)⟩ =
        some ⟨names ++ [(e.value.name, .value (.text s))], e.behind.toList ++ rest⟩ := by
    simp only [invertNode, invertValue, distance?_literal hfits.ends, List.take_left,
      List.drop_left, hfits.decoded, String.ofList_toList, hword.bind hnew, Option.map_some]
  rw [invertAll, Follow.before?, hvalue]
  exact invertAll_text _ _ _ _

/-- A form takes its text, and has recovered what it was filled in with. -/
theorem invertAll_filled (hpunctuated : isPunctuated form = true)
    (hwords : ∀ e ∈ fields form, IsWord e.value.name)
    (hnodup : ((fields form).map (·.value.name)).Nodup) (hfits : Fits f form)
    (hnew : ∀ e ∈ fields form, Table.get? e.value.name names = none) :
    invertAll outer (form ++ more) ⟨names, filled f form ++ rest⟩ =
      invertAll outer more ⟨names ++ entries f form, rest⟩ := by
  -- Every field adds its own name to what the fields before it have recovered, so the names that are
  -- still to come have to be new there too.
  fun_induction isPunctuated form generalizing names with
  | case1 => simp [filled, entries, fields]
  | case2 s cs ih =>
    simp only [filled, List.cons_append, List.append_assoc]
    rw [invertAll_text]
    exact ih hpunctuated hwords hnodup hfits hnew
  | case3 v s cs ih =>
    simp only [fields, List.map_cons, List.nodup_cons] at hwords hnodup hnew
    have hfirst := List.mem_cons_self (a := (⟨v, s⟩ : Field)) (l := fields cs)
    simp only [filled, List.cons_append, List.append_assoc]
    rw [invertAll_field (e := ⟨v, s⟩) (hwords _ hfirst) (hfits _ hfirst) (hnew _ hfirst)]
    rw [ih hpunctuated (fun e he => hwords e (List.mem_cons_of_mem _ he)) hnodup.2
      (fun e he => hfits e (List.mem_cons_of_mem _ he)) fun e he => ?_]
    · simp [entries, fields]
    · rw [Table.get?_append, hnew e (List.mem_cons_of_mem _ he), Table.get?, if_neg]
      · rfl
      · exact fun heq => hnodup.1 (heq ▸ List.mem_map_of_mem he)
  | case4 => cases hpunctuated

/-- Without text, a form with a field does not match. -/
theorem invertAll_nil_eq_none (hpunctuated : isPunctuated form = true)
    (hbehind : ∀ e ∈ fields form, e.behind ≠ "") (hfields : fields form ≠ []) :
    invertAll outer form ⟨names, []⟩ = none := by
  fun_induction isPunctuated form with
  | case1 => exact absurd rfl hfields
  | case2 s cs ih =>
    by_cases hs : s = ""
    · subst hs
      exact (invertAll_text "" cs names []).trans (ih hpunctuated hbehind hfields)
    · have hprefix : s.toList.isPrefixOf [] = false := by
        simpa [List.isPrefixOf_iff_prefix, ← Bool.not_eq_true] using hs
      simp [invertAll, invertNode, hprefix]
  | case3 v s cs =>
    have hs : s ≠ "" := hbehind ⟨v, s⟩ List.mem_cons_self
    have hdistance : (Follow.literal s).distance? [] = none := by
      simp [Follow.distance?, Follow.literal, Text.cut?, hs]
    simp [invertAll, Follow.before?, invertNode, invertValue, hdistance]
  | case4 => cases hpunctuated

theorem filled_ne_nil (hpunctuated : isPunctuated form = true)
    (hbehind : ∀ e ∈ fields form, e.behind ≠ "") (hfields : fields form ≠ []) :
    filled f form ≠ [] := by
  fun_induction isPunctuated form with
  | case1 => exact absurd rfl hfields
  | case2 s cs ih =>
    simp only [filled, ne_eq, List.append_eq_nil_iff, not_and]
    exact fun _ => ih hpunctuated hbehind hfields
  | case3 v s cs =>
    have hs : s ≠ "" := hbehind ⟨v, s⟩ List.mem_cons_self
    simp [filled, hs]
  | case4 => cases hpunctuated

/-! ## Rounds -/

/-- Rounds are found one after another if each of them takes its own text, whatever comes after it,
    and none starts at the end. -/
theorem rounds_flatMap {α : Type} {turn : List Char → Option Progress} {text : α → List Char}
    {item : α → List (String × Recovered)} (hend : turn [] = none) :
    ∀ {as : List α} {fuel : Nat},
      (∀ a ∈ as, ∀ rest, turn (text a ++ rest) = some ⟨item a, rest⟩) → (∀ a ∈ as, text a ≠ []) →
        (as.flatMap text).length ≤ fuel → rounds turn fuel (as.flatMap text) = (as.map item, [])
  | [], 0, _, _, _ => rfl
  | [], _ + 1, _, _, _ => by simp [rounds, hend]
  | a :: as, fuel, hturn, htext, hfuel => by
    -- A round uses up some of the text, so one turn less is enough for the rest.
    have hpos : 0 < (text a).length := List.length_pos_iff.mpr (htext a List.mem_cons_self)
    rw [List.flatMap_cons, List.length_append] at hfuel
    obtain ⟨fuel, rfl⟩ : ∃ k, fuel = k + 1 := ⟨fuel - 1, by omega⟩
    have hmore : rounds turn fuel (as.flatMap text) = (as.map item, []) :=
      rounds_flatMap hend (fun a ha => hturn a (List.mem_cons_of_mem _ ha))
        (fun a ha => htext a (List.mem_cons_of_mem _ ha)) (by omega)
    rw [List.flatMap_cons, rounds, hturn a List.mem_cons_self]
    simp only [List.length_append, Nat.lt_add_left_iff_pos, hpos, if_true, hmore, List.map_cons]

theorem bindRounds_items {name : String} {items : List (List (String × Recovered))}
    (hitems : items ≠ []) (hnil : [] ∉ items) :
    bindRounds name names items =
      Recovered.bind name (.list (items.map Recovered.toItem)) names := by
  rw [bindRounds.eq_def]
  split
  · exact absurd rfl hitems
  · exact absurd List.mem_cons_self hnil
  · rfl

/-! ## The data that are recovered -/

/-- Where no name stands for the whole scope, the data are the map of the names. -/
theorem invert_eq_map {codes : List Code} {text : List Char} {p : Progress}
    (hmatch : invertAll .atEnd codes ⟨[], text⟩ = some p)
    (hnames : ∀ e ∈ p.names, e.1 ≠ currentName) :
    invert codes (.ofList text) = some (.map (Recovered.toEntries p.names)) := by
  rw [invert, String.toList_ofList, hmatch, Option.map_some, Table.erase_of_forall_ne hnames]

/-- What a form was filled in with is recovered from its text. -/
theorem invert_form (hform : IsForm form) (hfits : Fits f form) :
    invert (form ++ [.eof]) (.ofList (filled f form)) = some (data f form) := by
  have hmatch : invertAll .atEnd (form ++ [.eof]) ⟨[], filled f form ++ []⟩ =
      some ⟨entries f form, []⟩ :=
    invertAll_filled hform.punctuated hform.words hform.nodup hfits fun _ _ => rfl
  rw [List.append_nil] at hmatch
  rw [invert_eq_map hmatch hform.ne_currentName, toEntries_entries, data]

section Sections

variable {sec : Section Code} {fs : List (String → String)}

/-- A section over a form takes the text of its rounds, and has recovered a list. -/
theorem invertNode_sect {follow : Option Follow} (hpositive : sec.negated = false)
    (hname : IsWord sec.name) (hform : IsForm sec.body) (hfields : fields sec.body ≠ [])
    (hfs : fs ≠ []) (hfits : ∀ f ∈ fs, Fits f sec.body) :
    invertNode follow (.sect sec) ⟨[], fs.flatMap (filled · sec.body)⟩ =
      some ⟨[(sec.name, .value (.list (fs.map (data · sec.body))))], []⟩ := by
  obtain ⟨origin, name, negated, close, raw, body⟩ := sec
  obtain rfl : negated = false := hpositive
  have hbody : body.isEmpty = false := by
    simp only [List.isEmpty_eq_false_iff]
    rintro rfl
    exact hfields rfl
  have hturn : ∀ f ∈ fs, ∀ rest,
      turn follow body (filled f body ++ rest) = some ⟨entries f body, rest⟩ := fun f hf rest => by
    have hmatch : invertAll (afterRound follow body) (body ++ []) ⟨[], filled f body ++ rest⟩ =
        some ⟨entries f body, rest⟩ :=
      invertAll_filled hform.punctuated hform.words hform.nodup (hfits f hf) fun _ _ => rfl
    rwa [List.append_nil] at hmatch
  have hrounds := rounds_flatMap (invertAll_nil_eq_none hform.punctuated hform.behind hfields) hturn
    (fun f _ => filled_ne_nil hform.punctuated hform.behind hfields) (Nat.le_refl _)
  -- Every round has recovered something, so the rounds are a list, not truth.
  have hnil : [] ∉ fs.map (entries · body) := by
    simpa [entries] using fun _ _ => hfields
  have hbind : bindRounds name [] (fs.map (entries · body)) =
      some [(name, .value (.list (fs.map (data · body))))] := by
    rw [bindRounds_items (by simpa using hfs) hnil, hname.bind rfl, List.map_map]
    simp only [Function.comp_def, hform.toItem_entries, List.nil_append]
  rw [invertNode_rounds hbody, hrounds, hbind]
  rfl

/-- What the rounds of a section over a form were filled in with is recovered from their text. -/
theorem invert_sect (hpositive : sec.negated = false)
    (hname : IsWord sec.name) (hform : IsForm sec.body) (hfields : fields sec.body ≠ [])
    (hfs : fs ≠ []) (hfits : ∀ f ∈ fs, Fits f sec.body) :
    invert [.sect sec, .eof] (.ofList (fs.flatMap (filled · sec.body))) =
      some (sectData fs sec) := by
  have hmatch : invertAll .atEnd [.sect sec, .eof] ⟨[], fs.flatMap (filled · sec.body)⟩ =
      some ⟨[(sec.name, .value (.list (fs.map (data · sec.body))))], []⟩ := by
    rw [invertAll, invertNode_sect hpositive hname hform hfields hfs hfits]
    rfl
  exact invert_eq_map hmatch (by simpa using hname.ne_currentName)

end Sections

end Code

end Mustache
