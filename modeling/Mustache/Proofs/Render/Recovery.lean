import Mustache.Proofs.Code.Matching
import Mustache.Proofs.Render.Whole

/-! # Rendering what was recovered

The data that are recovered from a text render as the text again, if they bear out how the text was
read and the tags of the template can be told apart by them.

* `Plain.Writes` — an action that writes a text, and does nothing else.
* `Code.Level.Scoped` — the scopes under which a level is rendered again.
* `Plain.writes_node` — a node writes what it was matched with.
* `Template.renderWithin_invert` — whole renders.
-/

namespace Mustache

open Recovered (Keeps Leafy Datum Shows currentName head path at? valueOf IsProper)

/-! ## Actions that write -/

namespace Plain

variable {σ α : Type}

/-- An action that writes a text and comes to a good end, and runs nothing. -/
def Writes (x : Plain σ Unit) (s : List Char) : Prop :=
  ∀ state, ∃ texts, x state = (texts, .ok (), state) ∧ (String.join texts).toList = s

namespace Writes

variable {x y : Plain σ Unit} {s t : List Char}

theorem nothing : Writes (pure () : Plain σ Unit) [] :=
  fun _ => ⟨[], rfl, rfl⟩

theorem text (s : String) : Writes (write s : Plain σ Unit) s.toList :=
  fun _ => ⟨[s], rfl, by simp⟩

theorem bind (hx : Writes x s) (hy : Writes y t) : Writes (x >>= fun _ => y) (s ++ t) := by
  intro state
  obtain ⟨texts, hwrote, rfl⟩ := hx state
  obtain ⟨more, hmore, rfl⟩ := hy state
  refine ⟨texts ++ more, ?_, ?_⟩
  · simp only [Bind.bind, hwrote, hmore]
  · rw [String.join_append, String.toList_append]

theorem each_nothing {f : α → Plain σ Unit} (hf : ∀ a, Writes (f a) []) (as : List α) :
    Writes (each f as) [] := by
  induction as with
  | nil => exact nothing
  | cons a as ih => exact (hf a).bind ih

/-- Rounds that are written again one after another make up the text that they were read from. -/
theorem each_rounds {turn : List Char → Code.Progress → Prop} {f : Value → Plain σ Unit}
    {item : List (String × Recovered) → Value}
    (hturn : ∀ s p, turn s p → ∃ t, s = t ++ p.rest ∧ Writes (f (item p.names)) t)
    {rest : List Char} {items : List (List (String × Recovered))}
    (h : Code.Rounds turn s items rest) :
    ∃ t, s = t ++ rest ∧ Writes (each f (items.map item)) t := by
  induction h with
  | none s => exact ⟨[], rfl, nothing⟩
  | @more s rest p items hp _ ih =>
    obtain ⟨t, rfl, ht⟩ := hturn s p hp
    obtain ⟨t', hrest, ht'⟩ := ih
    exact ⟨t ++ t', by rw [hrest, List.append_assoc], ht.bind ht'⟩

end Writes

end Plain

/-! ## Scopes -/

namespace Code.Level

/-- The scopes under which a level is rendered again: the innermost one shows what the level has
    recovered, and the others have no names but those of the levels further out. -/
structure Scoped (l : Level) (names : List (String × Recovered)) (w : Value) (outer : List Value) :
    Prop where
  shows : Shows names w
  leafy : Leafy names
  keys : ∀ k, Table.get? k names ≠ none → k ∈ l.names
  fresh : ∀ k, k ≠ "" → k ≠ currentName → k ∉ l.outer →
    ∀ u ∈ outer, Lookup.member? u.coerce k = none

namespace Scoped

variable {l : Level} {names names' : List (String × Recovered)} {w w' : Value} {outer : List Value}
  {name : String} {s : String}

/-- The scopes of a round of a section. -/
theorem push (h : l.Scoped names w outer) {body : List Code} (hshows : Shows names' w')
    (hleafy : Leafy names') (hkeys : ∀ k, Table.get? k names' ≠ none → k ∈ headsAll body) :
    (l.inner body).Scoped names' w' (w :: outer) where
  shows := hshows
  leafy := hleafy
  keys := hkeys
  fresh k hempty hcurrent hk u hu := by
    simp only [inner, List.mem_append, not_or] at hk
    obtain rfl | hu := List.mem_cons.mp hu
    · rw [h.shows.coerce, h.shows.member k hempty hcurrent, Recovered.get?_eq_none h.keys hk.1]
      rfl
    · exact h.fresh k hempty hcurrent hk.2 u hu

/-- A section gets what the level has recovered under its name. -/
theorem resolve_sect (h : l.Scoped names w outer) (hname : IsProper name)
    (hfresh : head name ∉ l.outer) : Lookup.resolve name ⟨w :: outer⟩ = valueOf name names := by
  have hhead : head name ∈ path name := by
    obtain ⟨more, hpath⟩ := Recovered.exists_path_eq name
    exact hpath ▸ List.mem_cons_self
  obtain ⟨hempty, hcurrent⟩ := Recovered.ne_of_mem_path hname hhead
  exact Recovered.resolve_eq hname h.shows h.leafy fun _ =>
    h.fresh (head name) hempty hcurrent hfresh

/-- A value that was recovered is there again. -/
theorem resolve_text (h : l.Scoped names w outer)
    (hname : if l.isWhole then name = currentName else IsProper name)
    (hat : at? (path name) names = some (.value (.text s))) :
    Lookup.resolve name ⟨w :: outer⟩ = .text s := by
  split at hname
  · subst hname
    rw [Recovered.path_current] at hat
    exact Recovered.resolve_current h.shows hat outer
  · rw [Recovered.resolve_eq hname h.shows h.leafy, Recovered.valueOf_eq hat]
    intro hnone
    obtain ⟨more, hpath⟩ := Recovered.exists_path_eq name
    rw [hpath, Recovered.at?_cons, hnone, Recovered.along_none] at hat
    cases hat

end Scoped

end Code.Level

/-! ## Nodes -/

namespace Code

mutual

/-- How deep the bodies in a node nest. -/
def height : Code → Nat
  | .sect ⟨_, _, _, _, _, body⟩ => heightAll body + 1
  | .block ⟨_, _, _, body⟩ => heightAll body + 1
  | _ => 1

def heightAll : List Code → Nat
  | [] => 0
  | c :: cs => max (height c) (heightAll cs)

end

theorem height_pos (c : Code) : 0 < height c := by
  cases c <;> simp [height]

end Code

namespace Plain

open Code (bareAll Level Progress heightAll isTidyAll isBorneOutAll invertAll)

variable {σ : Type} {o : Options} {l : Loader} {q : Oracle σ} {r : Renderer σ}
  {scopes : Scopes} {cx : Context}

section Rules

variable (hhandler : o.handler = .standard)

include hhandler

theorem lookupTag_eq (hmiss : o.failOnMiss = false) (origin : Origin) (name : String) :
    (lookupTag o origin name scopes : Plain σ Value) = pure (Lookup.resolve name scopes) := by
  rw [lookupTag, hmiss, Bool.and_false, if_neg Bool.false_ne_true, hit, hhandler]
  exact congrArg pure (Lookup.call_find name scopes)

theorem nodeWith_value (hmiss : o.failOnMiss = false) (v : Interpolation) :
    r.nodeWith o l q (.value v) scopes cx =
      r.value o q v (Lookup.resolve v.name scopes) scopes cx := by
  rw [Renderer.nodeWith, lookupTag_eq hhandler hmiss]
  rfl

theorem nodeWith_sect (hmiss : o.failOnMiss = false) (s : Section Code) :
    r.nodeWith o l q (.sect s) scopes cx =
      r.sect o q s (Lookup.resolve s.name scopes) scopes cx := by
  rw [Renderer.nodeWith, lookupTag_eq hhandler hmiss]
  rfl

/-- A name that a scope has is found. -/
theorem lookupTag_found {origin : Origin} {name : String}
    (hname : Lookup.resolve name scopes ≠ .null) :
    (lookupTag o origin name scopes : Plain σ Value) = pure (Lookup.resolve name scopes) := by
  have hcall : (hit o name scopes).value = Lookup.resolve name scopes := by
    rw [hit, hhandler]
    exact Lookup.call_find name scopes
  have hfound : (hit o name scopes).isMissing = false := by
    cases htarget : (o.handler.find name scopes).target with
    | some _ => simp only [hit, Lookup.Hit.ofWrapper, Wrapper.isMissing, htarget]; rfl
    | none =>
      simp only [hit, Lookup.Hit.ofWrapper, Wrapper.call, htarget] at hcall
      exact absurd hcall.symm hname
  rw [lookupTag, hfound, Bool.false_and, if_neg Bool.false_ne_true, hcall]

/-- A value tag over a text writes it, escaped if the tag says so. -/
theorem writes_text (v : Interpolation) (s : List Char) :
    (r.value o q v (.text (.ofList s)) scopes cx).Writes
      (if v.style = .escaped then Html.escapeChars s else s) := by
  have hvalue : r.value o q v (.text (.ofList s)) scopes cx = writeValue o v (.ofList s) := by
    simp only [Renderer.value, hhandler, Handler.standard, Value.coerce, Value.display]
  rw [hvalue, writeValue, hhandler]
  by_cases hs : s = []
  · subst hs
    simpa [Html.escapeChars] using Writes.nothing
  · rw [if_neg (by simpa using hs)]
    split
    · simpa [Handler.standard, Html.escape] using Writes.text (Html.escape (.ofList s))
    · simpa using Writes.text (.ofList s)

/-- A tag whose name is a text writes the text, whether or not misses are errors. -/
theorem writes_found (v : Interpolation) {s : List Char}
    (hresolve : Lookup.resolve v.name scopes = .text (.ofList s)) :
    (r.nodeWith o l q (.value v) scopes cx).Writes
      (if v.style = .escaped then Html.escapeChars s else s) := by
  have hnode : r.nodeWith o l q (.value v) scopes cx =
      r.value o q v (.text (.ofList s)) scopes cx := by
    rw [Renderer.nodeWith, lookupTag_found hhandler (by simp [hresolve]), hresolve]
    rfl
  rw [hnode]
  exact writes_text hhandler v s

/-- A value tag writes what its value was read from, if escaping gives that back. -/
theorem writes_value (v : Interpolation) {raw : List Char}
    (hraw : v.style = .escaped → Html.escapeChars (Html.unescapeChars raw) = raw) :
    (r.value o q v (.text (.ofList (if v.style = .escaped then Html.unescapeChars raw else raw)))
      scopes cx).Writes raw := by
  generalize hread : (if v.style = .escaped then Html.unescapeChars raw else raw) = read
  have hwrites : (r.value o q v (.text (.ofList read)) scopes cx).Writes _ :=
    writes_text hhandler v read
  have hagain : (if v.style = .escaped then Html.escapeChars read else read) = raw := by
    subst hread
    split
    · next hescaped => exact hraw hescaped
    · rfl
  rwa [hagain] at hwrites

/-- A section over what was recovered renders its body or does not, and calls nothing. -/
theorem sect_eq (s : Section Code) {x : Value} (hx : Datum x) :
    r.sect o q s x scopes cx =
      if s.negated then if x.isFalsey then r.nodes s.body scopes cx else pure ()
      else if x.isFalsey then pure ()
      else each (fun item => r.nodes s.body (scopes.push item) cx) x.elements := by
  rw [Renderer.sect, hhandler]
  cases hx with
  | null => rfl
  | map entries => rfl
  | leaf h => cases h <;> rfl

end Rules

section Sections

variable {level : Level} {final names names' : List (String × Recovered)} {w : Value}
  {outer : List Value} {name : String}

theorem writes_sect_empty (hhandler : o.handler = .standard) (s : Section Code) {x : Value}
    (hx : Datum x) (hbody : s.body = []) : (r.sect o q s x scopes cx).Writes [] := by
  rw [sect_eq hhandler s hx, hbody]
  have hnodes : ∀ scopes, (r.nodes [] scopes cx).Writes [] := fun _ => Writes.nothing
  split
  · split
    · exact hnodes _
    · exact Writes.nothing
  · split
    · exact Writes.nothing
    · exact Writes.each_nothing (fun _ => hnodes _) _

/-- A section writes the rounds that it was read as. -/
theorem writes_rounds (hhandler : o.handler = .standard) (s : Section Code)
    (hpositive : s.negated = false) (hleafy : Leafy final)
    {turn : List Char → Progress → Prop} {text rest : List Char}
    {items : List (List (String × Recovered))} (hrounds : Code.Rounds turn text items rest)
    (hitem : ∀ s p, turn s p → Shows p.names (Recovered.toItem p.names))
    (hbody : ∀ t p w', turn t p → Shows p.names w' →
      ∃ u, t = u ++ p.rest ∧ (r.nodes s.body (scopes.push w') cx).Writes u)
    (hbind : Code.bindRounds s.name names items = some names') (hkeeps : Keeps names' final)
    (hborne : Code.isBorneOutRounds s.name final names items = true) :
    ∃ t, text = t ++ rest ∧ (r.sect o q s (valueOf s.name final) scopes cx).Writes t := by
  rw [sect_eq hhandler s (Recovered.datum_valueOf hleafy), hpositive, if_neg Bool.false_ne_true]
  obtain ⟨rfl, -⟩ | ⟨rfl, hbind⟩ | ⟨hnil, hsingle, hbind⟩ := Code.bindRounds_eq hbind
  · cases hrounds
    have hfalsey : (valueOf s.name final).isFalsey = true := by
      simpa [Code.isBorneOutRounds, Code.holds] using hborne
    rw [if_pos hfalsey]
    exact ⟨[], rfl, Writes.nothing⟩
  · obtain ⟨p, hturn, hnames, rfl⟩ := hrounds.single
    obtain ⟨t, rfl, hwrites⟩ := hbody _ p (.bool true) hturn (hnames ▸ Recovered.shows_truth)
    rw [Recovered.valueOf_eq (hkeeps _ _ (Recovered.at?_bind_truth hbind)),
      if_neg (by simp [Value.isFalsey])]
    refine ⟨t, rfl, ?_⟩
    have hdone := hwrites.bind Writes.nothing
    rwa [List.append_nil] at hdone
  · have hnone : at? (path s.name) names = none := by
      rw [Code.isBorneOutRounds.eq_def] at hborne
      split at hborne
      · exact absurd rfl hnil
      · exact absurd rfl hsingle
      · exact Option.isNone_iff_eq_none.mp hborne
    rw [Recovered.valueOf_eq (hkeeps _ _ (Recovered.at?_bind_of_none hnone hbind)),
      if_neg (by simpa [Value.isFalsey] using hnil)]
    exact Writes.each_rounds (fun t p hp => hbody t p _ hp (hitem t p hp)) hrounds

end Sections

section Nodes

variable (l : Loader) (q : Oracle σ) (cx : Context)

mutual

/-- A node writes what it was matched with. -/
theorem writes_node (hhandler : o.handler = .standard) (hmiss : o.failOnMiss = false) :
    ∀ {n : Nat} {c : Code} {follow : Option Follow} {p p' : Progress} {level : Level}
      {final : List (String × Recovered)} {w : Value} {outer : List Value},
      Code.height c ≤ n → Code.isTidy level c = true → level.Scoped final w outer →
      Code.isBorneOut final follow c p = true → Code.invertNode follow c p = some p' →
      Keeps p'.names final →
        ∃ s, p.rest = s ++ p'.rest ∧ (nodeWithin o l q n c.bare ⟨w :: outer⟩ cx).Writes s
  | 0, c, _, _, _, _, _, _, _, hheight, _, _, _, _, _ => by
    have hpos := Code.height_pos c
    omega
  | n + 1, .text s, _, _, _, _, _, _, _, _, _, _, _, hmatch, _ =>
    ⟨s.toList, (Code.invertNode_text hmatch).1, .text s⟩
  | n + 1, .eof, _, _, _, _, _, _, _, _, _, _, _, hmatch, _ => by
    rw [(Code.invertNode_eof hmatch).1]
    exact ⟨[], rfl, .nothing⟩
  | n + 1, .block ⟨_, _, _, body⟩, _, _, _, _, _, _, _, hheight, htidy, hscoped, hborne, hmatch,
      hkeeps => by
    have hheight' : heightAll body ≤ n := by simpa [Code.height] using hheight
    simp only [Code.isTidy] at htidy
    simp only [Code.isBorneOut] at hborne
    simp only [Code.invertNode] at hmatch
    exact writes_nodes hhandler hmiss hheight' htidy hscoped hborne hmatch hkeeps
  | n + 1, .value v, _, p, p', level, final, w, outer, _, htidy, hscoped, hborne, hmatch,
      hkeeps => by
    obtain ⟨count, hdistance, hrest, hbind⟩ := Code.invertNode_value hmatch
    have hname : if level.isWhole then v.name = currentName else IsProper v.name := by
      simpa [Code.isTidy] using htidy
    have hresolve := hscoped.resolve_text hname (hkeeps _ _ (Recovered.at?_bind_text hbind))
    simp only [Code.isBorneOut] at hborne
    refine ⟨p.rest.take count, by rw [hrest, List.take_append_drop], ?_⟩
    change (Renderer.nodeWith o l q (within o l q n) (.value v.bare) ⟨w :: outer⟩ cx).Writes _
    rw [nodeWith_value hhandler hmiss, show v.bare.name = v.name from rfl, hresolve]
    exact writes_value hhandler v.bare (Code.escape_of_isBorneOutValue hdistance hborne)
  | n + 1, .sect ⟨origin, name, negated, close, source, body⟩, follow, p, p', level, final, w, outer,
      hheight, htidy, hscoped, hborne, hmatch, hkeeps => by
    have hheight' : heightAll body ≤ n := by simpa [Code.height] using hheight
    simp only [Code.isTidy, Bool.and_eq_true, decide_eq_true_eq, Bool.not_eq_true',
      List.contains_eq_mem, decide_eq_false_iff_not] at htidy
    obtain ⟨⟨⟨-, hname⟩, hfresh⟩, hbody⟩ := htidy
    let s : Section Code := ⟨origin.relabel .forget, name, negated, close, source, bareAll body⟩
    have hdatum : Datum (valueOf name final) := Recovered.datum_valueOf hscoped.leafy
    -- The section gets what its name holds in the end.
    suffices hsect : ∃ t, p.rest = t ++ p'.rest ∧
        ((within o l q n).sect o q s (valueOf name final) ⟨w :: outer⟩ cx).Writes t by
      obtain ⟨t, hrest, hwrites⟩ := hsect
      refine ⟨t, hrest, ?_⟩
      change (Renderer.nodeWith o l q (within o l q n) (.sect s) ⟨w :: outer⟩ cx).Writes t
      rw [nodeWith_sect hhandler hmiss, hscoped.resolve_sect hname hfresh]
      exact hwrites
    simp only [Code.isBorneOut] at hborne
    cases hempty : body.isEmpty with
    | true =>
      simp only [Code.invertNode, hempty, if_true] at hmatch
      cases hmatch
      obtain rfl : body = [] := by simpa using hempty
      exact ⟨[], rfl, writes_sect_empty hhandler s hdatum rfl⟩
    | false =>
      rw [hempty, if_neg Bool.false_ne_true] at hborne
      cases negated with
      | true =>
        rw [if_pos rfl] at hborne hbody
        rw [sect_eq hhandler s hdatum, if_pos rfl]
        obtain hinner | ⟨hinner, hrest, -⟩ := Code.invertNode_negated hempty hmatch
        · rw [hinner, Option.isSome_some, if_pos rfl, Bool.and_eq_true] at hborne
          rw [if_pos (by simpa [Code.holds] using hborne.1)]
          exact writes_nodes hhandler hmiss hheight' hbody hscoped hborne.2 hinner hkeeps
        · rw [hinner, Option.isSome_none, if_neg Bool.false_ne_true] at hborne
          rw [if_neg (by simpa [Code.holds] using hborne)]
          exact ⟨[], hrest.symm, .nothing⟩
      | false =>
        rw [if_neg Bool.false_ne_true] at hborne hbody
        rw [Bool.and_eq_true] at hborne
        obtain ⟨hbind, hrest⟩ := Code.invertNode_positive hempty hmatch
        rw [hrest]
        refine writes_rounds hhandler s rfl hscoped.leafy (Code.rounds_rounds hborne.2)
          (fun t p₁ hturn => Code.shows_turn hbody hturn.1) (fun t p₁ w' hturn hshows => ?_)
          hbind hkeeps hborne.1
        exact writes_nodes hhandler hmiss hheight' hbody
          (hscoped.push hshows (Code.leafy_turn hturn.1) fun _ => Code.mem_headsAll_turn hturn.1)
          hturn.2 hturn.1 fun _ _ hu => hu
  | n + 1, .inclusion _, _, _, _, _, _, _, _, _, _, _, _, hmatch, _
  | n + 1, .dynamic _, _, _, _, _, _, _, _, _, _, _, _, hmatch, _
  | n + 1, .extend _, _, _, _, _, _, _, _, _, _, _, _, hmatch, _ => by cases hmatch

theorem writes_nodes (hhandler : o.handler = .standard) (hmiss : o.failOnMiss = false) :
    ∀ {n : Nat} {cs : List Code} {follow : Follow} {p p' : Progress} {level : Level}
      {final : List (String × Recovered)} {w : Value} {outer : List Value},
      heightAll cs ≤ n → isTidyAll level cs = true → level.Scoped final w outer →
      isBorneOutAll final follow cs p = true → invertAll follow cs p = some p' →
      Keeps p'.names final →
        ∃ s, p.rest = s ++ p'.rest ∧
          ((within o l q n).nodes (bareAll cs) ⟨w :: outer⟩ cx).Writes s
  | _, [], _, _, _, _, _, _, _, _, _, _, _, hmatch, _ => by
    cases hmatch
    exact ⟨[], rfl, .nothing⟩
  | n, c :: cs, _, p, _, _, final, _, _, hheight, htidy, hscoped, hborne, hmatch, hkeeps => by
    rw [heightAll] at hheight
    have hc : Code.height c ≤ n := by omega
    have hcs : heightAll cs ≤ n := by omega
    simp only [isTidyAll, Bool.and_eq_true] at htidy
    simp only [isBorneOutAll, Bool.and_eq_true] at hborne
    obtain ⟨p₁, hnode, hmatch⟩ := Code.invertAll_cons hmatch
    rw [hnode] at hborne
    have hkeeps₁ : Keeps p₁.names final := fun path u hu =>
      hkeeps _ _ ((Code.invertAll_grows hmatch).keeps path u hu)
    obtain ⟨s, hs, hwrites⟩ :=
      writes_node hhandler hmiss hc htidy.1 hscoped hborne.1 hnode hkeeps₁
    obtain ⟨t, ht, hwrites'⟩ :=
      writes_nodes hhandler hmiss hcs htidy.2 hscoped hborne.2 hmatch hkeeps
    exact ⟨s ++ t, by rw [hs, ht, List.append_assoc], hwrites.bind hwrites'⟩

end

end Nodes

/-- What is seen of a render that writes a text to a buffer. -/
theorem Writes.renderWithin {n : Nat} {codes : List Code} {scopes : Scopes} {text : String}
    (h : ((within o l .counting n).nodes codes scopes .start).Writes text.toList) :
    Plain.renderWithin n o l codes scopes (.buffer "") =
      ⟨.ok (.direct 0), .ok (), .buffer text⟩ := by
  obtain ⟨texts, hwrote, htext⟩ := h []
  have hjoin : "" ++ String.join texts = text := by
    rw [String.empty_append, ← String.toList_inj, htext]
  simp only [Plain.renderWithin, hwrote, report, Output.feed_buffer, hjoin]
  rfl

end Plain

/-! ## Whole renders -/

namespace Template

/-- The report of a render to a buffer that is seen to write a text. -/
theorem Report.of_seen {r : Report} {text : String}
    (hseen : r.seen = ⟨.ok (.direct 0), .ok (), .buffer text⟩)
    (houtput : r.final.streams.outputs[0]? = some r.seen.destination) :
    r.result = .ok () ∧ r.final.streams.textOf 0 = text := by
  refine ⟨congrArg Plain.Report.result hseen, ?_⟩
  rw [Streams.textOf, houtput, hseen]

/-- Whether the tags of a template can be told apart by the data that are recovered. -/
def isTidy (t : Template) : Bool :=
  let l : Code.Level := ⟨Code.headsAll t.codes, []⟩
  !l.isWhole && Code.isTidyAll l t.codes

/-- The data that are recovered from a text render as the text, for a template whose tags can be
    told apart by them, if they bear out how the text was read. -/
theorem renderWithin_invert {o : Options} {l : Loader} {store : Store}
    (hschedule : o.schedule = none) (hhandler : o.handler = .standard)
    (hmiss : o.failOnMiss = false) (hstore : store.Faithful o l) {t : Template} {src : Source}
    {d : Delimiters} {source text : String} {v : Value} {n : Nat}
    (hparse : Code.parse src d source = .ok t.codes) (htidy : t.isTidy = true)
    (hheight : Code.heightAll t.codes ≤ n) (hinvert : t.invert text = some v)
    (hborne : Code.isBorneOutBy t.codes text = true) :
    let r := renderWithin n o t (.ofList [v]) (.buffer "") store
    r.result = .ok () ∧ r.final.streams.textOf 0 = text := by
  intro r
  have hreuse : ∀ name, Lookup.Reusable (o.handler.find name) := fun name => by
    rw [hhandler]
    exact Lookup.reusable_find name
  obtain ⟨q, hmatch, rfl⟩ := Option.map_eq_some_iff.mp hinvert
  simp only [isTidy, Bool.and_eq_true, Bool.not_eq_true'] at htidy
  rw [Code.isBorneOutBy, hmatch] at hborne
  have hgrows := Code.invertAll_grows hmatch
  have hkeys : ∀ k, Table.get? k q.names ≠ none → k ∈ Code.headsAll t.codes :=
    fun k => hgrows.mem_heads
  have hcurrent : Table.get? currentName q.names = none :=
    Recovered.get?_eq_none hkeys (by simpa [Code.Level.isWhole] using htidy.1)
  have hscoped : Code.Level.Scoped ⟨Code.headsAll t.codes, []⟩ q.names
      (.map (Recovered.toEntries (Table.erase currentName q.names))) [] :=
    ⟨Recovered.shows_map hcurrent, hgrows.leafy Recovered.leafy_nil, hkeys, by simp⟩
  obtain ⟨s, hs, hwrites⟩ := Plain.writes_nodes l .counting .start hhandler hmiss hheight htidy.2
    hscoped hborne hmatch fun _ _ hu => hu
  have hrest : q.rest = [] := Code.rest_of_invertAll (Code.getLast?_of_parse hparse) hmatch
  rw [hrest, List.append_nil] at hs
  subst hs
  obtain ⟨hseen, houtput, -⟩ := renderWithin_eq hschedule hreuse hstore n t
    (.ofList [.map (Recovered.toEntries (Table.erase currentName q.names))]) (.buffer "")
  exact Report.of_seen (hseen.trans hwrites.renderWithin) houtput

/-- A list of items, and a word if there are none. -/
theorem renderWithin_invert_page :
    let source := "<ul>\x7b\x7b#items\x7d\x7d<li>\x7b\x7bname\x7d\x7d: \x7b\x7bprice\x7d\x7d</li>\x7b\x7b/items\x7d\x7d</ul>" ++
      "\x7b\x7b^items\x7d\x7dnone\x7b\x7b/items\x7d\x7d"
    let text := "<ul><li>Tea &amp; milk: 3</li><li>Cake: 4</li></ul>"
    let t : Template :=
      ⟨"page", source, (Code.parse ⟨"page", 0, []⟩ .standard source).toOption.getD []⟩
    t.isTidy = true ∧ Code.isBorneOutBy t.codes text = true ∧ ∃ v, t.invert text = some v ∧
      let r := renderWithin 5 .standard t (.ofList [v]) (.buffer "") (.new (.memory []))
      r.result = .ok () ∧ r.final.streams.textOf 0 = text := by
  intro source text t
  obtain ⟨hparses, htidy, hborne, hheight, hfits⟩ :
      (Code.parse ⟨"page", 0, []⟩ .standard source).toOption.isSome = true ∧ t.isTidy = true ∧
        Code.isBorneOutBy t.codes text = true ∧ Code.heightAll t.codes ≤ 5 ∧
          (t.invert text).isSome = true := by
    decide +kernel
  obtain ⟨v, hinvert⟩ := Option.isSome_iff_exists.mp hfits
  exact ⟨htidy, hborne, v, hinvert, renderWithin_invert rfl rfl rfl
    (Store.faithful_new .standard (.memory [])) (Code.eq_ok_of_isSome hparses []) htidy hheight
    hinvert hborne⟩

/-- A reference that a value is written with is read as the character it stands for, and written
    as that. -/
theorem renderWithin_invert_reference :
    let source := "\x7b\x7ba\x7d\x7d"
    let text := "&#65;"
    let t : Template :=
      ⟨"page", source, (Code.parse ⟨"page", 0, []⟩ .standard source).toOption.getD []⟩
    let rendered (data : Value) : Report :=
      renderWithin 5 .standard t (.ofList [data]) (.buffer "") (.new (.memory []))
    let r := rendered (.map [("a", .text text)])
    r.result = .ok () ∧ r.final.streams.textOf 0 = text ∧
      ∃ v, t.invert text = some v ∧ (rendered v).final.streams.textOf 0 = "A" := by
  intro source text t rendered r
  have hfits : (t.invert text).map (fun v => (rendered v).final.streams.textOf 0) = some "A" := by
    decide +kernel
  obtain ⟨v, hinvert, hagain⟩ := Option.map_eq_some_iff.mp hfits
  exact ⟨Code.eq_ok_of_isSome (by decide +kernel) (), by decide +kernel, v, hinvert, hagain⟩

end Template

end Mustache
