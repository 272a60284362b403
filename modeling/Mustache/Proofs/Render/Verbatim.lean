import Mustache.Proofs.Render.Immediate

/-! # Templates without escaped values and sections

A template of literals, blocks and values that are not escaped takes every value out of a text as it
stands there.  Names may come again, or nest under the same first part, and yet every name ends up
with the very text that each of its tags was matched with, or the text does not fit.  So what is
recovered renders as the text again, whatever the options are.

* `Code.immediate_invert` — nothing that is recovered from a text is deferred.
* `Code.isVerbatimAll` — trees of literals, blocks and values that are not escaped.
* `Plain.writes_verbatim` — a verbatim node writes what it was matched with.
* `Template.renderWithin_verbatim` — whole renders.
-/

namespace Mustache

open Recovered (Keeps Leafy currentName head path at? IsProper)

/-! ## What is recovered is there at once -/

namespace Recovered

/-- Nothing that has been recovered is deferred. -/
def Immediate (names : List (String × Recovered)) : Prop :=
  ∀ e ∈ names, e.2.toValue.Immediate

variable {names names' : List (String × Recovered)} {name : String} {v : Value} {r : Recovered}

theorem Immediate.map (h : Immediate names) : (Value.map (toEntries names)).Immediate := by
  rw [toEntries_eq_map]
  refine .map fun entry hentry => ?_
  obtain ⟨e, he, rfl⟩ := List.mem_map.mp hentry
  exact h e he

theorem Immediate.of_map (h : (Value.map (toEntries names)).Immediate) : Immediate names := by
  rw [toEntries_eq_map] at h
  cases h with
  | map h => exact fun e he => h _ (List.mem_map_of_mem he)

theorem Immediate.insert (h : Immediate names) (hr : r.toValue.Immediate) :
    Immediate (Table.insert name r names) := by
  induction names with
  | nil =>
    intro e he
    obtain rfl := List.mem_singleton.mp he
    exact hr
  | cons first names ih =>
    obtain ⟨k, old⟩ := first
    have hrest : Immediate names := fun e he => h e (List.mem_cons_of_mem _ he)
    rw [Table.insert]
    split
    · intro e he
      obtain rfl | he := List.mem_cons.mp he
      · exact hr
      · exact hrest e he
    · intro e he
      obtain rfl | he := List.mem_cons.mp he
      · exact h _ List.mem_cons_self
      · exact ih hrest e he

theorem Immediate.erase (h : Immediate names) : Immediate (Table.erase name names) :=
  fun e he => h e (List.mem_filter.mp he).1

theorem Immediate.get? (h : Immediate names) (hget : Table.get? name names = some r) :
    r.toValue.Immediate := by
  induction names with
  | nil => cases hget
  | cons e names ih =>
    obtain ⟨k, old⟩ := e
    rw [Table.get?] at hget
    split at hget
    · cases hget
      exact h _ List.mem_cons_self
    · exact ih (fun e he => h e (List.mem_cons_of_mem _ he)) hget

theorem immediate_inner (h : Immediate names) : Immediate (inner (Table.get? name names)) := by
  cases hget : Table.get? name names with
  | none => exact nofun
  | some r =>
    cases r with
    | value v => exact nofun
    | nested inside => exact .of_map (h.get? hget)

theorem Immediate.bindAt (hv : v.Immediate) : ∀ {path : List String} {name : String}
    {names names' : List (String × Recovered)}, Immediate names →
    bindAt v (name :: path) names = some names' → Immediate names'
  | [], _, _, _, h, hbind => by
    obtain ⟨-, rfl⟩ | ⟨_, _, _, rfl⟩ := bindAt_single hbind
    · exact h.insert hv
    · exact h
  | _ :: _, _, _, _, h, hbind => by
    obtain ⟨inside, hinside, rfl, -⟩ := bindAt_cons hbind
    exact h.insert (Immediate.bindAt hv (immediate_inner h) hinside).map

theorem Immediate.bind (hv : v.Immediate) (h : Immediate names)
    (hbind : bind name v names = some names') : Immediate names' := by
  obtain ⟨more, hpath⟩ := exists_path_eq name
  rw [Recovered.bind, hpath] at hbind
  exact h.bindAt hv hbind

theorem Immediate.toItem (h : Immediate names) : (toItem names).Immediate := by
  cases hget : Table.get? currentName names with
  | none =>
    simp only [Recovered.toItem, hget]
    exact h.erase.map
  | some r =>
    cases r with
    | value v =>
      simp only [Recovered.toItem, hget]
      exact h.get? hget
    | nested inside =>
      simp only [Recovered.toItem, hget]
      exact h.erase.map

end Recovered

namespace Code

open Recovered (Immediate)

variable {follow : Option Follow} {p q : Progress}

theorem immediate_rounds {turn : List Char → Option Progress}
    (hturn : ∀ s p, turn s = some p → Immediate p.names) :
    ∀ {fuel : Nat} {s : List Char}, ∀ item ∈ (rounds turn fuel s).1, Immediate item
  | 0, _, _, hitem => by cases hitem
  | fuel + 1, s, item, hitem => by
    rw [rounds] at hitem
    cases hp : turn s with
    | none => simp [hp] at hitem
    | some p =>
      simp only [hp] at hitem
      split at hitem
      · obtain rfl | hitem := List.mem_cons.mp hitem
        · exact hturn s p hp
        · exact immediate_rounds hturn item hitem
      · cases hitem

mutual

theorem immediate_node : ∀ {follow : Option Follow} {c : Code} {p q : Progress},
    invertNode follow c p = some q → Immediate p.names → Immediate q.names
  | _, .text _, _, _, h, hp => (invertNode_text h).2 ▸ hp
  | _, .eof, _, _, h, hp => (invertNode_eof h).1 ▸ hp
  | _, .value _, _, _, h, hp => by
    obtain ⟨_, -, -, hbind⟩ := invertNode_value h
    exact hp.bind (.text _) hbind
  | _, .block ⟨_, _, _, _⟩, _, _, h, hp => immediate_nodes h hp
  | follow, .sect ⟨_, name, negated, _, _, body⟩, p, q, h, hp => by
    cases hbody : body.isEmpty with
    | true =>
      simp only [invertNode, hbody, if_true] at h
      cases h
      exact hp
    | false =>
      cases negated with
      | true =>
        obtain hmatch | ⟨-, -, hnames | hbind⟩ := invertNode_negated hbody h
        · exact immediate_nodes hmatch hp
        · exact hnames ▸ hp
        · exact hp.bind (.bool _) hbind
      | false =>
        obtain ⟨hbind, -⟩ := invertNode_positive hbody h
        have hitems : ∀ item ∈ (rounds (turn follow body) p.rest.length p.rest).1, Immediate item :=
          immediate_rounds fun s p hturn => immediate_nodes hturn fun e he => by cases he
        obtain ⟨-, hnames⟩ | ⟨-, hbind⟩ | ⟨-, -, hbind⟩ := bindRounds_eq hbind
        · exact hnames ▸ hp
        · exact hp.bind (.bool _) hbind
        · refine hp.bind (.list fun v hv => ?_) hbind
          obtain ⟨item, hitem, rfl⟩ := List.mem_map.mp hv
          exact (hitems item hitem).toItem
  | _, .inclusion _, _, _, h, _ | _, .dynamic _, _, _, h, _ | _, .extend _, _, _, h, _ => by cases h

theorem immediate_nodes : ∀ {outer : Follow} {cs : List Code} {p q : Progress},
    invertAll outer cs p = some q → Immediate p.names → Immediate q.names
  | _, [], _, _, h, hp => by
    cases h
    exact hp
  | _, _ :: _, _, _, h, hp => by
    obtain ⟨p', hnode, hrest⟩ := invertAll_cons h
    exact immediate_nodes hrest (immediate_node hnode hp)

end

/-- Nothing that is recovered from a text is deferred. -/
theorem immediate_invert {codes : List Code} {text : String} {v : Value}
    (h : invert codes text = some v) : v.Immediate := by
  obtain ⟨q, hmatch, rfl⟩ := Option.map_eq_some_iff.mp h
  exact (immediate_nodes hmatch nofun).erase.map

/-! ## Verbatim trees -/

mutual

/-- Whether a node is made of literals, blocks and values that are not escaped, with something
    between the dots of their names. -/
def isVerbatim : Code → Bool
  | .text _ => true
  | .eof => true
  | .value v => v.style ≠ .escaped && IsProper v.name
  | .block ⟨_, _, _, body⟩ => isVerbatimAll body
  | .sect _ | .inclusion _ | .dynamic _ | .extend _ => false

def isVerbatimAll : List Code → Bool
  | [] => true
  | c :: cs => isVerbatim c && isVerbatimAll cs

end

mutual

/-- In a verbatim node, no name stands for the whole scope. -/
theorem ne_of_mem_heads : ∀ {c : Code}, isVerbatim c = true → ∀ k ∈ heads c, k ≠ currentName
  | .value v, h, k, hk => by
    simp only [isVerbatim, Bool.and_eq_true, decide_eq_true_eq] at h
    obtain rfl : k = head v.name := by simpa [heads] using hk
    obtain ⟨more, hpath⟩ := Recovered.exists_path_eq v.name
    exact (Recovered.ne_of_mem_path h.2 (hpath ▸ List.mem_cons_self)).2
  | .block ⟨_, _, _, body⟩, h, k, hk => by
    simp only [isVerbatim] at h
    simp only [heads] at hk
    exact ne_of_mem_headsAll h k hk
  | .text _, _, _, hk | .eof, _, _, hk => by simp [heads] at hk
  | .sect _, h, _, _ | .inclusion _, h, _, _ | .dynamic _, h, _, _ | .extend _, h, _, _ => by
    simp [isVerbatim] at h

theorem ne_of_mem_headsAll : ∀ {cs : List Code}, isVerbatimAll cs = true →
    ∀ k ∈ headsAll cs, k ≠ currentName
  | [], _, _, hk => by simp [headsAll] at hk
  | c :: cs, h, k, hk => by
    simp only [isVerbatimAll, Bool.and_eq_true] at h
    rw [headsAll, List.mem_append] at hk
    exact hk.elim (ne_of_mem_heads h.1 k) (ne_of_mem_headsAll h.2 k)

end

end Code

/-! ## Rendering -/

namespace Plain

open Code (Progress heightAll isVerbatim isVerbatimAll bareAll)

variable {σ : Type} {o : Options} {final : List (String × Recovered)} {scopes : Scopes}
  (l : Loader) (q : Oracle σ) (cx : Context)

/-- Scopes under which the texts that have been recovered can be looked up. -/
def Finds (final : List (String × Recovered)) (scopes : Scopes) : Prop :=
  ∀ name s, IsProper name → at? (path name) final = some (.value (.text s)) →
    Lookup.resolve name scopes = .text s

mutual

/-- A verbatim node writes what it was matched with, where all that was recovered can be looked
    up. -/
theorem writes_verbatim (hhandler : o.handler = .standard) (hfinds : Finds final scopes) :
    ∀ {n : Nat} {c : Code} {follow : Option Follow} {p p' : Progress},
    Code.height c ≤ n → isVerbatim c = true → Code.invertNode follow c p = some p' →
    Keeps p'.names final →
      ∃ s, p.rest = s ++ p'.rest ∧ (nodeWithin o l q n c.bare scopes cx).Writes s
  | 0, c, _, _, _, hheight, _, _, _ => by
    have hpos := Code.height_pos c
    omega
  | n + 1, .text s, _, _, _, _, _, hmatch, _ =>
    ⟨s.toList, (Code.invertNode_text hmatch).1, .text s⟩
  | n + 1, .eof, _, _, _, _, _, hmatch, _ => by
    rw [(Code.invertNode_eof hmatch).1]
    exact ⟨[], rfl, .nothing⟩
  | n + 1, .value v, _, p, p', _, hverbatim, hmatch, hkeeps => by
    simp only [isVerbatim, Bool.and_eq_true, decide_eq_true_eq] at hverbatim
    obtain ⟨hstyle, hname⟩ := hverbatim
    obtain ⟨count, -, hrest, hbind⟩ := Code.invertNode_value hmatch
    -- The name may have been there before: then it had the text that this tag is matched with.
    rw [if_neg hstyle] at hbind
    have hfound := hfinds v.name _ hname (hkeeps _ _ (Recovered.at?_bind_text hbind))
    have hwrites : (Renderer.nodeWith o l q (within o l q n) (.value v.bare) scopes cx).Writes _ :=
      writes_found hhandler v.bare hfound
    rw [if_neg (show v.bare.style ≠ .escaped from hstyle)] at hwrites
    exact ⟨p.rest.take count, by rw [hrest, List.take_append_drop], hwrites⟩
  | n + 1, .block ⟨_, _, _, body⟩, _, _, _, hheight, hverbatim, hmatch, hkeeps => by
    have hheight' : heightAll body ≤ n := by simpa [Code.height] using hheight
    simp only [isVerbatim] at hverbatim
    simp only [Code.invertNode] at hmatch
    exact writes_verbatimAll hhandler hfinds hheight' hverbatim hmatch hkeeps
  | n + 1, .sect _, _, _, _, _, h, _, _ | n + 1, .inclusion _, _, _, _, _, h, _, _
  | n + 1, .dynamic _, _, _, _, _, h, _, _ | n + 1, .extend _, _, _, _, _, h, _, _ => by
    simp [isVerbatim] at h

theorem writes_verbatimAll (hhandler : o.handler = .standard) (hfinds : Finds final scopes) :
    ∀ {n : Nat} {cs : List Code} {outer : Follow} {p p' : Progress},
    heightAll cs ≤ n → isVerbatimAll cs = true → Code.invertAll outer cs p = some p' →
    Keeps p'.names final →
      ∃ s, p.rest = s ++ p'.rest ∧ ((within o l q n).nodes (bareAll cs) scopes cx).Writes s
  | _, [], _, _, _, _, _, hmatch, _ => by
    cases hmatch
    exact ⟨[], rfl, .nothing⟩
  | n, c :: cs, _, p, _, hheight, hverbatim, hmatch, hkeeps => by
    rw [heightAll] at hheight
    have hc : Code.height c ≤ n := by omega
    have hcs : heightAll cs ≤ n := by omega
    simp only [isVerbatimAll, Bool.and_eq_true] at hverbatim
    obtain ⟨p₁, hnode, hmatch⟩ := Code.invertAll_cons hmatch
    have hkeeps₁ : Keeps p₁.names final := fun path u hu =>
      hkeeps _ _ ((Code.invertAll_grows hmatch).keeps path u hu)
    obtain ⟨s, hs, hwrites⟩ := writes_verbatim hhandler hfinds hc hverbatim.1 hnode hkeeps₁
    obtain ⟨t, ht, hwrites'⟩ := writes_verbatimAll hhandler hfinds hcs hverbatim.2 hmatch hkeeps
    exact ⟨s ++ t, by rw [hs, ht, List.append_assoc], hwrites.bind hwrites'⟩

end

end Plain

/-! ## Whole renders -/

namespace Template

/-- **Verbatim templates render what is recovered.**  A template of literals, blocks at any depth
    and values that are not escaped renders the data that are recovered from a text as just that
    text, with any options. -/
theorem renderWithin_verbatim {o : Options} {l : Loader} {store : Store}
    (hhandler : o.handler = .standard) (hstore : store.Faithful o l) {t : Template} {src : Source}
    {d : Delimiters} {source text : String} {v : Value} {n : Nat}
    (hparse : Code.parse src d source = .ok t.codes)
    (hverbatim : Code.isVerbatimAll t.codes = true) (hinvert : t.invert text = some v)
    (hheight : Code.heightAll t.codes ≤ n) :
    let r := renderWithin n o t (.ofList [v]) (.buffer "") store
    r.result = .ok () ∧ r.final.streams.textOf 0 = text := by
  intro r
  have hv : v.Immediate := Code.immediate_invert hinvert
  obtain ⟨q, hmatch, rfl⟩ := Option.map_eq_some_iff.mp hinvert
  have hgrows := Code.invertAll_grows hmatch
  have hcurrent : Table.get? currentName q.names = none :=
    Recovered.get?_eq_none (fun k => hgrows.mem_heads)
      fun hmem => Code.ne_of_mem_headsAll hverbatim _ hmem rfl
  have hshows := Recovered.shows_map hcurrent
  have hleafy : Leafy q.names := hgrows.leafy Recovered.leafy_nil
  have hfinds : Plain.Finds q.names (.ofList [_]) := fun name s hname hat =>
    (Recovered.resolve_eq hname hshows hleafy fun _ _ hu => by cases hu).trans
      (Recovered.valueOf_eq hat)
  obtain ⟨s, hs, hwrites⟩ := Plain.writes_verbatimAll l .counting .start hhandler hfinds hheight
    hverbatim hmatch fun _ _ hu => hu
  have hrest : q.rest = [] := Code.rest_of_invertAll (Code.getLast?_of_parse hparse) hmatch
  rw [hrest, List.append_nil] at hs
  subst hs
  exact renderWithin_of_writes hhandler hstore (fun u hu => List.mem_singleton.mp hu ▸ hv) hwrites

/-- Names that share their first part, and one that comes again, under strict options and with a
    schedule. -/
theorem renderWithin_verbatim_page :
    let source := "\x7b\x7b$b\x7d\x7d\x7b\x7b&user.name\x7d\x7d <\x7b\x7b&user.email\x7d\x7d>" ++
      "\x7b\x7b/b\x7d\x7d, \x7b\x7b\x7buser.name\x7d\x7d\x7d"
    let text := "Ada <ada@x>, Ada"
    let o : Options :=
      { Options.standard with strict := true, failOnMiss := true, schedule := some .oldestFirst }
    let t : Template :=
      ⟨"page", source, (Code.parse ⟨"page", 0, []⟩ .standard source).toOption.getD []⟩
    Code.isVerbatimAll t.codes = true ∧ ∃ v, t.invert text = some v ∧
      let r := renderWithin 5 o t (.ofList [v]) (.buffer "") (.new (.memory []))
      r.result = .ok () ∧ r.final.streams.textOf 0 = text := by
  intro source text o t
  obtain ⟨hparses, hverbatim, hheight, hfits⟩ :
      (Code.parse ⟨"page", 0, []⟩ .standard source).toOption.isSome = true ∧
        Code.isVerbatimAll t.codes = true ∧ Code.heightAll t.codes ≤ 5 ∧
          (t.invert text).isSome = true := by
    decide +kernel
  obtain ⟨v, hinvert⟩ := Option.isSome_iff_exists.mp hfits
  exact ⟨hverbatim, v, hinvert, renderWithin_verbatim rfl (Store.faithful_new o (.memory []))
    (Code.eq_ok_of_isSome hparses []) hverbatim hinvert hheight⟩

end Template

end Mustache
