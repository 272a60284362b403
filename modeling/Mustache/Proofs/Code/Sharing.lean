import Mustache.Proofs.Code.Layering

/-! # What substitution copies

A substituted tree shares with the tree it was made of whatever substitution leaves alone.  A list
is copied at its first node that changes, the nodes before it are put in as they were, and a list
without a change is not copied at all.  What changes are the extensions and the blocks to replace
that substitution comes to, and the same nodes decide which replacements find a use.

* `Code.Exposed` — the nodes of a tree that substitution comes to.
* `Code.copyOnChange` — one pass over a list that begins a copy at the first change.
* `Code.changed_substitute_iff` — when there is no change.
* `Code.mem_used_substitute_iff` — which replacements find a use.
* `Code.copyOnChange_none`, `Code.copyOnChange_some` — substitution is such a pass.
* `Code.substitute_agrees` — substitution against the plain recursion.
-/

namespace Mustache.Code

/-! ## The nodes that substitution comes to -/

/-- A node of a tree outside the blocks that `outer` replaces, and outside the extensions. -/
inductive Exposed (outer : List (Block Code)) (c : Code) : List Code → Prop
  | here {cs : List Code} (h : c ∈ cs) : Exposed outer c cs
  | sect {cs : List Code} {s : Section Code} (hs : .sect s ∈ cs) (h : Exposed outer c s.body) :
      Exposed outer c cs
  | block {cs : List Code} {b : Block Code} (hb : .block b ∈ cs)
      (hstays : b.name ∉ outer.map Block.name) (h : Exposed outer c b.body) : Exposed outer c cs

/-- Whether substitution comes to a node of a kind. -/
def Meets (outer : List (Block Code)) (P : Code → Prop) (cs : List Code) : Prop :=
  ∃ c, Exposed outer c cs ∧ P c

section Meets

variable {outer : List (Block Code)} {P : Code → Prop}

theorem Exposed.mono {c : Code} {cs ds : List Code} (h : Exposed outer c cs) (hsub : cs ⊆ ds) :
    Exposed outer c ds := by
  cases h with
  | here h => exact .here (hsub h)
  | sect hs h => exact .sect (hsub hs) h
  | block hb hstays h => exact .block (hsub hb) hstays h

theorem not_meets_nil : ¬ Meets outer P [] := by
  rintro ⟨c, hc, -⟩
  cases hc with
  | here h => cases h
  | sect hs _ => cases hs
  | block hb _ _ => cases hb

theorem meets_cons {c : Code} {cs : List Code} :
    Meets outer P (c :: cs) ↔ Meets outer P [c] ∨ Meets outer P cs := by
  constructor
  · rintro ⟨d, hd, hP⟩
    cases hd with
    | here h =>
      obtain rfl | h := List.mem_cons.mp h
      · exact .inl ⟨d, .here (List.mem_singleton_self _), hP⟩
      · exact .inr ⟨d, .here h, hP⟩
    | sect hs h =>
      obtain heq | hs := List.mem_cons.mp hs
      · exact .inl ⟨d, .sect (List.mem_singleton.mpr heq) h, hP⟩
      · exact .inr ⟨d, .sect hs h, hP⟩
    | block hb hstays h =>
      obtain heq | hb := List.mem_cons.mp hb
      · exact .inl ⟨d, .block (List.mem_singleton.mpr heq) hstays h, hP⟩
      · exact .inr ⟨d, .block hb hstays h, hP⟩
  · rintro (⟨d, hd, hP⟩ | ⟨d, hd, hP⟩)
    · exact ⟨d, hd.mono (by simp), hP⟩
    · exact ⟨d, hd.mono (List.subset_cons_self _ _), hP⟩

theorem meets_sect {s : Section Code} :
    Meets outer P [.sect s] ↔ P (.sect s) ∨ Meets outer P s.body := by
  constructor
  · rintro ⟨d, hd, hP⟩
    cases hd with
    | here h =>
      obtain rfl := List.mem_singleton.mp h
      exact .inl hP
    | sect hs h =>
      cases List.mem_singleton.mp hs
      exact .inr ⟨d, h, hP⟩
    | block hb _ _ => cases List.mem_singleton.mp hb
  · rintro (hP | ⟨d, hd, hP⟩)
    · exact ⟨_, .here (List.mem_singleton_self _), hP⟩
    · exact ⟨d, .sect (List.mem_singleton_self _) hd, hP⟩

/-- Substitution goes on into a block that stays, and not into one that is replaced. -/
theorem meets_block {b : Block Code} :
    Meets outer P [.block b] ↔
      P (.block b) ∨ b.name ∉ outer.map Block.name ∧ Meets outer P b.body := by
  constructor
  · rintro ⟨d, hd, hP⟩
    cases hd with
    | here h =>
      obtain rfl := List.mem_singleton.mp h
      exact .inl hP
    | sect hs _ => cases List.mem_singleton.mp hs
    | block hb hstays h =>
      cases List.mem_singleton.mp hb
      exact .inr ⟨hstays, d, h, hP⟩
  · rintro (hP | ⟨hstays, d, hd, hP⟩)
    · exact ⟨_, .here (List.mem_singleton_self _), hP⟩
    · exact ⟨d, .block (List.mem_singleton_self _) hstays hd, hP⟩

/-- There is nothing to go on into in any other node. -/
theorem meets_single {c : Code} (hsect : ∀ s, c ≠ .sect s) (hblock : ∀ b, c ≠ .block b) :
    Meets outer P [c] ↔ P c := by
  constructor
  · rintro ⟨d, hd, hP⟩
    cases hd with
    | here h =>
      obtain rfl := List.mem_singleton.mp h
      exact hP
    | sect hs _ => exact absurd (List.mem_singleton.mp hs).symm (hsect _)
    | block hb _ _ => exact absurd (List.mem_singleton.mp hb).symm (hblock _)
  · exact fun hP => ⟨c, .here (List.mem_singleton_self _), hP⟩

end Meets

/-- A name that has a replacement is the name of one. -/
theorem mem_names_of_find? {outer : List (Block Code)} {name : String} {b : Block Code}
    (h : Block.find? name outer = some b) : name ∈ outer.map Block.name := by
  have hname : b.name = name := by simpa using List.find?_some h
  exact List.mem_map.mpr ⟨b, List.mem_of_find?_eq_some h, hname⟩

theorem not_mem_names_of_find? {outer : List (Block Code)} {name : String}
    (h : Block.find? name outer = none) : name ∉ outer.map Block.name := by
  simpa [Block.find?] using h

/-! ## What changes -/

/-- A node that substitution changes by itself: an extension, or a block with a replacement. -/
def IsChanged (outer : List (Block Code)) (c : Code) : Prop :=
  (∃ e, c = .extend e) ∨ ∃ b, c = .block b ∧ b.name ∈ outer.map Block.name

theorem isChanged_block {outer : List (Block Code)} {b : Block Code} :
    IsChanged outer (.block b) ↔ b.name ∈ outer.map Block.name := by
  simp [IsChanged]

mutual

theorem changed_substituteNode_iff (owner : Site) (outer : List (Block Code)) :
    ∀ c : Code, (substituteNode owner outer c).changed = none ↔
      ¬ Meets outer (IsChanged outer) [c]
  | .block ⟨origin, name, close, body⟩ => by
    have ih := changed_substitute_iff owner outer body
    rw [substituteNode, meets_block, isChanged_block]
    cases hfind : Block.find? name outer with
    | some b =>
      -- The block is itself such a node, whatever its own body holds.
      have hname := mem_names_of_find? hfind
      simp only [hname, reduceCtorEq, true_or, not_true]
    | none =>
      have hname := not_mem_names_of_find? hfind
      simp only [hname, Option.map_eq_none_iff, ih, false_or, not_false_eq_true, true_and]
  | .sect ⟨origin, name, negated, close, raw, body⟩ => by
    have ih := changed_substitute_iff owner outer body
    rw [substituteNode, meets_sect]
    simpa [IsChanged] using ih
  | .extend ⟨origin, name, close, body, replacements⟩ => by
    rw [substituteNode, meets_single (by simp) (by simp)]
    simp [IsChanged]
  | .text _ | .value _ | .inclusion _ | .dynamic _ | .eof => by
    rw [substituteNode, meets_single (by simp) (by simp)]
    simp [IsChanged]

/-- There is no change if and only if substitution comes to no node that it changes by itself. -/
theorem changed_substitute_iff (owner : Site) (outer : List (Block Code)) :
    ∀ cs : List Code, (substitute owner outer cs).changed = none ↔
      ¬ Meets outer (IsChanged outer) cs
  | [] => by simp [substitute, not_meets_nil]
  | c :: cs => by
    -- A list changes if its first node does or the rest of it does.
    have hnode := changed_substituteNode_iff owner outer c
    have hnodes := changed_substitute_iff owner outer cs
    rw [meets_cons, not_or, ← hnode, ← hnodes, substitute]
    cases (substituteNode owner outer c).changed <;>
      cases (substitute owner outer cs).changed <;> simp

end

/-! ## What finds a use -/

/-- A node for which a replacement of a name is put to use: a block of the name, or an
    extension. -/
def IsUse (name : String) (c : Code) : Prop :=
  (∃ e, c = .extend e) ∨ ∃ b, c = .block b ∧ b.name = name

theorem isUse_block {name : String} {b : Block Code} : IsUse name (.block b) ↔ b.name = name := by
  simp [IsUse]

mutual

theorem mem_used_substituteNode_iff (owner : Site) (outer : List (Block Code)) (name : String) :
    ∀ c : Code, name ∈ (substituteNode owner outer c).used ↔
      name ∈ outer.map Block.name ∧ Meets outer (IsUse name) [c]
  | .block ⟨origin, blockName, close, body⟩ => by
    have ih := mem_used_substitute_iff owner outer name body
    rw [substituteNode, meets_block, isUse_block]
    cases hfind : Block.find? blockName outer with
    | some b =>
      have hname := mem_names_of_find? hfind
      simp only [hname, List.mem_singleton, not_true, false_and, or_false]
      exact ⟨fun h => ⟨h ▸ hname, h.symm⟩, fun h => h.2.symm⟩
    | none =>
      -- The block stays, so it is not called like a name that has a replacement.
      have hname := not_mem_names_of_find? hfind
      simp only [hname, ih, not_false_eq_true, true_and]
      refine and_congr_right fun hmem => ?_
      have hne : blockName ≠ name := fun heq => hname (heq ▸ hmem)
      simp only [hne, false_or]
  | .sect ⟨origin, sectName, negated, close, raw, body⟩ => by
    have ih := mem_used_substitute_iff owner outer name body
    rw [substituteNode, meets_sect]
    simpa [IsUse] using ih
  | .extend ⟨origin, parent, close, body, replacements⟩ => by
    have hlayer := used_layer_subset owner outer replacements
    have hextend : IsUse name (.extend ⟨origin, parent, close, body, replacements⟩) :=
      .inl ⟨_, rfl⟩
    rw [substituteNode, meets_single (by simp) (by simp), List.mem_append]
    -- All names count as used here, so those used in layering the extension add nothing.
    constructor
    · rintro (h | h)
      · exact ⟨hlayer h, hextend⟩
      · exact ⟨h, hextend⟩
    · exact fun h => .inr h.1
  | .text _ | .value _ | .inclusion _ | .dynamic _ | .eof => by
    rw [substituteNode, meets_single (by simp) (by simp)]
    simp [IsUse]

/-- The replacements that find a use are those for whose names substitution comes to a block, or
    all of them if it comes to an extension. -/
theorem mem_used_substitute_iff (owner : Site) (outer : List (Block Code)) (name : String) :
    ∀ cs : List Code, name ∈ (substitute owner outer cs).used ↔
      name ∈ outer.map Block.name ∧ Meets outer (IsUse name) cs
  | [] => by simp [substitute, not_meets_nil]
  | c :: cs => by
    rw [substitute, List.mem_append, mem_used_substituteNode_iff owner outer name c,
      mem_used_substitute_iff owner outer name cs, ← and_or_left, ← meets_cons]

/-- Nothing but replacements finds a use in the bodies of others. -/
theorem used_layer_subset (owner : Site) (outer : List (Block Code)) :
    ∀ bs : List (Block Code), (layer owner outer bs).2 ⊆ outer.map Block.name
  | [] => List.nil_subset _
  | ⟨origin, name, close, body⟩ :: bs => by
    have ih := used_layer_subset owner outer bs
    rw [layer]
    split
    · exact ih
    · intro n hn
      obtain hn | hn := List.mem_append.mp hn
      · exact ((mem_used_substitute_iff owner outer n body).mp hn).1
      · exact ih hn

end

/-! ## One pass -/

/-- One pass over a list that begins a copy at the first change.  `before` holds the nodes passed
    so far, and `copy` holds what they have become as soon as one of them has changed. -/
def copyOnChange (change : Code → Option Code) (before : List Code) (copy : Option (List Code)) :
    List Code → Option (List Code)
  | [] => copy
  | c :: cs =>
    match change c with
    | some c' => copyOnChange change (before ++ [c]) (some (copy.getD before ++ [c'])) cs
    | none => copyOnChange change (before ++ [c]) (copy.map (· ++ [c])) cs

section Pass

variable {owner : Site} {outer : List (Block Code)}

/-- A copy that has been begun takes in every further node, changed or not. -/
theorem copyOnChange_some (cs : List Code) : ∀ before copied : List Code,
    copyOnChange (fun c => (substituteNode owner outer c).changed) before (some copied) cs =
      some (copied ++ replacedAll owner outer cs) := by
  induction cs with
  | nil => intro before copied; simp [copyOnChange, replacedAll, substitute]
  | cons c cs ih =>
    intro before copied
    rw [copyOnChange, replacedAll_eq_map, List.map_cons, ← replacedAll_eq_map, replaced]
    cases (substituteNode owner outer c).changed <;> simp [ih]

/-- Without a copy so far, one is begun if there is a change, after the nodes that were passed. -/
theorem copyOnChange_none (cs : List Code) : ∀ before : List Code,
    copyOnChange (fun c => (substituteNode owner outer c).changed) before none cs =
      (substitute owner outer cs).changed.map (before ++ ·) := by
  induction cs with
  | nil => intro before; rfl
  | cons c cs ih =>
    intro before
    rw [copyOnChange, substitute]
    cases (substituteNode owner outer c).changed with
    | some c' =>
      -- The copy begins here: what was passed, the changed node, and then all the rest.
      simp [copyOnChange_some, replacedAll]
    | none =>
      simp only [Option.map_none, ih]
      cases (substitute owner outer cs).changed <;> simp

end Pass

/-- **Substitution copies no more than it has to.**  It is one pass over a list that begins a copy
    at the first node that changes.  There is no copy if and only if, outside the blocks that are
    replaced, the tree has no extension and no block with a replacement.  Copied or not, the list
    has its length, and it is what the plain recursion makes, which builds every list anew, up to the
    sites of the copies.  The replacements that find a use are those with the name of a block outside
    the blocks that are replaced, and all of them if there is an extension. -/
theorem substitute_agrees (owner : Site) (outer : List (Block Code)) (cs : List Code) :
    let s := substitute owner outer cs
    s.changed = copyOnChange (fun c => (substituteNode owner outer c).changed) [] none cs ∧
    (s.changed = none ↔
      (∀ e, ¬ Exposed outer (.extend e) cs) ∧
        ∀ b, Exposed outer (.block b) cs → b.name ∉ outer.map Block.name) ∧
    (s.changed.getD cs).length = cs.length ∧
    relabelAll Site.root (s.changed.getD cs) = relabelAll Site.root (rebuildAll outer cs) ∧
    ∀ name, name ∈ s.used ↔
      name ∈ outer.map Block.name ∧
        ((∃ b, Exposed outer (.block b) cs ∧ b.name = name) ∨
          ∃ e, Exposed outer (.extend e) cs) := by
  refine ⟨?_, ?_, ?_, relabelAll_replacedAll Site.forgetsGrafts_root owner outer cs, fun name => ?_⟩
  · rw [copyOnChange_none]
    simp only [List.nil_append, Option.map_id']
  · rw [changed_substitute_iff]
    constructor
    · intro hnone
      refine ⟨fun e he => hnone ⟨_, he, .inl ⟨e, rfl⟩⟩, fun b hb hname => ?_⟩
      exact hnone ⟨_, hb, .inr ⟨b, rfl, hname⟩⟩
    · rintro ⟨hextend, hblock⟩ ⟨c, hc, ⟨e, rfl⟩ | ⟨b, rfl, hname⟩⟩
      · exact hextend e hc
      · exact hblock b hc hname
  · change (replacedAll owner outer cs).length = cs.length
    rw [replacedAll_eq_map, List.length_map]
  · rw [mem_used_substitute_iff]
    refine and_congr_right fun _ => ?_
    constructor
    · rintro ⟨c, hc, ⟨e, rfl⟩ | ⟨b, rfl, hname⟩⟩
      · exact .inr ⟨e, hc⟩
      · exact .inl ⟨b, hc, hname⟩
    · rintro (⟨b, hb, hname⟩ | ⟨e, he⟩)
      · exact ⟨_, hb, .inr ⟨b, rfl, hname⟩⟩
      · exact ⟨_, he, .inl ⟨e, rfl⟩⟩

end Mustache.Code
