import Mustache.Proofs.Code.Sites
import Mustache.Render.Rules

/-! # Layers of replacements

Substitution copies as little of a tree as it can.  What it comes to is a plain recursion that
builds every list anew, `rebuild`, up to the sites of the copies.  For the plain recursion, putting
one set of replacements in after another is the same as putting in both at once, layered: the later
ones win, and reach into the bodies of the earlier ones that they leave standing.

* `Code.replacedAll`, `Code.layered` — what substitution and layering come to, changed or not.
* `Code.rebuild`, `Code.rebuildAll`, `Code.rebuildBlocks` — the plain recursion.
* `Code.relabelAll_replacedAll` — substitution is the plain recursion, up to sites.
* `Code.rebuildAll_rebuildAll` — two sets of replacements one after another.
* `Code.substitution_layers` — the same for substitution.
-/

namespace Mustache.Code

/-! ## What substitution comes to -/

/-- What a node has become after substitution. -/
def replaced (owner : Site) (outer : List (Block Code)) (c : Code) : Code :=
  (substituteNode owner outer c).changed.getD c

def replacedAll (owner : Site) (outer : List (Block Code)) (cs : List Code) : List Code :=
  (substitute owner outer cs).changed.getD cs

/-- Replacements with others layered over them: the ones that `outer` leaves standing, with `outer`
    put into their bodies, and then `outer`. -/
def layered (owner : Site) (outer own : List (Block Code)) : List (Block Code) :=
  (layer owner outer own).1 ++ outer

theorem replacedAll_eq_map (owner : Site) (outer : List (Block Code)) (cs : List Code) :
    replacedAll owner outer cs = cs.map (replaced owner outer) := by
  induction cs with
  | nil => rfl
  | cons c cs ih =>
    rw [List.map_cons, ← ih]
    simp only [replacedAll, replaced, substitute]
    cases (substituteNode owner outer c).changed <;>
      cases (substitute owner outer cs).changed <;> rfl

/-- A block becomes its replacement as it stands, or keeps its place around its substituted
    body. -/
theorem replaced_block (owner : Site) (outer : List (Block Code)) (origin : Origin)
    (name : String) (close : Delimiters) (body : List Code) :
    replaced owner outer (.block ⟨origin, name, close, body⟩) =
      match Block.find? name outer with
      | some b => .block b
      | none => .block ⟨origin, name, close, replacedAll owner outer body⟩ := by
  rw [replaced, substituteNode]
  cases Block.find? name outer with
  | some b => rfl
  | none =>
    simp only [replacedAll]
    cases (substitute owner outer body).changed <;> rfl

/-- A section is left as it is or copied, around its substituted body. -/
theorem replaced_sect (owner : Site) (outer : List (Block Code)) (origin : Origin)
    (name : String) (negated : Bool) (close : Delimiters) (raw : String) (body : List Code) :
    ∃ origin', (origin' = origin ∨ origin' = origin.at (.grafted owner origin.site)) ∧
      replaced owner outer (.sect ⟨origin, name, negated, close, raw, body⟩) =
        .sect ⟨origin', name, negated, close, raw, replacedAll owner outer body⟩ := by
  rw [replaced, substituteNode]
  simp only [replacedAll]
  cases (substitute owner outer body).changed with
  | none => exact ⟨origin, .inl rfl, rfl⟩
  | some _ => exact ⟨_, .inr rfl, rfl⟩

/-- An extension is copied, with its replacements layered. -/
theorem replaced_extend (owner : Site) (outer : List (Block Code)) (origin : Origin)
    (name : String) (close : Delimiters) (body : List Code) (replacements : List (Block Code)) :
    replaced owner outer (.extend ⟨origin, name, close, body, replacements⟩) =
      .extend ⟨origin.at (.grafted owner origin.site), name, close, body,
        layered owner outer replacements⟩ := by
  rw [replaced, substituteNode]
  rfl

/-! ## The plain recursion -/

mutual

/-- A node with blocks replaced, every list around them built anew. -/
def rebuild (outer : List (Block Code)) : Code → Code
  | .block ⟨origin, name, close, body⟩ =>
    match Block.find? name outer with
    | some b => .block b
    | none => .block ⟨origin, name, close, rebuildAll outer body⟩
  | .sect ⟨origin, name, negated, close, raw, body⟩ =>
    .sect ⟨origin, name, negated, close, raw, rebuildAll outer body⟩
  | .extend ⟨origin, name, close, body, replacements⟩ =>
    .extend ⟨origin, name, close, body, rebuildBlocks outer replacements ++ outer⟩
  | .text s => .text s
  | .value v => .value v
  | .inclusion p => .inclusion p
  | .dynamic p => .dynamic p
  | .eof => .eof

def rebuildAll (outer : List (Block Code)) : List Code → List Code
  | [] => []
  | c :: cs => rebuild outer c :: rebuildAll outer cs

/-- The replacements that `outer` leaves standing, with blocks replaced in their bodies. -/
def rebuildBlocks (outer : List (Block Code)) : List (Block Code) → List (Block Code)
  | [] => []
  | ⟨origin, name, close, body⟩ :: bs =>
    if (Block.find? name outer).isSome then rebuildBlocks outer bs
    else ⟨origin, name, close, rebuildAll outer body⟩ :: rebuildBlocks outer bs

end

/-! ## Substitution is the plain recursion -/

section Relabel

variable {f : Site → Site}

mutual

/-- What a node becomes is the node rebuilt, up to the sites of copies. -/
theorem relabel_replaced (hf : Site.ForgetsGrafts f) (owner : Site) (outer : List (Block Code)) :
    ∀ c : Code, relabel f (replaced owner outer c) = relabel f (rebuild outer c)
  | .block ⟨origin, name, close, body⟩ => by
    rw [replaced_block, rebuild]
    cases Block.find? name outer with
    | some b => rfl
    | none => simp only [relabel, relabelAll_replacedAll hf owner outer body]
  | .sect ⟨origin, name, negated, close, raw, body⟩ => by
    obtain ⟨origin', horigin, h⟩ :=
      replaced_sect owner outer origin name negated close raw body
    rw [h, rebuild]
    simp only [relabel, relabelAll_replacedAll hf owner outer body]
    obtain rfl | rfl := horigin
    · rfl
    · rw [Origin.relabel_at_grafted hf]
  | .extend ⟨origin, name, close, body, replacements⟩ => by
    rw [replaced_extend, rebuild]
    simp only [relabel, layered, relabelBlocks_append, Origin.relabel_at_grafted hf,
      relabelBlocks_layer hf owner outer replacements]
  | .text _ => rfl
  | .value _ => rfl
  | .inclusion _ => rfl
  | .dynamic _ => rfl
  | .eof => rfl

theorem relabelAll_replacedAll (hf : Site.ForgetsGrafts f) (owner : Site)
    (outer : List (Block Code)) :
    ∀ cs : List Code,
      relabelAll f (replacedAll owner outer cs) = relabelAll f (rebuildAll outer cs)
  | [] => rfl
  | c :: cs => by
    have ih := relabelAll_replacedAll hf owner outer cs
    rw [replacedAll_eq_map] at ih ⊢
    rw [List.map_cons, rebuildAll, relabelAll, relabelAll,
      relabel_replaced hf owner outer c, ih]

theorem relabelBlocks_layer (hf : Site.ForgetsGrafts f) (owner : Site)
    (outer : List (Block Code)) :
    ∀ bs : List (Block Code),
      relabelBlocks f (layer owner outer bs).1 = relabelBlocks f (rebuildBlocks outer bs)
  | [] => rfl
  | ⟨origin, name, close, body⟩ :: bs => by
    have ih := relabelBlocks_layer hf owner outer bs
    have hbody := relabelAll_replacedAll hf owner outer body
    simp only [layer, rebuildBlocks]
    cases Block.find? name outer with
    | some b => exact ih
    | none =>
      rw [replacedAll] at hbody
      simp only [Option.isSome_none, Bool.false_eq_true, if_false, relabelBlocks, ih, hbody]

end

mutual

theorem relabel_rebuild (outer : List (Block Code)) :
    ∀ c : Code, relabel f (rebuild outer c) = rebuild (relabelBlocks f outer) (relabel f c)
  | .block ⟨origin, name, close, body⟩ => by
    simp only [rebuild, relabel, find?_relabelBlocks]
    cases Block.find? name outer with
    | some b => rfl
    | none => simp only [Option.map_none, relabel, relabelAll_rebuildAll outer body]
  | .sect ⟨origin, name, negated, close, raw, body⟩ => by
    simp only [rebuild, relabel, relabelAll_rebuildAll outer body]
  | .extend ⟨origin, name, close, body, replacements⟩ => by
    simp only [rebuild, relabel, relabelBlocks_append,
      relabelBlocks_rebuildBlocks outer replacements]
  | .text _ => rfl
  | .value _ => rfl
  | .inclusion _ => rfl
  | .dynamic _ => rfl
  | .eof => rfl

theorem relabelAll_rebuildAll (outer : List (Block Code)) :
    ∀ cs : List Code,
      relabelAll f (rebuildAll outer cs) = rebuildAll (relabelBlocks f outer) (relabelAll f cs)
  | [] => rfl
  | c :: cs => by
    simp only [rebuildAll, relabelAll, relabel_rebuild outer c, relabelAll_rebuildAll outer cs]

theorem relabelBlocks_rebuildBlocks (outer : List (Block Code)) :
    ∀ bs : List (Block Code), relabelBlocks f (rebuildBlocks outer bs) =
      rebuildBlocks (relabelBlocks f outer) (relabelBlocks f bs)
  | [] => rfl
  | ⟨origin, name, close, body⟩ :: bs => by
    simp only [rebuildBlocks, relabelBlocks, find?_relabelBlocks, Option.isSome_map]
    cases Block.find? name outer with
    | some b => exact relabelBlocks_rebuildBlocks outer bs
    | none =>
      simp only [Option.isSome_none, Bool.false_eq_true, if_false, relabelBlocks,
        relabelAll_rebuildAll outer body, relabelBlocks_rebuildBlocks outer bs]

end

end Relabel

/-! ## One layer after another -/

theorem rebuildBlocks_append (outer as bs : List (Block Code)) :
    rebuildBlocks outer (as ++ bs) = rebuildBlocks outer as ++ rebuildBlocks outer bs := by
  induction as with
  | nil => rfl
  | cons a as ih =>
    obtain ⟨origin, name, close, body⟩ := a
    simp only [List.cons_append, rebuildBlocks, ih]
    split <;> rfl

/-- What the plain recursion makes of a replacement that is left standing. -/
def rebuildBlock (outer : List (Block Code)) (b : Block Code) : Block Code :=
  { b with body := rebuildAll outer b.body }

/-- A name that `outer` has is not left standing. -/
theorem find?_rebuildBlocks_of_isSome {outer : List (Block Code)} {name : String}
    (h : (Block.find? name outer).isSome) (own : List (Block Code)) :
    Block.find? name (rebuildBlocks outer own) = none := by
  induction own with
  | nil => rfl
  | cons b own ih =>
    obtain ⟨origin, name', close, body⟩ := b
    simp only [rebuildBlocks]
    split
    · exact ih
    · next hb =>
      have hne : name' ≠ name := fun e => hb (e ▸ h)
      simpa [Block.find?, hne] using ih

/-- A name that `outer` does not have leads to its own replacement, rebuilt. -/
theorem find?_rebuildBlocks_of_none {outer : List (Block Code)} {name : String}
    (h : Block.find? name outer = none) (own : List (Block Code)) :
    Block.find? name (rebuildBlocks outer own) =
      (Block.find? name own).map (rebuildBlock outer) := by
  induction own with
  | nil => rfl
  | cons b own ih =>
    obtain ⟨origin, name', close, body⟩ := b
    simp only [rebuildBlocks]
    by_cases hname : name' = name
    · subst hname
      simp only [h, Option.isSome_none, Bool.false_eq_true, if_false]
      simp [Block.find?, rebuildBlock]
    · split
      · simpa [Block.find?, hname] using ih
      · simpa [Block.find?, hname] using ih

/-- In layers, the outer replacement of a name wins, and the inner one counts where there is no
    outer one. -/
theorem find?_layers (inner outer : List (Block Code)) (name : String) :
    Block.find? name (rebuildBlocks outer inner ++ outer) =
      (Block.find? name outer).or ((Block.find? name inner).map (rebuildBlock outer)) := by
  have happend : Block.find? name (rebuildBlocks outer inner ++ outer) =
      (Block.find? name (rebuildBlocks outer inner)).or (Block.find? name outer) :=
    List.find?_append
  rw [happend]
  cases h : Block.find? name outer with
  | some b => rw [find?_rebuildBlocks_of_isSome (by simp [h])]; rfl
  | none => rw [find?_rebuildBlocks_of_none h, Option.or_none, Option.none_or]

mutual

/-- Putting one set of replacements in after another is putting in both, layered. -/
theorem rebuild_rebuild (inner outer : List (Block Code)) :
    ∀ c : Code,
      rebuild outer (rebuild inner c) = rebuild (rebuildBlocks outer inner ++ outer) c
  | .block ⟨origin, name, close, body⟩ => by
    simp only [rebuild, find?_layers]
    cases hinner : Block.find? name inner with
    | some b =>
      -- The replacement has the name of the block, so the outer ones are asked for that name.
      have hname : b.name = name := by simpa using List.find?_some hinner
      simp only [rebuild, hname]
      cases Block.find? name outer with
      | some b' => rfl
      | none => simp only [Option.map_some, Option.none_or, rebuildBlock, hname]
    | none =>
      simp only [rebuild]
      cases Block.find? name outer with
      | some b' => rfl
      | none => simp only [Option.map_none, Option.or_none, rebuildAll_rebuildAll inner outer body]
  | .sect ⟨origin, name, negated, close, raw, body⟩ => by
    simp only [rebuild, rebuildAll_rebuildAll inner outer body]
  | .extend ⟨origin, name, close, body, replacements⟩ => by
    simp only [rebuild, rebuildBlocks_append, List.append_assoc,
      rebuildBlocks_rebuildBlocks inner outer replacements]
  | .text _ => rfl
  | .value _ => rfl
  | .inclusion _ => rfl
  | .dynamic _ => rfl
  | .eof => rfl

theorem rebuildAll_rebuildAll (inner outer : List (Block Code)) :
    ∀ cs : List Code,
      rebuildAll outer (rebuildAll inner cs) = rebuildAll (rebuildBlocks outer inner ++ outer) cs
  | [] => rfl
  | c :: cs => by
    simp only [rebuildAll, rebuild_rebuild inner outer c, rebuildAll_rebuildAll inner outer cs]

theorem rebuildBlocks_rebuildBlocks (inner outer : List (Block Code)) :
    ∀ bs : List (Block Code), rebuildBlocks outer (rebuildBlocks inner bs) =
      rebuildBlocks (rebuildBlocks outer inner ++ outer) bs
  | [] => rfl
  | ⟨origin, name, close, body⟩ :: bs => by
    have ih := rebuildBlocks_rebuildBlocks inner outer bs
    simp only [rebuildBlocks, find?_layers]
    cases hinner : Block.find? name inner with
    | some b => simpa using ih
    | none =>
      simp only [Option.isSome_none, Bool.false_eq_true, if_false, rebuildBlocks,
        Option.map_none, Option.or_none, ih, rebuildAll_rebuildAll inner outer body]

end

/-- Layering a set of replacements over itself changes nothing. -/
theorem rebuildBlocks_self (outer : List (Block Code)) : rebuildBlocks outer outer = [] := by
  have h : ∀ bs : List (Block Code), (∀ b ∈ bs, (Block.find? b.name outer).isSome) →
      rebuildBlocks outer bs = [] := by
    intro bs
    induction bs with
    | nil => intro _; rfl
    | cons b bs ih =>
      intro hbs
      have hb := hbs b List.mem_cons_self
      simp only [rebuildBlocks, hb, if_true]
      exact ih fun b' hb' => hbs b' (List.mem_cons_of_mem _ hb')
  refine h outer fun b hb => ?_
  simp only [Block.find?, List.find?_isSome]
  exact ⟨b, hb, by simp⟩

/-! ## The same for substitution -/

/-- Layered replacements are the plain ones, up to the sites of copies. -/
theorem relabelBlocks_layered {f : Site → Site} (hf : Site.ForgetsGrafts f) (owner : Site)
    (outer own : List (Block Code)) :
    relabelBlocks f (layered owner outer own) =
      relabelBlocks f (rebuildBlocks outer own ++ outer) := by
  rw [layered, relabelBlocks_append, relabelBlocks_append, relabelBlocks_layer hf]

/-- What nodes become depends on the nodes and on the replacements only up to sites, and does not
    depend on the extension that asks for it. -/
theorem relabelAll_replacedAll_congr {f : Site → Site} (hf : Site.ForgetsGrafts f)
    {a b : Site} {outer outer' : List (Block Code)} {cs cs' : List Code}
    (houter : relabelBlocks f outer = relabelBlocks f outer')
    (hcs : relabelAll f cs = relabelAll f cs') :
    relabelAll f (replacedAll a outer cs) = relabelAll f (replacedAll b outer' cs') := by
  calc relabelAll f (replacedAll a outer cs)
      = rebuildAll (relabelBlocks f outer) (relabelAll f cs) := by
        rw [relabelAll_replacedAll hf, relabelAll_rebuildAll]
    _ = rebuildAll (relabelBlocks f outer') (relabelAll f cs') := by rw [houter, hcs]
    _ = relabelAll f (replacedAll b outer' cs') := by
        rw [relabelAll_replacedAll hf, relabelAll_rebuildAll]

/-- Substituting twice is substituting the layered replacements once, whatever extensions ask for
    it. -/
theorem relabelAll_replacedAll_replacedAll {f : Site → Site} (hf : Site.ForgetsGrafts f)
    (a b c d : Site) (inner outer : List (Block Code)) (cs : List Code) :
    relabelAll f (replacedAll b outer (replacedAll a inner cs)) =
      relabelAll f (replacedAll c (layered d outer inner) cs) := by
  calc relabelAll f (replacedAll b outer (replacedAll a inner cs))
      = relabelAll f (replacedAll b outer (rebuildAll inner cs)) :=
        relabelAll_replacedAll_congr hf rfl (relabelAll_replacedAll hf a inner cs)
    _ = relabelAll f (rebuildAll (rebuildBlocks outer inner ++ outer) cs) := by
        rw [relabelAll_replacedAll hf, rebuildAll_rebuildAll]
    _ = relabelAll f (replacedAll c (rebuildBlocks outer inner ++ outer) cs) :=
        (relabelAll_replacedAll hf c _ cs).symm
    _ = relabelAll f (replacedAll c (layered d outer inner) cs) :=
        relabelAll_replacedAll_congr hf (relabelBlocks_layered hf d outer inner).symm rfl

/-! ## Extensions of extensions -/

/-- The nodes of an extension's parent after substitution are what the parent's nodes become. -/
theorem fst_extended (e : Extension Code) (parent : Template) :
    (Renderer.extended e parent).1 = replacedAll e.origin.site e.replacements parent.codes :=
  rfl

/-- **Replacements layer.**  Substituting `inner` and then `outer` gives the same tree as
    substituting both at once, layered, up to the sites of the copies.  So a second substitution of
    the same replacements changes nothing.  And where a template that is extended extends a base
    itself, the copy of its extension turns the base into what the base becomes by the inner
    replacements first and the outer ones after them. -/
theorem substitution_layers (a b c d : Site) (inner outer : List (Block Code)) :
    (∀ cs : List Code,
      relabelAll Site.root (replacedAll b outer (replacedAll a inner cs)) =
        relabelAll Site.root (replacedAll c (layered d outer inner) cs)) ∧
    (∀ cs : List Code,
      relabelAll Site.root (replacedAll b inner (replacedAll a inner cs)) =
        relabelAll Site.root (replacedAll a inner cs)) ∧
    (∀ (leaf middle : Extension Code) (base : Template), ∃ copy : Extension Code,
      (∀ (name source : String) (before after : List Code),
        (Renderer.extended leaf ⟨name, source, before ++ .extend middle :: after⟩).1 =
          replacedAll leaf.origin.site leaf.replacements before ++ .extend copy ::
            replacedAll leaf.origin.site leaf.replacements after) ∧
      copy.name = middle.name ∧
      copy.replacements = layered leaf.origin.site leaf.replacements middle.replacements ∧
      relabelAll Site.root (Renderer.extended copy base).1 =
        relabelAll Site.root (replacedAll leaf.origin.site leaf.replacements
          (Renderer.extended middle base).1)) := by
  have hroot := Site.forgetsGrafts_root
  refine ⟨relabelAll_replacedAll_replacedAll hroot a b c d inner outer, fun cs => ?_, ?_⟩
  · calc relabelAll Site.root (replacedAll b inner (replacedAll a inner cs))
        = relabelAll Site.root (replacedAll a (layered d inner inner) cs) :=
          relabelAll_replacedAll_replacedAll hroot a b a d inner inner cs
      _ = relabelAll Site.root (replacedAll a inner cs) := by
          refine relabelAll_replacedAll_congr hroot ?_ rfl
          rw [relabelBlocks_layered hroot, rebuildBlocks_self, List.nil_append]
  · intro leaf middle base
    obtain ⟨origin, name, close, body, replacements⟩ := middle
    refine ⟨⟨origin.at (.grafted leaf.origin.site origin.site), name, close, body,
      layered leaf.origin.site leaf.replacements replacements⟩, ?_, rfl, rfl, ?_⟩
    · intro tname source before after
      simp only [fst_extended, replacedAll_eq_map, List.map_append, List.map_cons, replaced_extend]
    · exact (relabelAll_replacedAll_replacedAll hroot _ _ _ _ _ _ _).symm

end Mustache.Code
