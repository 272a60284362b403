import Mustache.Proofs.Code.Bare
import Mustache.Proofs.Code.Sharing

/-! # Nodes anywhere in a tree

A node is inside a tree if it stands in one of its lists, or in the body of a section, a block or a
replacement block there.

* `Code.Inside`, `Code.inner` — the nodes anywhere in a tree, as a relation and as a list.
* `Code.AsWritten` — extensions that replace just the blocks of their own bodies, as parsed ones do.
* `Code.extend_inside_rebuildAll` — where the extensions in a substituted tree come from.
* `Code.used_or_covered` — which names find no use.
-/

namespace Mustache.Code

/-- A node anywhere in a tree: in sections, in blocks, and in the bodies of the replacement blocks
    of its extensions. -/
inductive Inside (c : Code) : List Code → Prop
  | here {cs : List Code} (h : c ∈ cs) : Inside c cs
  | sect {cs : List Code} {s : Section Code} (hs : .sect s ∈ cs) (h : Inside c s.body) :
      Inside c cs
  | block {cs : List Code} {b : Block Code} (hb : .block b ∈ cs) (h : Inside c b.body) :
      Inside c cs
  | replacement {cs : List Code} {e : Extension Code} {b : Block Code} (he : .extend e ∈ cs)
      (hb : b ∈ e.replacements) (h : Inside c b.body) : Inside c cs

variable {c d : Code} {cs ds : List Code}

theorem Inside.mono (h : Inside c cs) (hsub : cs ⊆ ds) : Inside c ds := by
  cases h with
  | here h => exact .here (hsub h)
  | sect hs h => exact .sect (hsub hs) h
  | block hb h => exact .block (hsub hb) h
  | replacement he hb h => exact .replacement (hsub he) hb h

/-- What is inside a list is inside one of its nodes. -/
theorem Inside.exists_mem (h : Inside c cs) : ∃ d ∈ cs, Inside c [d] := by
  cases h with
  | here h => exact ⟨_, h, .here (List.mem_singleton_self _)⟩
  | sect hs h => exact ⟨_, hs, .sect (List.mem_singleton_self _) h⟩
  | block hb h => exact ⟨_, hb, .block (List.mem_singleton_self _) h⟩
  | replacement he hb h => exact ⟨_, he, .replacement (List.mem_singleton_self _) hb h⟩

/-! ## All nodes of a tree -/

mutual

/-- The nodes inside a node. -/
def subnodes : Code → List Code
  | .sect ⟨_, _, _, _, _, body⟩ => inner body
  | .block ⟨_, _, _, body⟩ => inner body
  | .extend ⟨_, _, _, _, replacements⟩ => innerBlocks replacements
  | .text _ | .value _ | .inclusion _ | .dynamic _ | .eof => []

/-- The nodes inside a tree. -/
def inner : List Code → List Code
  | [] => []
  | c :: cs => c :: (subnodes c ++ inner cs)

def innerBlocks : List (Block Code) → List Code
  | [] => []
  | ⟨_, _, _, body⟩ :: bs => inner body ++ innerBlocks bs

end

theorem subnodes_subset_inner (h : c ∈ cs) : subnodes c ⊆ inner cs := by
  induction cs with
  | nil => cases h
  | cons d cs ih =>
    intro e he
    rw [inner]
    obtain rfl | h := List.mem_cons.mp h
    · exact List.mem_cons_of_mem _ (List.mem_append_left _ he)
    · exact List.mem_cons_of_mem _ (List.mem_append_right _ (ih h he))

theorem inner_subset_innerBlocks {b : Block Code} {bs : List (Block Code)} (h : b ∈ bs) :
    inner b.body ⊆ innerBlocks bs := by
  induction bs with
  | nil => cases h
  | cons a bs ih =>
    intro e he
    rw [innerBlocks]
    obtain rfl | h := List.mem_cons.mp h
    · exact List.mem_append_left _ he
    · exact List.mem_append_right _ (ih h he)

theorem Inside.mem_inner (h : Inside c cs) : c ∈ inner cs := by
  induction h with
  | @here cs h =>
    induction cs with
    | nil => cases h
    | cons d cs ih =>
      rw [inner]
      obtain rfl | h := List.mem_cons.mp h
      · exact List.mem_cons_self
      · exact List.mem_cons_of_mem _ (List.mem_append_right _ (ih h))
  | sect hs _ ih => exact subnodes_subset_inner hs ih
  | block hb _ ih => exact subnodes_subset_inner hb ih
  | replacement he hb _ ih => exact subnodes_subset_inner he (inner_subset_innerBlocks hb ih)

mutual

theorem inside_of_mem_subnodes : ∀ {d : Code}, c ∈ subnodes d → Inside c [d]
  | .sect ⟨_, _, _, _, _, body⟩, h => by
    rw [subnodes] at h
    exact .sect (List.mem_singleton_self _) (inside_of_mem_inner h)
  | .block ⟨_, _, _, body⟩, h => by
    rw [subnodes] at h
    exact .block (List.mem_singleton_self _) (inside_of_mem_inner h)
  | .extend ⟨_, _, _, _, replacements⟩, h => by
    rw [subnodes] at h
    obtain ⟨b, hb, h⟩ := inside_of_mem_innerBlocks h
    exact .replacement (List.mem_singleton_self _) hb h

theorem inside_of_mem_inner : ∀ {cs : List Code}, c ∈ inner cs → Inside c cs
  | d :: cs, h => by
    rw [inner] at h
    obtain rfl | h := List.mem_cons.mp h
    · exact .here List.mem_cons_self
    · obtain h | h := List.mem_append.mp h
      · exact (inside_of_mem_subnodes h).mono (by simp)
      · exact (inside_of_mem_inner h).mono (List.subset_cons_self _ _)

theorem inside_of_mem_innerBlocks : ∀ {bs : List (Block Code)}, c ∈ innerBlocks bs →
    ∃ b ∈ bs, Inside c b.body
  | ⟨_, _, _, body⟩ :: bs, h => by
    rw [innerBlocks] at h
    obtain h | h := List.mem_append.mp h
    · exact ⟨_, List.mem_cons_self, inside_of_mem_inner h⟩
    · obtain ⟨b, hb, h⟩ := inside_of_mem_innerBlocks h
      exact ⟨b, List.mem_cons_of_mem _ hb, h⟩

end

/-! ## Extensions as they are written -/

/-- Every extension in a tree replaces just the blocks of its own body. -/
def AsWritten (cs : List Code) : Prop :=
  ∀ e, Inside (.extend e) cs → e.replacements = blocksOf e.body

namespace AsWritten

theorem of_forall_mem (h : ∀ c ∈ cs, AsWritten [c]) : AsWritten cs := by
  intro e he
  obtain ⟨c, hc, he⟩ := he.exists_mem
  exact h c hc e he

theorem nil : AsWritten [] :=
  of_forall_mem nofun

theorem cons (hc : AsWritten [c]) (hcs : AsWritten cs) : AsWritten (c :: cs) := by
  refine of_forall_mem fun d hd => ?_
  obtain rfl | hd := List.mem_cons.mp hd
  · exact hc
  · exact fun e he => hcs e (he.mono (by simpa using hd))

/-- A node that is no extension and has no body. -/
theorem leaf (hsect : ∀ s, c ≠ .sect s) (hextend : ∀ e, c ≠ .extend e) (hblock : ∀ b, c ≠ .block b) :
    AsWritten [c] := by
  intro e he
  cases he with
  | here h => exact absurd (List.mem_singleton.mp h).symm (hextend e)
  | sect h _ => exact absurd (List.mem_singleton.mp h).symm (hsect _)
  | block h _ => exact absurd (List.mem_singleton.mp h).symm (hblock _)
  | replacement h _ _ => exact absurd (List.mem_singleton.mp h).symm (hextend _)

theorem flush (text : List Char) (h : AsWritten cs) : AsWritten (Code.flush text cs) := by
  unfold Code.flush
  split
  · exact h
  · exact cons (leaf (by simp) (by simp) (by simp)) h

end AsWritten

/-- The blocks of a body stand in it. -/
theorem mem_of_mem_blocksOf {b : Block Code} {body : List Code} (h : b ∈ blocksOf body) :
    .block b ∈ body := by
  have hinsert : ∀ {a : Block Code} {as : List (Block Code)}, b ∈ a.insert as →
      b = a ∨ b ∈ as := by
    intro a as
    induction as with
    | nil => simp [Block.insert]
    | cons a' as ih =>
      intro h
      rw [Block.insert] at h
      split at h
      · obtain rfl | h := List.mem_cons.mp h
        · exact .inl rfl
        · exact .inr (List.mem_cons_of_mem _ h)
      · obtain rfl | h := List.mem_cons.mp h
        · exact .inr List.mem_cons_self
        · exact (ih h).imp_right (List.mem_cons_of_mem _)
  suffices hfound : b ∈ ([] : List (Block Code)) ∨ .block b ∈ body from
    hfound.resolve_left List.not_mem_nil
  rw [blocksOf] at h
  -- The blocks found so far may be any.
  generalize ([] : List (Block Code)) = acc at h ⊢
  induction body generalizing acc with
  | nil => exact .inl h
  | cons c cs ih =>
    obtain h | h := ih _ h
    · cases c with
      | block a =>
        obtain rfl | h := hinsert h
        · exact .inr List.mem_cons_self
        · exact .inl h
      | _ => exact .inl h
    · exact .inr (List.mem_cons_of_mem _ h)

section Parsing

variable {src : Source} {opened : Option Opened}

theorem asWritten_ofBody {tag : Tag} {bracket : Tag.Bracket} {name : String} {start : Cursor}
    {b : Body} {code : Code} (h : ofBody src tag bracket name start b = .ok code)
    (hb : AsWritten b.codes) : AsWritten [code] := by
  have hbody : ∀ e, Inside (.extend e) b.codes → e.replacements = blocksOf e.body := hb
  cases bracket with
  | positive | negated | block =>
    cases h
    intro e he
    cases he with
    | here h => simp at h
    | sect hs h =>
      cases List.mem_singleton.mp hs <;> exact hbody e h
    | block hs h =>
      cases List.mem_singleton.mp hs <;> exact hbody e h
    | replacement hs _ _ => simp at hs
  | extend =>
    simp only [ofBody] at h
    split at h
    · cases h
    · cases h
      intro e he
      cases he with
      | here h =>
        cases List.mem_singleton.mp h
        rfl
      | sect hs _ | block hs _ => simp at hs
      | replacement hs hb h =>
        cases List.mem_singleton.mp hs
        exact hbody e (.block (mem_of_mem_blocksOf hb) h)

theorem Parsed.asWritten {b : Body} (h : Parsed src opened b) : AsWritten b.codes := by
  induction h with
  | atEnd => exact .flush _ (.leaf (by simp) (by simp) (by simp))
  | atClose => exact .flush _ .nil
  | value _ _ _ ih | inclusion _ _ _ ih | dynamic _ _ _ ih =>
    exact .flush _ (.cons (.leaf (by simp) (by simp) (by simp)) ih)
  | opening _ _ hcode _ ihinner ih => exact .flush _ (.cons (asWritten_ofBody hcode ihinner) ih)

theorem asWritten_of_parse {d : Delimiters} {text : String} {codes : List Code}
    (h : parse src d text = .ok codes) : AsWritten codes := by
  obtain ⟨b, hb, rfl⟩ := parsed_of_parse h
  exact hb.asWritten

end Parsing

/-! ## Sites -/

theorem exists_of_inside_relabelAll {f : Site → Site} (h : Inside d (relabelAll f cs)) :
    ∃ c, Inside c cs ∧ d = relabel f c := by
  have hmem {c : Code} {cs : List Code} (h : c ∈ relabelAll f cs) : ∃ c' ∈ cs, relabel f c' = c := by
    rwa [relabelAll_eq_map, List.mem_map] at h
  generalize hds : relabelAll f cs = ds at h
  induction h generalizing cs with
  | here h =>
    subst hds
    obtain ⟨c, hc, rfl⟩ := hmem h
    exact ⟨c, .here hc, rfl⟩
  | sect hs _ ih =>
    subst hds
    obtain ⟨c, hc, heq⟩ := hmem hs
    cases c <;> cases heq
    obtain ⟨c, hinside, rfl⟩ := ih rfl
    exact ⟨c, .sect hc hinside, rfl⟩
  | block hb _ ih =>
    subst hds
    obtain ⟨c, hc, heq⟩ := hmem hb
    cases c <;> cases heq
    obtain ⟨c, hinside, rfl⟩ := ih rfl
    exact ⟨c, .block hc hinside, rfl⟩
  | replacement he hb _ ih =>
    subst hds
    obtain ⟨c, hc, heq⟩ := hmem he
    cases c <;> cases heq
    simp only [relabelBlocks_eq_map, List.mem_map] at hb
    obtain ⟨b, hb, rfl⟩ := hb
    obtain ⟨c, hinside, rfl⟩ := ih rfl
    exact ⟨c, .replacement hc hb hinside, rfl⟩

theorem AsWritten.relabelAll {f : Site → Site} (h : AsWritten cs) :
    AsWritten (relabelAll f cs) := by
  intro e he
  obtain ⟨c, hc, heq⟩ := exists_of_inside_relabelAll he
  cases c <;> cases heq
  simp only [h _ hc, relabelBlocks_blocksOf]

/-! ## Substitution -/

theorem exists_of_mem_rebuildAll {outer : List (Block Code)} (h : d ∈ rebuildAll outer cs) :
    ∃ c ∈ cs, rebuild outer c = d := by
  induction cs with
  | nil => cases h
  | cons c cs ih =>
    obtain rfl | h := List.mem_cons.mp h
    · exact ⟨c, List.mem_cons_self, rfl⟩
    · obtain ⟨c', hc', heq⟩ := ih h
      exact ⟨c', List.mem_cons_of_mem _ hc', heq⟩

theorem exists_of_mem_rebuildBlocks {outer own : List (Block Code)} {b : Block Code}
    (h : b ∈ rebuildBlocks outer own) : ∃ b' ∈ own, rebuildBlock outer b' = b := by
  induction own with
  | nil => cases h
  | cons a own ih =>
    rw [rebuildBlocks] at h
    split at h
    · obtain ⟨b', hb', heq⟩ := ih h
      exact ⟨b', List.mem_cons_of_mem _ hb', heq⟩
    · obtain rfl | h := List.mem_cons.mp h
      · exact ⟨a, List.mem_cons_self, rfl⟩
      · obtain ⟨b', hb', heq⟩ := ih h
        exact ⟨b', List.mem_cons_of_mem _ hb', heq⟩

theorem exists_rebuild_block (outer : List (Block Code)) (b : Block Code) :
    ∃ b', rebuild outer (.block b) = .block b' := by
  rw [rebuild]
  split <;> exact ⟨_, rfl⟩

/-- A block in a substituted list is a replacement, or a block of the list around its substituted
    body. -/
theorem block_mem_rebuildAll {outer : List (Block Code)} {b : Block Code}
    (h : .block b ∈ rebuildAll outer cs) :
    b ∈ outer ∨ ∃ b', .block b' ∈ cs ∧ rebuildBlock outer b' = b := by
  obtain ⟨c, hc, heq⟩ := exists_of_mem_rebuildAll h
  cases c with
  | block b' =>
    obtain ⟨origin, name, close, body⟩ := b'
    rw [rebuild] at heq
    split at heq
    · next b' hfind =>
      cases heq
      exact .inl (List.mem_of_find?_eq_some hfind)
    · cases heq
      exact .inr ⟨_, hc, rfl⟩
  | _ => cases heq

theorem sect_mem_rebuildAll {outer : List (Block Code)} {s : Section Code}
    (h : .sect s ∈ rebuildAll outer cs) :
    ∃ s', .sect s' ∈ cs ∧ rebuild outer (.sect s') = .sect s := by
  obtain ⟨c, hc, heq⟩ := exists_of_mem_rebuildAll h
  cases c with
  | sect s' => exact ⟨s', hc, heq⟩
  | block b =>
    obtain ⟨b', hb'⟩ := exists_rebuild_block outer b
    cases hb'.symm.trans heq
  | _ => cases heq

theorem extend_mem_rebuildAll {outer : List (Block Code)} {e : Extension Code}
    (h : .extend e ∈ rebuildAll outer cs) :
    ∃ e', .extend e' ∈ cs ∧ rebuild outer (.extend e') = .extend e := by
  obtain ⟨c, hc, heq⟩ := exists_of_mem_rebuildAll h
  cases c with
  | extend e' => exact ⟨e', hc, heq⟩
  | block b =>
    obtain ⟨b', hb'⟩ := exists_rebuild_block outer b
    cases hb'.symm.trans heq
  | _ => cases heq

/-- An extension in a substituted tree stands in a replacement, or it is a copy of one of the tree,
    which has the replacements of that one and the new ones. -/
theorem extend_inside_rebuildAll {outer : List (Block Code)} {e : Extension Code}
    (h : Inside (.extend e) (rebuildAll outer cs)) :
    (∃ b ∈ outer, Inside (.extend e) b.body) ∨
      ∃ e', Inside (.extend e') cs ∧ e.origin = e'.origin ∧ e.name = e'.name ∧ e.body = e'.body ∧
        ∀ b ∈ e.replacements, b ∈ outer ∨ ∃ b' ∈ e'.replacements, b'.name = b.name := by
  generalize hds : rebuildAll outer cs = ds at h
  induction h generalizing cs with
  | here h =>
    subst hds
    obtain ⟨e', hc, heq⟩ := extend_mem_rebuildAll h
    cases heq
    refine .inr ⟨e', .here hc, rfl, rfl, rfl, fun b hb => ?_⟩
    obtain hb | hb := List.mem_append.mp hb
    · obtain ⟨b', hb', rfl⟩ := exists_of_mem_rebuildBlocks hb
      exact .inr ⟨b', hb', rfl⟩
    · exact .inl hb
  | sect hs _ ih =>
    subst hds
    obtain ⟨s, hc, heq⟩ := sect_mem_rebuildAll hs
    cases heq
    exact (ih rfl).imp_right fun ⟨e', he', h⟩ => ⟨e', .sect hc he', h⟩
  | block hb hbody ih =>
    subst hds
    obtain hb | ⟨b', hb', rfl⟩ := block_mem_rebuildAll hb
    · exact .inl ⟨_, hb, hbody⟩
    · exact (ih rfl).imp_right fun ⟨e', he', h⟩ => ⟨e', .block hb' he', h⟩
  | replacement he hb hbody ih =>
    subst hds
    obtain ⟨e', hc, heq⟩ := extend_mem_rebuildAll he
    cases heq
    obtain hb | hb := List.mem_append.mp hb
    · obtain ⟨b', hb', rfl⟩ := exists_of_mem_rebuildBlocks hb
      exact (ih rfl).imp_right fun ⟨e', he', h⟩ => ⟨e', .replacement hc hb' he', h⟩
    · exact .inl ⟨_, hb, hbody⟩

/-- A name to be replaced finds a use where a tree has a block of the name, or an extension, unless
    that stands in the body of a block that is replaced. -/
theorem used_or_covered {owner : Site} {outer : List (Block Code)} (h : Inside c cs) {name : String}
    (hname : name ∈ outer.map Block.name)
    (hc : (∃ b : Block Code, c = .block b ∧ b.name = name) ∨ ∃ e, c = .extend e) :
    name ∈ (substitute owner outer cs).used ∨
      ∃ b, Inside (.block b) cs ∧ b.name ∈ outer.map Block.name ∧ Inside c b.body := by
  have hused {cs : List Code} {d : Code} (hd : Exposed outer d cs) (huse : IsUse name d) :
      name ∈ (substitute owner outer cs).used :=
    (mem_used_substitute_iff owner outer name cs).mpr ⟨hname, d, hd, huse⟩
  induction h with
  | here h => exact .inl (hused (.here h) hc.symm)
  | sect hs _ ih =>
    obtain hbody | ⟨b, hb, hcovers⟩ := ih
    · obtain ⟨-, d, hd, huse⟩ := (mem_used_substitute_iff ..).mp hbody
      exact .inl (hused (.sect hs hd) huse)
    · exact .inr ⟨b, .sect hs hb, hcovers⟩
  | @block _ b hb h ih =>
    by_cases hreplaced : b.name ∈ outer.map Block.name
    · exact .inr ⟨b, .here hb, hreplaced, h⟩
    · obtain hbody | ⟨b', hb', hcovers⟩ := ih
      · obtain ⟨-, d, hd, huse⟩ := (mem_used_substitute_iff ..).mp hbody
        exact .inl (hused (.block hb hreplaced hd) huse)
      · exact .inr ⟨b', .block hb hb', hcovers⟩
  | replacement he _ _ _ => exact .inl (hused (.here he) (.inl ⟨_, rfl⟩))

end Mustache.Code
