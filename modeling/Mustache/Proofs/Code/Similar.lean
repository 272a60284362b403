import Mathlib.Data.List.Forall2
import Mustache.Proofs.Code.Bare

/-! # Trees that differ in their sites

Two renders may come upon trees that are the same but for their sites, as every compilation of a
text numbers its nodes anew.  What is known of the sites on one side is a property of them that
copies inherit, such as having been compiled late enough.

* `Site.mark` — tells sites with a property from others, and nothing else.
* `Code.Sited` — all sites of a tree have a property.
* `Code.Similar`, `Awaiting.Similar`, `Template.Similar` — the same up to sites, with sites that
  have the property on one side.
* `Renderer.extended_similar` — what extensions make of their parents.
-/

namespace Mustache

/-- Tells sites with a property from others, and nothing else. -/
def Site.mark (S : Site → Bool) (s : Site) : Site :=
  if S s then .parsed 0 0 else .parsed 0 1

/-- A property that a copy has if the original has it. -/
def Site.Inherited (S : Site → Bool) : Prop :=
  ∀ extension node, S (.grafted extension node) = S node

theorem Site.Inherited.forgetsGrafts {S : Site → Bool} (h : Inherited S) :
    ForgetsGrafts (mark S) := by
  intro extension node
  rw [mark, mark, h extension node]

theorem Origin.site_of_mark {S : Site → Bool} {o : Origin}
    (h : o.relabel (.mark S) = o.relabel .forget) : S o.site = true := by
  have hsite : Site.mark S o.site = .parsed 0 0 := congrArg Origin.site h
  unfold Site.mark at hsite
  split at hsite
  · assumption
  · cases hsite

theorem Origin.exists_at_of_relabel {o o' : Origin}
    (h : o.relabel .forget = o'.relabel .forget) : ∃ site, o' = o.at site := by
  refine ⟨o'.site, ?_⟩
  simp only [Origin.relabel, Origin.at, Origin.mk.injEq] at h ⊢
  obtain ⟨h₁, h₂, h₃, h₄, -⟩ := h
  exact Origin.mk.injEq .. ▸ ⟨h₁.symm, h₂.symm, h₃.symm, h₄.symm, rfl⟩

variable {S : Site → Bool}

namespace Code

/-! ## Sites with a property -/

/-- All sites of the nodes have a property. -/
def SitedAll (S : Site → Bool) (cs : List Code) : Prop :=
  relabelAll (.mark S) cs = bareAll cs

/-- Trees that are the same up to sites; those of the first one have a property. -/
structure Similar (S : Site → Bool) (c c' : Code) : Prop where
  sited : relabel (.mark S) c = c.bare
  same : c.bare = c'.bare

structure AllSimilar (S : Site → Bool) (cs cs' : List Code) : Prop where
  sited : SitedAll S cs
  same : bareAll cs = bareAll cs'

structure BlocksSimilar (S : Site → Bool) (bs bs' : List (Block Code)) : Prop where
  sited : relabelBlocks (.mark S) bs = bareBlocks bs
  same : bareBlocks bs = bareBlocks bs'

theorem AllSimilar.refl {cs : List Code} (h : SitedAll S cs) : AllSimilar S cs cs := ⟨h, rfl⟩

section Congr

variable {f g f' g' : Site → Site}

theorem site_of_relabel_eq {o : Origin} (ho : o.relabel f = o.relabel g) : f o.site = g o.site :=
  congrArg Origin.site ho

theorem relabel_origin_congr (h : ∀ s, f s = g s → f' s = g' s) {o : Origin}
    (ho : o.relabel f = o.relabel g) :
    o.relabel f' = o.relabel g' := by
  rw [Origin.relabel, h o.site (site_of_relabel_eq ho), ← Origin.relabel]

mutual

/-- Two relabellings that agree on a tree do so for every pair of maps that agrees wherever they
    do. -/
theorem relabel_congr (h : ∀ s, f s = g s → f' s = g' s) : ∀ c : Code,
    relabel f c = relabel g c → relabel f' c = relabel g' c
  | .text _, _ => rfl
  | .eof, _ => rfl
  | .value ⟨_, _, _⟩, heq => by
    simp only [relabel, Code.value.injEq, Interpolation.mk.injEq] at heq ⊢
    exact ⟨relabel_origin_congr h heq.1, heq.2⟩
  | .inclusion ⟨_, _, _⟩, heq => by
    simp only [relabel, Code.inclusion.injEq, Inclusion.mk.injEq] at heq ⊢
    exact ⟨relabel_origin_congr h heq.1, heq.2⟩
  | .dynamic ⟨_, _, _⟩, heq => by
    simp only [relabel, Code.dynamic.injEq, Inclusion.mk.injEq] at heq ⊢
    exact ⟨relabel_origin_congr h heq.1, heq.2⟩
  | .sect ⟨_, _, _, _, _, body⟩, heq => by
    simp only [relabel, Code.sect.injEq, Section.mk.injEq] at heq ⊢
    obtain ⟨horigin, hname, hnegated, hclose, hraw, hbody⟩ := heq
    exact ⟨relabel_origin_congr h horigin, hname, hnegated, hclose, hraw,
      relabelAll_congr h body hbody⟩
  | .block ⟨_, _, _, body⟩, heq => by
    simp only [relabel, Code.block.injEq, Block.mk.injEq] at heq ⊢
    obtain ⟨horigin, hname, hclose, hbody⟩ := heq
    exact ⟨relabel_origin_congr h horigin, hname, hclose, relabelAll_congr h body hbody⟩
  | .extend ⟨_, _, _, body, replacements⟩, heq => by
    simp only [relabel, Code.extend.injEq, Extension.mk.injEq] at heq ⊢
    obtain ⟨horigin, hname, hclose, hbody, hreplacements⟩ := heq
    exact ⟨relabel_origin_congr h horigin, hname, hclose, relabelAll_congr h body hbody,
      relabelBlocks_congr h replacements hreplacements⟩

theorem relabelAll_congr (h : ∀ s, f s = g s → f' s = g' s) : ∀ cs : List Code,
    relabelAll f cs = relabelAll g cs → relabelAll f' cs = relabelAll g' cs
  | [], _ => rfl
  | c :: cs, heq => by
    simp only [relabelAll, List.cons.injEq] at heq ⊢
    exact ⟨relabel_congr h c heq.1, relabelAll_congr h cs heq.2⟩

theorem relabelBlocks_congr (h : ∀ s, f s = g s → f' s = g' s) : ∀ bs : List (Block Code),
    relabelBlocks f bs = relabelBlocks g bs → relabelBlocks f' bs = relabelBlocks g' bs
  | [], _ => rfl
  | ⟨_, _, _, body⟩ :: bs, heq => by
    simp only [relabelBlocks, List.cons.injEq, Block.mk.injEq] at heq ⊢
    obtain ⟨⟨horigin, hname, hclose, hbody⟩, hbs⟩ := heq
    exact ⟨⟨relabel_origin_congr h horigin, hname, hclose, relabelAll_congr h body hbody⟩,
      relabelBlocks_congr h bs hbs⟩

end

end Congr

section Mono

variable {S' : Site → Bool} (hS : ∀ s, S s = true → S' s = true)
include hS

theorem mark_eq_forget_of_le (s : Site) (h : Site.mark S s = Site.forget s) :
    Site.mark S' s = Site.forget s := by
  have hs : S s = true := by
    by_contra hne
    rw [Site.mark, if_neg hne] at h
    cases h
  rw [Site.mark, if_pos (hS s hs)]
  rfl

theorem SitedAll.mono {cs : List Code} (h : SitedAll S cs) : SitedAll S' cs :=
  relabelAll_congr (mark_eq_forget_of_le hS) cs h

theorem AllSimilar.mono {cs cs' : List Code} (h : AllSimilar S cs cs') : AllSimilar S' cs cs' :=
  ⟨h.sited.mono hS, h.same⟩

theorem BlocksSimilar.mono {bs bs' : List (Block Code)} (h : BlocksSimilar S bs bs') :
    BlocksSimilar S' bs bs' :=
  ⟨relabelBlocks_congr (mark_eq_forget_of_le hS) bs h.sited, h.same⟩

end Mono

/-- Without a property there is nothing to know of sites. -/
theorem sitedAll_true (cs : List Code) : SitedAll (fun _ => true) cs := rfl

theorem AllSimilar.forall₂ {cs cs' : List Code} (h : AllSimilar S cs cs') :
    List.Forall₂ (Similar S) cs cs' := by
  obtain ⟨hsited, hsame⟩ := h
  induction cs generalizing cs' with
  | nil =>
    cases cs' with
    | nil => exact .nil
    | cons c' cs' => cases hsame
  | cons c cs ih =>
    cases cs' with
    | nil => cases hsame
    | cons c' cs' =>
      obtain ⟨hc, hcs⟩ := List.cons.inj hsame
      obtain ⟨hsc, hscs⟩ := List.cons.inj hsited
      exact .cons ⟨hsc, hc⟩ (ih hscs hcs)

/-- All sites of a compilation have a property if those with its number do. -/
theorem sited_of_parse {src : Source} {d : Delimiters} {text : String} {codes : List Code}
    (h : parse src d text = .ok codes)
    (hS : ∀ offset, S (.parsed src.compilation offset) = true) : SitedAll S codes := by
  have hmark (offset : Nat) : Site.mark S (.parsed src.compilation offset) =
      Site.forget (.parsed src.compilation offset) := if_pos (hS offset)
  have hsame := parse_relabel src hmark d text
  rw [show src.at src.compilation = src from rfl, h] at hsame
  exact Except.ok.inj hsame

/-! ## What is like a node -/

variable {c' : Code}

namespace Similar

theorem of_text {s : String} (h : Similar S (.text s) c') : c' = .text s := by
  obtain ⟨-, hsame⟩ := h
  cases c' <;> simp_all [bare, relabel]

theorem of_eof (h : Similar S .eof c') : c' = .eof := by
  obtain ⟨-, hsame⟩ := h
  cases c' <;> simp_all [bare, relabel]

theorem of_value {v : Interpolation} (h : Similar S (.value v) c') :
    ∃ site, c' = .value { v with origin := v.origin.at site } := by
  obtain ⟨-, hsame⟩ := h
  cases c' with
  | value v' =>
    simp only [bare, relabel, Code.value.injEq, Interpolation.mk.injEq] at hsame
    obtain ⟨horigin, hname, hstyle⟩ := hsame
    obtain ⟨site, hsite⟩ := Origin.exists_at_of_relabel horigin
    obtain ⟨origin', name', style'⟩ := v'
    exact ⟨site, by simp_all⟩
  | _ => cases hsame

theorem of_inclusion {p : Inclusion} (h : Similar S (.inclusion p) c') :
    S p.origin.site = true ∧
      ∃ site, c' = .inclusion { p with origin := p.origin.at site } := by
  obtain ⟨hsited, hsame⟩ := h
  simp only [bare, relabel, Code.inclusion.injEq, Inclusion.mk.injEq] at hsited
  refine ⟨Origin.site_of_mark hsited.1, ?_⟩
  cases c' with
  | inclusion p' =>
    simp only [bare, relabel, Code.inclusion.injEq, Inclusion.mk.injEq] at hsame
    obtain ⟨horigin, hname, hindent⟩ := hsame
    obtain ⟨site, hsite⟩ := Origin.exists_at_of_relabel horigin
    obtain ⟨origin', name', indent'⟩ := p'
    exact ⟨site, by simp_all⟩
  | _ => cases hsame

theorem of_dynamic {p : Inclusion} (h : Similar S (.dynamic p) c') :
    S p.origin.site = true ∧
      ∃ site, c' = .dynamic { p with origin := p.origin.at site } := by
  obtain ⟨hsited, hsame⟩ := h
  simp only [bare, relabel, Code.dynamic.injEq, Inclusion.mk.injEq] at hsited
  refine ⟨Origin.site_of_mark hsited.1, ?_⟩
  cases c' with
  | dynamic p' =>
    simp only [bare, relabel, Code.dynamic.injEq, Inclusion.mk.injEq] at hsame
    obtain ⟨horigin, hname, hindent⟩ := hsame
    obtain ⟨site, hsite⟩ := Origin.exists_at_of_relabel horigin
    obtain ⟨origin', name', indent'⟩ := p'
    exact ⟨site, by simp_all⟩
  | _ => cases hsame

theorem of_sect {s : Section Code} (h : Similar S (.sect s) c') :
    ∃ site body, AllSimilar S s.body body ∧
      c' = .sect { s with origin := s.origin.at site, body } := by
  obtain ⟨hsited, hsame⟩ := h
  simp only [bare, relabel, Code.sect.injEq, Section.mk.injEq] at hsited
  cases c' with
  | sect s' =>
    simp only [bare, relabel, Code.sect.injEq, Section.mk.injEq] at hsame
    obtain ⟨horigin, hname, hnegated, hclose, hraw, hbody⟩ := hsame
    obtain ⟨site, hsite⟩ := Origin.exists_at_of_relabel horigin
    obtain ⟨origin', name', negated', close', raw', body'⟩ := s'
    exact ⟨site, body', ⟨hsited.2.2.2.2.2, hbody⟩, by simp_all⟩
  | _ => cases hsame

theorem of_block {b : Block Code} (h : Similar S (.block b) c') :
    ∃ site body, AllSimilar S b.body body ∧
      c' = .block { b with origin := b.origin.at site, body } := by
  obtain ⟨hsited, hsame⟩ := h
  simp only [bare, relabel, Code.block.injEq, Block.mk.injEq] at hsited
  cases c' with
  | block b' =>
    simp only [bare, relabel, Code.block.injEq, Block.mk.injEq] at hsame
    obtain ⟨horigin, hname, hclose, hbody⟩ := hsame
    obtain ⟨site, hsite⟩ := Origin.exists_at_of_relabel horigin
    obtain ⟨origin', name', close', body'⟩ := b'
    exact ⟨site, body', ⟨hsited.2.2.2, hbody⟩, by simp_all⟩
  | _ => cases hsame

theorem of_extend {e : Extension Code} (h : Similar S (.extend e) c') :
    S e.origin.site = true ∧ ∃ site body replacements,
      BlocksSimilar S e.replacements replacements ∧
      c' = .extend { e with origin := e.origin.at site, body, replacements } := by
  obtain ⟨hsited, hsame⟩ := h
  simp only [bare, relabel, Code.extend.injEq, Extension.mk.injEq] at hsited
  refine ⟨Origin.site_of_mark hsited.1, ?_⟩
  cases c' with
  | extend e' =>
    simp only [bare, relabel, Code.extend.injEq, Extension.mk.injEq] at hsame
    obtain ⟨horigin, hname, hclose, hbody, hreplacements⟩ := hsame
    obtain ⟨site, hsite⟩ := Origin.exists_at_of_relabel horigin
    obtain ⟨origin', name', close', body', replacements'⟩ := e'
    exact ⟨site, body', replacements', ⟨hsited.2.2.2.2, hreplacements⟩, by simp_all⟩
  | _ => cases hsame

end Similar

end Code

/-! ## Templates and what is awaited -/

/-- Templates that are the same up to sites; those of the first one have a property. -/
structure Template.Similar (S : Site → Bool) (t t' : Template) : Prop where
  sited : Code.SitedAll S t.codes
  same : t.bare = t'.bare

theorem Template.Similar.codes {t t' : Template} (h : t.Similar S t') :
    Code.AllSimilar S t.codes t'.codes :=
  ⟨h.sited, congrArg Template.codes h.same⟩

/-- What is to be done with a value is the same up to sites; those on the first side have a
    property. -/
inductive Awaiting.Similar (S : Site → Bool) : Awaiting → Awaiting → Prop
  | value (v : Interpolation) (site : Site) :
      Similar S (.value v) (.value { v with origin := v.origin.at site })
  | sect {s : Section Code} (site : Site) {body : List Code} (h : Code.AllSimilar S s.body body) :
      Similar S (.sect s) (.sect { s with origin := s.origin.at site, body })
  | inclusion {codes codes' : List Code} (h : Code.AllSimilar S codes codes') :
      Similar S (.inclusion codes) (.inclusion codes')
  | dynamic {p : Inclusion} (h : S p.origin.site = true) (site : Site) :
      Similar S (.dynamic p) (.dynamic { p with origin := p.origin.at site })

theorem Awaiting.Similar.refl_true (k : Awaiting) : k.Similar (fun _ => true) k := by
  cases k with
  | value v => exact .value v v.origin.site
  | sect s => exact .sect s.origin.site (.refl (Code.sitedAll_true _))
  | inclusion codes => exact .inclusion (.refl (Code.sitedAll_true _))
  | dynamic p => exact .dynamic rfl p.origin.site

/-- What is known of one side does not depend on the other one. -/
theorem Awaiting.Similar.left {k k' : Awaiting} (h : k.Similar S k') : k.Similar S k := by
  cases h with
  | value v site => exact .value v v.origin.site
  | @sect s site body h => exact .sect s.origin.site (.refl h.sited)
  | inclusion h => exact .inclusion (.refl h.sited)
  | @dynamic p h site => exact .dynamic h p.origin.site

theorem Awaiting.Similar.mono {S' : Site → Bool} (hS : ∀ s, S s = true → S' s = true)
    {k k' : Awaiting} (h : k.Similar S k') : k.Similar S' k' := by
  cases h with
  | value v site => exact .value v site
  | sect site h => exact .sect site (h.mono hS)
  | inclusion h => exact .inclusion (h.mono hS)
  | dynamic h site => exact .dynamic (hS _ h) site

/-! ## Extensions -/

/-- What extensions make of their parents is the same up to sites, and has sites with the
    property. -/
theorem Renderer.extended_similar (hS : Site.Inherited S) {e : Extension Code} (site : Site)
    (body : List Code) {replacements : List (Block Code)}
    (he : Code.BlocksSimilar S e.replacements replacements) {t t' : Template}
    (ht : t.Similar S t') :
    let e' : Extension Code := { e with origin := e.origin.at site, body, replacements }
    Code.AllSimilar S (Renderer.extended e t).1 (Renderer.extended e' t').1 ∧
      (Renderer.extended e t).2 = (Renderer.extended e' t').2 := by
  intro e'
  have hrelabel {f : Site → Site} (hf : Site.ForgetsGrafts f) (e : Extension Code) (t : Template) :
      Code.relabelAll f (Renderer.extended e t).1 =
        Code.rebuildAll (Code.relabelBlocks f e.replacements) (Code.relabelAll f t.codes) := by
    rw [Code.fst_extended]
    exact (Code.relabelAll_replacedAll hf _ _ _).trans (Code.relabelAll_rebuildAll _ _)
  have hcodes := ht.codes
  refine ⟨⟨?_, ?_⟩, ?_⟩
  · have hsited := hcodes.sited
    rw [Code.SitedAll] at hsited ⊢
    rw [hrelabel hS.forgetsGrafts, he.sited, hsited]
    exact (hrelabel Site.forgetsGrafts_forget e t).symm
  · calc Code.bareAll (Renderer.extended e t).1
        = Code.rebuildAll (Code.bareBlocks e.replacements) (Code.bareAll t.codes) :=
          hrelabel Site.forgetsGrafts_forget e t
      _ = Code.rebuildAll (Code.bareBlocks e'.replacements) (Code.bareAll t'.codes) := by
          rw [he.same, hcodes.same]
      _ = Code.bareAll (Renderer.extended e' t').1 :=
          (hrelabel Site.forgetsGrafts_forget e' t').symm
  · have hsame : e.bare.replacements = e'.bare.replacements := he.same
    rw [(Renderer.extended_bare e t).2, (Renderer.extended_bare e' t').2, ht.same]
    simp only [Renderer.extended, hsame]
    rfl

end Mustache
