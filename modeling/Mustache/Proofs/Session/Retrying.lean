import Mustache.Proofs.Engine.Faithful
import Mustache.Proofs.Engine.Lasting
import Mustache.Proofs.Session.History

/-! # Asking again after a failure

A request that fails leaves no trace in an engine: no cache, no node and no count is changed.  So
once the loader has been corrected, the same request comes to what a new engine over that loader
comes to.

* `Request.IsNew` — nothing stands for a request, and so no old answer can be handed out.
* `Request.anew` — what a request comes to then, by `Request.map_fst_ask`.
* `Request.isNew_of_error` — a request that fails is new, before and after.
* `Request.retried` — a failure, and the same request with another loader.
* `Session.unvisited_after` — the nodes of what is compiled next remember no tree.
-/

namespace Mustache

namespace Store

/-- A name that is unknown may lead to nothing to render, and any other failure goes on. -/
theorem map_fst_load (o : Options) (name including indent : String) (s : Store) :
    (load o name including indent s).map Prod.fst =
      orEmpty o name ((linked o name including indent s).map Prod.fst) := by
  simp only [load, orEmpty]
  cases linked o name including indent s with
  | ok r => rfl
  | error e =>
    cases e with
    | load cause =>
      cases cause with
      | notFound missing =>
        simp only [Except.map]
        cases o.strict <;> rfl
      | unreadable => rfl
    | _ => rfl

end Store

/-- What a name in a tag leads to at present is in stock. -/
theorem Stock.Supplied.linkedAs {o : Options} {K : Stock} (h : K.Supplied o) {n : Nat}
    (hn : K.since ≤ n) (name including indent : String) :
    K.named (Path.resolve name including) indent
      (Store.linkedAs o K.loader n name including indent) := by
  simp only [Stock.named, Store.linkedAs]
  split
  · exact h.plain n _ hn
  · exact h.indented n _ indent hn

namespace Request

variable {o : Options} {q under : Request} {s s' : Store} {t : Template} {e : Error}

/-! ## Where nothing stands -/

/-- Nothing stands under the key of a request, nor under that of the request that it hands on. -/
structure IsNew (q : Request) (s : Store) : Prop where
  none : q.standing? s = none
  under : ∀ under, q.under? = some under → under.standing? s = .none

theorem map_fst_ask_of_under?_none (hunder : q.under? = none) (hnone : q.standing? s = none) :
    (q.ask o s).map Prod.fst = q.anew o s.loader s.compilations := by
  rw [ask_of_none hnone, seek_eq hunder]
  cases q.anew o s.loader s.compilations with
  | error e => rfl
  | ok t =>
    -- A compilation puts nothing under any key.
    have hstill : q.standing? { s with compilations := s.compilations + 1 } = none := by
      cases q with
      | included | parent | target => cases hunder
      | _ => exact hnone
    exact congrArg Except.ok (fst_keep hstill t)

/-- A request that is not handed on changes nothing that nodes remember by the text of values. -/
theorem targets_of_ask (hunder : q.under? = none) (h : q.ask o s = .ok (t, s')) :
    s'.targets = s.targets := by
  have hkeep (t : Template) (s : Store) : (q.keep o t s).2.targets = s.targets := by
    cases q with
    | given => rfl
    | named | indented | fragment =>
      simp only [keep, Store.countEviction]
      split <;> rfl
    | included | parent | target => cases hunder
  cases hstanding : q.standing? s with
  | some t' =>
    rw [ask_of_standing hstanding] at h
    cases h
    rfl
  | none =>
    rw [ask_of_none hstanding, seek_eq hunder] at h
    obtain ⟨⟨t', s''⟩, hok, heq⟩ := Code.exists_ok_of_map h
    obtain ⟨t'', -, heq'⟩ := Code.exists_ok_of_map hok
    obtain rfl : { s with compilations := s.compilations + 1 } = s'' := congrArg Prod.snd heq'
    obtain rfl : (q.keep o t' { s with compilations := s.compilations + 1 }).2 = s' :=
      congrArg Prod.snd heq
    exact hkeep t' _

/-- What is sought for a node is handed out as it is. -/
theorem map_fst_ask_of_under (hunder : q.under? = some under) (hnone : q.standing? s = none) :
    (q.ask o s).map Prod.fst = (q.seek o s).map Prod.fst := by
  rw [ask_of_none hnone]
  cases hseek : q.seek o s with
  | error e => rfl
  | ok r =>
    obtain ⟨t, s'⟩ := r
    refine congrArg Except.ok ?_
    cases q with
    | included | parent => rfl
    | target p text =>
      -- What the node remembers by the text of values is as it was before.
      have htargets : s'.targets = s.targets := by
        obtain heq | ⟨_, _, -, -, hempty⟩ := seek_cases hunder o s
        · exact targets_of_ask (under?_under hunder) (heq ▸ hseek)
        · rw [hempty] at hseek
          cases hseek
          rfl
      refine fst_keep ?_ t
      simpa only [standing?, Store.targetsOf, htargets] using hnone
    | _ => cases hunder

/-- **A request that is new.**  Where nothing stands for a request, what it comes to depends on the
    loader alone, but for the number of the compilation. -/
theorem map_fst_ask (h : q.IsNew s) :
    (q.ask o s).map Prod.fst = q.anew o s.loader s.compilations := by
  cases hunder : q.under? with
  | none => exact map_fst_ask_of_under?_none hunder h.none
  | some under =>
    rw [map_fst_ask_of_under hunder h.none]
    have hlinked (name including indent : String)
        (hstanding : (linked name including indent).standing? s = none) :
        (Store.load o name including indent s).map Prod.fst =
          Store.orEmpty o name
            (Store.linkedAs o s.loader s.compilations name including indent) := by
      rw [Store.map_fst_load, ← ask_linked,
        map_fst_ask_of_under?_none (under?_linked _ _ _) hstanding, anew_linked]
    cases q with
    | included | parent | target => exact hlinked _ _ _ (h.under _ rfl)
    | _ => cases hunder

/-- Up to sites the number of the compilation does not matter, and the nodes are not those of an
    earlier one. -/
theorem exists_meets_anew (o : Options) (l : Loader) (q : Request) :
    ∃ r₀, ∀ n, Loading.Meets (fun site => n ≤ site.compilation) r₀ (q.anew o l n) := by
  have hsupplied (n : Nat) : (Loading.stock o l n fun site => n ≤ site.compilation).Supplied o :=
    Loading.supplied_stock fun _ _ hle => decide_eq_true hle
  have hload (name including indent : String) : ∃ r₀, ∀ n,
      Loading.Meets (fun site => n ≤ site.compilation) r₀
        (Store.orEmpty o name (Store.linkedAs o l n name including indent)) :=
    ⟨Loading.load o l name including indent, fun n =>
      (hsupplied n).loaded _ _ _ _ ((hsupplied n).linkedAs (Nat.le_refl n) _ _ _)⟩
  cases q with
  | named path => exact ⟨_, fun n => (hsupplied n).plain n path (Nat.le_refl n)⟩
  | indented path indent =>
    exact ⟨_, fun n => (hsupplied n).indented n path indent (Nat.le_refl n)⟩
  | given source name d =>
    simp only [anew]
    split
    · exact ⟨_, fun n => (hsupplied n).fragment n ⟨source, d, name⟩ (Nat.le_refl n)⟩
    · exact ⟨_, fun n => ⟨rfl, by rintro _ ⟨⟩⟩⟩
  | fragment text d file =>
    exact ⟨_, fun n => (hsupplied n).fragment n ⟨text, d, file⟩ (Nat.le_refl n)⟩
  | included | parent | target => exact hload _ _ _

/-! ## Failures -/

/-- Where a request fails, nothing stands for it. -/
theorem isNew_of_error (h : q.ask o s = .error e) : q.IsNew s := by
  have hnone : q.standing? s = none := by
    refine Option.eq_none_iff_forall_ne_some.mpr fun t ht => ?_
    rw [ask_of_standing ht] at h
    cases h
  refine ⟨hnone, fun under hunder => Option.eq_none_iff_forall_ne_some.mpr fun t ht => ?_⟩
  obtain ⟨s', hok, -⟩ := exists_ask_of_under (o := o) hunder hnone ht
  rw [hok] at h
  cases h

/-- Whether anything stands for a request is no matter of the loader. -/
theorem IsNew.set_loader (h : q.IsNew s) (loader : Loader) : q.IsNew { s with loader } where
  none := by
    rw [← h.none]
    cases q <;> rfl
  under under hunder := by
    rw [← h.under under hunder]
    cases under <;> rfl

theorem isNew_new (q : Request) (l : Loader) : q.IsNew (.new l) := by
  have hnone (q : Request) : q.standing? (.new l) = none := by cases q <;> rfl
  exact ⟨hnone q, fun under _ => hnone under⟩

/-- **Asking again after a failure.**  Whatever state an engine is in, also in the midst of a render,
    a request that fails leaves everything as it was, even where changes last: caches, what nodes
    remember, and the rest of the world and of the session.  With another loader the same request
    comes to what it comes to in a new engine over that loader, up to sites, and the nodes of the
    tree are not those of an earlier compilation. -/
theorem retried (h : q.ask o s = .error e) :
    Store.Lasting.ask o q s = (.error e, s) ∧
    (∀ w : World, w.store = s → Render.withStore (q.ask o) w = (.error (.error e), w)) ∧
    (∀ (session : Session) (handle : String), session.store = s →
      session.keep handle (q.ask o) = (.failed e, session)) ∧
    ∀ loader : Loader,
      ((q.ask o { s with loader }).map fun r => r.1.bare) =
        ((q.ask o (.new loader)).map fun r => r.1.bare) ∧
      ∀ t s', q.ask o { s with loader } = .ok (t, s') →
        Code.SitedAll (fun site => s.compilations ≤ site.compilation) t.codes := by
  refine ⟨Store.Lasting.ask_of_error h, ?_, ?_, fun loader => ?_⟩
  · rintro w rfl
    simp only [Render.withStore, h]
  · rintro session handle rfl
    simp only [Session.keep, h]
  · obtain ⟨r₀, hmeets⟩ := exists_meets_anew o loader q
    have hbare {s' : Store} (hnew : q.IsNew s') (hloader : s'.loader = loader) :
        ((q.ask o s').map fun r => r.1.bare) = r₀ := by
      have hfst := map_fst_ask (o := o) hnew
      rw [hloader] at hfst
      rw [← (hmeets s'.compilations).same, ← hfst]
      cases q.ask o s' <;> rfl
    have hnew := (isNew_of_error h).set_loader loader
    refine ⟨(hbare hnew rfl).trans (hbare (isNew_new q loader) rfl).symm, fun t s' hok => ?_⟩
    have hfst := map_fst_ask (o := o) hnew
    rw [hok] at hfst
    exact (hmeets s.compilations).sited t hfst.symm

/-- A template that does not compile is included, and included again when it has been corrected. -/
theorem retried_corrected :
    let o := Options.standard
    let l : Loader := .memory [("a", .text "{{>b}}"), ("b", .text "{{#s}}")]
    let s := ((Session.new o l).after [.compile "a" "x"]).store
    let q := Request.included ⟨⟨.standard, "a", 1, true, .parsed 0 0⟩, "b", ""⟩
    let loader := l.insert "b" "{{s}}"
    ∃ e, q.ask o s = .error e ∧ Store.Lasting.ask o q s = (.error e, s) ∧
      ∃ t s', q.ask o { s with loader } = .ok (t, s') ∧
        ((q.ask o (.new loader)).map fun r => r.1.bare) = .ok t.bare ∧
        Code.SitedAll (fun site => s.compilations ≤ site.compilation) t.codes := by
  intro o l s q loader
  have hfails : (q.ask o s).toOption.isNone = true := by decide +kernel
  have hsucceeds : (q.ask o { s with loader }).toOption.isSome = true := by decide +kernel
  cases hask : q.ask o s with
  | ok r =>
    rw [hask] at hfails
    cases hfails
  | error e =>
    obtain ⟨hlasting, -, -, hagain⟩ := retried hask
    obtain ⟨hbare, hsited⟩ := hagain loader
    cases hok : q.ask o { s with loader } with
    | error e' =>
      rw [hok] at hsucceeds
      cases hsucceeds
    | ok r =>
      rw [hok] at hbare
      exact ⟨e, rfl, hlasting, r.1, r.2, rfl, hbare.symm, hsited r.1 r.2 hok⟩

end Request

/-! ## Nodes that are still to come -/

/-- After any steps no tree is remembered for a node of a compilation that is still to come.  So the
    nodes of a tree that is compiled next look for what they include themselves. -/
theorem Session.unvisited_after (o : Options) (l : Loader) (steps : List Step) {n : Node}
    (hn : ((new o l).after steps).store.compilations ≤ n.site.compilation) :
    let s := ((new o l).after steps).store
    s.inclusions.get? n = none ∧ s.parents.get? n = none ∧ s.targets.get? n = none := by
  intro s
  have hholds := (holds_history o l steps).store
  have hearlier {β : Type} {P : Node → β → Prop} {table : Table Node β}
      (hall : table.All fun n v =>
        (history o l steps).site s.compilations n.site = true ∧ P n v) :
      table.get? n = none := by
    refine Option.eq_none_iff_forall_ne_some.mpr fun v hv => ?_
    exact absurd (of_decide_eq_true (hall.get? hv).1) (Nat.not_lt.mpr hn)
  exact ⟨hearlier hholds.inclusions, hearlier hholds.parents, hearlier hholds.targets⟩

end Mustache
