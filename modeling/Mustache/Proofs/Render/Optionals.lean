import Mustache.Proofs.Lookup.Optionals
import Mustache.Proofs.Render.Whole

/-! # Optionals do not show in a render

With the usual handler, putting optionals around values anywhere in the data changes neither the
text of a render nor its error.  Only what deferred computations come to has to stay null where it
is null: an inclusion that has waited for an empty optional takes it for a scope, and one that has
waited for null does not.

* `Value.Wrapped` — a value with optionals put around values in it.
* `Plain.Renderer.Unwraps` — rendering goes the same way without the optionals.
* `Template.renderWithin_wrapped` — whole renders.
-/

namespace Mustache

/-! ## Optionals put around values -/

namespace Value

mutual

/-- A value with optionals put around values in it, and empty ones in the place of nulls. -/
inductive Wrapped : Value → Value → Prop
  | refl (v : Value) : Wrapped v v
  | around {v w : Value} : Wrapped v w → Wrapped v (.optional (some w))
  | empty : Wrapped .null (.optional none)
  | content {v w : Value} : Wrapped v w → Wrapped (.optional (some v)) (.optional (some w))
  | list {vs ws : List Value} : WrappedAll vs ws → Wrapped (.list vs) (.list ws)
  | map {es fs : List (String × Value)} : WrappedEntries es fs → Wrapped (.map es) (.map fs)
  | record {type : String} {es fs : List (String × Value)} : WrappedEntries es fs →
    Wrapped (.record type es) (.record type fs)
  | object {id : Nat} {type : String} {es fs : List (String × Value)} {phantoms : List String} :
    WrappedEntries es fs →
    Wrapped (.object ⟨id, type, es, phantoms, none⟩) (.object ⟨id, type, fs, phantoms, none⟩)
  | collection {id : Nat} {type : String} {es fs : List (String × Value)}
    {phantoms : List String} {vs ws : List Value} : WrappedEntries es fs → WrappedAll vs ws →
    Wrapped (.object ⟨id, type, es, phantoms, some vs⟩) (.object ⟨id, type, fs, phantoms, some ws⟩)
  | deferred {id : Nat} {os ps : List (Outcome Value)} : WrappedOutcomes os ps →
    Wrapped (.deferred ⟨id, os⟩) (.deferred ⟨id, ps⟩)

inductive WrappedAll : List Value → List Value → Prop
  | nil : WrappedAll [] []
  | cons {v w : Value} {vs ws : List Value} : Wrapped v w → WrappedAll vs ws →
    WrappedAll (v :: vs) (w :: ws)

inductive WrappedEntries : List (String × Value) → List (String × Value) → Prop
  | nil : WrappedEntries [] []
  | cons {k : String} {v w : Value} {es fs : List (String × Value)} : Wrapped v w →
    WrappedEntries es fs → WrappedEntries ((k, v) :: es) ((k, w) :: fs)

/-- Null stays null, as what a deferred computation comes to. -/
inductive WrappedOutcomes : List (Outcome Value) → List (Outcome Value) → Prop
  | nil : WrappedOutcomes [] []
  | value {v w : Value} {os ps : List (Outcome Value)} : Wrapped v w → w.isNull = v.isNull →
    WrappedOutcomes os ps → WrappedOutcomes (.value v :: os) (.value w :: ps)
  | failure {message : String} {os ps : List (Outcome Value)} : WrappedOutcomes os ps →
    WrappedOutcomes (.failure message :: os) (.failure message :: ps)
  | panic {message : String} {os ps : List (Outcome Value)} : WrappedOutcomes os ps →
    WrappedOutcomes (.panic message :: os) (.panic message :: ps)

end

mutual

theorem Wrapped.unwrap_eq : ∀ {v w : Value}, Wrapped v w → w.unwrap = v.unwrap
  | _, _, .refl _ => rfl
  | _, _, .around h => by rw [unwrap, h.unwrap_eq]
  | _, _, .empty => rfl
  | _, _, .content h => by rw [unwrap, unwrap, h.unwrap_eq]
  | _, _, .list h => by rw [unwrap, unwrap, h.unwrapAll_eq]
  | _, _, .map h => by rw [unwrap, unwrap, h.unwrapEntries_eq]
  | _, _, .record h => by rw [unwrap, unwrap, h.unwrapEntries_eq]
  | _, _, .object h => by rw [unwrap, unwrap, h.unwrapEntries_eq]
  | _, _, .collection h hitems => by
    rw [unwrap, unwrap, unwrapItems, unwrapItems, h.unwrapEntries_eq, hitems.unwrapAll_eq]
  | _, _, .deferred h => by rw [unwrap, unwrap, h.unwrapOutcomes_eq]

theorem WrappedAll.unwrapAll_eq : ∀ {vs ws : List Value}, WrappedAll vs ws →
    unwrapAll ws = unwrapAll vs
  | _, _, .nil => rfl
  | _, _, .cons h hmore => by rw [unwrapAll, unwrapAll, h.unwrap_eq, hmore.unwrapAll_eq]

theorem WrappedEntries.unwrapEntries_eq : ∀ {es fs : List (String × Value)},
    WrappedEntries es fs → unwrapEntries fs = unwrapEntries es
  | _, _, .nil => rfl
  | _, _, .cons h hmore => by
    rw [unwrapEntries, unwrapEntries, h.unwrap_eq, hmore.unwrapEntries_eq]

theorem WrappedOutcomes.unwrapOutcomes_eq : ∀ {os ps : List (Outcome Value)},
    WrappedOutcomes os ps → unwrapOutcomes ps = unwrapOutcomes os
  | _, _, .nil => rfl
  | _, _, .value h hnull hmore => by
    rw [unwrapOutcomes, unwrapOutcomes, h.unwrap_eq, hnull, hmore.unwrapOutcomes_eq]
  | _, _, .failure hmore => by rw [unwrapOutcomes, unwrapOutcomes, hmore.unwrapOutcomes_eq]
  | _, _, .panic hmore => by rw [unwrapOutcomes, unwrapOutcomes, hmore.unwrapOutcomes_eq]

end

end Value

/-- Scopes with optionals put around values in them. -/
def Scopes.Wrapped (s s' : Scopes) : Prop :=
  Value.WrappedAll s.stack s'.stack

theorem Scopes.Wrapped.unwrap_eq {s s' : Scopes} (h : s.Wrapped s') : s'.unwrap = s.unwrap := by
  rw [Scopes.unwrap, Scopes.unwrap, ← Value.unwrapAll_eq_map, ← Value.unwrapAll_eq_map,
    h.unwrapAll_eq]

/-! ## Values without optionals, twice over -/

namespace Value

mutual

theorem unwrap_unwrap : ∀ v : Value, v.unwrap.unwrap = v.unwrap
  | .list items => by rw [unwrap, unwrap, unwrapAll_unwrapAll]
  | .map entries => by rw [unwrap, unwrap, unwrapEntries_unwrapEntries]
  | .record _ fields => by rw [unwrap, unwrap, unwrapEntries_unwrapEntries]
  | .object ⟨_, _, _, _, items⟩ => by
    rw [unwrap, unwrap, unwrapEntries_unwrapEntries, unwrapItems_unwrapItems items]
  | .optional (some v) => by rw [unwrap, unwrap_unwrap v]
  | .deferred ⟨_, outcomes⟩ => by rw [unwrap, unwrap, unwrapOutcomes_unwrapOutcomes]
  | .optional none | .null | .bool _ | .int _ | .float _ | .text _ | .lambda _ => rfl

theorem unwrapAll_unwrapAll : ∀ vs : List Value, unwrapAll (unwrapAll vs) = unwrapAll vs
  | [] => rfl
  | v :: vs => by rw [unwrapAll, unwrapAll, unwrap_unwrap v, unwrapAll_unwrapAll vs]

theorem unwrapItems_unwrapItems : ∀ items : Option (List Value),
    unwrapItems (unwrapItems items) = unwrapItems items
  | none => rfl
  | some vs => by rw [unwrapItems, unwrapItems, unwrapAll_unwrapAll vs]

theorem unwrapEntries_unwrapEntries : ∀ es : List (String × Value),
    unwrapEntries (unwrapEntries es) = unwrapEntries es
  | [] => rfl
  | (k, v) :: es => by
    rw [unwrapEntries, unwrapEntries, unwrap_unwrap v, unwrapEntries_unwrapEntries es]

theorem unwrapOutcomes_unwrapOutcomes : ∀ os : List (Outcome Value),
    unwrapOutcomes (unwrapOutcomes os) = unwrapOutcomes os
  | [] => rfl
  | .value v :: os => by
    rw [unwrapOutcomes, unwrapOutcomes, unwrapOutcomes_unwrapOutcomes os]
    cases h : v.isNull with
    | true => rfl
    | false =>
      simp only [Bool.false_eq_true, if_false, isNull, unwrap, unwrap_unwrap v]
  | .failure _ :: os | .panic _ :: os => by
    rw [unwrapOutcomes, unwrapOutcomes, unwrapOutcomes_unwrapOutcomes os]

end

theorem unwrap_veiled (v : Value) : v.veiled.unwrap = v.unwrap := by
  rw [veiled]
  cases v with
  | null => rfl
  | _ => exact unwrap_unwrap _

end Value

/-- Whatever optionals the innermost scope has, it is the same scope without them. -/
theorem Scopes.unwrap_push {v w : Value} (h : w.unwrap = v.unwrap) (s : Scopes) :
    (s.unwrap.push w).unwrap = (s.push v).unwrap := by
  have hstack : (s.stack.map Value.unwrap).map Value.unwrap = s.stack.map Value.unwrap := by
    rw [List.map_map]
    exact List.map_congr_left fun u _ => u.unwrap_unwrap
  rw [Scopes.unwrap, Scopes.unwrap, Scopes.push, Scopes.push, Scopes.unwrap, List.map_cons,
    List.map_cons, h, hstack]

/-! ## Rendering -/

theorem Deferred.outcome_unwrap (d : Deferred Value) (run : Nat) :
    d.unwrap.outcome run = (d.outcome run).unwrap := by
  simp only [Deferred.outcome, Deferred.unwrap, List.getElem?_map, List.getLast?_map]
  cases d.outcomes[run]? with
  | some _ => rfl
  | none => cases d.outcomes.getLast? <;> rfl

namespace Plain

open Mustache (Oracle)

/-- What waits for a deferred computation goes on with the same value in one optional. -/
theorem runFor_unwrap {β : Type} (d : Deferred Value) (name : String)
    {p p' : Value → Plain (Table Nat Nat) β} (hp : ∀ v, p v = p' v.veiled) :
    (runFor .counting d name >>= p) = (runFor .counting d.unwrap name >>= p') := by
  funext s
  simp only [bind, runFor, Oracle.counting, Deferred.outcome_unwrap]
  rw [show d.unwrap.id = d.id from rfl]
  cases d.outcome ((Table.get? d.id s).getD 0) with
  | value v => simp only [Outcome.unwrap, hp]
  | failure message => rfl
  | panic message => rfl

theorem hit_unwrap {o : Options} (hhandler : o.handler = .standard) (name : String)
    (scopes : Scopes) :
    hit o name scopes.unwrap =
      ⟨(hit o name scopes).value.unwrap, (hit o name scopes).isMissing⟩ := by
  simp only [hit, hhandler, Handler.standard, Lookup.Hit.ofWrapper, Lookup.find_unwrap,
    Wrapper.call_unwrap]

/-- What goes on with the value of a tag goes on with it without its optionals. -/
theorem lookupTag_unwrap {β : Type} {o : Options} (hhandler : o.handler = .standard)
    (origin : Origin) (name : String) (scopes : Scopes) {p p' : Value → Plain (Table Nat Nat) β}
    (hp : ∀ x, p x = p' x.unwrap) :
    (lookupTag o origin name scopes >>= p) = (lookupTag o origin name scopes.unwrap >>= p') := by
  simp only [lookupTag, hit_unwrap hhandler]
  split
  · rfl
  · exact congrArg (pure (hit o name scopes).value >>= ·) (funext hp)

namespace Renderer

/-- What is nested in a node is rendered in the same way without optionals among the data. -/
structure Unwraps (r : Renderer (Table Nat Nat)) : Prop where
  node : ∀ c scopes cx, r.node c scopes cx = r.node c scopes.unwrap cx
  resume : ∀ k x scopes cx, r.resume k x scopes cx = r.resume k x.veiled scopes.unwrap cx

namespace Unwraps

variable {r : Renderer (Table Nat Nat)} (hr : r.Unwraps) {o : Options} {l : Loader}
  (hhandler : o.handler = .standard) (scopes : Scopes) (cx : Context)
include hr

theorem nodes (codes : List Code) : r.nodes codes scopes cx = r.nodes codes scopes.unwrap cx := by
  rw [Renderer.nodes, Renderer.nodes]
  exact congrArg (each · codes) (funext fun c => hr.node c scopes cx)

theorem nodes_push (codes : List Code) {v w : Value} (h : w.unwrap = v.unwrap) :
    r.nodes codes (scopes.push v) cx = r.nodes codes (scopes.unwrap.push w) cx := by
  rw [hr.nodes, ← Scopes.unwrap_push h, ← hr.nodes]

theorem capture (codes : List Code) :
    r.capture codes scopes cx = r.capture codes scopes.unwrap cx := by
  rw [Renderer.capture, Renderer.capture, hr.nodes]

theorem await (d : Deferred Value) (name : String) (k : Awaiting) :
    r.await .counting d name k scopes cx = r.await .counting d.unwrap name k scopes.unwrap cx :=
  runFor_unwrap d name fun v => hr.resume k v scopes cx

theorem withScope (codes : List Code) (x : Value) :
    r.withScope codes x scopes cx = r.withScope codes x.veiled scopes.unwrap cx := by
  rw [Renderer.withScope, Renderer.withScope, Value.isNull_veiled,
    hr.nodes_push scopes cx codes x.unwrap_veiled, ← hr.nodes]

theorem sectionLambda (s : Section Code) (f : Lambda) :
    r.sectionLambda o s f scopes cx = r.sectionLambda o s f scopes.unwrap cx := by
  rw [Renderer.sectionLambda, Renderer.sectionLambda, hr.capture]
  simp only [fun codes => hr.nodes scopes cx codes]

include hhandler

theorem value (v : Interpolation) {x y : Value} (hy : y.coerce = x.coerce.unwrap) :
    r.value o .counting v x scopes cx = r.value o .counting v y scopes.unwrap cx := by
  rw [Renderer.value, Renderer.value, hhandler]
  simp only [Handler.standard]
  rw [hy]
  cases hx : x.coerce with
  | optional content => exact absurd hx (x.coerce_ne_optional content)
  | deferred d =>
    rw [Value.unwrap_deferred]
    exact hr.await scopes cx d v.name (.value v)
  | lambda f => simp only [Value.unwrap, fun codes => hr.capture scopes cx codes]
  | null => rfl
  | _ => exact congrArg (writeValue o v) (Value.display_unwrap _).symm

theorem sect (s : Section Code) {x y : Value} (hy : y.coerce = x.coerce.unwrap) :
    r.sect o .counting s x scopes cx = r.sect o .counting s y scopes.unwrap cx := by
  have hbody := hr.nodes scopes cx s.body
  have hfalsey := x.coerce.isFalsey_unwrap
  have heach : each (fun item => r.nodes s.body (scopes.push item) cx) x.coerce.elements =
      each (fun item => r.nodes s.body (scopes.unwrap.push item) cx) x.coerce.unwrap.elements := by
    rw [Value.elements_unwrap, each_map]
    exact congrArg (each · _)
      (funext fun item => hr.nodes_push scopes cx s.body item.unwrap_unwrap)
  simp only [Renderer.sect, hhandler, Handler.standard, hy]
  obtain ⟨u, hu⟩ : ∃ u, x.coerce = u := ⟨_, rfl⟩
  rw [hu] at hfalsey heach ⊢
  rw [hbody, hfalsey, heach]
  cases u with
  | optional content => exact absurd hu (x.coerce_ne_optional content)
  | deferred d =>
    rw [Value.unwrap_deferred]
    exact hr.await scopes cx d s.name (.sect s)
  | lambda f => simp only [Value.unwrap, hr.sectionLambda scopes cx s f]
  | _ => rfl

theorem dynamic (p : Inclusion) {x y : Value} (hy : y.coerce = x.coerce.unwrap) :
    r.dynamic o l .counting p x scopes cx = r.dynamic o l .counting p y scopes.unwrap cx := by
  have hdisplay := x.coerce.display_unwrap
  have hnodes : ∀ codes, r.nodes codes scopes cx = r.nodes codes scopes.unwrap cx :=
    hr.nodes scopes cx
  simp only [Renderer.dynamic, hhandler, Handler.standard, hy, hnodes]
  obtain ⟨u, hu⟩ : ∃ u, x.coerce = u := ⟨_, rfl⟩
  rw [hu] at hdisplay ⊢
  cases u with
  | optional content => exact absurd hu (x.coerce_ne_optional content)
  | deferred d =>
    rw [Value.unwrap_deferred]
    exact hr.await scopes cx d p.name (.dynamic p)
  | list | map | record | object => simp only [Value.unwrap] at hdisplay ⊢; rw [hdisplay]
  | _ => rfl

theorem inclusion (p : Inclusion) :
    r.inclusion o l .counting p scopes cx = r.inclusion o l .counting p scopes.unwrap cx := by
  rw [Renderer.inclusion, Renderer.inclusion]
  refine congrArg (enter o cx p.name p.origin >>= ·) (funext fun cx => ?_)
  refine congrArg (ofExcept (Loading.load o l p.name p.origin.file p.indent) >>= ·)
    (funext fun t => ?_)
  have hwith : ∀ {u w : Value}, w.isNull = u.isNull → w = u.unwrap →
      r.withScope t.codes u scopes cx = r.withScope t.codes w scopes.unwrap cx := by
    rintro u w hnull rfl
    rw [Renderer.withScope, Renderer.withScope, hnull, hr.nodes,
      hr.nodes_push scopes cx t.codes u.unwrap_unwrap]
  simp only [hit_unwrap hhandler, hhandler, Handler.standard, Value.coerce_unwrap]
  rw [← Value.unwrap_coerce]
  obtain ⟨u, hu⟩ : ∃ u, (hit o p.name scopes).value.coerce = u := ⟨_, rfl⟩
  rw [hu]
  cases u with
  | optional content =>
    exact absurd hu ((hit o p.name scopes).value.coerce_ne_optional content)
  | deferred d =>
    rw [Value.unwrap_deferred]
    exact hr.await scopes cx d p.name (.inclusion t.codes)
  | _ => exact hwith rfl rfl

omit hhandler in
theorem extend (e : Extension Code) :
    r.extend o l e scopes cx = r.extend o l e scopes.unwrap cx := by
  simp only [Renderer.extend, fun cx codes => hr.nodes scopes cx codes]

theorem resumeWith (k : Awaiting) (x : Value) :
    r.resumeWith o l .counting k x scopes cx =
      r.resumeWith o l .counting k x.veiled scopes.unwrap cx := by
  cases k with
  | value v => exact hr.value hhandler scopes cx v x.coerce_veiled
  | sect s => exact hr.sect hhandler scopes cx s x.coerce_veiled
  | inclusion codes => exact hr.withScope scopes cx codes x
  | dynamic p => exact hr.dynamic hhandler scopes cx p x.coerce_veiled

theorem nodeWith (c : Code) :
    r.nodeWith o l .counting c scopes cx = r.nodeWith o l .counting c scopes.unwrap cx := by
  have hcoerce (x : Value) : x.unwrap.coerce = x.coerce.unwrap :=
    x.coerce_unwrap.trans x.unwrap_coerce.symm
  cases c with
  | text s => rfl
  | value v =>
    exact lookupTag_unwrap hhandler v.origin v.name scopes fun x =>
      hr.value hhandler scopes cx v (hcoerce x)
  | sect s =>
    exact lookupTag_unwrap hhandler s.origin s.name scopes fun x =>
      hr.sect hhandler scopes cx s (hcoerce x)
  | inclusion p => exact hr.inclusion hhandler scopes cx p
  | dynamic p =>
    refine congrArg (enter o cx p.name p.origin >>= ·) (funext fun cx => ?_)
    simp only [hit_unwrap hhandler]
    exact hr.dynamic hhandler scopes cx p (hcoerce _)
  | extend e => exact hr.extend scopes cx e
  | block b => exact hr.nodes scopes cx b.body
  | eof => rfl

end Unwraps

end Renderer

/-- With the usual handler, rendering does not see the optionals among the data. -/
theorem within_unwraps {o : Options} (l : Loader) (hhandler : o.handler = .standard) (n : Nat) :
    (within o l .counting n).Unwraps := by
  induction n with
  | zero => exact ⟨fun _ _ _ => rfl, fun _ _ _ _ => rfl⟩
  | succ n ih =>
    exact ⟨fun c scopes cx => ih.nodeWith hhandler scopes cx c,
      fun k x scopes cx => ih.resumeWith hhandler scopes cx k x⟩

end Plain

/-! ## Whole renders -/

/-- Putting optionals around values among the data changes nothing that can be seen of a render,
    whatever its store remembers. -/
theorem Template.renderWithin_wrapped {o : Options} {l : Loader} (hhandler : o.handler = .standard)
    (hschedule : o.schedule = none) {store store' : Store} (hstore : store.Faithful o l)
    (hstore' : store'.Faithful o l) (n : Nat) (t : Template) {scopes scopes' : Scopes}
    (hscopes : scopes.Wrapped scopes') (dest : Output) :
    (renderWithin n o t scopes' dest store').seen = (renderWithin n o t scopes dest store).seen := by
  have hreuse : ∀ name, Lookup.Reusable (o.handler.find name) := fun name => by
    rw [hhandler]
    exact Lookup.reusable_find name
  rw [(renderWithin_eq hschedule hreuse hstore' n t scopes' dest).1,
    (renderWithin_eq hschedule hreuse hstore n t scopes dest).1, Plain.renderWithin,
    Plain.renderWithin, (Plain.within_unwraps l hhandler n).nodes scopes' .start,
    (Plain.within_unwraps l hhandler n).nodes scopes .start, hscopes.unwrap_eq]

/-- A page over a list, with a deferred computation after it, and the same page with optionals
    around the list, around its elements and around what the computation comes to. -/
theorem Template.renderWithin_wrapped_page :
    let origin (offset : Nat) : Origin := ⟨.standard, "page", 1, true, .parsed 0 offset⟩
    let t : Template := ⟨"page", "",
      [.sect ⟨origin 0, "xs", false, .standard, "",
        [.text "<", .value ⟨origin 1, ".", .escaped⟩, .text ">"]⟩,
       .value ⟨origin 2, "d", .escaped⟩]⟩
    let scopes : Scopes := .ofList [.map [("xs", .list [.text "a", .null]),
      ("d", .deferred ⟨0, [.value (.text "later")]⟩)]]
    let scopes' : Scopes := .ofList [.map
      [("xs", .optional (some (.list [.optional (some (.text "a")), .optional none]))),
       ("d", .deferred ⟨0, [.value (.optional (some (.text "later")))]⟩)]]
    let r := renderWithin 5 .standard t scopes (.buffer "") (.new (.memory []))
    let r' := renderWithin 5 .standard t scopes' (.buffer "") (.new (.memory []))
    scopes.Wrapped scopes' ∧ r'.seen = r.seen ∧ r.final.streams.textOf 0 = "<a><>later" := by
  intro origin t scopes scopes' r r'
  have hscopes : scopes.Wrapped scopes' :=
    .cons (.map (.cons (.around (.list (.cons (.around (.refl _)) (.cons .empty .nil))))
      (.cons (.deferred (.value (.around (.refl _)) rfl .nil)) .nil))) .nil
  have hstore := Store.faithful_new .standard (.memory [])
  exact ⟨hscopes, renderWithin_wrapped rfl rfl hstore hstore 5 t hscopes (.buffer ""),
    by decide +kernel⟩

/-- An inclusion that has waited for an empty optional renders its template on one scope more than
    an inclusion that has waited for null. -/
theorem Template.renderWithin_emptyDeferred :
    let origin (offset : Nat) : Origin := ⟨.standard, "page", 1, true, .parsed 0 offset⟩
    let t : Template := ⟨"page", "",
      [.sect ⟨origin 0, "s", false, .standard, "", [.inclusion ⟨origin 1, "p", ""⟩]⟩]⟩
    let text (outcome : Value) : String :=
      (renderWithin 9 .standard t
        (.ofList [.map [("s", .text "hi"), ("p", .deferred ⟨0, [.value outcome]⟩)]]) (.buffer "")
        (.new (.memory [("p", .text "\x7b\x7b.\x7d\x7d")]))).final.streams.textOf 0
    text .null = "hi" ∧ text (.optional none) = "" := by
  decide +kernel

end Mustache
