import Mustache.Proofs.Render.Halting
import Mustache.Proofs.Render.Settling

/-! # Nested inclusions

How deep a render without a schedule gets.  To say what a render comes to on its way, it is done
again by a renderer that watches out for some nodes, in some contexts, and stops where it comes to
one.  Up to there both do the same.

* `Renderer.watching` — a renderer that watches.
* `Template.Reaches` — a render comes to a node that is watched for.
* `Renderer.watched_within` — a render that comes to such a node ends as the node does.
* `Template.renderWithin_ends` — renders end, and never nest inclusions deeper than they may.
-/

namespace Mustache

/-- Whether a node includes or extends a template. -/
def Code.includes : Code → Bool
  | .inclusion _ => true
  | .dynamic _ => true
  | .extend _ => true
  | _ => false

/-- The renderer with an allowance of nesting that stops before it renders a node that is watched
    for. -/
def Renderer.watching (o : Options) (P : Code → Context → Bool) : Nat → Renderer
  | 0 => ⟨fun _ _ _ _ => Render.stop .exhausted, fun _ _ _ _ _ => Render.stop .exhausted⟩
  | n + 1 =>
    let r := watching o P n
    ⟨fun c scopes cx out => if P c cx then Render.stop .blocked else r.nodeWith o c scopes cx out,
      r.resumeWith o⟩

/-- Watching for nothing is rendering. -/
theorem Renderer.watching_nothing (o : Options) (n : Nat) :
    watching o (fun _ _ => false) n = within o n := by
  induction n with
  | zero => rfl
  | succ n ih =>
    rw [watching, ih]
    rfl

/-- Whether a render comes to a node that is watched for.  Without a schedule there is nothing else
    that a render would wait for in vain. -/
def Template.reaches (P : Code → Context → Bool) (n : Nat) (o : Options) (t : Template)
    (scopes : Scopes) (destination : Output) (store : Store) : Bool :=
  match ((Renderer.watching o P n).nodes t.codes scopes .start (.direct 0)
    (.start store ⟨[destination], []⟩)).1 with
  | .error .blocked => true
  | _ => false

/-- Of an action with a renderer that watches and the one with a renderer that does not: they do the
    same, or the first one stops, as it watches, and the second one fails with an error of some
    kind. -/
def Render.Watched (Q : Error → Prop) (x : Bool → Writer → Render Writer) : Prop :=
  ∀ (w : World) (out : Writer), x true out w = x false out w ∨
    (x true out w).1 = .error .blocked ∧ ∃ e, (x false out w).1 = .error (.error e) ∧ Q e

namespace Render.Watched

variable {Q : Error → Prop} {x y : Bool → Writer → Render Writer}

theorem of_const (x : Writer → Render Writer) : Watched Q fun _ => x := fun _ _ => .inl rfl

theorem seq (hx : Watched Q x) (hy : Watched Q y) :
    Watched Q fun i out => x i out >>= y i := by
  intro w out
  simp only [bind]
  obtain heq | ⟨hstop, e, he, hQ⟩ := hx w out
  · rw [heq]
    rcases x false out w with ⟨cause | out', after⟩
    · exact .inl rfl
    · exact hy after out'
  · rcases hran' : x true out w with ⟨result', after'⟩
    rcases hran : x false out w with ⟨result, after⟩
    rw [hran'] at hstop
    rw [hran] at he
    obtain rfl : result' = .error .blocked := hstop
    obtain rfl : result = .error (.error e) := he
    exact .inr ⟨rfl, e, rfl, hQ⟩

theorem load (z : Store.Action Template) {y : Template → Bool → Writer → Render Writer}
    (hy : ∀ t, Watched Q (y t)) :
    Watched Q (fun i out => do let t ← Render.withStore z; y t i out) := by
  intro w out
  simp only [bind, Render.withStore]
  cases z w.store with
  | error e => exact .inl rfl
  | ok loaded => exact hy loaded.1 _ out

theorem captured (hx : Watched Q x) {y : String → Bool → Writer → Render Writer}
    (hy : ∀ text, Watched Q (y text)) :
    Watched Q (fun i out => do let text ← Render.captured (x i); y text i out) := by
  intro w out
  let buffer : Writer := .direct (w.streams.openOutput (.buffer "")).1
  let opened : World := { w with streams := (w.streams.openOutput (.buffer "")).2 }
  simp only [bind, Render.captured_eq]
  obtain heq | ⟨hstop, e, he, hQ⟩ := hx opened buffer
  · rw [show x true buffer opened = x false buffer opened from heq]
    rcases x false buffer opened with ⟨result, after⟩
    simp only
    cases (result.bind fun out => Render.ofResult (after.streams.finish out)).map fun _ =>
        after.streams.textOf (w.streams.openOutput (.buffer "")).1 with
    | error cause => exact .inl rfl
    | ok text => exact hy text after out
  · rcases hran' : x true buffer opened with ⟨result', after'⟩
    rcases hran : x false buffer opened with ⟨result, after⟩
    rw [hran'] at hstop
    rw [hran] at he
    obtain rfl : result' = .error .blocked := hstop
    obtain rfl : result = .error (.error e) := he
    exact .inr ⟨rfl, e, rfl, hQ⟩

theorem run {y : Value → Bool → Writer → Render Writer} (d : Deferred Value) (name : String)
    (hy : ∀ v n, d.outcome n = .value v → Watched Q (y v)) :
    Watched Q (fun i out => do let v ← Render.runFor d name; y v i out) := by
  intro w out
  simp only [bind, Render.runFor, Render.run]
  cases houtcome : d.outcome ((w.runs.get? d.id).getD 0) with
  | value v => exact hy v _ houtcome _ out
  | failure message => exact .inl rfl
  | panic message => exact .inl rfl

end Render.Watched

variable {o : Options} {P : Code → Context → Bool} {Q : Error → Prop}

theorem Render.uniform_watched (hschedule : o.schedule = none)
    (hkeeps : o.handler.Keeps Value.Tame) :
    Uniform Bool o Value.Tame (Render.Watched Q) where
  keeps := hkeeps
  unscheduled := hschedule
  text _ h := h.of_lambda
  skip := .of_const _
  fail _ := .of_const _
  seq := .seq
  write _ := .of_const _
  load z _ hy := .load z hy
  lookup {y} n scopes hscopes hy := by
    intro w out
    exact hy (w.store.lookup o n scopes).1 (Store.lookup_value hkeeps hscopes n w.store) _ out
  captured hx hy := .captured hx hy
  run {y} d name hd hy :=
    .run d name fun v n hv => hy v n hv (hd.of_deferred.2 n v hv)

namespace Renderer

/-- A renderer that watches, and the one that does not. -/
def pair (o : Options) (P : Code → Context → Bool) (n : Nat) : Bool → Renderer
  | true => watching o P n
  | false => within o n

theorem watching_node_of_true {c : Code} {cx : Context} (h : P c cx = true) (n : Nat)
    (scopes : Scopes) (out : Writer) :
    (watching o P (n + 1)).node c scopes cx out = Render.stop .blocked :=
  if_pos h

theorem watching_node_of_false {c : Code} {cx : Context} (h : P c cx = false) (n : Nat)
    (scopes : Scopes) (out : Writer) :
    (watching o P (n + 1)).node c scopes cx out =
      (watching o P n).nodeWith o c scopes cx out :=
  if_neg (Bool.eq_false_iff.mp h)

/-- What is watched for is met at the node, or in it. -/
theorem watched_node {n : Nat} {c : Code} {scopes : Scopes} {cx : Context}
    (hfails : P c cx = true → ∀ out w,
      ∃ e, ((within o (n + 1)).node c scopes cx out w).1 = .error (.error e) ∧ Q e)
    (hnode : Render.Watched Q fun i => (pair o P n i).nodeWith o c scopes cx) :
    Render.Watched Q fun i => (pair o P (n + 1) i).node c scopes cx := by
  intro w out
  change (watching o P (n + 1)).node c scopes cx out w = (within o (n + 1)).node c scopes cx out w ∨
    ((watching o P (n + 1)).node c scopes cx out w).1 = .error .blocked ∧
      ∃ e, ((within o (n + 1)).node c scopes cx out w).1 = .error (.error e) ∧ Q e
  cases hwatch : P c cx with
  | true =>
    rw [watching_node_of_true hwatch]
    exact .inr ⟨rfl, hfails hwatch out w⟩
  | false =>
    rw [watching_node_of_false hwatch]
    exact hnode w out

/-- **Watching a render.**  If all the nodes that are watched for fail with an error of some kind,
    as long as inclusions are nested no deeper than they may, a render does the same whether or not
    it watches, or it stops, as it watches, and would fail with such an error. -/
theorem watched_within (hschedule : o.schedule = none) (hkeeps : o.handler.Keeps Value.Tame)
    (hfails : ∀ c cx, cx.depth ≤ o.recursionLimit → P c cx = true → ∀ n scopes out w,
      ∃ e, ((within o (n + 1)).node c scopes cx out w).1 = .error (.error e) ∧ Q e)
    (n depth : Nat) (hdepth : depth ≤ o.recursionLimit) :
    Uniform.Level Value.Tame (Render.Watched Q) (pair o P n) depth := by
  have h : Uniform Bool o Value.Tame (Render.Watched Q) :=
    Render.uniform_watched hschedule hkeeps
  induction n generalizing depth with
  | zero =>
    exact
      { renders := fun _ _ cx _ _ => h.nodes cx fun _ _ _ _ => .inl rfl
        resumes := fun _ _ _ _ _ _ _ _ _ => .inl rfl }
  | succ n ih =>
    have hlevel := ih depth hdepth
    refine ⟨fun codes scopes cx hscopes hcx => h.nodes cx fun c _ => ?_,
      fun k v hv scopes cx hscopes hcx => ?_⟩
    · subst hcx
      refine watched_node (fun hwatch => hfails c cx hdepth hwatch n scopes) ?_
      exact h.nodeWith hscopes cx (fun hlt => ih (cx.depth + 1) hlt)
        (fun k v hv _ => hlevel.resumes k v hv) (fun s _ => hlevel.renders s.body)
        fun b _ => hlevel.renders b.body
    · subst hcx
      exact h.resumeWith hscopes cx hv (.of_renders hlevel.renders k) fun _ w _ _ _ hw =>
        hlevel.resumes k w hw

/-- A node that includes or extends a template fails where inclusions are nested as deep as they
    may. -/
theorem node_of_includes {c : Code} (hc : c.includes = true) {cx : Context}
    (hdepth : o.recursionLimit ≤ cx.depth) (n : Nat) (scopes : Scopes) (out : Writer) (w : World) :
    ∃ name file line, ((within o (n + 1)).node c scopes cx out w).1 =
      .error (.error (.render (.recursionLimit name o.recursionLimit file line))) := by
  have henter (name file : String) (line : Nat) : cx.enter o name file line =
      .error (.recursionLimit name o.recursionLimit file line) := if_pos hdepth
  cases c with
  | inclusion p =>
    refine ⟨p.name, p.origin.file, p.origin.line, ?_⟩
    change (inclusion o (within o n) p scopes cx out w).1 = _
    simp only [inclusion, henter]
    rfl
  | dynamic p =>
    refine ⟨p.name, p.origin.file, p.origin.line, ?_⟩
    change (nodeWith o (within o n) (.dynamic p) scopes cx out w).1 = _
    simp only [nodeWith, henter]
    rfl
  | extend e =>
    refine ⟨e.name, e.origin.file, e.origin.line, ?_⟩
    change (extend o (within o n) e scopes cx out w).1 = _
    simp only [extend, henter]
    rfl
  | _ => cases hc

end Renderer

namespace Template

variable (hschedule : o.schedule = none) (hkeeps : o.handler.Keeps Value.Tame)
  {scopes : Scopes} (hscopes : scopes.All Value.Tame)
include hschedule hkeeps hscopes

/-- A render that comes to a node that is watched for fails as the node does. -/
theorem result_of_reaches
    (hfails : ∀ c cx, cx.depth ≤ o.recursionLimit → P c cx = true → ∀ n scopes out w,
      ∃ e, ((Renderer.within o (n + 1)).node c scopes cx out w).1 = .error (.error e) ∧ Q e)
    {n : Nat} {t : Template} {destination : Output} {store : Store}
    (h : reaches P n o t scopes destination store = true) :
    ∃ e, (renderWithin n o t scopes destination store).result = .error (.error e) ∧ Q e := by
  have hwatched := (Renderer.watched_within hschedule hkeeps hfails n 0 (Nat.zero_le _)).renders
    t.codes scopes .start hscopes rfl (.start store ⟨[destination], []⟩) (.direct 0)
  simp only [Renderer.pair] at hwatched
  simp only [reaches] at h
  split at h
  · next hstop =>
    rw [renderWithin_of_none hschedule]
    obtain heq | ⟨-, e, he, hQ⟩ := hwatched
    · -- Rendering itself does not stop so.
      rw [heq] at hstop
      rcases hran : (Renderer.within o n).nodes t.codes scopes .start (.direct 0)
        (.start store ⟨[destination], []⟩) with ⟨result, after⟩
      rw [hran] at hstop
      obtain rfl : result = .error .blocked := hstop
      exact absurd rfl (attended_nodes hran (by simp)).1
    · exact ⟨e, by simp only [he], hQ⟩
  · cases h

omit hscopes in
/-- **Renders end, and nest inclusions no deeper than they may.**  Without a schedule, and over data
    without template lambdas in which every deferred computation comes to a value or fails, a
    render comes to one and the same end with every allowance of nesting that is great enough,
    whatever the templates include and extend and whatever has been remembered: everything is
    written, or there is an error.  It renders nothing deeper in inclusions than the limit, and if
    it comes to a node that includes or extends a template where inclusions are nested that deep, it
    fails as they are nested too deep.  The handler has to make no deferred computations of its
    own. -/
theorem renderWithin_ends (hsees : o.handler.SeesDeferred) (t : Template) (scopes : Scopes)
    (hscopes : scopes.All Value.Tame) (destination : Output) (store : Store) :
    (∃ least, ∀ n, least ≤ n →
      renderWithin n o t scopes destination store =
          renderWithin least o t scopes destination store ∧
        ((renderWithin n o t scopes destination store).result = .ok () ∨
          ∃ e, (renderWithin n o t scopes destination store).result = .error (.error e))) ∧
    ∀ n,
      reaches (fun _ cx => o.recursionLimit < cx.depth) n o t scopes destination store = false ∧
      (reaches (fun c cx => c.includes && o.recursionLimit ≤ cx.depth) n o t scopes destination
          store = true →
        ∃ name file line, (renderWithin n o t scopes destination store).result =
          .error (.error (.render (.recursionLimit name o.recursionLimit file line)))) := by
  refine ⟨ends_renderWithin hschedule hkeeps hsees t hscopes destination store,
    fun n => ⟨Bool.eq_false_iff.mpr fun h => ?_, fun h => ?_⟩⟩
  · obtain ⟨_, -, hnever⟩ := result_of_reaches (Q := fun _ => False) hschedule hkeeps hscopes
      (fun c cx hle hlt => absurd hle (Nat.not_le.mpr (of_decide_eq_true hlt))) h
    exact hnever
  · obtain ⟨e, hresult, name, file, line, rfl⟩ := result_of_reaches
      (Q := fun e => ∃ name file line,
        e = .render (.recursionLimit name o.recursionLimit file line))
      hschedule hkeeps hscopes (fun c cx _ hwatch n scopes out w => by
        obtain ⟨hincludes, hdepth⟩ := Bool.and_eq_true_iff.mp hwatch
        obtain ⟨name, file, line, hnode⟩ := Renderer.node_of_includes hincludes
          (of_decide_eq_true hdepth) n scopes out w
        exact ⟨_, hnode, name, file, line, rfl⟩) h
    exact ⟨name, file, line, hresult⟩

omit hschedule hkeeps hscopes in
/-- A page that includes itself for every element of a list, which has to be computed first. -/
theorem renderWithin_ends_cyclic :
    let codes := match Code.parse ⟨"page", 0, []⟩ .standard "{{#a}}{{.}}{{>page}}{{/a}}" with
      | .ok codes => codes
      | .error _ => []
    let t : Template := ⟨"page", "", codes⟩
    let items : Value := .list [.int 1, .text "y"]
    let scopes : Scopes := .ofList [.map [("a", .deferred ⟨0, [.value (.optional (some items))]⟩)]]
    let o : Options := { Options.standard with recursionLimit := 2 }
    let store : Store := .new (.memory [("page", .text "{{#a}}{{.}}{{>page}}{{/a}}")])
    let report (n : Nat) := renderWithin n o t scopes (.buffer "") store
    o.schedule = none ∧ o.handler.Keeps Value.Tame ∧ o.handler.SeesDeferred ∧
      scopes.All Value.Tame ∧
      (∃ least, ∀ n, least ≤ n → report n = report least ∧
        ((report n).result = .ok () ∨ ∃ e, (report n).result = .error (.error e))) ∧
      reaches (fun c cx => c.includes && o.recursionLimit ≤ cx.depth) 9 o t scopes (.buffer "")
        store = true ∧
      ∃ name file line, (report 9).result =
        .error (.error (.render (.recursionLimit name 2 file line))) := by
  intro codes t items scopes o store report
  have hkeeps : o.handler.Keeps Value.Tame := Handler.standard_keeps_throughout _ _
  have hitems : items.Tame := by
    refine .list fun v hv => ?_
    obtain rfl | hv := List.mem_cons.mp hv
    · exact .int 1
    · obtain rfl := List.mem_singleton.mp hv
      exact .text "y"
  have hscopes : scopes.All Value.Tame := by
    intro v hv
    obtain rfl := List.mem_singleton.mp hv
    refine .map fun e he => ?_
    obtain rfl := List.mem_singleton.mp he
    refine .of_values (List.forall_mem_singleton.mpr ⟨_, rfl, .optional ?_⟩)
    rintro _ ⟨⟩
    exact hitems
  have hreaches : reaches (fun c cx => c.includes && o.recursionLimit ≤ cx.depth) 9 o t scopes
      (.buffer "") store = true := by
    decide +kernel
  obtain ⟨hends, hlimit⟩ := renderWithin_ends rfl hkeeps Handler.standard_seesDeferred t scopes
    hscopes (.buffer "") store
  exact ⟨rfl, hkeeps, Handler.standard_seesDeferred, hscopes, hends, hreaches,
    (hlimit 9).2 hreaches⟩

end Template

end Mustache
