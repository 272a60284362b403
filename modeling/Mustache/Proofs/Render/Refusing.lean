import Mustache.Proofs.Render.OnlyRefused
import Mustache.Proofs.Render.Refused

/-! # Refused calls

A render over a sink that refuses one of its calls, against the same render over a sink that takes
all and has succeeded.

* `Template.refusing_cases` — what becomes of the sink, with every allowance and whether or not the
  render comes to its end.
* `Template.Foreseen` — renders whose computations come to the same whatever has run before.
* `Template.renderWithin_refusing` — a refused call is the last one, and comes to light.
-/

namespace Mustache

open Streams (handed refusal)

/-- The texts that a sink has taken. -/
def Output.chunks? : Output → Option (List String)
  | .buffer _ => none
  | .sink s => some s.chunks

/-- Whether something has ended with a refusal of text. -/
def Stop.isRefusal {α : Type} : Except Stop α → Bool
  | .error (.error (.render (.output _))) => true
  | _ => false

namespace Template

variable {o : Options} {t : Template} {scopes : Scopes} {dest : Output} {store : Store} {n : Nat}

theorem destination_eq {w : World} (h : w.streams.outputs[0]? = some dest) :
    destination w = dest := by
  rw [destination, h]
  rfl

/-- The sink that refuses a call has taken what the other one has been given before that call, and
    has not been called again.  If there is no such call, both renders are the same.  If there is
    one, no writer that the render hands on leads to its sink any more. -/
theorem refusing_cases (o : Options) (t : Template) (scopes : Scopes) (store : Store) (n k : Nat)
    (cause : String) :
    let r := renderWithin n o t scopes (.sink .accepting) store
    let r' := renderWithin n o t scopes (.sink (.refusing k cause)) store
    ∃ s s' : Sink, destination r.final = .sink s ∧ destination r'.final = .sink s' ∧
      s'.chunks = s.chunks.take k ∧ s'.calls = min s.chunks.length (k + 1) ∧
      (s.chunks.length ≤ k → r'.handedOn = r.handedOn ∧ r'.result = r.result ∧
        (Completes n o t scopes (.sink .accepting) store →
          Completes n o t scopes (.sink (.refusing k cause)) store)) ∧
      (k < s.chunks.length → r'.final.streams.Clear (handed r'.handedOn) ∧
        (o.schedule = none → r'.handedOn = .error (.error (refusal cause)))) := by
  intro r r'
  obtain ⟨hhanded, hresult, hfinal, hends⟩ | ⟨hsplit, hclear, hrefused⟩ :=
    abreast (Sink.abreast k cause) ⟨[], Nat.zero_le k, rfl, rfl⟩ n o t scopes store
  · obtain ⟨_, _, hdest, hdest', taken, hle, rfl, rfl⟩ := hfinal.streams.first
    have hlength : (Sink.accepting.having taken).chunks.length = taken.length := List.length_reverse
    refine ⟨_, _, destination_eq hdest, destination_eq hdest', ?_, ?_,
      fun _ => ⟨hhanded, hresult, hends⟩,
      fun hlt => absurd hlt (Nat.not_lt.mpr (hlength ▸ hle))⟩
    · rw [List.take_of_length_le (hlength ▸ hle)]
      rfl
    · rw [hlength, Nat.min_eq_left (Nat.le_succ_of_le hle)]
      rfl
  · obtain ⟨_, _, hdest, hdest', taken, more, hlen, hmore, rfl, rfl⟩ := hsplit
    have hlt : k < (Sink.accepting.having (more ++ taken)).chunks.length := by
      have hlength : (Sink.accepting.having (more ++ taken)).chunks.length =
          (more ++ taken).length := List.length_reverse
      have hpos := List.length_pos_iff.mpr hmore
      rw [hlength, List.length_append]
      omega
    refine ⟨_, _, destination_eq hdest, destination_eq hdest', ?_, ?_,
      fun hle => absurd hlt (Nat.not_lt.mpr hle),
      fun _ => ⟨(Streams.allLead_append.mp hclear).2, hrefused⟩⟩
    · change taken.reverse = (more ++ taken).reverse.take k
      rw [List.reverse_append, ← hlen, ← taken.length_reverse, List.take_left]
    · rw [Nat.min_eq_right hlt]

/-- What the computations of a render come to does not depend on what has run before: nothing is put
    off, or the data is steady and the store holds what a loader gives. -/
def Foreseen (o : Options) (scopes : Scopes) (store : Store) : Prop :=
  o.schedule = none ∨ ∃ l, (∀ name, Lookup.Reusable (o.handler.find name)) ∧
    o.handler.Keeps Value.Steady ∧ store.Faithful o l ∧ scopes.All Value.Steady

/-- Where a render over a sink that takes all succeeds, and what its computations come to does not
    depend on what has run before, the render over a sink that refuses a call comes to its end, and
    fails by the refusal only. -/
theorem Foreseen.only_refused (hforeseen : Foreseen o scopes store)
    (h : Completes n o t scopes (.sink .accepting) store)
    (hok : (renderWithin n o t scopes (.sink .accepting) store).result = .ok ()) (k : Nat)
    (cause : String) :
    ∃ least, ∀ m, least ≤ m → Completes m o t scopes (.sink (.refusing k cause)) store ∧
      ∀ e, (renderWithin m o t scopes (.sink (.refusing k cause)) store).result =
        .error (.error e) → e = refusal cause := by
  obtain hschedule | ⟨l, hreuse, hkeeps, hstore, hscopes⟩ := hforeseen
  · refine ⟨n, fun m hle => ?_⟩
    have hsame := h.renderWithin_more hle
    obtain ⟨s, -, -, -, -, -, hall, hfewer⟩ := refusing_cases o t scopes store m k cause
    obtain hlt | hle' := Nat.lt_or_ge k s.chunks.length
    · obtain ⟨-, hhanded⟩ := hfewer hlt
      refine ⟨.of_none hschedule (by rw [hhanded hschedule]; nofun), fun e heq => ?_⟩
      rw [result_renderWithin, hhanded hschedule] at heq
      cases heq
      rfl
    · obtain ⟨-, hresult, hends⟩ := hall hle'
      refine ⟨hends (h.more hle), fun e heq => ?_⟩
      rw [hresult, hsame, hok] at heq
      cases heq
  · obtain ⟨top, hwell⟩ := h.well l hreuse hkeeps Oracle.steady_models hstore hscopes hok
    exact Template.only_refused hreuse hkeeps Oracle.steady_models hstore hscopes
      (Sink.refusesFor_refusing k cause) hwell

/-- **A refused call comes to light, and is the last one.**  A render over data without panics
    succeeds over a sink that takes all.  Over a sink that refuses one call the same texts are taken
    up to that call, and none is given to it afterwards.  If there are no more calls than that, the
    render succeeds with the same writer.  If there are, and the render comes to its end, it fails,
    at once or when it is waited for.  Where what its computations come to does not depend on what
    has run before, it does come to its end, and fails by the refusal. -/
theorem renderWithin_refusing (o : Options) (t : Template) {scopes : Scopes} (store : Store)
    (n k : Nat) (cause : String) (hkeeps : o.handler.Keeps Value.Calm)
    (hscopes : scopes.All Value.Calm) (h : Completes n o t scopes (.sink .accepting) store)
    (hok : (renderWithin n o t scopes (.sink .accepting) store).result = .ok ()) :
    let r := renderWithin n o t scopes (.sink .accepting) store
    let r' (m : Nat) := renderWithin m o t scopes (.sink (.refusing k cause)) store
    let ends (m : Nat) := Completes m o t scopes (.sink (.refusing k cause)) store
    ∃ s : Sink, destination r.final = .sink s ∧
      (∀ m, n ≤ m →
        (∃ s' : Sink, destination (r' m).final = .sink s' ∧ s'.chunks = s.chunks.take k ∧
          s'.calls = min s.chunks.length (k + 1)) ∧
        (s.chunks.length ≤ k →
          ends m ∧ (r' m).result = .ok () ∧ (r' m).handedOn = r.handedOn) ∧
        (k < s.chunks.length → ends m →
          ∃ e, (r' m).result = .error (.error e) ∧ (Foreseen o scopes store → e = refusal cause))) ∧
      (Foreseen o scopes store → ∃ least, ∀ m, least ≤ m → ends m) := by
  intro r r' ends
  obtain ⟨s, -, hs, -⟩ := refusing_cases o t scopes store n k cause
  refine ⟨s, hs, fun m hle => ?_, fun hforeseen => ?_⟩
  · have hsame := h.renderWithin_more hle
    obtain ⟨s₁, s', hs₁, hs', hchunks, hcalls, hall, hfewer⟩ :=
      refusing_cases o t scopes store m k cause
    obtain rfl : s₁ = s := by
      rw [hsame] at hs₁
      exact Output.sink.inj (hs₁.symm.trans hs)
    rw [hsame] at hall
    refine ⟨⟨s', hs', hchunks, hcalls⟩, fun hfits => ?_, fun hlt hends => ?_⟩
    · obtain ⟨hhanded, hresult, hends⟩ := hall hfits
      exact ⟨hends (h.more hle), hresult.trans hok, hhanded⟩
    · obtain ⟨hclear, -⟩ := hfewer hlt
      obtain ⟨e, hresult⟩ := hends.fails
        (Renderer.calm_within hkeeps m t.codes hscopes .start _ (.direct 0)) hclear
      refine ⟨e, hresult, fun hforeseen => ?_⟩
      obtain ⟨least, hleast⟩ := hforeseen.only_refused h hok k cause
      refine (hleast (max m least) (Nat.le_max_right m least)).2 e ?_
      rw [hends.renderWithin_more (Nat.le_max_left m least)]
      exact hresult
  · obtain ⟨least, hleast⟩ := hforeseen.only_refused h hok k cause
    exact ⟨least, fun m hm => (hleast m hm).1⟩

/-- Whether a render has come to its end. -/
def ends (n : Nat) (o : Options) (t : Template) (scopes : Scopes) (destination : Output)
    (store : Store) : Bool :=
  let r := renderWithin n o t scopes destination store
  !ranOut r.handedOn && r.final.queue.isEmpty &&
    (turns n o t scopes destination store).all fun turn =>
      !ranOut ((Renderer.within o n).perform turn.1 turn.2).1

theorem completes_of_ends (h : ends n o t scopes dest store = true) :
    Completes n o t scopes dest store := by
  simp only [ends, Bool.and_eq_true, Bool.not_eq_true'] at h
  obtain ⟨⟨hnodes, hqueue⟩, hturns⟩ := h
  refine ⟨ne_exhausted_of_ranOut hnodes, fun turn hturn => ?_, List.isEmpty_iff.mp hqueue⟩
  exact ne_exhausted_of_ranOut (Bool.not_eq_true' _ ▸ List.all_eq_true.mp hturns turn hturn)

theorem result_of_isOk {r : Report} (h : r.result.isOk = true) : r.result = .ok () := by
  cases hresult : r.result with
  | ok _ => rfl
  | error _ =>
    rw [hresult] at h
    cases h

/-- A section that waits for its value and holds a value that is waited for, with the newest job
    first; the second call is refused, in the job of the section. -/
theorem renderWithin_refusing_second :
    let codes := match Code.parse ⟨"page", 0, []⟩ .standard "<{{#a}}({{b}}){{/a}}>" with
      | .ok codes => codes
      | .error _ => []
    let t : Template := ⟨"page", "", codes⟩
    let o : Options := { Options.standard with schedule := some .newestFirst }
    let scopes : Scopes := .ofList [.map [("a", .deferred ⟨0, [.value (.bool true)]⟩),
      ("b", .deferred ⟨1, [.value (.text "x")]⟩)]]
    let store : Store := .new (.memory [])
    let r := renderWithin 9 o t scopes (.sink .accepting) store
    let r' := renderWithin 9 o t scopes (.sink (.refusing 1 "closed")) store
    o.handler.Keeps Value.Calm ∧ scopes.All Value.Calm ∧
      Completes 9 o t scopes (.sink .accepting) store ∧ r.result = .ok () ∧
      (∃ s : Sink, destination r.final = .sink s ∧ s.chunks = ["<", "(", "x", ")>"]) ∧
      (∃ s' : Sink, destination r'.final = .sink s' ∧ s'.chunks = ["<"] ∧ s'.calls = 2) ∧
      r'.result = .error (.error (refusal "closed")) ∧
      ∃ least, ∀ m, least ≤ m → Completes m o t scopes (.sink (.refusing 1 "closed")) store := by
  intro codes t o scopes store r r'
  have hkeeps : o.handler.Keeps Value.Calm := Handler.standard_keeps_throughout _ _
  have hcalm : scopes.All Value.Calm := by
    intro v hv
    obtain rfl := List.mem_singleton.mp hv
    refine .map fun e he => ?_
    simp only [List.mem_cons, List.not_mem_nil, or_false] at he
    obtain rfl | rfl := he
    · exact Value.Throughout.of_values (List.forall_mem_singleton.mpr ⟨_, rfl, .bool true⟩)
    · exact Value.Throughout.of_values (List.forall_mem_singleton.mpr ⟨_, rfl, .text "x"⟩)
  have hsteady : scopes.All Value.Steady := by
    intro v hv
    obtain rfl := List.mem_singleton.mp hv
    refine .map fun e he => ?_
    simp only [List.mem_cons, List.not_mem_nil, or_false] at he
    obtain rfl | rfl := he
    · exact .once 0 fun _ h => by
        cases h
        exact .bool true
    · exact .once 1 fun _ h => by
        cases h
        exact .text "x"
  have h : Completes 9 o t scopes (.sink .accepting) store :=
    completes_of_ends (by decide +kernel)
  have h' : Completes 9 o t scopes (.sink (.refusing 1 "closed")) store :=
    completes_of_ends (by decide +kernel)
  have hok : r.result = .ok () := result_of_isOk (by decide +kernel)
  have hforeseen : Foreseen o scopes store := .inr ⟨.memory [], Lookup.reusable_find,
    Handler.standard_keeps_steady, Store.faithful_new _ _, hsteady⟩
  obtain ⟨s, hs, hall, hends⟩ := renderWithin_refusing o t store 9 1 "closed" hkeeps hcalm h hok
  obtain ⟨⟨s', hs', hchunks', hcalls⟩, -, hfails⟩ := hall 9 (Nat.le_refl 9)
  have hchunks : s.chunks = ["<", "(", "x", ")>"] := by
    have hgiven : (destination r.final).chunks? = some ["<", "(", "x", ")>"] := by
      decide +kernel
    rw [hs] at hgiven
    exact Option.some.inj hgiven
  rw [hchunks] at hchunks' hcalls hfails
  obtain ⟨e, hresult, hrefused⟩ := hfails (by decide) h'
  exact ⟨hkeeps, hcalm, h, hok, ⟨s, hs, hchunks⟩, ⟨s', hs', hchunks', hcalls⟩,
    hrefused hforeseen ▸ hresult, hends hforeseen⟩

/-- A computation that comes to something else when it runs again.  Where a refusal keeps its first
    run from being made, the second tag that has it gets what was meant for the first one, which
    names no template; the render fails by that, and not by the refusal. -/
theorem renderWithin_refusing_unsteady :
    let codes := match Code.parse ⟨"page", 0, []⟩ .standard "{{#s}}x{{d}}{{/s}}{{>*d}}" with
      | .ok codes => codes
      | .error _ => []
    let t : Template := ⟨"page", "", codes⟩
    let o : Options :=
      { Options.standard with schedule := some (.picking [0, 1]), strict := true }
    let scopes : Scopes := .ofList [.map [("s", .deferred ⟨0, [.value (.bool true)]⟩),
      ("d", .deferred ⟨1, [.value (.text "nosuch"), .value (.text "")]⟩)]]
    let store : Store := .new (.memory [])
    let r := renderWithin 9 o t scopes (.sink .accepting) store
    let r' := renderWithin 9 o t scopes (.sink (.refusing 0 "closed")) store
    scopes.All Value.Calm ∧ Completes 9 o t scopes (.sink .accepting) store ∧ r.result = .ok () ∧
      Completes 9 o t scopes (.sink (.refusing 0 "closed")) store ∧
      (∃ s, destination r.final = .sink s ∧ s.chunks = ["x", "nosuch"]) ∧
      ¬ ∃ cause, r'.result = .error (.error (refusal cause)) := by
  intro codes t o scopes store r r'
  have hcalm : scopes.All Value.Calm := by
    intro v hv
    obtain rfl := List.mem_singleton.mp hv
    refine .map fun e he => ?_
    simp only [List.mem_cons, List.not_mem_nil, or_false] at he
    obtain rfl | rfl := he
    · exact Value.Throughout.of_values (List.forall_mem_singleton.mpr ⟨_, rfl, .bool true⟩)
    · refine Value.Throughout.of_values (List.forall_mem_cons.mpr ⟨⟨_, rfl, .text _⟩,
        List.forall_mem_singleton.mpr ⟨_, rfl, .text _⟩⟩)
  refine ⟨hcalm, completes_of_ends (by decide +kernel), result_of_isOk (by decide +kernel),
    completes_of_ends (by decide +kernel), ?_, ?_⟩
  · have hchunks : Output.chunks? (destination r.final) = some ["x", "nosuch"] := by decide +kernel
    cases hdest : destination r.final with
    | buffer _ =>
      rw [hdest] at hchunks
      cases hchunks
    | sink s =>
      rw [hdest] at hchunks
      exact ⟨s, rfl, Option.some.inj hchunks⟩
  · rintro ⟨cause, hresult⟩
    have hother : Stop.isRefusal r'.result = false := by decide +kernel
    rw [hresult] at hother
    cases hother

end Template

end Mustache
