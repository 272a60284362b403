import Mustache.Proofs.Code.Matching

/-! # Attempts

Matching answers with names and what is left of the text, or with nothing at all.  Here it goes over
the text with a position that it moves, and over names that it adds to, and where something does not
match, what has been done by then stays done: only a list of nodes puts the position back.  No name
that was recovered on the way to a failure is seen again, as the names of a round and those of a
negated section are kept apart until they have matched.  So attempts come to what matching comes to.

* `Attempt` — a position in a text, and the names recovered so far.
* `attemptNode`, `attemptEach`, `attemptAll` — matching with what stays of a failure.
* `Attempt.Stays` — the position neither falls back nor leaves the text.
* `answer_attemptAll` — attempts come to what matching comes to.
* `Turns` — the rounds of a section, up to the one that fails or uses nothing up.
* `attempts_recover` — what is left of position and names, whether something matches or not.
-/

namespace Mustache.Code

/-! ## Attempts -/

/-- How far a text has been matched, in characters, and the names recovered so far. -/
structure Attempt where
  names : List (String × Recovered)
  pos : Nat

/-- Whether something matches, and what has become of the position and the names by then. -/
structure Attempt.Result where
  matched : Bool
  state : Attempt

namespace Attempt

def fail (a : Attempt) : Result :=
  ⟨false, a⟩

/-- The position goes back to where it was, unless something has matched.  The names stay as they
    have become. -/
def restore (a : Attempt) (r : Result) : Result :=
  if r.matched then r else ⟨false, { r.state with pos := a.pos }⟩

/-- A name that cannot be given a value keeps what it has. -/
def bind (name : String) (v : Value) (a : Attempt) : Result :=
  match Recovered.bind name v a.names with
  | some names => ⟨true, { a with names }⟩
  | none => a.fail

/-- The position goes on by some characters if something has matched. -/
def Result.advance (n : Nat) (r : Result) : Result :=
  if r.matched then ⟨true, { r.state with pos := r.state.pos + n }⟩ else r

/-- What matching goes by: the names, and the text behind the position. -/
def progress (text : List Char) (a : Attempt) : Progress :=
  ⟨a.names, text.drop a.pos⟩

/-- What is left to go by if something has matched. -/
def Result.answer (text : List Char) (r : Result) : Option Progress :=
  if r.matched then some (r.state.progress text) else none

end Attempt

/-- The rounds of a body from a position on that match and do not stay there, and where they end;
    `turn` attempts one round. -/
def attemptRounds (turn : Nat → Attempt.Result) :
    Nat → Nat → List (List (String × Recovered)) × Nat
  | 0, pos => ([], pos)
  | fuel + 1, pos =>
    let r := turn pos
    if r.matched && r.state.pos != pos then
      let (more, stop) := attemptRounds turn fuel r.state.pos
      (r.state.names :: more, stop)
    else ([], pos)

def attemptValue (text : List Char) (v : Interpolation) (follow : Follow) (a : Attempt) :
    Attempt.Result :=
  match follow.distance? (text.drop a.pos) with
  | none => a.fail
  | some n =>
    let raw := (text.drop a.pos).take n
    let s := if v.style = .escaped then Html.unescapeChars raw else raw
    (a.bind v.name (.text (.ofList s))).advance n

mutual

/-- Attempts nodes one after another, up to the first that does not match. -/
def attemptEach (text : List Char) (outer : Follow) : List Code → Attempt → Attempt.Result
  | [], a => ⟨true, a⟩
  | c :: cs, a =>
    let r := attemptNode text (Follow.before? outer cs) c a
    if r.matched then attemptEach text outer cs r.state else r

def attemptNode (text : List Char) (follow : Option Follow) : Code → Attempt → Attempt.Result
  | .text s, a =>
    if s.toList.isPrefixOf (text.drop a.pos) then ⟨true, { a with pos := a.pos + s.toList.length }⟩
    else a.fail
  | .eof, a => ⟨a.pos = text.length, a⟩
  | .block ⟨_, _, _, body⟩, a => a.restore (attemptEach text (follow.getD .unknown) body a)
  | .value v, a =>
    match follow with
    | some f => attemptValue text v f a
    | none => a.fail
  | .sect ⟨_, name, negated, _, _, body⟩, a =>
    if body.isEmpty then ⟨true, a⟩
    else if negated then
      let r := a.restore (attemptEach text (follow.getD .unknown) body a)
      if r.matched then r
      else
        -- The body was attempted with names of its own, which are dropped.
        let b : Attempt := ⟨a.names, r.state.pos⟩
        if Recovered.isBound name b.names then ⟨true, b⟩ else b.bind name (.bool true)
    else
      let turn (pos : Nat) : Attempt.Result :=
        Attempt.restore ⟨[], pos⟩ (attemptEach text (afterRound follow body) body ⟨[], pos⟩)
      let (items, stop) := attemptRounds turn (text.length - a.pos) a.pos
      match bindRounds name a.names items with
      | some names => ⟨true, ⟨names, stop⟩⟩
      | none => Attempt.fail ⟨a.names, stop⟩
  | .inclusion _, a => a.fail
  | .dynamic _, a => a.fail
  | .extend _, a => a.fail

end

/-- Attempts nodes one after another, and puts the position back where one of them fails. -/
def attemptAll (text : List Char) (outer : Follow) (cs : List Code) (a : Attempt) :
    Attempt.Result :=
  a.restore (attemptEach text outer cs a)

/-- An attempt at one round of a body, from a position on and without any names. -/
def attemptTurn (text : List Char) (follow : Option Follow) (body : List Code) (pos : Nat) :
    Attempt.Result :=
  attemptAll text (afterRound follow body) body ⟨[], pos⟩

variable {text : List Char} {outer : Follow} {follow : Option Follow} {body cs : List Code}
  {a : Attempt} {r : Attempt.Result} {origin : Origin} {name raw : String} {close : Delimiters}
  {turn : Nat → Attempt.Result} {items : List (List (String × Recovered))} {fuel pos stop : Nat}

theorem attemptNode_negated (hbody : body.isEmpty = false) :
    attemptNode text follow (.sect ⟨origin, name, true, close, raw, body⟩) a =
      let r := attemptAll text (follow.getD .unknown) body a
      if r.matched then r
      else
        let b : Attempt := ⟨a.names, r.state.pos⟩
        if Recovered.isBound name b.names then ⟨true, b⟩ else b.bind name (.bool true) := by
  simp only [attemptNode, hbody, Bool.false_eq_true, if_false, if_true]
  rfl

theorem attemptNode_positive (hbody : body.isEmpty = false) :
    attemptNode text follow (.sect ⟨origin, name, false, close, raw, body⟩) a =
      let rounds := attemptRounds (attemptTurn text follow body) (text.length - a.pos) a.pos
      match bindRounds name a.names rounds.1 with
      | some names => ⟨true, ⟨names, rounds.2⟩⟩
      | none => Attempt.fail ⟨a.names, rounds.2⟩ := by
  simp only [attemptNode, hbody, Bool.false_eq_true, if_false]
  rfl

/-! ## Positions -/

theorem Attempt.bind_pos (v : Value) : (a.bind name v).state.pos = a.pos := by
  unfold Attempt.bind
  split <;> rfl

/-- The position has not fallen back, and it is still in the text. -/
structure Attempt.Stays (text : List Char) (a : Attempt) (r : Attempt.Result) : Prop where
  le : a.pos ≤ r.state.pos
  within : r.state.pos ≤ text.length

namespace Attempt.Stays

theorem of_pos_eq (ha : a.pos ≤ text.length) (h : r.state.pos = a.pos) : a.Stays text r :=
  ⟨Nat.le_of_eq h.symm, h ▸ ha⟩

theorem restore (ha : a.pos ≤ text.length) (h : a.Stays text r) :
    a.Stays text (a.restore r) := by
  unfold Attempt.restore
  split
  · exact h
  · exact of_pos_eq ha rfl

theorem bind {v : Value} (ha : a.pos ≤ text.length) : a.Stays text (a.bind name v) :=
  of_pos_eq ha (bind_pos v)

theorem advance {n : Nat} (hr : a.Stays text r) (hn : r.state.pos + n ≤ text.length) :
    a.Stays text (r.advance n) := by
  unfold Attempt.Result.advance
  split
  · exact ⟨Nat.le_trans hr.le (Nat.le_add_right _ n), hn⟩
  · exact hr

end Attempt.Stays

theorem restore_pos (h : (a.restore r).matched = false) : (a.restore r).state.pos = a.pos := by
  unfold Attempt.restore at h ⊢
  split
  · next hmatched => rw [if_pos hmatched, hmatched] at h; cases h
  · rfl

theorem length_of_cut? {sep s x y : List Char} (h : Text.cut? sep s = some (x, y)) :
    x.length ≤ s.length := by
  rw [Text.eq_append_of_cut? h, List.length_append]
  omega

/-- What comes next is not behind the end of the text. -/
theorem distance?_le {f : Follow} {s : List Char} {n : Nat} (h : f.distance? s = some n) :
    n ≤ s.length := by
  unfold Follow.distance? at h
  split at h
  · next m hmin =>
    obtain rfl := Option.some.inj h
    obtain ⟨l, -, hl⟩ := List.mem_filterMap.mp (List.min?_mem hmin)
    obtain ⟨p, hcut, rfl⟩ := Option.map_eq_some_iff.mp hl
    exact length_of_cut? hcut
  · split at h
    · exact Nat.le_of_eq (Option.some.inj h).symm
    · cases h

theorem stays_attemptValue {v : Interpolation} {f : Follow} (ha : a.pos ≤ text.length) :
    a.Stays text (attemptValue text v f a) := by
  unfold attemptValue
  split
  · exact .of_pos_eq ha rfl
  · next n hdistance =>
    have hn := distance?_le hdistance
    rw [List.length_drop] at hn
    refine .advance (.bind ha) ?_
    rw [Attempt.bind_pos]
    omega

/-- Rounds go on from position to position. -/
theorem stays_attemptRounds (fuel : Nat)
    (hturn : ∀ pos, pos ≤ text.length → Attempt.Stays text ⟨[], pos⟩ (turn pos))
    (hpos : pos ≤ text.length) :
    pos ≤ (attemptRounds turn fuel pos).2 ∧ (attemptRounds turn fuel pos).2 ≤ text.length := by
  induction fuel generalizing pos with
  | zero => exact ⟨Nat.le_refl _, hpos⟩
  | succ fuel ih =>
    have hstays := hturn pos hpos
    rw [attemptRounds]
    simp only
    split
    · obtain ⟨hle, hwithin⟩ := ih hstays.within
      exact ⟨Nat.le_trans hstays.le hle, hwithin⟩
    · exact ⟨Nat.le_refl _, hpos⟩

/-- A negated section stays where its body does. -/
theorem stays_negated (ha : a.pos ≤ text.length)
    (hall : a.Stays text (attemptAll text (follow.getD .unknown) body a)) :
    a.Stays text (attemptNode text follow (.sect ⟨origin, name, true, close, raw, body⟩) a) := by
  cases hbody : body.isEmpty with
  | true =>
    simp only [attemptNode, hbody, if_true]
    exact .of_pos_eq ha rfl
  | false =>
    rw [attemptNode_negated hbody]
    simp only
    split
    · exact hall
    · split
      · exact ⟨hall.le, hall.within⟩
      · have hbind := @Attempt.Stays.bind text ⟨a.names, _⟩ name (.bool true) hall.within
        exact ⟨Nat.le_trans hall.le hbind.le, hbind.within⟩

/-- A section that is not negated ends where its rounds do. -/
theorem stays_positive (ha : a.pos ≤ text.length)
    (hturn : ∀ pos, pos ≤ text.length →
      Attempt.Stays text ⟨[], pos⟩ (attemptTurn text follow body pos)) :
    a.Stays text (attemptNode text follow (.sect ⟨origin, name, false, close, raw, body⟩) a) := by
  cases hbody : body.isEmpty with
  | true =>
    simp only [attemptNode, hbody, if_true]
    exact .of_pos_eq ha rfl
  | false =>
    obtain ⟨hle, hwithin⟩ := stays_attemptRounds (text.length - a.pos) hturn ha
    rw [attemptNode_positive hbody]
    simp only
    split <;> exact ⟨hle, hwithin⟩

mutual

theorem stays_attemptEach : ∀ (outer : Follow) (cs : List Code) {a : Attempt},
    a.pos ≤ text.length → a.Stays text (attemptEach text outer cs a)
  | _, [], a, ha => by
    rw [attemptEach]
    exact .of_pos_eq ha rfl
  | outer, c :: cs, a, ha => by
    have hc := stays_attemptNode (Follow.before? outer cs) c ha
    rw [attemptEach]
    split
    · have hcs := stays_attemptEach outer cs hc.within
      exact ⟨Nat.le_trans hc.le hcs.le, hcs.within⟩
    · exact hc

theorem stays_attemptNode : ∀ (follow : Option Follow) (c : Code) {a : Attempt},
    a.pos ≤ text.length → a.Stays text (attemptNode text follow c a)
  | _, .text s, a, ha => by
    rw [attemptNode]
    split
    · next hprefix =>
      have hlength := (List.isPrefixOf_iff_prefix.mp hprefix).length_le
      rw [List.length_drop] at hlength
      exact ⟨Nat.le_add_right _ _, show a.pos + s.toList.length ≤ text.length by omega⟩
    · exact .of_pos_eq ha rfl
  | _, .eof, a, ha => by
    rw [attemptNode]
    exact .of_pos_eq ha rfl
  | follow, .block ⟨_, _, _, body⟩, a, ha => by
    rw [attemptNode]
    exact (stays_attemptEach _ body ha).restore ha
  | follow, .value v, a, ha => by
    cases follow with
    | none => exact .of_pos_eq ha rfl
    | some f => exact stays_attemptValue ha
  | follow, .sect ⟨_, _, true, _, _, body⟩, _, ha =>
    stays_negated ha ((stays_attemptEach _ body ha).restore ha)
  | follow, .sect ⟨_, _, false, _, _, body⟩, _, ha =>
    stays_positive ha fun _ hpos => (stays_attemptEach _ body hpos).restore hpos
  | _, .inclusion _, a, ha | _, .dynamic _, a, ha | _, .extend _, a, ha => by
    rw [attemptNode]
    exact .of_pos_eq ha rfl

end

theorem stays_attemptAll (outer : Follow) (cs : List Code) (ha : a.pos ≤ text.length) :
    a.Stays text (attemptAll text outer cs a) :=
  (stays_attemptEach outer cs ha).restore ha

theorem stays_attemptTurn (hpos : pos ≤ text.length) :
    Attempt.Stays text ⟨[], pos⟩ (attemptTurn text follow body pos) :=
  stays_attemptAll _ body hpos

/-! ## Attempts and matching -/

namespace Attempt

theorem Result.answer_of_matched (h : r.matched = true) :
    r.answer text = some (r.state.progress text) :=
  if_pos h

theorem Result.answer_of_failed (h : r.matched = false) : r.answer text = none :=
  if_neg (by simp [h])

theorem answer_restore : (a.restore r).answer text = r.answer text := by
  cases h : r.matched with
  | true => rw [restore, if_pos h]
  | false =>
    rw [Result.answer_of_failed h, restore, if_neg (by simp [h])]
    exact Result.answer_of_failed rfl

theorem answer_bind (v : Value) :
    (a.bind name v).answer text =
      (Recovered.bind name v a.names).map fun names => ⟨names, text.drop a.pos⟩ := by
  rw [bind]
  cases Recovered.bind name v a.names <;> rfl

theorem answer_advance (n : Nat) :
    (r.advance n).answer text =
      (r.answer text).map fun p => ⟨p.names, p.rest.drop n⟩ := by
  cases h : r.matched with
  | true =>
    rw [Result.advance, if_pos h, Result.answer_of_matched h, Result.answer_of_matched rfl]
    simp [progress, Nat.add_comm]
  | false =>
    rw [Result.advance, if_neg (by simp [h]), Result.answer_of_failed h]
    rfl

end Attempt

theorem answer_attemptValue (v : Interpolation) (f : Follow) :
    (attemptValue text v f a).answer text = invertValue v f (a.progress text) := by
  rw [attemptValue, invertValue, Attempt.progress]
  cases f.distance? (text.drop a.pos) with
  | none => rfl
  | some n =>
    simp only [Attempt.answer_advance, Attempt.answer_bind, Option.map_map]
    rfl

/-- Rounds that come to the same come to the same one after another. -/
theorem rounds_eq {round : List Char → Option Progress} (fuel : Nat)
    (hstays : ∀ pos, pos ≤ text.length → Attempt.Stays text ⟨[], pos⟩ (turn pos))
    (hturn : ∀ pos, pos ≤ text.length → (turn pos).answer text = round (text.drop pos))
    (hpos : pos ≤ text.length) :
    rounds round fuel (text.drop pos) =
      ((attemptRounds turn fuel pos).1, text.drop (attemptRounds turn fuel pos).2) := by
  induction fuel generalizing pos with
  | zero => rfl
  | succ fuel ih =>
    obtain ⟨hle, hwithin⟩ := hstays pos hpos
    rw [rounds, attemptRounds, ← hturn pos hpos]
    cases hmatched : (turn pos).matched with
    | false => simp [Attempt.Result.answer_of_failed hmatched]
    | true =>
      simp only [Attempt.Result.answer_of_matched hmatched, Attempt.progress, List.length_drop,
        Bool.true_and, bne_iff_ne]
      by_cases hadvance : (turn pos).state.pos = pos
      · rw [if_neg (by omega), if_neg (by simpa using hadvance)]
      · have hlt : text.length - (turn pos).state.pos < text.length - pos := by
          simp only at hle
          omega
        rw [if_pos hlt, if_pos hadvance, ih hwithin]

/-- A negated section comes to what matching it comes to, if its body does. -/
theorem answer_negated
    (hall : (attemptAll text (follow.getD .unknown) body a).answer text =
      invertAll (follow.getD .unknown) body (a.progress text)) :
    (attemptNode text follow (.sect ⟨origin, name, true, close, raw, body⟩) a).answer text =
      invertNode follow (.sect ⟨origin, name, true, close, raw, body⟩) (a.progress text) := by
  cases hbody : body.isEmpty with
  | true =>
    simp only [attemptNode, invertNode, hbody, if_true]
    rfl
  | false =>
    rw [attemptNode_negated hbody]
    simp only [invertNode, hbody, Bool.false_eq_true, if_false, if_true, ← hall]
    cases hmatched : (attemptAll text (follow.getD .unknown) body a).matched with
    | true => simp only [if_true, Attempt.Result.answer_of_matched hmatched]
    | false =>
      -- The body has put the position back where it was, and its names are dropped.
      have hpos : (attemptAll text (follow.getD .unknown) body a).state.pos = a.pos :=
        restore_pos hmatched
      simp only [Bool.false_eq_true, if_false, Attempt.Result.answer_of_failed hmatched, hpos]
      by_cases hbound : Recovered.isBound name a.names = true
      · rw [if_pos hbound, Attempt.progress, if_pos hbound]
        rfl
      · rw [if_neg hbound, Attempt.progress, if_neg hbound]
        exact Attempt.answer_bind _

/-- A section that is not negated comes to what matching it comes to, if each round does. -/
theorem answer_positive (ha : a.pos ≤ text.length)
    (hturn : ∀ pos, pos ≤ text.length → (attemptTurn text follow body pos).answer text =
      Code.turn follow body (text.drop pos)) :
    (attemptNode text follow (.sect ⟨origin, name, false, close, raw, body⟩) a).answer text =
      invertNode follow (.sect ⟨origin, name, false, close, raw, body⟩) (a.progress text) := by
  cases hbody : body.isEmpty with
  | true =>
    simp only [attemptNode, invertNode, hbody, if_true]
    rfl
  | false =>
    have hrounds := rounds_eq (text.length - a.pos) (fun _ => stays_attemptTurn) hturn ha
    rw [attemptNode_positive hbody, invertNode_rounds hbody]
    simp only [Attempt.progress, List.length_drop, hrounds]
    generalize attemptRounds _ _ _ = rounds
    cases bindRounds name a.names rounds.1 <;> rfl

mutual

theorem answer_attemptEach : ∀ (outer : Follow) (cs : List Code) {a : Attempt},
    a.pos ≤ text.length →
      (attemptEach text outer cs a).answer text = invertAll outer cs (a.progress text)
  | _, [], a, _ => by
    rw [attemptEach, invertAll]
    rfl
  | outer, c :: cs, a, ha => by
    have hc := answer_attemptNode (Follow.before? outer cs) c ha
    have hstays := stays_attemptNode (Follow.before? outer cs) c ha
    rw [attemptEach, invertAll, ← hc]
    cases hmatched : (attemptNode text (Follow.before? outer cs) c a).matched with
    | false =>
      rw [if_neg (by simp), Attempt.Result.answer_of_failed hmatched]
    | true =>
      rw [if_pos rfl, Attempt.Result.answer_of_matched hmatched]
      exact answer_attemptEach outer cs hstays.within

/-- An attempt at a node comes to what matching the node comes to. -/
theorem answer_attemptNode : ∀ (follow : Option Follow) (c : Code) {a : Attempt},
    a.pos ≤ text.length →
      (attemptNode text follow c a).answer text = invertNode follow c (a.progress text)
  | _, .text s, a, _ => by
    rw [attemptNode, invertNode, Attempt.progress]
    by_cases hprefix : s.toList.isPrefixOf (text.drop a.pos) = true
    · rw [if_pos hprefix, if_pos hprefix, Attempt.Result.answer_of_matched rfl, List.drop_drop]
      rfl
    · rw [if_neg hprefix, if_neg hprefix]
      rfl
  | _, .eof, a, ha => by
    have hempty : (text.drop a.pos).isEmpty = decide (a.pos = text.length) := by
      rw [Bool.eq_iff_iff, List.isEmpty_iff, List.drop_eq_nil_iff, decide_eq_true_iff]
      omega
    rw [attemptNode, invertNode, Attempt.progress, hempty]
    by_cases hend : a.pos = text.length
    · simp only [hend, decide_true, if_true]
      rw [Attempt.Result.answer_of_matched rfl, Attempt.progress, hend]
    · simp only [hend, decide_false, Bool.false_eq_true, if_false]
      rfl
  | follow, .block ⟨_, _, _, body⟩, a, ha => by
    rw [attemptNode, Attempt.answer_restore, invertNode]
    exact answer_attemptEach _ body ha
  | follow, .value v, a, _ => by
    cases follow with
    | none => rfl
    | some f => exact answer_attemptValue v f
  | _, .sect ⟨_, _, true, _, _, body⟩, _, ha =>
    answer_negated (Attempt.answer_restore.trans (answer_attemptEach _ body ha))
  | _, .sect ⟨_, _, false, _, _, body⟩, _, ha =>
    answer_positive ha fun _ hpos =>
      Attempt.answer_restore.trans (answer_attemptEach _ body hpos)
  | _, .inclusion _, _, _ | _, .dynamic _, _, _ | _, .extend _, _, _ => by
    rw [attemptNode, invertNode]
    rfl

end

/-- Attempts at nodes come to what matching the nodes comes to. -/
theorem answer_attemptAll (outer : Follow) (cs : List Code) (ha : a.pos ≤ text.length) :
    (attemptAll text outer cs a).answer text = invertAll outer cs (a.progress text) := by
  rw [attemptAll, Attempt.answer_restore]
  exact answer_attemptEach outer cs ha

/-! ## Rounds -/

/-- The rounds from a position on, up to where another one does not match or does not use anything
    up: each of them matches and goes on. -/
inductive Turns (turn : Nat → Attempt.Result) :
    Nat → List (List (String × Recovered)) → Nat → Prop
  | stop {pos : Nat} (h : (turn pos).matched = true → (turn pos).state.pos = pos) :
    Turns turn pos [] pos
  | next {pos stop : Nat} {items : List (List (String × Recovered))}
    (hmatched : (turn pos).matched = true) (hlt : pos < (turn pos).state.pos)
    (hmore : Turns turn (turn pos).state.pos items stop) :
    Turns turn pos ((turn pos).state.names :: items) stop

/-- There are no more rounds than characters they use up. -/
theorem Turns.length_le (h : Turns turn pos items stop) : pos + items.length ≤ stop := by
  induction h with
  | stop _ => exact Nat.le_refl _
  | next _ hlt _ ih =>
    rw [List.length_cons]
    omega

/-- Rounds end: what is left of the text is fuel enough. -/
theorem turns_attemptRounds
    (hstays : ∀ pos, pos ≤ text.length → Attempt.Stays text ⟨[], pos⟩ (turn pos))
    (hpos : pos ≤ text.length) (hfuel : text.length - pos ≤ fuel) :
    Turns turn pos (attemptRounds turn fuel pos).1 (attemptRounds turn fuel pos).2 := by
  induction fuel generalizing pos with
  | zero =>
    refine .stop fun _ => ?_
    obtain ⟨hle, hwithin⟩ := hstays pos hpos
    simp only at hle
    omega
  | succ fuel ih =>
    obtain ⟨hle, hwithin⟩ := hstays pos hpos
    rw [attemptRounds]
    simp only
    split
    · next hgoes =>
      rw [Bool.and_eq_true, bne_iff_ne] at hgoes
      have hlt : pos < (turn pos).state.pos := Nat.lt_of_le_of_ne hle hgoes.2.symm
      exact .next hgoes.1 hlt (ih hwithin (by omega))
    · next hgoes =>
      refine .stop fun hmatched => ?_
      rw [hmatched] at hgoes
      simpa using hgoes

/-- The value that rounds stand for: truth for one that recovered nothing, else a list. -/
def roundsValue : List (List (String × Recovered)) → Value
  | [[]] => .bool true
  | items => .list (items.map Recovered.toItem)

theorem bindRounds_of_ne_nil {names : List (String × Recovered)} (h : items ≠ []) :
    bindRounds name names items = Recovered.bind name (roundsValue items) names := by
  rw [bindRounds.eq_def]
  split
  · exact absurd rfl h
  · rfl
  · next hsingle =>
    rw [roundsValue]
    exact hsingle

/-! ## What is left -/

open Recovered (Adds path)

/-- A section that is not negated takes its rounds, and its name is given what they stand for. -/
theorem exists_turns (follow : Option Follow) (origin : Origin) (name : String)
    (close : Delimiters) (raw : String) (body : List Code) (ha : a.pos ≤ text.length) :
    let r := attemptNode text follow (.sect ⟨origin, name, false, close, raw, body⟩) a
    ∃ items, Turns (attemptTurn text follow body) a.pos items r.state.pos ∧
      (r.matched = true →
        items = [] ∧ r.state.names = a.names ∨
          items ≠ [] ∧ Recovered.bind name (roundsValue items) a.names = some r.state.names) := by
  cases hbody : body.isEmpty with
  | true =>
    obtain rfl := List.isEmpty_iff.mp hbody
    exact ⟨[], .stop fun _ => rfl, fun _ => .inl ⟨rfl, rfl⟩⟩
  | false =>
    have hstays : ∀ pos, pos ≤ text.length →
        Attempt.Stays text ⟨[], pos⟩ (attemptTurn text follow body pos) :=
      fun _ => stays_attemptTurn
    have hturns := turns_attemptRounds hstays ha (Nat.le_refl _)
    rw [attemptNode_positive hbody]
    generalize attemptRounds _ _ _ = rounds at hturns ⊢
    obtain ⟨items, stop⟩ := rounds
    simp only at hturns ⊢
    cases hbind : bindRounds name a.names items with
    | none => exact ⟨items, hturns, fun hmatched => by cases hmatched⟩
    | some names =>
      refine ⟨items, hturns, fun _ => ?_⟩
      by_cases hitems : items = []
      · subst hitems
        exact .inl ⟨rfl, (Option.some.inj hbind).symm⟩
      · rw [bindRounds_of_ne_nil hitems] at hbind
        exact .inr ⟨hitems, hbind⟩

/-- A negated section comes to what its body comes to, or its name is made true where it stands. -/
theorem attemptNode_of_negated (text : List Char) (a : Attempt) (follow : Option Follow)
    (origin : Origin) (name : String) (close : Delimiters) (raw : String) (body : List Code) :
    let r := attemptNode text follow (.sect ⟨origin, name, true, close, raw, body⟩) a
    let inside := attemptAll text (follow.getD .unknown) body a
    inside.matched = true ∧ r = inside ∨
      inside.matched = false ∧ r.state.pos = a.pos ∧
        (r.matched = true →
          Recovered.isBound name a.names = true ∧ r.state.names = a.names ∨
            Recovered.bind name (.bool true) a.names = some r.state.names) := by
  cases hbody : body.isEmpty with
  | true =>
    obtain rfl := List.isEmpty_iff.mp hbody
    exact .inl ⟨rfl, rfl⟩
  | false =>
    rw [attemptNode_negated hbody]
    simp only
    cases hmatched : (attemptAll text (follow.getD .unknown) body a).matched with
    | true => exact .inl ⟨rfl, if_pos rfl⟩
    | false =>
      have hpos : (attemptAll text (follow.getD .unknown) body a).state.pos = a.pos :=
        restore_pos hmatched
      simp only [Bool.false_eq_true, if_false, hpos]
      refine .inr ⟨trivial, ?_⟩
      by_cases hbound : Recovered.isBound name a.names = true
      · rw [if_pos hbound]
        exact ⟨rfl, fun _ => .inl ⟨hbound, rfl⟩⟩
      · rw [if_neg hbound, Attempt.bind]
        cases hbind : Recovered.bind name (.bool true) a.names with
        | none => exact ⟨rfl, fun h => by cases h⟩
        | some names => exact ⟨rfl, fun _ => .inr rfl⟩

/-- Attempts come to what matching comes to, and nothing is left of what has failed.  Nodes that do
    not match leave the position exactly where it was, and no node moves it back or out of the text.
    The rounds of a section each go on, up to one that does not; the section adds at most what they
    stand for, and that under its own name.  A negated section adds what its body has recovered, or
    at most the truth of its own name, without moving on. -/
theorem attempts_recover (ha : a.pos ≤ text.length) :
    (∀ outer cs,
      let r := attemptAll text outer cs a
      a.Stays text r ∧ (r.matched = false → r.state.pos = a.pos) ∧
        r.answer text = invertAll outer cs (a.progress text)) ∧
    (∀ follow c, a.Stays text (attemptNode text follow c a)) ∧
    (∀ follow origin name close raw body,
      let r := attemptNode text follow (.sect ⟨origin, name, false, close, raw, body⟩) a
      ∃ items, Turns (attemptTurn text follow body) a.pos items r.state.pos ∧
        a.pos + items.length ≤ r.state.pos ∧
        (r.matched = true →
          items = [] ∧ r.state.names = a.names ∨
            items ≠ [] ∧ Recovered.bind name (roundsValue items) a.names = some r.state.names ∧
              (r.state.names = a.names ∨
                Adds (roundsValue items) (path name) a.names r.state.names))) ∧
    (∀ follow origin name close raw body,
      let r := attemptNode text follow (.sect ⟨origin, name, true, close, raw, body⟩) a
      let inside := attemptAll text (follow.getD .unknown) body a
      inside.matched = true ∧ r = inside ∨
        inside.matched = false ∧ r.state.pos = a.pos ∧
          (r.matched = true → r.state.names = a.names ∨
            Adds (.bool true) (path name) a.names r.state.names)) := by
  refine ⟨fun outer cs => ?_, fun follow c => stays_attemptNode follow c ha, ?positive, ?negated⟩
  · exact ⟨stays_attemptAll outer cs ha, restore_pos, answer_attemptAll outer cs ha⟩
  case positive =>
    intro follow origin name close raw body
    obtain ⟨items, hturns, hnames⟩ := exists_turns follow origin name close raw body ha
    refine ⟨items, hturns, hturns.length_le, fun hmatched => ?_⟩
    obtain hnone | ⟨hitems, hbind⟩ := hnames hmatched
    · exact .inl hnone
    · exact .inr ⟨hitems, hbind, Recovered.adds_bind hbind⟩
  case negated =>
    intro follow origin name close raw body
    obtain hinside | ⟨hfailed, hpos, hnames⟩ :=
      attemptNode_of_negated text a follow origin name close raw body
    · exact .inl hinside
    · refine .inr ⟨hfailed, hpos, fun hmatched => ?_⟩
      obtain ⟨-, hsame⟩ | hbind := hnames hmatched
      · exact .inl hsame
      · exact Recovered.adds_bind hbind

/-- A list comes in behind a name that was recovered before it, under the part they share. -/
theorem attempts_recover_rows :
    let text := "Ada: x;y;!".toList
    let a : Attempt := ⟨[("user", .nested [("name", .value (.text "Ada"))])], 5⟩
    let origin : Origin := ⟨.standard, "page", 1, false, .parsed 0 6⟩
    let body : List Code := [.value ⟨origin, ".", .escaped⟩, .text ";"]
    let r := attemptNode text (some (.literal "!"))
      (.sect ⟨origin, "user.rows", false, .standard, "", body⟩) a
    r.matched = true ∧ ∃ items, Turns (attemptTurn text (some (.literal "!")) body) 5 items 9 ∧
      Adds (roundsValue items) ["user", "rows"] a.names r.state.names := by
  intro text a origin body r
  obtain ⟨hmatched, hpos, hbefore, hafter⟩ :
      r.matched = true ∧ r.state.pos = 9 ∧
        (Recovered.at? ["user", "rows"] a.names).isSome = false ∧
          (Recovered.at? ["user", "rows"] r.state.names).isSome = true := by
    decide +kernel
  have hnew : r.state.names ≠ a.names := fun h => by
    rw [h, hbefore] at hafter
    cases hafter
  obtain ⟨-, -, hpositive, -⟩ := attempts_recover (show a.pos ≤ text.length by decide)
  obtain ⟨items, hturns, -, hnames⟩ :=
    hpositive (some (.literal "!")) origin "user.rows" .standard "" body
  refine ⟨hmatched, items, hpos ▸ hturns, ?_⟩
  obtain ⟨-, hsame⟩ | ⟨-, -, hsame | hadds⟩ := hnames hmatched
  · exact absurd hsame hnew
  · exact absurd hsame hnew
  · exact hadds

end Mustache.Code
