import Dialogue.Proofs.Carry
import Dialogue.Proofs.Interpreter

/-!
# Records of sessions

What a session that is started and then receives calls puts on record. `converse` makes the calls
one after another and has no record if one of them does not return; `record` bounds the events and
calls together and keeps what has been recorded when the bound is reached.
-/

namespace Dialogue

variable {κ W : Type}

/-! ## Calls that return -/

def Returned.marks (r : Returned κ W) : List (Mark κ) :=
  r.history.map .occurred ++ [.returned r.result]

namespace Session

def submitAll (host : Host κ W) (bound : Nat) :
    List (String × Nat) → Session κ → W → Option (List (Mark κ))
  | [], _, _ => some []
  | (text, turn) :: calls, s, world =>
    (s.submitForTurn host bound world text turn).bind fun r =>
      (submitAll host bound calls r.session r.world).map (r.marks ++ ·)

/-- The session is started and receives the calls, each of which may take `bound` events. -/
def converse (host : Host κ W) (bound : Nat) (s : Session κ) (world : W)
    (calls : List (String × Nat)) : Option (List (Mark κ)) :=
  (s.start host bound world).bind fun r =>
    (submitAll host bound calls r.session r.world).map (r.marks ++ ·)

end Session

/-! ## Records with a bound -/

structure Record (κ : Type) where
  marks : List (Mark κ)
  -- every call has returned
  complete : Bool

def Record.after (r : Record κ) (marks : List (Mark κ)) : Record κ :=
  ⟨marks ++ r.marks, r.complete⟩

namespace Stage

def marks (stage : Stage κ W) : List (Mark κ) :=
  stage.history.map .occurred ++
    match stage.next with
    | .again _ => []
    | .returns result => [.returned result]

def follow? (host : Host κ W) (stage : Stage κ W) :
    List (String × Nat) → Option (Stage κ W × List (String × Nat)) :=
  match stage.next with
  | .again event => fun calls => some (stage.session.react host stage.world event, calls)
  | .returns _ => fun
    | [] => none
    | (text, turn) :: calls =>
      some (stage.session.receive host stage.world (.submitted text turn), calls)

def record (host : Host κ W) : (bound : Nat) → Stage κ W → List (String × Nat) → Record κ
  | 0, stage, calls => ⟨stage.marks, (stage.follow? host calls).isNone⟩
  | bound + 1, stage, calls =>
    match stage.follow? host calls with
    | none => ⟨stage.marks, true⟩
    | some (later, calls) => (record host bound later calls).after stage.marks

end Stage

namespace Session

def record (host : Host κ W) (bound : Nat) (s : Session κ) (world : W)
    (calls : List (String × Nat)) : Record κ :=
  (s.receive host world .drive).record host bound calls

def recordCalls (host : Host κ W) (bound : Nat) (s : Session κ) (world : W) :
    List (String × Nat) → Record κ
  | [] => ⟨[], true⟩
  | (text, turn) :: calls =>
    match bound with
    | 0 => ⟨[], false⟩
    | bound + 1 => (s.receive host world (.submitted text turn)).record host bound calls

end Session

section
variable {host : Host κ W}

@[simp] theorem Record.after_nil (r : Record κ) : r.after [] = r := rfl

@[simp] theorem Record.after_after (r : Record κ) (a b : List (Mark κ)) :
    (r.after a).after b = r.after (b ++ a) := by
  simp [Record.after, List.append_assoc]

theorem Record.eq_complete {r : Record κ} (h : r.complete = true) : r = ⟨r.marks, true⟩ := by
  cases r
  cases h
  rfl

theorem Stage.marks_after (stage : Stage κ W) (history : List (Occurrence κ)) :
    (stage.after history).marks = history.map .occurred ++ stage.marks := by
  simp [Stage.marks, Stage.after, List.append_assoc]

theorem Stage.record_after (stage : Stage κ W) (history : List (Occurrence κ)) (bound : Nat)
    (calls : List (String × Nat)) :
    (stage.after history).record host bound calls =
      (stage.record host bound calls).after (history.map .occurred) := by
  have hf : (stage.after history).follow? host calls = stage.follow? host calls := rfl
  cases bound with
  | zero =>
    rw [Stage.record, Stage.record, hf, Stage.marks_after]
    rfl
  | succ bound =>
    rw [Stage.record, Stage.record, hf, Stage.marks_after]
    split
    · rfl
    · rw [Record.after_after]

theorem Stage.record_returns {stage : Stage κ W} {result : CallResult}
    (h : stage.next = .returns result) (bound : Nat) (calls : List (String × Nat)) :
    stage.record host bound calls =
      (Session.recordCalls host bound stage.session stage.world calls).after stage.marks := by
  cases calls with
  | nil => cases bound <;> simp [Stage.record, Stage.follow?, h, Session.recordCalls, Record.after]
  | cons call calls =>
    cases bound <;> simp [Stage.record, Stage.follow?, h, Session.recordCalls, Record.after]

theorem Stage.record_again {stage : Stage κ W} {event : Event} (h : stage.next = .again event)
    (bound : Nat) (calls : List (String × Nat)) :
    stage.record host (bound + 1) calls =
      ((stage.session.react host stage.world event).record host bound calls).after stage.marks := by
  simp [Stage.record, Stage.follow?, h]

theorem Stage.record_zero {stage : Stage κ W} {event : Event} (h : stage.next = .again event)
    (calls : List (String × Nat)) : stage.record host 0 calls = ⟨stage.marks, false⟩ := by
  simp [Stage.record, Stage.follow?, h]

theorem Stage.record_succ : ∀ (bound : Nat) (stage : Stage κ W) (calls : List (String × Nat)),
    (stage.record host bound calls).marks <+: (stage.record host (bound + 1) calls).marks
  | 0, stage, calls => by
    rw [Stage.record, Stage.record]
    cases stage.follow? host calls with
    | none => exact List.prefix_rfl
    | some later => exact List.prefix_append _ _
  | bound + 1, stage, calls => by
    rw [Stage.record, Stage.record]
    cases stage.follow? host calls with
    | none => exact List.prefix_rfl
    | some later =>
      have ih := Stage.record_succ bound later.1 later.2
      exact (List.prefix_append_right_inj stage.marks).mpr ih

/-- A larger bound only adds to a record: all of them are beginnings of one. -/
theorem Session.record_mono (s : Session κ) (world : W) (calls : List (String × Nat)) {n m : Nat}
    (h : n ≤ m) : (s.record host n world calls).marks <+: (s.record host m world calls).marks := by
  induction h with
  | refl => exact List.prefix_rfl
  | step _ ih => exact ih.trans (Stage.record_succ _ _ _)

/-! ## Both kinds of record -/

theorem finish_returns {stage : Stage κ W} {result : CallResult} (h : stage.next = .returns result)
    (bound : Nat) : Session.finish host bound stage =
      some ⟨stage.history, stage.session, stage.world, result⟩ := by
  unfold Session.finish
  rw [h]

theorem finish_again {stage : Stage κ W} {event : Event} (h : stage.next = .again event)
    (bound : Nat) : Session.finish host (bound + 1) stage =
      (Session.finish host bound (stage.session.react host stage.world event)).map fun r =>
        { r with history := stage.history ++ r.history } := by
  conv => lhs; unfold Session.finish
  rw [h]

theorem finish_zero {stage : Stage κ W} {event : Event} (h : stage.next = .again event) :
    Session.finish host 0 stage = none := by
  unfold Session.finish
  rw [h]

theorem Stage.marks_again {stage : Stage κ W} {event : Event} (h : stage.next = .again event) :
    stage.marks = stage.history.map .occurred := by
  simp [Stage.marks, h]

theorem Stage.marks_returns {stage : Stage κ W} {result : CallResult}
    (h : stage.next = .returns result) :
    stage.marks = stage.history.map .occurred ++ [.returned result] := by
  simp [Stage.marks, h]

inductive Session.Finishes (host : Host κ W) : (bound : Nat) → Stage κ W → Returned κ W → Prop
  | returns {bound : Nat} {stage : Stage κ W} {result : CallResult}
    (h : stage.next = .returns result) :
    Finishes host bound stage ⟨stage.history, stage.session, stage.world, result⟩
  | again {bound : Nat} {stage : Stage κ W} {event : Event} {r : Returned κ W}
    (h : stage.next = .again event) :
    Finishes host bound (stage.session.react host stage.world event) r →
    Finishes host (bound + 1) stage { r with history := stage.history ++ r.history }

theorem finishes_of_finish : ∀ {bound : Nat} {stage : Stage κ W} {r : Returned κ W},
    Session.finish host bound stage = some r → Session.Finishes host bound stage r
  | bound, stage, r, h => by
    cases hn : stage.next with
    | returns result =>
      rw [finish_returns hn] at h
      cases h
      exact .returns hn
    | again event =>
      cases bound with
      | zero =>
        rw [finish_zero hn] at h
        cases h
      | succ bound =>
        rw [finish_again hn] at h
        obtain ⟨r', hr', rfl⟩ := Option.map_eq_some_iff.mp h
        exact .again hn (finishes_of_finish hr')

theorem record_of_finish {bound : Nat} {stage : Stage κ W} {r : Returned κ W}
    (h : Session.finish host bound stage = some r) (calls : List (String × Nat)) : ∃ k, ∀ more,
      stage.record host (k + more) calls =
        (Session.recordCalls host more r.session r.world calls).after r.marks := by
  replace h := finishes_of_finish h
  induction h with
  | returns hn =>
    refine ⟨0, fun more => ?_⟩
    rw [Nat.zero_add, Stage.record_returns hn, Stage.marks_returns hn]
    rfl
  | again hn _ ih =>
    obtain ⟨k, hk⟩ := ih
    refine ⟨k + 1, fun more => ?_⟩
    rw [Nat.add_right_comm, Stage.record_again hn, hk, Record.after_after, Stage.marks_again hn]
    simp [Returned.marks, List.append_assoc]

theorem finish_of_record : ∀ {bound : Nat} {stage : Stage κ W} {calls : List (String × Nat)}
    {marks : List (Mark κ)}, stage.record host bound calls = ⟨marks, true⟩ →
      ∃ r left rest, Session.finish host bound stage = some r ∧ left ≤ bound ∧
        Session.recordCalls host left r.session r.world calls = ⟨rest, true⟩ ∧
          marks = r.marks ++ rest
  | bound, stage, calls, marks, h => by
    cases hn : stage.next with
    | returns result =>
      rw [Stage.record_returns hn] at h
      obtain ⟨hm, hc⟩ := Record.mk.inj h
      refine ⟨_, bound, _, finish_returns hn bound, Nat.le_refl _, Record.eq_complete hc, ?_⟩
      rw [← hm, Stage.marks_returns hn]
      rfl
    | again event =>
      cases bound with
      | zero => rw [Stage.record_zero hn] at h; cases h
      | succ bound =>
        rw [Stage.record_again hn] at h
        obtain ⟨hm, hc⟩ := Record.mk.inj h
        obtain ⟨r, left, rest, hr, hl, hrest, hmarks⟩ := finish_of_record (Record.eq_complete hc)
        refine ⟨{ r with history := stage.history ++ r.history }, left, rest, ?_, by omega, hrest,
          ?_⟩
        · rw [finish_again hn, hr]; rfl
        · rw [← hm, hmarks, Stage.marks_again hn]
          simp [Returned.marks, List.append_assoc]

theorem finish_mono {bound more : Nat} {stage : Stage κ W} {r : Returned κ W}
    (h : Session.finish host bound stage = some r) (hm : bound ≤ more) :
    Session.finish host more stage = some r := by
  replace h := finishes_of_finish h
  induction h generalizing more with
  | returns hn => exact finish_returns hn more
  | again hn _ ih =>
    obtain ⟨more, rfl⟩ : ∃ n, more = n + 1 := ⟨more - 1, by omega⟩
    rw [finish_again hn, ih (by omega)]
    rfl

theorem recordCalls_of_submitAll {bound : Nat} : ∀ {calls : List (String × Nat)} {s : Session κ}
    {world : W} {marks : List (Mark κ)}, Session.submitAll host bound calls s world = some marks →
      ∃ n, Session.recordCalls host n s world calls = ⟨marks, true⟩
  | [], _, _, _, h => ⟨0, by cases h; rfl⟩
  | (text, turn) :: calls, s, world, marks, h => by
    obtain ⟨r, hr, h⟩ := Option.bind_eq_some_iff.mp h
    obtain ⟨rest, hrest, rfl⟩ := Option.map_eq_some_iff.mp h
    obtain ⟨n, hn⟩ := recordCalls_of_submitAll hrest
    obtain ⟨k, hk⟩ := record_of_finish hr calls
    refine ⟨k + n + 1, ?_⟩
    rw [Session.recordCalls]
    exact (hk n).trans (by rw [hn]; rfl)

theorem submitAll_of_recordCalls {bound : Nat} : ∀ {calls : List (String × Nat)} {left : Nat}
    {s : Session κ} {world : W} {marks : List (Mark κ)}, left ≤ bound →
      Session.recordCalls host left s world calls = ⟨marks, true⟩ →
      Session.submitAll host bound calls s world = some marks
  | [], _, _, _, _, _, h => by cases h; rfl
  | (text, turn) :: calls, left, s, world, marks, hl, h => by
    cases left with
    | zero => cases h
    | succ left =>
      obtain ⟨r, left', rest, hr, hl', hrest, rfl⟩ := finish_of_record h
      have hs : s.submitForTurn host bound world text turn = some r := finish_mono hr (by omega)
      have hle : left' ≤ bound := by omega
      simp [Session.submitAll, hs, submitAll_of_recordCalls hle hrest]

/-- A conversation whose calls all return is one whose record is complete at some bound. -/
theorem converse_iff_record {s : Session κ} {world : W} {calls : List (String × Nat)}
    {marks : List (Mark κ)} : (∃ bound, s.converse host bound world calls = some marks) ↔
      ∃ bound, s.record host bound world calls = ⟨marks, true⟩ := by
  constructor
  · rintro ⟨bound, h⟩
    obtain ⟨r, hr, h⟩ := Option.bind_eq_some_iff.mp h
    obtain ⟨rest, hrest, rfl⟩ := Option.map_eq_some_iff.mp h
    obtain ⟨n, hn⟩ := recordCalls_of_submitAll hrest
    obtain ⟨k, hk⟩ := record_of_finish hr calls
    exact ⟨k + n, (hk n).trans (by rw [hn]; rfl)⟩
  · rintro ⟨bound, h⟩
    obtain ⟨r, left, rest, hr, hl, hrest, rfl⟩ := finish_of_record h
    refine ⟨bound, ?_⟩
    have hs : s.start host bound world = some r := hr
    simp [Session.converse, hs, submitAll_of_recordCalls hl hrest]

end

end Dialogue
