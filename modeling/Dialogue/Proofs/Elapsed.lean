import Mathlib
import Dialogue.Proofs.Breakdown
import Dialogue.Proofs.Calls

/-!
# The time of a call

Whatever a call waits for, it waits for one thing after another, except that the callback of an
output and its pause are waited for together. On a clock that moves only while everything sleeps,
the time of a call is therefore the sum of the sleeps of its callbacks, and for each output the
longer of two; when the callback of an output fails, its pause is given up.
-/

namespace Dialogue

variable {κ W α β : Type}

/-! ## Sleeping on a clock -/

structure Sleeper where
  due : Nat
  fails : Bool

/-- Several sleepers are waited for together, until the last one has succeeded or the first one
fails. The clock moves only while all that are left sleep, and then to the first that is due. -/
inductive Joins : (clock : Nat) → List Sleeper → (stop : Nat) → (ok : Bool) → Prop
  | nil (clock : Nat) : Joins clock [] clock true
  | fails {clock : Nat} {sleepers : List Sleeper} {s : Sleeper} (hs : s ∈ sleepers)
    (hf : s.fails = true) (hd : s.due ≤ clock) : Joins clock sleepers clock false
  | succeeds {clock stop : Nat} {before after : List Sleeper} {s : Sleeper} {ok : Bool}
    (hf : s.fails = false) (hd : s.due ≤ clock) : Joins clock (before ++ after) stop ok →
    Joins clock (before ++ s :: after) stop ok
  | sleeps {clock stop : Nat} {sleepers : List Sleeper} {s : Sleeper} {ok : Bool}
    (hs : s ∈ sleepers) (hfirst : ∀ t ∈ sleepers, clock < t.due ∧ s.due ≤ t.due) :
    Joins s.due sleepers stop ok → Joins clock sleepers stop ok

abbrev Wait := Nat → List Sleeper

/-- One wait after another, up to the first failure. -/
inductive Awaits : (clock : Nat) → List Wait → (stop : Nat) → Prop
  | nil (clock : Nat) : Awaits clock [] clock
  | cons {clock mid stop : Nat} {wait : Wait} {waits : List Wait}
    (h : Joins clock (wait clock) mid true) : Awaits mid waits stop →
    Awaits clock (wait :: waits) stop
  | fails {clock stop : Nat} {wait : Wait} (waits : List Wait)
    (h : Joins clock (wait clock) stop false) : Awaits clock (wait :: waits) stop

/-- Where a join can stop: with everything over, or with the earliest of the failures. -/
inductive Stops (clock : Nat) (sleepers : List Sleeper) (stop : Nat) : Bool → Prop
  | all (hclock : clock ≤ stop) (hall : ∀ s ∈ sleepers, s.fails = false ∧ s.due ≤ stop)
    (hlast : stop = clock ∨ ∃ s ∈ sleepers, s.due = stop) : Stops clock sleepers stop true
  | failed {s : Sleeper} (hs : s ∈ sleepers) (hf : s.fails = true) (hstop : stop = max clock s.due)
    (hfirst : ∀ t ∈ sleepers, t.fails = true → stop ≤ max clock t.due) :
    Stops clock sleepers stop false

section
variable {clock stop : Nat} {sleepers : List Sleeper} {ok : Bool}

theorem Joins.stops (h : Joins clock sleepers stop ok) : Stops clock sleepers stop ok := by
  induction h with
  | nil clock => exact .all (Nat.le_refl clock) nofun (.inl rfl)
  | fails hs hf hd =>
    exact .failed hs hf (Nat.max_eq_left hd).symm fun t _ _ => Nat.le_max_left _ _
  | @succeeds clock stop before after s ok hf hd _ ih =>
    have hmem : ∀ t, t ∈ before ++ s :: after ↔ t = s ∨ t ∈ before ++ after := by
      intro t
      simp only [List.mem_append, List.mem_cons]
      exact or_left_comm
    cases ih with
    | all hclock hall hlast =>
      refine .all hclock (fun t ht => ?_) (hlast.imp_right ?_)
      · rcases (hmem t).mp ht with rfl | ht
        · exact ⟨hf, Nat.le_trans hd hclock⟩
        · exact hall t ht
      · rintro ⟨t, ht, hdue⟩
        exact ⟨t, (hmem t).mpr (.inr ht), hdue⟩
    | @failed r hr hrf hstop hfirst =>
      refine .failed ((hmem r).mpr (.inr hr)) hrf hstop fun t ht htf => ?_
      rcases (hmem t).mp ht with rfl | ht
      · rw [hf] at htf
        cases htf
      · exact hfirst t ht htf
  | @sleeps clock stop sleepers s ok hs hfirst _ ih =>
    cases ih with
    | all hclock hall hlast =>
      have hlt := (hfirst s hs).1
      refine .all (by omega) hall (.inr ?_)
      rcases hlast with rfl | hlast
      · exact ⟨s, hs, rfl⟩
      · exact hlast
    | @failed r hr hrf hstop hfirst' =>
      have hle := hfirst r hr
      refine .failed hr hrf (by omega) fun t ht htf => ?_
      have ht' := hfirst' t ht htf
      have hle' := hfirst t ht
      omega

theorem exists_next : ∀ {sleepers : List Sleeper}, sleepers ≠ [] →
    ∃ s ∈ sleepers, ∀ t ∈ sleepers, s.due ≤ t.due
  | [], h => absurd rfl h
  | [s], _ => ⟨s, List.mem_singleton_self s, by simp⟩
  | s :: t :: sleepers, _ => by
    obtain ⟨u, hu, hnext⟩ := exists_next (List.cons_ne_nil t sleepers)
    by_cases h : s.due ≤ u.due
    · exact ⟨s, List.mem_cons_self, List.forall_mem_cons.mpr
        ⟨Nat.le_refl _, fun v hv => Nat.le_trans h (hnext v hv)⟩⟩
    · exact ⟨u, List.mem_cons_of_mem s hu, List.forall_mem_cons.mpr ⟨by omega, hnext⟩⟩

theorem exists_joins : ∀ (n : Nat) (clock : Nat) {sleepers : List Sleeper}, sleepers.length = n →
    ∃ stop ok, Joins clock sleepers stop ok
  | 0, clock, sleepers, h => by
    obtain rfl := List.eq_nil_of_length_eq_zero h
    exact ⟨clock, true, .nil clock⟩
  | n + 1, clock, sleepers, h => by
    have hne : sleepers ≠ [] := by
      rintro rfl
      cases h
    obtain ⟨s, hs, hnext⟩ := exists_next hne
    -- the first that is due is over before the clock moves on
    have hdue : ∀ clock, s.due ≤ clock → ∃ stop ok, Joins clock sleepers stop ok := by
      intro clock hd
      cases hf : s.fails with
      | true => exact ⟨clock, false, .fails hs hf hd⟩
      | false =>
        obtain ⟨before, after, rfl⟩ := List.append_of_mem hs
        have hrest : (before ++ after).length = n := by
          simp only [List.length_append, List.length_cons] at h ⊢
          omega
        obtain ⟨stop, ok, hj⟩ := exists_joins n clock hrest
        exact ⟨stop, ok, .succeeds hf hd hj⟩
    by_cases hd : s.due ≤ clock
    · exact hdue clock hd
    · obtain ⟨stop, ok, hj⟩ := hdue s.due (Nat.le_refl _)
      refine ⟨stop, ok, .sleeps hs (fun t ht => ?_) hj⟩
      have hle := hnext t ht
      omega

theorem Stops.unique {stop' : Nat} {ok' : Bool} (h : Stops clock sleepers stop ok)
    (h' : Stops clock sleepers stop' ok') : stop = stop' ∧ ok = ok' := by
  cases h with
  | all hclock hall hlast =>
    cases h' with
    | all hclock' hall' hlast' =>
      refine ⟨Nat.le_antisymm ?_ ?_, rfl⟩
      · rcases hlast with rfl | ⟨s, hs, rfl⟩
        · exact hclock'
        · exact (hall' s hs).2
      · rcases hlast' with rfl | ⟨s, hs, rfl⟩
        · exact hclock
        · exact (hall s hs).2
    | failed hs hf _ _ => simp [(hall _ hs).1] at hf
  | failed hs hf hstop hfirst =>
    cases h' with
    | all _ hall' _ => simp [(hall' _ hs).1] at hf
    | failed hs' hf' hstop' hfirst' =>
      have hle := hfirst _ hs' hf'
      have hle' := hfirst' _ hs hf
      exact ⟨by omega, rfl⟩

theorem joins_iff_stops : Joins clock sleepers stop ok ↔ Stops clock sleepers stop ok := by
  refine ⟨Joins.stops, fun h => ?_⟩
  obtain ⟨stop', ok', hj⟩ := exists_joins _ clock (Eq.refl sleepers.length)
  obtain ⟨rfl, rfl⟩ := h.unique hj.stops
  exact hj

end

/-! ## Waits of a known length -/

/-- Whenever they begin, the waits take so long, and then the next ones begin or a failure has
ended them. -/
def Takes (waits : List Wait) (millis : Nat) (ok : Bool) : Prop :=
  ∀ clock later stop, Awaits clock (waits ++ later) stop ↔
    if ok then Awaits (clock + millis) later stop else stop = clock + millis

theorem takes_nil : Takes [] 0 true := fun _ _ _ => Iff.rfl

theorem Takes.append {a b : List Wait} {m n : Nat} {ok : Bool} (ha : Takes a m true)
    (hb : Takes b n ok) : Takes (a ++ b) (m + n) ok := by
  intro clock later stop
  rw [List.append_assoc, ha, if_pos rfl, hb, Nat.add_assoc]

theorem Takes.of_stops {wait : Wait} {millis : Nat} {ok : Bool}
    (h : ∀ clock, Stops clock (wait clock) (clock + millis) ok) : Takes [wait] millis ok := by
  intro clock later stop
  have hj := joins_iff_stops.mpr (h clock)
  rw [List.singleton_append]
  constructor
  · intro ha
    cases ha with
    | cons hw hlater =>
      obtain ⟨rfl, rfl⟩ := hw.stops.unique (h clock)
      exact hlater
    | fails _ hw =>
      obtain ⟨rfl, rfl⟩ := hw.stops.unique (h clock)
      rfl
  · intro ha
    cases ok with
    | true => exact .cons hj ha
    | false =>
      obtain rfl : stop = clock + millis := ha
      exact .fails _ hj

theorem Takes.awaits_iff {waits : List Wait} {millis : Nat} {ok : Bool} (h : Takes waits millis ok)
    (clock stop : Nat) : Awaits clock waits stop ↔ stop = clock + millis := by
  have hnil : Awaits (clock + millis) [] stop ↔ stop = clock + millis := by
    refine ⟨fun h => ?_, ?_⟩
    · cases h
      rfl
    · rintro rfl
      exact .nil _
  have h := h clock [] stop
  rw [List.append_nil] at h
  cases ok with
  | true => exact h.trans hnil
  | false => exact h

/-! ## Callbacks -/

namespace Reply

def fails (reply : Reply α) : Bool :=
  match reply.result with
  | .ok _ => false
  | .error _ => true

def sleeper (reply : Reply α) (clock : Nat) : Sleeper :=
  ⟨clock + reply.sleep, reply.fails⟩

def wait (reply : Reply α) : Wait := fun clock => [reply.sleeper clock]

end Reply

theorem takes_wait (reply : Reply α) : Takes [reply.wait] reply.sleep (!reply.fails) := by
  refine .of_stops fun clock => ?_
  cases hf : reply.fails with
  | true =>
    refine .failed (List.mem_singleton_self _) hf (by simp [Reply.sleeper]) fun t ht _ => ?_
    obtain rfl := List.mem_singleton.mp ht
    simp [Reply.sleeper]
  | false =>
    refine .all (by omega) (fun t ht => ?_) (.inr ⟨_, List.mem_singleton_self _, rfl⟩)
    obtain rfl := List.mem_singleton.mp ht
    exact ⟨hf, Nat.le_refl _⟩

def settleWait (pause : Nat) (reply : Option (Reply α)) : Wait := fun clock =>
  (reply.map fun reply => reply.sleeper clock).toList ++ [⟨clock + pause, false⟩]

def settleTime (pause : Nat) : Option (Reply α) → Nat
  | none => pause
  | some reply => if reply.fails then reply.sleep else max reply.sleep pause

theorem takes_settle (pause : Nat) (reply : Option (Reply α)) :
    Takes [settleWait pause reply] (settleTime pause reply) (reply.all (!·.fails)) := by
  refine .of_stops fun clock => ?_
  cases reply with
  | none =>
    refine .all (by omega) (fun t ht => ?_) (.inr ⟨_, List.mem_singleton_self _, rfl⟩)
    obtain rfl := List.mem_singleton.mp ht
    exact ⟨rfl, Nat.le_refl _⟩
  | some reply =>
    have hmem : ∀ t, t ∈ settleWait pause (some reply) clock ↔
        t = reply.sleeper clock ∨ t = ⟨clock + pause, false⟩ := by
      simp [settleWait]
    cases hf : reply.fails with
    | true =>
      simp only [settleTime, hf, if_true, Option.all_some, Bool.not_true]
      refine .failed ((hmem _).mpr (.inl rfl)) hf (by simp [Reply.sleeper]) fun t ht htf => ?_
      rcases (hmem t).mp ht with rfl | rfl
      · simp [Reply.sleeper]
      · cases htf
    | false =>
      simp only [settleTime, hf, Bool.false_eq_true, if_false, Option.all_some, Bool.not_false]
      refine .all (by omega) (fun t ht => ?_) (.inr ?_)
      · rcases (hmem t).mp ht with rfl | rfl
        · refine ⟨hf, ?_⟩
          simp only [Reply.sleeper]
          omega
        · refine ⟨rfl, ?_⟩
          simp only
          omega
      · rcases Nat.le_total reply.sleep pause with hle | hle
        · exact ⟨_, (hmem _).mpr (.inr rfl), by simp only [Nat.max_eq_right hle]⟩
        · exact ⟨_, (hmem _).mpr (.inl rfl), by simp only [Reply.sleeper, Nat.max_eq_left hle]⟩

/-! ## Consultations -/

def calls (history : List (Occurrence κ)) : List (Call κ × Reply Value) :=
  history.filterMap fun
    | .called call reply => some (call, reply)
    | _ => none

def waits (history : List (Occurrence κ)) : List Wait :=
  (calls history).map (·.2.wait)

section
variable {a b : List (Occurrence κ)}

theorem elapsed_append : ∀ (a b : List (Occurrence κ)), elapsed (a ++ b) = elapsed a + elapsed b
  | [], _ => (Nat.zero_add _).symm
  | .slept n :: a, b => by
    rw [List.cons_append, elapsed, elapsed, elapsed_append a b, Nat.add_assoc]
  | .called _ _ :: a, b => elapsed_append a b
  | .notified _ :: a, b => elapsed_append a b
  | .published _ :: a, b => elapsed_append a b

theorem calls_append (a b : List (Occurrence κ)) : calls (a ++ b) = calls a ++ calls b :=
  List.filterMap_append

theorem waits_append (a b : List (Occurrence κ)) : waits (a ++ b) = waits a ++ waits b := by
  rw [waits, calls_append, List.map_append]
  rfl

end

structure Paced (history : List (Occurrence κ)) (ok : Bool) : Prop where
  sum : elapsed history = ((calls history).map (·.2.sleep)).sum
  takes : Takes (waits history) (elapsed history) ok

theorem Paced.nil : Paced ([] : List (Occurrence κ)) true := ⟨rfl, takes_nil⟩

theorem Paced.append {a b : List (Occurrence κ)} {ok : Bool} (ha : Paced a true)
    (hb : Paced b ok) : Paced (a ++ b) ok := by
  constructor
  · rw [elapsed_append, ha.sum, hb.sum, calls_append, List.map_append, List.sum_append]
  · rw [elapsed_append, waits_append]
    exact ha.takes.append hb.takes

theorem paced_told (s : Session κ) (notice : Notice) : Paced (s.told notice) true :=
  ⟨rfl, takes_nil⟩

namespace Consulted

def Paced (c : Consulted κ W α) : Prop := Dialogue.Paced c.history c.result.isOk

theorem Paced.map {c : Consulted κ W α} (h : c.Paced) (f : α → β) : (c.map f).Paced := by
  unfold Consulted.Paced at h ⊢
  rw [Consulted.map]
  cases hc : c.result with
  | ok a =>
    rw [hc] at h
    exact h
  | error e =>
    rw [hc] at h
    exact h

theorem Paced.bind {c : Consulted κ W α} {f : α → W → Consulted κ W β} (h : c.Paced)
    (hf : ∀ a w, (f a w).Paced) : (c.bind f).Paced := by
  unfold Consulted.Paced at h
  cases hc : c.result with
  | ok a =>
    rw [hc] at h
    rw [bind_ok hc]
    exact h.append (hf a c.world)
  | error e =>
    rw [hc] at h
    rw [bind_error hc]
    exact h

end Consulted

theorem consult_paced (call : Call κ) (record : α → Value) (answer : Reply α × W) :
    (consult call record answer).Paced := by
  obtain ⟨⟨sleep, result⟩, world⟩ := answer
  constructor
  · rfl
  · have h := takes_wait (Reply.map record ⟨sleep, result⟩)
    cases result <;> exact h

theorem paced_closed :
    Consulted.Closed (fun _ _ => True) fun α (c : Consulted κ W α) => c.Paced where
  done _ _ := .nil
  called _ _ _ _ := consult_paced _ _ _
  map f h := h.map f
  bind h hf := h.bind hf

theorem settleOutput_some (host : Host κ W) (pause : Nat) (callback : κ) (answers : Answers)
    (world : W) : settleOutput host pause (some callback) answers world =
      consultFor ⟨.hook, callback, answers, ""⟩ (fun _ => .done)
        (host.complete callback answers world).1
        (settleTime pause (some (host.complete callback answers world).1))
        (host.complete callback answers world).2 := by
  rw [settleOutput]
  rcases host.complete callback answers world with ⟨⟨sleep, result⟩, w⟩
  cases result <;> rfl

theorem consultFor_isOk (call : Call κ) (record : α → Value) (reply : Reply α) (millis : Nat)
    (world : W) : (consultFor call record reply millis world).result.isOk = reply.result.isOk := by
  rw [consultFor]
  cases reply.result <;> rfl

/-- The callback of an output and its pause together are not paced: that is the one exception. -/
theorem settleOutput_timed (host : Host κ W) (pause : Nat) (complete : Option κ)
    (answers : Answers) (world : W) :
    let reply := complete.map fun callback => (host.complete callback answers world).1
    let c := settleOutput host pause complete answers world
    elapsed c.history = settleTime pause reply ∧
      Takes [settleWait pause reply] (settleTime pause reply) c.result.isOk := by
  intro reply c
  have htakes := takes_settle pause reply
  cases complete with
  | none => exact ⟨rfl, htakes⟩
  | some callback =>
    have hc : c = consultFor ⟨.hook, callback, answers, ""⟩ (fun _ => .done)
        (host.complete callback answers world).1 (settleTime pause reply)
        (host.complete callback answers world).2 := settleOutput_some host pause callback _ _
    have hok : (host.complete callback answers world).1.result.isOk =
        !(host.complete callback answers world).1.fails := by
      unfold Reply.fails
      cases (host.complete callback answers world).1.result <;> rfl
    rw [hc, consultFor_isOk, hok]
    exact ⟨Nat.add_zero _, htakes⟩

/-! ## Deeds -/

def Effect.settles : Effect κ → Bool
  | .settleOutput _ _ => true
  | _ => false

structure Deed (κ W : Type) where
  session : Session κ
  world : W
  effect : Effect κ

namespace Deed

variable (host : Host κ W) (d : Deed κ W)

def performed : Performed κ W := d.session.perform host d.world d.effect

def hookReply (callback : κ) : Reply Unit := (host.complete callback d.session.answers d.world).1

/-- The time that is awaited: for an output, that of its callback and its pause together, and
otherwise that of all callbacks that are called. -/
def time : Nat :=
  match d.effect with
  | .settleOutput wait complete =>
    settleTime (d.session.pause wait) (complete.map (d.hookReply host))
  | _ => ((calls (d.performed host).history).map (·.2.sleep)).sum

def waits : List Wait :=
  match d.effect with
  | .settleOutput wait complete =>
    [settleWait (d.session.pause wait) (complete.map (d.hookReply host))]
  | _ => Dialogue.waits (d.performed host).history

structure Timed : Prop where
  elapsed : elapsed (d.performed host).history = d.time host
  takes : Takes (d.waits host) (d.time host) (d.performed host).outcome.isOk

variable {host} {d}

theorem conclude_isOk (s : Session κ) (c : Consulted κ W α) (answer : α → Option Event) :
    (s.conclude c answer).outcome.isOk = c.result.isOk := by
  rw [Session.conclude]
  cases c.result <;> rfl

section
variable (s : Session κ) (world : W) (wait : Duration) (complete : Option κ)

theorem time_settle : time host ⟨s, world, .settleOutput wait complete⟩ =
    settleTime (s.pause wait)
      (complete.map fun callback => (host.complete callback s.answers world).1) := rfl

theorem waits_settle : waits host ⟨s, world, .settleOutput wait complete⟩ =
    [settleWait (s.pause wait)
      (complete.map fun callback => (host.complete callback s.answers world).1)] := rfl

theorem performed_settle : performed host ⟨s, world, .settleOutput wait complete⟩ =
    s.conclude (settleOutput host (s.pause wait) complete s.answers world)
      fun _ => some .outputSettled := rfl

theorem settle_timed : Timed host ⟨s, world, .settleOutput wait complete⟩ := by
  obtain ⟨htime, htakes⟩ := settleOutput_timed host (s.pause wait) complete s.answers world
  constructor
  · rw [time_settle, performed_settle]
    exact htime
  · rw [time_settle, waits_settle, performed_settle, conclude_isOk]
    exact htakes

end

theorem timed_of_paced (h : Paced (d.performed host).history (d.performed host).outcome.isOk)
    (he : d.effect.settles = false) : d.Timed host := by
  have htime : d.time host = ((calls (d.performed host).history).map (·.2.sleep)).sum := by
    unfold time
    split
    · rename_i hs
      simp [hs, Effect.settles] at he
    · rfl
  have hwaits : d.waits host = Dialogue.waits (d.performed host).history := by
    unfold waits
    split
    · rename_i hs
      simp [hs, Effect.settles] at he
    · rfl
  rw [← h.sum] at htime
  exact ⟨htime.symm, by rw [hwaits, htime]; exact h.takes⟩

theorem conclude_paced (s : Session κ) {c : Consulted κ W α} (h : c.Paced)
    (answer : α → Option Event) :
    Paced (s.conclude c answer).history (s.conclude c answer).outcome.isOk := by
  rw [conclude_isOk]
  exact h

theorem timed (host : Host κ W) (d : Deed κ W) : d.Timed host := by
  obtain ⟨s, world, effect⟩ := d
  cases effect with
  | settleOutput wait complete => exact settle_timed s world wait complete
  | resolveText wording =>
    refine timed_of_paced ?_ rfl
    cases wording with
    | none => exact .nil
    | some wording =>
      exact conclude_paced s (paced_closed.wording host s.answers (fun _ _ => trivial) world) _
  | evaluateCondition condition =>
    exact timed_of_paced (conclude_paced s (consult_paced _ _ _) _) rfl
  | validate rules text =>
    refine timed_of_paced (conclude_paced s ?_ _) rfl
    exact paced_closed.rules host text s.answers (fun _ _ _ _ => trivial)
      (fun _ _ _ _ => trivial) world
  | runHook callback step => exact timed_of_paced (conclude_paced s (consult_paced _ _ _) _) rfl
  | runFormHook =>
    refine timed_of_paced ?_ rfl
    simp only [performed, Session.perform]
    cases s.script.complete with
    | none => exact .nil
    | some callback => exact conclude_paced s (consult_paced _ _ _) _
  | appendMessage speaker text => exact timed_of_paced (paced_told _ _) rfl
  | storeAnswer name value => exact timed_of_paced (paced_told _ _) rfl
  | publishStatus status => exact timed_of_paced (paced_told _ _) rfl

end Deed

/-! ## The deeds of a call -/

def Session.deeds (host : Host κ W) : List (Effect κ) → Session κ → W → List (Deed κ W)
  | [], _, _ => []
  | effect :: effects, s, world =>
    let first := s.perform host world effect
    ⟨s, world, effect⟩ :: match first.outcome with
      | .ok _ => deeds host effects first.session first.world
      | .error _ => []

def Session.eventDeeds (host : Host κ W) (s : Session κ) (world : W) (event : Event) :
    List (Deed κ W) :=
  match transition s.script s.state event with
  | .ok t => deeds host t.effects { s with state := t.state } world
  | .error _ => []

def Stage.deeds (host : Host κ W) : (bound : Nat) → Stage κ W → List (Deed κ W)
  | bound, stage =>
    match stage.next, bound with
    | .again event, bound + 1 =>
      stage.session.eventDeeds host stage.world event ++
        deeds host bound (stage.session.react host stage.world event)
    | _, _ => []

def Session.callDeeds (host : Host κ W) (bound : Nat) (s : Session κ) (world : W) (event : Event) :
    List (Deed κ W) :=
  if s.halted then []
  else s.eventDeeds host world event ++ (s.react host world event).deeds host bound

def Next.ok : Next → Bool
  | .returns (.error _) => false
  | _ => true

structure Done (host : Host κ W) (deeds : List (Deed κ W)) (history : List (Occurrence κ))
    (next : Next) : Prop where
  called : calls history = deeds.flatMap fun d => calls (d.performed host).history
  time : elapsed history = (deeds.map (Deed.time host)).sum
  takes : Takes (deeds.flatMap (Deed.waits host)) (elapsed history) next.ok
  failed : ∀ d ∈ deeds, ∀ failure, (d.performed host).outcome = .error failure →
    deeds.getLast? = some d ∧ next = .returns (.error (.callback failure))

section
variable {host : Host κ W} {a b : List (Deed κ W)} {h h' : List (Occurrence κ)} {next next' : Next}

theorem Next.ok_of_ne {next : Next} (hn : ∀ e, next ≠ .returns (.error e)) : next.ok = true := by
  unfold Next.ok
  split
  · exact absurd rfl (hn _)
  · rfl

theorem Done.nil (hn : next.ok = true) : Done host [] [] next :=
  ⟨rfl, rfl, hn ▸ takes_nil, List.forall_mem_nil _⟩

theorem Done.append (ha : Done host a h next) (hn : next.ok = true) (hb : Done host b h' next') :
    Done host (a ++ b) (h ++ h') next' := by
  have hgood : ∀ d ∈ a, ∀ failure, (d.performed host).outcome ≠ .error failure := by
    intro d hd failure he
    rw [(ha.failed d hd failure he).2] at hn
    cases hn
  constructor
  · rw [calls_append, ha.called, hb.called, List.flatMap_append]
  · rw [elapsed_append, ha.time, hb.time, List.map_append, List.sum_append]
  · rw [elapsed_append, List.flatMap_append]
    exact (hn ▸ ha.takes).append hb.takes
  · intro d hd failure he
    rcases List.mem_append.mp hd with hd | hd
    · exact absurd he (hgood d hd failure)
    · obtain ⟨hlast, hnext⟩ := hb.failed d hd failure he
      exact ⟨by rw [List.getLast?_append, hlast]; rfl, hnext⟩

theorem done_perform (s : Session κ) (world : W) (effect : Effect κ)
    (hn : next.ok = (s.perform host world effect).outcome.isOk)
    (hfailed : ∀ failure, (s.perform host world effect).outcome = .error failure →
      next = .returns (.error (.callback failure))) :
    Done host [⟨s, world, effect⟩] (s.perform host world effect).history next := by
  have ht := Deed.timed host ⟨s, world, effect⟩
  have helapsed := ht.elapsed
  have htakes := ht.takes
  constructor
  · exact (List.flatMap_singleton _ _).symm
  · rw [List.map_singleton, List.sum_singleton, ← helapsed]
    rfl
  · rw [List.flatMap_singleton, hn]
    rw [← helapsed] at htakes
    exact htakes
  · intro d hd failure he
    obtain rfl := List.mem_singleton.mp hd
    exact ⟨rfl, hfailed failure he⟩

end

section
variable (host : Host κ W)

theorem carry_done : ∀ (effects : List (Effect κ)) (event : Option Event) (s : Session κ)
    (world : W), Done host (Session.deeds host effects s world)
      (Session.carry host effects event s world).history
      (Session.carry host effects event s world).next
  | [], event, s, world => by
    obtain ⟨next, hc, hne⟩ := Session.carry_nil host event s world
    rw [hc]
    exact .nil (Next.ok_of_ne hne)
  | effect :: effects, event, s, world => by
    cases ho : (s.perform host world effect).outcome with
    | ok answer =>
      have hfirst : Done host [⟨s, world, effect⟩] (s.perform host world effect).history
          (.returns (.ok ())) :=
        done_perform s world effect (by rw [ho]; rfl) (by rw [ho]; exact nofun)
      have ih := carry_done effects (answer.or event) (s.perform host world effect).session
        (s.perform host world effect).world
      rw [Session.carry_cons_ok host ho, Session.deeds]
      simp only [ho]
      exact hfirst.append rfl ih
    | error failure =>
      have hfirst : Done host [⟨s, world, effect⟩] (s.perform host world effect).history
          (.returns (.error (.callback failure))) := by
        refine done_perform s world effect (by rw [ho]; rfl) fun failure' he => ?_
        rw [ho] at he
        cases he
        rfl
      rw [Session.carry_cons_error host ho, Session.deeds]
      simp only [ho]
      constructor
      · rw [calls_append, hfirst.called]
        exact List.append_nil _
      · rw [elapsed_append, hfirst.time]
        exact Nat.add_zero _
      · rw [elapsed_append]
        exact hfirst.takes
      · exact hfirst.failed

theorem react_done {s : Session κ} {event : Event} {t : Transition κ}
    (ht : transition s.script s.state event = .ok t) (world : W) :
    Done host (s.eventDeeds host world event) (s.react host world event).history
      (s.react host world event).next := by
  rw [Session.react_of_ok host ht, Session.eventDeeds, ht]
  exact carry_done host _ _ _ _

theorem deeds_returns {stage : Stage κ W} {result : CallResult} (hn : stage.next = .returns result)
    (bound : Nat) : stage.deeds host bound = [] := by
  unfold Stage.deeds
  split
  · rename_i h
    rw [hn] at h
    cases h
  · rfl

theorem deeds_again {stage : Stage κ W} {event : Event} (hn : stage.next = .again event)
    (bound : Nat) : stage.deeds host (bound + 1) =
      stage.session.eventDeeds host stage.world event ++
        (stage.session.react host stage.world event).deeds host bound := by
  rw [Stage.deeds]
  simp only [hn]

theorem finish_done {script : Script κ} {bound : Nat} {stage : Stage κ W} {r : Returned κ W}
    {deeds : List (Deed κ W)} (hs : stage.Sound script)
    (h : Session.finish host bound stage = some r) (hd : Done host deeds stage.history stage.next) :
    Done host (deeds ++ stage.deeds host bound) r.history (.returns r.result) := by
  replace h := finishes_of_finish h
  induction h generalizing deeds with
  | returns hn =>
    rw [deeds_returns host hn, List.append_nil, ← hn]
    exact hd
  | @again _ stage _ _ hn _ ih =>
    obtain ⟨t, ht⟩ := hs.accepts hn
    have hlater := ih (hs.step hn) (react_done host ht stage.world)
    rw [deeds_again host hn]
    exact hd.append (by rw [hn]; rfl) hlater

end

structure Returned.Timed (host : Host κ W) (deeds : List (Deed κ W)) (r : Returned κ W) : Prop where
  -- each callback that is called is called for one of the deeds
  called : calls r.history = deeds.flatMap fun d => calls (d.performed host).history
  sum : elapsed r.history = (deeds.map (Deed.time host)).sum
  -- on a clock the call takes just this time, whenever it begins
  clock : ∀ clock stop, Awaits clock (deeds.flatMap (Deed.waits host)) stop ↔
    stop = clock + elapsed r.history
  failed : ∀ d ∈ deeds, ∀ failure, (d.performed host).outcome = .error failure →
    deeds.getLast? = some d ∧ r.result = .error (.callback failure)
  declined : ∀ e : CallError, e.Declines → r.result = .error e → deeds = [] ∧ elapsed r.history = 0

theorem call_timed {host : Host κ W} {script : Script κ} {s : Session κ} (hs : s.script = script)
    (hreach : Reachable script s.state) {bound : Nat} {w : W} {event : Event} {r : Returned κ W}
    (hr : s.call host bound w event = some r) : r.Timed host (s.callDeeds host bound w event) := by
  have hdeclined : ∀ e, some ⟨[], s, w, .error e⟩ = some r → s.callDeeds host bound w event = [] →
      r.Timed host (s.callDeeds host bound w event) := by
    rintro e he hnone
    cases he
    rw [hnone]
    exact ⟨rfl, rfl, takes_nil.awaits_iff, List.forall_mem_nil _, fun _ _ _ => ⟨rfl, rfl⟩⟩
  cases hh : s.halted with
  | true =>
    rw [call_halted hh] at hr
    exact hdeclined _ hr (by rw [Session.callDeeds, if_pos hh])
  | false =>
    have hlive : s.callDeeds host bound w event =
        s.eventDeeds host w event ++ (s.react host w event).deeds host bound := by
      rw [Session.callDeeds, hh]
      rfl
    cases ht : transition s.script s.state event with
    | error rejection =>
      rw [call_rejected hh ht] at hr
      refine hdeclined _ hr ?_
      rw [hlive, Session.eventDeeds, ht, Session.react_of_error host ht, deeds_returns host rfl]
      rfl
    | ok t =>
      have htaken := (call_accepted hs hreach hh ht hr).2.2
      rw [Session.call, receive_live hh] at hr
      have hdone := finish_done host (react_sound hs hreach hh ht w) hr (react_done host ht w)
      rw [hlive]
      refine ⟨hdone.called, hdone.time, hdone.takes.awaits_iff, fun d hd failure he => ?_,
        fun e he hre => absurd (hre ▸ htaken) he.not_taken⟩
      obtain ⟨hlast, hn⟩ := hdone.failed d hd failure he
      exact ⟨hlast, Next.returns.inj hn⟩

end Dialogue
