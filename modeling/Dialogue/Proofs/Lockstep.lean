import Dialogue.Proofs.Conversation

/-!
# Conversations in lockstep

Two conversations with the same script and requests, but each with a host of its own. Whatever a
conversation does comes from its callbacks' outcomes, so both leave the same marks, but for the time
that passes, until a callback has different outcomes. As the callbacks are the same so far, the
first part of a conversation depends on the first outcomes only.
-/

namespace Dialogue

variable {κ W V α β : Type}

/-! ## Marks without time -/

def Mark.untimed? : Mark κ → Option (Mark κ)
  | .occurred (.called call reply) => some (.occurred (.called call ⟨0, reply.result⟩))
  | .occurred (.slept _) => none
  | mark => some mark

def Mark.outcome? : Mark κ → Option (Except String Value)
  | .occurred (.called _ reply) => some reply.result
  | _ => none

def untimed (marks : List (Mark κ)) : List (Mark κ) :=
  marks.filterMap Mark.untimed?

def outcomes (marks : List (Mark κ)) : List (Except String Value) :=
  marks.filterMap Mark.outcome?

/-- As far as there are callbacks in both, they have the same outcomes. -/
def Concur (a b : List (Mark κ)) : Prop :=
  outcomes a <+: outcomes b ∨ outcomes b <+: outcomes a

def Mark.asked (call : Call κ) (outcome : Except String Value) : Mark κ :=
  .occurred (.called call ⟨0, outcome⟩)

/-- The marks agree up to a callback that has different outcomes. -/
def Parted (a b : List (Mark κ)) : Prop :=
  ∃ common call x y, x ≠ y ∧ common ++ [.asked call x] <+: untimed a ∧
    common ++ [.asked call y] <+: untimed b

/-- Either the marks are the same but for time, and a property holds, or they part. -/
def Alike (a b : List (Mark κ)) (P : Prop) : Prop :=
  untimed a = untimed b ∧ P ∨ Parted a b

section
variable {a b a' b' : List (Mark κ)} {P Q : Prop}

@[simp] theorem untimed_append (a b : List (Mark κ)) : untimed (a ++ b) = untimed a ++ untimed b :=
  List.filterMap_append

@[simp] theorem outcomes_append (a b : List (Mark κ)) :
    outcomes (a ++ b) = outcomes a ++ outcomes b :=
  List.filterMap_append

theorem outcomes_untimed (marks : List (Mark κ)) : outcomes (untimed marks) = outcomes marks := by
  have h : ∀ mark : Mark κ, mark.untimed?.bind Mark.outcome? = mark.outcome? := by
    intro mark
    cases mark with
    | occurred o => cases o <;> rfl
    | returned result => rfl
  rw [outcomes, untimed, List.filterMap_filterMap, funext h]
  rfl

theorem Parted.append (h : Parted a b) (a' b' : List (Mark κ)) : Parted (a ++ a') (b ++ b') := by
  obtain ⟨common, call, x, y, hne, ha, hb⟩ := h
  refine ⟨common, call, x, y, hne, ?_, ?_⟩
  · rw [untimed_append]
    exact ha.trans (List.prefix_append _ _)
  · rw [untimed_append]
    exact hb.trans (List.prefix_append _ _)

theorem Parted.after (h : Parted a' b') (hu : untimed a = untimed b) :
    Parted (a ++ a') (b ++ b') := by
  obtain ⟨common, call, x, y, hne, ha, hb⟩ := h
  refine ⟨untimed a ++ common, call, x, y, hne, ?_, ?_⟩
  · rw [untimed_append, List.append_assoc]
    exact (List.prefix_append_right_inj _).mpr ha
  · rw [untimed_append, List.append_assoc, hu]
    exact (List.prefix_append_right_inj _).mpr hb

theorem Alike.same (a : List (Mark κ)) (h : P) : Alike a a P := .inl ⟨rfl, h⟩

theorem Alike.mono (h : Alike a b P) (hq : P → Q) : Alike a b Q :=
  h.imp_left fun ⟨hu, hp⟩ => ⟨hu, hq hp⟩

theorem Alike.append (h : Alike a b P) (h' : P → Alike a' b' Q) : Alike (a ++ a') (b ++ b') Q := by
  rcases h with ⟨hu, hp⟩ | h
  · rcases h' hp with ⟨hu', hq⟩ | h'
    · exact .inl ⟨by rw [untimed_append, untimed_append, hu, hu'], hq⟩
    · exact .inr (h'.after hu)
  · exact .inr (h.append a' b')

end

/-! ## Consulting callbacks -/

namespace Consulted

def marks (c : Consulted κ W α) : List (Mark κ) := c.history.map .occurred

def Alike (c : Consulted κ W α) (c' : Consulted κ V α) : Prop :=
  Dialogue.Alike c.marks c'.marks (c.result = c'.result)

theorem bind_marks (c : Consulted κ W α) (f : α → W → Consulted κ W β) :
    ∃ rest, (c.bind f).marks = c.marks ++ rest := by
  cases h : c.result with
  | ok a =>
    rw [bind_ok h]
    exact ⟨_, List.map_append⟩
  | error e =>
    rw [bind_error h]
    exact ⟨[], (List.append_nil _).symm⟩

theorem Alike.bind {c : Consulted κ W α} {c' : Consulted κ V α} {f : α → W → Consulted κ W β}
    {f' : α → V → Consulted κ V β} (h : c.Alike c') (hf : ∀ a w v, (f a w).Alike (f' a v)) :
    (c.bind f).Alike (c'.bind f') := by
  rcases h with ⟨hu, hr⟩ | hp
  · cases hc : c.result with
    | ok a =>
      rw [bind_ok hc, bind_ok (hr ▸ hc)]
      unfold Consulted.Alike marks
      rw [List.map_append, List.map_append]
      exact Dialogue.Alike.append (.inl ⟨hu, trivial⟩) fun _ => hf a _ _
    | error e =>
      rw [bind_error hc, bind_error (hr ▸ hc)]
      exact .inl ⟨hu, rfl⟩
  · obtain ⟨rest, hrest⟩ := bind_marks c f
    obtain ⟨rest', hrest'⟩ := bind_marks c' f'
    unfold Consulted.Alike
    rw [hrest, hrest']
    exact .inr (hp.append rest rest')

end Consulted

section
variable (host : Host κ W) (host' : Host κ V)

theorem recorded_inj {record : α → Value} (hr : ∀ a b, record a = record b → a = b)
    {x y : Except String α} (h : x.map record = y.map record) : x = y := by
  cases x with
  | ok a =>
    cases y with
    | ok b => rw [hr a b (Except.ok.inj h)]
    | error e => cases h
  | error e =>
    cases y with
    | ok b => cases h
    | error e' => rw [Except.error.inj h]

theorem consultFor_alike {record : α → Value} (hr : ∀ a b, record a = record b → a = b)
    (call : Call κ) (reply reply' : Reply α) (millis millis' : Nat) (w : W) (v : V) :
    (consultFor call record reply millis w).Alike (consultFor call record reply' millis' v) := by
  have hu : untimed (consultFor call record reply millis w).marks =
      [.asked call (reply.result.map record)] := rfl
  have hu' : untimed (consultFor call record reply' millis' v).marks =
      [.asked call (reply'.result.map record)] := rfl
  by_cases h : reply.result = reply'.result
  · refine .inl ⟨by rw [hu, hu', h], ?_⟩
    simp [consultFor, h]
  · refine .inr ⟨[], call, reply.result.map record, reply'.result.map record, ?_, ?_, ?_⟩
    · exact fun he => h (recorded_inj hr he)
    · exact hu ▸ List.prefix_rfl
    · exact hu' ▸ List.prefix_rfl

theorem consult_alike {record : α → Value} (hr : ∀ a b, record a = record b → a = b)
    (call : Call κ) (answer : Reply α × W) (answer' : Reply α × V) :
    (consult call record answer).Alike (consult call record answer') :=
  consultFor_alike hr call _ _ _ _ _ _

theorem resolve_alike (wording : Wording κ) (answers : Answers) (w : W) (v : V) :
    (wording.resolve host answers w).Alike (wording.resolve host' answers v) := by
  cases wording with
  | literal text => exact .same _ rfl
  | computed callback => exact consult_alike (fun _ _ => Value.text.inj) _ _ _

theorem checkRules_alike (text : String) (answers : Answers) : ∀ (rules : List (Rule κ)) (w : W)
    (v : V), (checkRules host text answers rules w).Alike (checkRules host' text answers rules v)
  | [], w, v => .same _ rfl
  | rule :: rules, w, v => by
    have ih := checkRules_alike text answers rules
    rw [checkRules_cons, checkRules_cons]
    cases rule.predicate with
    | none => exact ih w v
    | some callback =>
      refine (consult_alike (fun _ _ => Value.truth.inj) _ _ _).bind fun accepts w v => ?_
      cases accepts with
      | true => exact ih w v
      | false =>
        have htold := resolve_alike host host' rule.errorText answers w v
        exact htold.mono fun h => congrArg (Except.map some) h

theorem settleOutput_alike (pause : Nat) (complete : Option κ) (answers : Answers) (w : W) (v : V) :
    (settleOutput host pause complete answers w).Alike
      (settleOutput host' pause complete answers v) := by
  cases complete with
  | none => exact .same _ rfl
  | some callback => exact consultFor_alike (fun _ _ _ => rfl) _ _ _ _ _ _ _

/-! ## Stages -/

def Performed.marks (p : Performed κ W) : List (Mark κ) := p.history.map .occurred

def Performed.Alike (p : Performed κ W) (p' : Performed κ V) : Prop :=
  Dialogue.Alike p.marks p'.marks (p.session = p'.session ∧ p.outcome = p'.outcome)

def Stage.Alike (stage : Stage κ W) (stage' : Stage κ V) : Prop :=
  Dialogue.Alike stage.marks stage'.marks
    (stage.session = stage'.session ∧ stage.next = stage'.next)

namespace Session

theorem conclude_alike (s : Session κ) {c : Consulted κ W α} {c' : Consulted κ V α}
    (h : c.Alike c') (answer : α → Option Event) :
    (s.conclude c answer).Alike (s.conclude c' answer) := by
  refine Dialogue.Alike.mono h fun hr => ⟨rfl, ?_⟩
  simp only [conclude, hr]

theorem perform_alike (s : Session κ) (effect : Effect κ) (w : W) (v : V) :
    (s.perform host w effect).Alike (s.perform host' v effect) := by
  have hook (callback : κ) : (consultHook host callback s.answers w).Alike
      (consultHook host' callback s.answers v) := consult_alike (fun _ _ _ => rfl) _ _ _
  cases effect with
  | resolveText wording =>
    cases wording with
    | none => exact .same _ ⟨rfl, rfl⟩
    | some wording => exact s.conclude_alike (resolve_alike host host' wording s.answers w v) _
  | appendMessage speaker text => exact .same _ ⟨rfl, rfl⟩
  | settleOutput wait complete =>
    exact s.conclude_alike (settleOutput_alike host host' _ complete s.answers w v) _
  | evaluateCondition condition =>
    exact s.conclude_alike (consult_alike (fun _ _ => Value.truth.inj) _ _ _) _
  | validate rules text =>
    exact s.conclude_alike (checkRules_alike host host' text s.answers rules w v) _
  | storeAnswer name value => exact .same _ ⟨rfl, rfl⟩
  | runHook callback step => exact s.conclude_alike (hook callback) _
  | runFormHook =>
    unfold perform
    cases s.script.complete with
    | none => exact .same _ ⟨rfl, rfl⟩
    | some callback => exact s.conclude_alike (hook callback) _
  | publishStatus status => exact .same _ ⟨rfl, rfl⟩

theorem carry_marks (effect : Effect κ) (effects : List (Effect κ)) (event : Option Event)
    (s : Session κ) (w : W) : ∃ rest, (carry host (effect :: effects) event s w).marks =
      (s.perform host w effect).marks ++ rest := by
  cases h : (s.perform host w effect).outcome with
  | ok answer =>
    rw [carry_cons_ok host h, Stage.marks_after]
    exact ⟨_, rfl⟩
  | error failure =>
    rw [carry_cons_error host h, Stage.marks, List.map_append, List.append_assoc]
    exact ⟨_, rfl⟩

theorem carry_alike : ∀ (effects : List (Effect κ)) (event : Option Event) (s : Session κ) (w : W)
    (v : V), (carry host effects event s w).Alike (carry host' effects event s v)
  | [], some event, s, w, v => .same _ ⟨rfl, rfl⟩
  | [], none, s, w, v => by
    by_cases hp : s.state.phase = .running
    · rw [carry_nil_running host hp, carry_nil_running host' hp]
      exact .same _ ⟨rfl, rfl⟩
    · rw [carry_nil_resting host hp, carry_nil_resting host' hp]
      exact .same _ ⟨rfl, rfl⟩
  | effect :: effects, event, s, w, v => by
    rcases perform_alike host host' s effect w v with ⟨hu, hs, ho⟩ | hp
    · cases h : (s.perform host w effect).outcome with
      | ok answer =>
        have ih := carry_alike effects (answer.or event) (s.perform host w effect).session
          (s.perform host w effect).world (s.perform host' v effect).world
        rw [carry_cons_ok host h, carry_cons_ok host' (ho ▸ h), ← hs]
        unfold Stage.Alike
        rw [Stage.marks_after, Stage.marks_after]
        exact Dialogue.Alike.append (.inl ⟨hu, trivial⟩) fun _ => ih
      | error failure =>
        rw [carry_cons_error host h, carry_cons_error host' (ho ▸ h)]
        dsimp only
        rw [← hs]
        refine .inl ⟨?_, rfl, rfl⟩
        unfold Performed.marks at hu
        simp only [Stage.marks, List.map_append, untimed_append, hu]
    · obtain ⟨rest, hrest⟩ := carry_marks host effect effects event s w
      obtain ⟨rest', hrest'⟩ := carry_marks host' effect effects event s v
      unfold Stage.Alike
      rw [hrest, hrest']
      exact .inr (hp.append rest rest')

theorem receive_alike (s : Session κ) (event : Event) (w : W) (v : V) :
    (s.receive host w event).Alike (s.receive host' v event) := by
  by_cases hh : s.halted = true
  · rw [receive_halted hh, receive_halted hh]
    exact .same _ ⟨rfl, rfl⟩
  · have hh : s.halted = false := Bool.eq_false_iff.mpr hh
    rw [receive_live hh, receive_live hh]
    cases ht : transition s.script s.state event with
    | ok t =>
      rw [react_of_ok host ht, react_of_ok host' ht]
      exact carry_alike host host' t.effects none _ w v
    | error rejection =>
      rw [react_of_error host ht, react_of_error host' ht]
      exact .same _ ⟨rfl, rfl⟩

end Session

/-! ## Conversations -/

namespace Conversation

def Agrees (c : Conversation κ W) (c' : Conversation κ V) : Prop :=
  c.session = c'.session ∧ c.pending = c'.pending ∧ c.requests = c'.requests

theorem next_alike {c : Conversation κ W} {c' : Conversation κ V}
    (h : Alike c.marks c'.marks (c.Agrees c')) :
    Alike (c.next host).marks (c'.next host').marks ((c.next host).Agrees (c'.next host')) := by
  rcases h with ⟨hu, hs, hp, hr⟩ | hparted
  · have he : c'.event? = c.event? := by
      unfold event?
      rw [hs, hp, hr]
    unfold next
    rw [he]
    cases hc : c.event? with
    | none => exact .inl ⟨hu, hs, hp, hr⟩
    | some p =>
      obtain ⟨event, requests⟩ := p
      have hstage := Session.receive_alike host host' c.session event c.world c'.world
      dsimp only
      rw [← hs]
      refine Alike.append (.inl ⟨hu, trivial⟩) fun _ => hstage.mono fun ⟨hs', hn⟩ => ⟨hs', ?_, rfl⟩
      simp only [staged, Stage.pending?, hn]
  · obtain ⟨marks, hm⟩ := next_marks host c
    obtain ⟨marks', hm'⟩ := next_marks host' c'
    rw [hm, hm']
    exact .inr (hparted.append marks marks')

/-- **Lockstep.** Conversations that open alike are alike as long as their callbacks have the same
outcomes. -/
theorem opened_alike (script : Script κ) (settings : Settings) (requests : List Request) (w : W)
    (v : V) (n : Nat) :
    Alike ((opened script settings w requests).after host n).marks
      ((opened script settings v requests).after host' n).marks
      (((opened script settings w requests).after host n).Agrees
        ((opened script settings v requests).after host' n)) := by
  induction n with
  | zero => exact .same _ ⟨rfl, rfl, rfl⟩
  | succ n ih => exact next_alike host host' ih

end Conversation

end

/-! ## The first callbacks -/

theorem outcomes_asked (marks : List (Mark κ)) (call : Call κ) (outcome : Except String Value)
    (rest : List (Mark κ)) : outcomes (marks ++ .asked call outcome :: rest) =
      outcomes marks ++ outcome :: outcomes rest := by
  rw [outcomes_append]
  rfl

theorem asked_inj {call call' : Call κ} {x y : Except String Value}
    (h : Mark.asked call x = .asked call' y) : call = call' := by
  cases h
  rfl

theorem not_concur {a b common restA restB : List (Mark κ)} {call : Call κ}
    {x y : Except String Value} (hne : x ≠ y) (ha : untimed a = common ++ .asked call x :: restA)
    (hb : untimed b = common ++ .asked call y :: restB) :
    ¬ Concur a b := by
  rw [Concur, ← outcomes_untimed a, ← outcomes_untimed b, ha, hb, outcomes_asked, outcomes_asked]
  rintro (h | h)
  · have h := (List.prefix_append_right_inj _).mp h
    exact hne (List.cons_prefix_cons.mp h).1
  · have h := (List.prefix_append_right_inj _).mp h
    exact hne (List.cons_prefix_cons.mp h).1.symm

theorem Alike.asked {a b before rest : List (Mark κ)} {call : Call κ} {reply : Reply Value}
    {P : Prop} (h : Alike a b P) (ha : a = before ++ .occurred (.called call reply) :: rest)
    (hb : Concur before b) : ∃ outcome, untimed before ++ [.asked call outcome] <+: untimed b := by
  have hu : untimed a = untimed before ++ .asked call reply.result :: untimed rest := by
    rw [ha, untimed_append]
    rfl
  rcases h with ⟨hab, _⟩ | ⟨common, call', x, y, hne, ⟨restA, hA⟩, ⟨restB, hB⟩⟩
  · exact ⟨reply.result, untimed rest, by rw [← hab, hu, List.append_assoc]; rfl⟩
  · rw [hu, List.append_assoc] at hA
    rw [List.append_assoc] at hB
    -- the marks part at the callback, before it or after it
    rcases List.append_eq_append_iff.mp hA with ⟨more, hbefore, hmore⟩ | ⟨more, hcommon, hmore⟩
    · cases more with
      | nil =>
        obtain rfl := asked_inj (List.cons.inj hmore).1
        rw [List.append_nil] at hbefore
        exact ⟨y, restB, by rw [hbefore, ← hB, List.append_assoc]⟩
      | cons mark more =>
        obtain ⟨rfl, _⟩ := List.cons.inj hmore
        exact absurd hb (not_concur hne hbefore hB.symm)
    · cases more with
      | nil =>
        obtain rfl := asked_inj (List.cons.inj hmore).1
        rw [List.append_nil] at hcommon
        exact ⟨y, restB, by rw [← hB, hcommon, List.append_assoc]⟩
      | cons mark more =>
        obtain ⟨rfl, _⟩ := List.cons.inj hmore
        refine ⟨reply.result, more ++ ([.asked call' y] ++ restB), ?_⟩
        rw [← hB, hcommon]
        simp

end Dialogue
