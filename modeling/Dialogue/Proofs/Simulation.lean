import Dialogue.Proofs.Record

/-!
# Simulation of pieces of a conversation

A scene is a point in the work of a session: effects are still to be performed, or no call is in
hand. `Simulates` says that the session, from a scene on, puts on record what a piece of the
interpreter tells, and where it is then. Events and calls are counted, because the interpreter is
cut off only after at least as many of them as its bound.

The view published last has no influence on a record, so it is quantified away in every relation.
-/

namespace Dialogue

inductive Scene (κ W : Type)
  -- the effects that are left, and the answer found so far
  | busy (effects : List (Effect κ)) (event : Option Event) (position : Position) (phase : Phase)
    (talk : Talk W)
  -- no call is in hand
  | idle (position : Position) (phase : Phase) (talk : Talk W)

variable {κ W α β : Type}

def Talk.session (talk : Talk W) (script : Script κ) (settings : Settings) (position : Position)
    (phase : Phase) (published : View) : Session κ :=
  ⟨script, settings, ⟨position, phase, talk.prompts⟩, talk.answers, talk.transcript, false,
    published⟩

section
variable (host : Host κ W) (script : Script κ) (settings : Settings)

def Scene.record (bound : Nat) (published : View) : Scene κ W → Record κ
  | .busy effects event position phase talk =>
    (Session.carry host effects event (talk.session script settings position phase published)
      talk.world).record host bound talk.calls
  | .idle position phase talk =>
    (talk.session script settings position phase published).recordCalls host bound talk.world
      talk.calls

def Scene.Before (k : Nat) (published : View) (a : Scene κ W) (marks : List (Mark κ)) : Prop :=
  ∀ n < k, ∃ early, a.record host script settings n published = ⟨early, false⟩ ∧ early <+: marks

/-- After `k` events and calls, with the marks on record, the session is at the second scene. -/
def Leads (k : Nat) (a : Scene κ W) (marks : List (Mark κ)) (b : Scene κ W) : Prop :=
  ∀ published, ∃ published', (∀ bound, a.record host script settings (k + bound) published =
      (b.record host script settings bound published').after marks) ∧
    a.Before host script settings k published marks

def Ends (a : Scene κ W) (marks : List (Mark κ)) : Prop :=
  ∀ published, ∃ k,
    (∀ bound, a.record host script settings (k + bound) published = ⟨marks, true⟩) ∧
      a.Before host script settings k published marks

/-- The marks are on record after some events and calls, `least` of them or more. -/
def Lasts (least : Nat) (a : Scene κ W) (marks : List (Mark κ)) : Prop :=
  ∀ published, ∃ k, least ≤ k ∧ marks <+: (a.record host script settings k published).marks ∧
    a.Before host script settings k published marks

def Simulates (least : Nat) (a : Scene κ W) (done : α → Talk W → Scene κ W)
    (told : Told κ W α) : Prop :=
  match told.fate with
  | .goesOn v talk => ∃ k, Leads host script settings k a told.marks (done v talk)
  | .ended => Ends host script settings a told.marks
  | .cut => Lasts host script settings least a told.marks

end

section
variable {host : Host κ W} {script : Script κ} {settings : Settings}

/-! ## Composition -/

theorem leads_at_once {a b : Scene κ W} {marks : List (Mark κ)}
    (h : ∀ published, ∃ published', ∀ bound, a.record host script settings bound published =
      (b.record host script settings bound published').after marks) :
    Leads host script settings 0 a marks b := by
  intro published
  obtain ⟨published', h⟩ := h published
  refine ⟨published', fun bound => ?_, fun n hn => absurd hn (Nat.not_lt_zero n)⟩
  rw [Nat.zero_add, h]

theorem leads_by_one {a b : Scene κ W} {marks : List (Mark κ)}
    (h : ∀ published bound, a.record host script settings (bound + 1) published =
      (b.record host script settings bound published).after marks)
    (hzero : ∀ published, a.record host script settings 0 published = ⟨[], false⟩) :
    Leads host script settings 1 a marks b := by
  intro published
  refine ⟨published, fun bound => ?_, fun n hn => ⟨[], ?_, List.nil_prefix⟩⟩
  · rw [Nat.add_comm, h]
  · rw [Nat.lt_one_iff.mp hn, hzero]

theorem Leads.refl (a : Scene κ W) : Leads host script settings 0 a [] a :=
  leads_at_once fun published => ⟨published, fun _ => (Record.after_nil _).symm⟩

theorem before_append {k l : Nat} {published published' : View} {a b : Scene κ W}
    {marks marks' : List (Mark κ)}
    (h : ∀ bound, a.record host script settings (k + bound) published =
      (b.record host script settings bound published').after marks)
    (ha : a.Before host script settings k published marks)
    (hb : b.Before host script settings l published' marks') :
    a.Before host script settings (k + l) published (marks ++ marks') := by
  intro n hn
  by_cases hk : n < k
  · obtain ⟨early, he, hp⟩ := ha n hk
    exact ⟨early, he, hp.trans (List.prefix_append _ _)⟩
  · obtain ⟨early, he, hp⟩ := hb (n - k) (by omega)
    refine ⟨marks ++ early, ?_, (List.prefix_append_right_inj marks).mpr hp⟩
    rw [show n = k + (n - k) by omega, h, he]
    rfl

theorem Leads.trans {k l : Nat} {a b c : Scene κ W} {marks marks' : List (Mark κ)}
    (h : Leads host script settings k a marks b) (h' : Leads host script settings l b marks' c) :
    Leads host script settings (k + l) a (marks ++ marks') c := by
  intro published
  obtain ⟨p₁, h₁, hb₁⟩ := h published
  obtain ⟨p₂, h₂, hb₂⟩ := h' p₁
  refine ⟨p₂, fun bound => ?_, before_append h₁ hb₁ hb₂⟩
  rw [Nat.add_assoc, h₁, h₂, Record.after_after]

theorem Leads.ends {k : Nat} {a b : Scene κ W} {marks marks' : List (Mark κ)}
    (h : Leads host script settings k a marks b) (h' : Ends host script settings b marks') :
    Ends host script settings a (marks ++ marks') := by
  intro published
  obtain ⟨p₁, h₁, hb₁⟩ := h published
  obtain ⟨l, h₂, hb₂⟩ := h' p₁
  refine ⟨k + l, fun bound => ?_, before_append h₁ hb₁ hb₂⟩
  rw [Nat.add_assoc, h₁, h₂]
  rfl

theorem Leads.lasts {k least : Nat} {a b : Scene κ W} {marks marks' : List (Mark κ)}
    (h : Leads host script settings k a marks b) (h' : Lasts host script settings least b marks') :
    Lasts host script settings (k + least) a (marks ++ marks') := by
  intro published
  obtain ⟨p₁, h₁, hb₁⟩ := h published
  obtain ⟨l, hl, h₂, hb₂⟩ := h' p₁
  refine ⟨k + l, by omega, ?_, before_append h₁ hb₁ hb₂⟩
  rw [h₁]
  exact (List.prefix_append_right_inj marks).mpr h₂

theorem Lasts.mono {least most : Nat} {a : Scene κ W} {marks : List (Mark κ)}
    (h : Lasts host script settings most a marks) (hle : least ≤ most) :
    Lasts host script settings least a marks := by
  intro published
  obtain ⟨k, hk, hp, hb⟩ := h published
  exact ⟨k, by omega, hp, hb⟩

theorem Simulates.after {k least : Nat} {a b : Scene κ W} {marks : List (Mark κ)}
    {done : α → Talk W → Scene κ W} {told : Told κ W α}
    (h : Leads host script settings k a marks b)
    (h' : Simulates host script settings least b done told) :
    Simulates host script settings (k + least) a done (told.after marks) := by
  unfold Simulates at h' ⊢
  simp only [Told.after]
  cases hf : told.fate with
  | goesOn v talk =>
    rw [hf] at h'
    obtain ⟨l, hl⟩ := h'
    exact ⟨k + l, h.trans hl⟩
  | ended => rw [hf] at h'; exact h.ends h'
  | cut => rw [hf] at h'; exact h.lasts h'

theorem Simulates.mono {least most : Nat} {a : Scene κ W} {done : α → Talk W → Scene κ W}
    {told : Told κ W α} (h : Simulates host script settings most a done told)
    (hle : least ≤ most) : Simulates host script settings least a done told := by
  unfold Simulates at h ⊢
  cases hf : told.fate with
  | goesOn v talk => rw [hf] at h; exact h
  | ended => rw [hf] at h; exact h
  | cut => rw [hf] at h; exact h.mono hle

theorem Simulates.from {k least : Nat} {a b : Scene κ W} {done : α → Talk W → Scene κ W}
    {told : Told κ W α} (h : Leads host script settings k a [] b)
    (h' : Simulates host script settings least b done told) :
    Simulates host script settings least a done told :=
  (Simulates.after h h').mono (Nat.le_add_left _ _)

theorem Simulates.leads {least : Nat} {a : Scene κ W} {mid done : α → Talk W → Scene κ W}
    {told : Told κ W α} (h : Simulates host script settings least a mid told)
    (h' : ∀ v later, ∃ k, Leads host script settings k (mid v later) [] (done v later)) :
    Simulates host script settings least a done told := by
  unfold Simulates at h ⊢
  cases hf : told.fate with
  | goesOn v talk =>
    rw [hf] at h
    obtain ⟨k, hk⟩ := h
    obtain ⟨l, hl⟩ := h' v talk
    have hkl := hk.trans hl
    rw [List.append_nil] at hkl
    exact ⟨k + l, hkl⟩
  | ended => rw [hf] at h; exact h
  | cut => rw [hf] at h; exact h

theorem Simulates.bind {least : Nat} {a : Scene κ W} {mid : α → Talk W → Scene κ W}
    {done : β → Talk W → Scene κ W} {m : Act κ W α} {f : α → Act κ W β} {talk : Talk W}
    (hm : Simulates host script settings least a mid (m talk))
    (hf : ∀ v later, (m talk).fate = .goesOn v later →
      Simulates host script settings least (mid v later) done (f v later)) :
    Simulates host script settings least a done ((m >>= f) talk) := by
  show Simulates host script settings least a done (Act.bind m f talk)
  unfold Act.bind
  cases h : (m talk).fate with
  | goesOn v later =>
    simp only [Simulates, h] at hm
    obtain ⟨k, hk⟩ := hm
    exact (Simulates.after hk (hf v later h)).mono (Nat.le_add_left _ _)
  | ended => simp only [Simulates, h] at hm ⊢; exact hm
  | cut => simp only [Simulates, h] at hm ⊢; exact hm

/-! ## Effects -/

theorem leads_of_perform {effect : Effect κ} {effects : List (Effect κ)}
    {event answer : Option Event} {position : Position} {phase : Phase} {talk later : Talk W}
    {history : List (Occurrence κ)} (hc : later.calls = talk.calls)
    (h : ∀ published, ∃ published',
      (talk.session script settings position phase published).perform host talk.world effect =
        ⟨history, later.session script settings position phase published', later.world,
          .ok answer⟩) :
    Leads host script settings 0 (.busy (effect :: effects) event position phase talk)
      (history.map .occurred) (.busy effects (answer.or event) position phase later) := by
  refine leads_at_once fun published => ?_
  obtain ⟨published', hp⟩ := h published
  refine ⟨published', fun bound => ?_⟩
  rw [Scene.record, Session.carry_cons_ok host (by rw [hp]), hp, Stage.record_after,
    Scene.record, hc]

theorem simulates_tell {effect : Effect κ} {effects : List (Effect κ)} {event : Option Event}
    {position : Position} {phase : Phase} {talk later : Talk W} {notice : Notice}
    (hc : later.calls = talk.calls)
    (h : ∀ published,
      (talk.session script settings position phase published).perform host talk.world effect =
        Session.announce (later.session script settings position phase published) later.world
          notice) (least : Nat) :
    Simulates host script settings least (.busy (effect :: effects) event position phase talk)
      (fun _ talk => .busy effects event position phase talk)
      (tell phase.status position notice later : Told κ W Unit) := by
  have hl : Leads host script settings 0 (.busy (effect :: effects) event position phase talk)
      ([.notified notice, .published (later.view phase.status position)].map .occurred)
      (.busy effects (Option.or none event) position phase later) :=
    leads_of_perform hc fun published => ⟨later.view phase.status position, h published⟩
  exact ⟨0, hl⟩

/-! ## Calls that are refused -/

theorem recordCalls_cons_refused {s : Session κ} {world : W} {e : CallError} {text : String}
    {turn : Nat} {bound : Nat} (h : s.receive host world (.submitted text turn) =
      ⟨[], s, world, .returns (.error e)⟩) (calls : List (String × Nat)) :
    s.recordCalls host (bound + 1) world ((text, turn) :: calls) =
      (s.recordCalls host bound world calls).after [.returned (.error e)] := by
  rw [Session.recordCalls, h, Stage.record_returns rfl]
  rfl

theorem recordCalls_refused {s : Session κ} {world : W} {e : CallError}
    (h : ∀ text turn, s.receive host world (.submitted text turn) =
      ⟨[], s, world, .returns (.error e)⟩) : ∀ calls : List (String × Nat),
    (∀ bound, s.recordCalls host (calls.length + bound) world calls =
      ⟨calls.map fun _ => .returned (.error e), true⟩) ∧
    ∀ n < calls.length, ∃ early, s.recordCalls host n world calls = ⟨early, false⟩ ∧
      early <+: calls.map fun _ => .returned (.error e)
  | [] => ⟨fun _ => rfl, fun n hn => absurd hn (Nat.not_lt_zero n)⟩
  | (text, turn) :: calls => by
    obtain ⟨ih₁, ih₂⟩ := recordCalls_refused h calls
    refine ⟨fun bound => ?_, fun n hn => ?_⟩
    · rw [List.length_cons, Nat.add_right_comm, recordCalls_cons_refused (h text turn), ih₁]
      rfl
    · cases n with
      | zero => exact ⟨[], rfl, List.nil_prefix⟩
      | succ n =>
        obtain ⟨early, he, hp⟩ := ih₂ n (by simpa using hn)
        rw [recordCalls_cons_refused (h text turn), he]
        exact ⟨_, rfl, List.cons_prefix_cons.mpr ⟨rfl, hp⟩⟩

theorem receive_session (talk : Talk W) (position : Position) (phase : Phase) (published : View)
    (event : Event) :
    (talk.session script settings position phase published).receive host talk.world event =
      (talk.session script settings position phase published).react host talk.world event := rfl

/-- A failed consultation ends everything: the notice and the halted view, the failure as the
result of the call, and a refusal for every later call. -/
theorem ends_of_perform {effect : Effect κ} {effects : List (Effect κ)} {event : Option Event}
    {position : Position} {phase : Phase} {talk later : Talk W} {history : List (Occurrence κ)}
    {failure : Failure} (hf : failure.position = position) (hc : later.calls = talk.calls)
    (h : ∀ published,
      (talk.session script settings position phase published).perform host talk.world effect =
        ⟨history, later.session script settings position phase published, later.world,
          .error failure⟩) :
    Ends host script settings (.busy (effect :: effects) event position phase talk)
      (history.map .occurred ++ later.halt phase.status failure) := by
  intro published
  let halted := (later.session script settings position phase published).halt.publish
  let stage : Stage κ W := ⟨history ++ halted.told (.failed failure.message), halted, later.world,
    .returns (.error (.callback failure))⟩
  have hcarry : Session.carry host (effect :: effects) event
      (talk.session script settings position phase published) talk.world = stage := by
    rw [Session.carry_cons_error host (by rw [h]), h]
    rfl
  have hrecord : ∀ bound, (Scene.busy (effect :: effects) event position phase talk).record host
      script settings bound published =
        (halted.recordCalls host bound later.world talk.calls).after stage.marks := by
    intro bound
    rw [Scene.record, hcarry, Stage.record_returns rfl]
  have hmarks : history.map .occurred ++ later.halt phase.status failure =
      stage.marks ++ talk.calls.map fun _ => .returned (.error .halted) := by
    simp [stage, Stage.marks, Session.told, Talk.halt, hc, hf]
    rfl
  have hrefused : ∀ text turn, halted.receive host later.world (.submitted text turn) =
      ⟨[], halted, later.world, .returns (.error .halted)⟩ :=
    fun text turn => receive_halted rfl later.world (.submitted text turn)
  obtain ⟨hall, hsome⟩ := recordCalls_refused hrefused talk.calls
  refine ⟨talk.calls.length, fun bound => ?_, fun n hn => ?_⟩
  · rw [hrecord, hall, hmarks]
    rfl
  · obtain ⟨early, he, hp⟩ := hsome n hn
    rw [hrecord, he, hmarks]
    exact ⟨_, rfl, (List.prefix_append_right_inj _).mpr hp⟩

theorem consulting_ok {status : Status} {here : Position} {ask : Answers → W → Consulted κ W α}
    {talk : Talk W} {v : α} (h : (ask talk.answers talk.world).result = .ok v) :
    consulting status here ask talk =
      ⟨(ask talk.answers talk.world).history.map .occurred,
        .goesOn v { talk with world := (ask talk.answers talk.world).world }⟩ := by
  simp only [consulting, h]

theorem consulting_error {status : Status} {here : Position} {ask : Answers → W → Consulted κ W α}
    {talk : Talk W} {role : Role} {source : String}
    (h : (ask talk.answers talk.world).result = .error (role, source)) :
    consulting status here ask talk =
      ⟨(ask talk.answers talk.world).history.map .occurred ++
        { talk with world := (ask talk.answers talk.world).world }.halt status ⟨role, here, source⟩,
          .ended⟩ := by
  simp only [consulting, h]

theorem simulates_consulting {effect : Effect κ} {effects : List (Effect κ)}
    {event : Option Event} {position : Position} {phase : Phase} {talk : Talk W}
    (ask : Answers → W → Consulted κ W α) (answer : α → Option Event)
    (h : ∀ published,
      (talk.session script settings position phase published).perform host talk.world effect =
        (talk.session script settings position phase published).conclude
          (ask talk.answers talk.world) answer) (least : Nat) :
    Simulates host script settings least (.busy (effect :: effects) event position phase talk)
      (fun v talk => .busy effects ((answer v).or event) position phase talk)
      (consulting phase.status position ask talk) := by
  cases hr : (ask talk.answers talk.world).result with
  | ok v =>
    rw [consulting_ok hr]
    refine ⟨0, leads_of_perform rfl fun published => ⟨published, ?_⟩⟩
    rw [h, Session.conclude, hr]
    rfl
  | error e =>
    rw [consulting_error hr]
    refine ends_of_perform rfl rfl fun published => ?_
    rw [h, Session.conclude, hr]
    rfl

theorem simulates_finish (step : String) (complete : Option κ) (effects : List (Effect κ))
    (event : Option Event) (position : Position) (phase : Phase) (talk : Talk W) (least : Nat) :
    Simulates host script settings least
      (.busy (Effect.hooks step complete ++ effects) event position phase talk)
      (fun _ talk => .busy effects event position phase talk)
      (finish host phase.status position complete talk) := by
  cases complete with
  | none => exact ⟨0, Leads.refl _⟩
  | some callback =>
    exact simulates_consulting (consultHook host callback) (fun _ => none) (fun _ => rfl) least

/-! ## Events and calls -/

theorem leads_of_event {event : Event} {position : Position} {phase : Phase} {talk : Talk W}
    {t : Transition κ} (ht : transition script ⟨position, phase, talk.prompts⟩ event = .ok t) :
    Leads host script settings 1 (.busy [] (some event) position phase talk) []
      (.busy t.effects none t.state.position t.state.phase
        { talk with prompts := t.state.prompts }) := by
  refine leads_by_one (fun published bound => ?_) fun published => Stage.record_zero rfl _
  rw [Scene.record, Session.carry_nil_some, Stage.record_again rfl, Session.react_of_ok host ht]
  rfl

theorem leads_of_drive {position : Position} {talk : Talk W} {t : Transition κ}
    (ht : drive script ⟨position, .running, talk.prompts⟩ = t) :
    Leads host script settings 1 (.busy [] none position .running talk) []
      (.busy t.effects none t.state.position t.state.phase
        { talk with prompts := t.state.prompts }) := by
  subst ht
  refine leads_by_one (fun published bound => ?_) fun published => ?_
  · rw [Scene.record, Session.carry_nil_running host rfl, Stage.record_again rfl,
      Session.react_of_ok host rfl]
    rfl
  · rw [Scene.record, Session.carry_nil_running host rfl]
    exact Stage.record_zero rfl _

theorem leads_of_rest {position : Position} {phase : Phase} (hp : phase ≠ .running)
    (talk : Talk W) :
    Leads host script settings 0 (.busy [] none position phase talk) [.returned (.ok ())]
      (.idle position phase talk) := by
  refine leads_at_once fun published => ⟨published, fun bound => ?_⟩
  rw [Scene.record, Session.carry_nil_resting host hp, Stage.record_returns rfl]
  rfl

theorem record_idle {position : Position} {phase : Phase} {talk : Talk W}
    {calls : List (String × Nat)} (hc : talk.calls = calls) (bound : Nat) (published : View) :
    (Scene.idle position phase talk : Scene κ W).record host script settings bound published =
      Session.recordCalls host bound (talk.session script settings position phase published)
        talk.world calls := by
  rw [Scene.record, hc]

theorem leads_of_call {text : String} {turn : Nat} {calls : List (String × Nat)}
    {position : Position} {phase : Phase} {talk : Talk W} {t : Transition κ}
    (hc : talk.calls = (text, turn) :: calls)
    (ht : transition script ⟨position, phase, talk.prompts⟩ (.submitted text turn) = .ok t) :
    Leads host script settings 1 (.idle position phase talk) []
      (.busy t.effects none t.state.position t.state.phase
        { talk with prompts := t.state.prompts, calls }) := by
  refine leads_by_one (fun published bound => ?_) fun published => ?_
  · rw [record_idle hc, Session.recordCalls, receive_session, Session.react_of_ok host ht]
    rfl
  · rw [record_idle hc, Session.recordCalls]

theorem leads_of_refused {text : String} {turn : Nat} {calls : List (String × Nat)}
    {position : Position} {phase : Phase} {talk : Talk W} {r : Rejection}
    (hc : talk.calls = (text, turn) :: calls)
    (ht : transition script ⟨position, phase, talk.prompts⟩ (.submitted text turn) = .error r) :
    Leads host script settings 1 (.idle position phase talk)
      [.returned (.error (.rejected r))] (.idle position phase { talk with calls }) := by
  refine leads_by_one (fun published bound => ?_) fun published => ?_
  · rw [record_idle hc]
    refine recordCalls_cons_refused ?_ calls
    rw [receive_session, Session.react_of_error host ht]
  · rw [record_idle hc, Session.recordCalls]

theorem ends_of_completed (position : Position) (talk : Talk W) :
    Ends host script settings (.idle position .completed talk)
      (talk.calls.map fun _ => .returned (.error (.rejected (.notAwaitingInput .completed)))) := by
  intro published
  let s := talk.session script settings position .completed published
  have h : ∀ text turn, s.receive host talk.world (.submitted text turn) =
      ⟨[], s, talk.world, .returns (.error (.rejected (.notAwaitingInput .completed)))⟩ :=
    fun _ _ => rfl
  exact ⟨talk.calls.length, recordCalls_refused h talk.calls⟩

end

end Dialogue
