import Dialogue.Proofs.Sitting

/-!
# Plays

The player of the command line leaves the form alone between two looks until it rests. So a play is
one of the sittings, and it comes out as every sitting does.
-/

namespace Dialogue.Demo

namespace Sitting

theorem Run.trans {a b c : Sitting} {m n : Nat} (hab : a.Run m b) (hbc : b.Run n c) :
    a.Run (m + n) c := by
  induction hbc with
  | refl => exact hab
  | step _ hs ih => exact ih.step hs
  | pass _ hle ih => exact ih.pass hle

def withPlayer (s : Sitting) (player : Player) : Sitting := { s with player }

def Quiet (s : Sitting) : Prop :=
  s.form.move? host = none ∧ s.form.wake? = none

def Plays (s : Sitting) (result : Option Play) : Prop :=
  ∃ play n s', result = some play ∧ s.Run n s' ∧ s'.doing = .done play.verdict ∧
    s'.output = s.output ++ play.printed

section
variable {settings : Settings} {lines : List String} {s : Sitting} {bound : Nat}
  {r : Returned Callback Unit}

theorem waitUntil_run (deadline : Nat) : ∀ {limit : Nat} {s : Sitting} {bound : Nat}
    {r : Returned Callback Unit}, s.At settings lines bound r → s.effort bound r < limit →
      ∃ n bound' r',
        let waited := s.withForm (s.form.waitUntil host deadline (fun _ => true) limit).2
        s.Run n waited ∧ waited.At settings lines bound' r' ∧ waited.form.move? host = none ∧
          waited.effort bound' r' + (if s.form.move? host = none then 0 else 1) ≤ s.effort bound r
  | 0, s, bound, r, h, hlimit => by omega
  | limit + 1, s, bound, r, h, hlimit => by
    rw [Form.waitUntil]
    cases hm : s.form.move? host with
    | none => exact ⟨0, bound, r, .refl, h, hm, Nat.le_refl _⟩
    | some moved =>
      obtain ⟨bound', r', h', hless⟩ := place_move h rfl hm
      have hlimit' : (s.withForm moved).effort bound' r' < limit := by omega
      obtain ⟨n, bound'', r'', hrun, h'', hnone, hle⟩ := waitUntil_run deadline h' hlimit'
      refine ⟨1 + n, bound'', r'', Run.trans (.step .refl (.move hm)) hrun, h'', hnone, ?_⟩
      exact Nat.le_trans (Nat.succ_le_succ (Nat.le_of_add_right_le hle)) hless

theorem settle_run {limit : Nat} (h : s.At settings lines bound r)
    (hlimit : s.effort bound r < limit) : ∃ n bound' r',
      s.Run n (s.withPlayer (s.player.settle limit)) ∧
        (s.withPlayer (s.player.settle limit)).At settings lines bound' r' ∧
        (s.withPlayer (s.player.settle limit)).form.move? host = none ∧
        (s.withPlayer (s.player.settle limit)).effort bound' r' +
          (if s.form.move? host = none then 0 else 1) ≤ s.effort bound r :=
  waitUntil_run s.form.clock h hlimit

theorem at_wake (h : s.At settings lines bound r) (hm : s.form.move? host = none) {wake : Nat}
    (hw : s.form.wake? = some wake) : s.form.clock ≤ wake ∧
      (s.later wake).form.move? host ≠ none := by
  obtain ⟨ticket, d, hs⟩ := Place.stands h
  have hnext : s.form.next? ≠ none := by
    intro hn
    rw [Form.wake?, (hs.rest hn).1] at hw
    cases hw
  rcases Form.heads_ready hs.heads hnext with ⟨f', hm'⟩ | ⟨_, hw', hclock, f', hm'⟩
  · cases hm.symm.trans hm'
  · cases hw.symm.trans hw'
    exact ⟨hclock, Option.ne_none_iff_exists'.mpr ⟨f', hm'⟩⟩

/-- Where the player leaves the form alone with bounds enough, the form comes to rest. -/
theorem rest_run (limit : Nat) : ∀ (sleeps : Nat) {s : Sitting} {bound : Nat}
    {r : Returned Callback Unit}, s.At settings lines bound r → s.effort bound r < limit →
      s.effort bound r + (if s.form.move? host = none then 1 else 0) ≤ sleeps →
      ∃ n bound' r', s.Run n (s.withPlayer (rest limit sleeps s.player)) ∧
        (s.withPlayer (rest limit sleeps s.player)).At settings lines bound' r' ∧
        (s.withPlayer (rest limit sleeps s.player)).Quiet ∧
        (s.withPlayer (rest limit sleeps s.player)).effort bound' r' ≤ s.effort bound r
  | 0, s, bound, r, h, hlimit, hsleeps => by
    cases hm : s.form.move? host with
    | none => simp [hm] at hsleeps
    | some moved =>
      obtain ⟨_, _, _, hless⟩ := place_move h rfl hm
      omega
  | sleeps + 1, s, bound, r, h, hlimit, hsleeps => by
    obtain ⟨n, bound', r', hrun, h', hnone, hle⟩ := settle_run h hlimit
    rw [rest]
    cases hw : (s.withPlayer (s.player.settle limit)).form.wake? with
    | none =>
      have hwake : (s.player.settle limit).wake? = none :=
        Option.map_eq_none_iff.mpr hw
      simp only [hwake]
      exact ⟨n, bound', r', hrun, h', ⟨hnone, hw⟩, Nat.le_of_add_right_le hle⟩
    | some wake =>
      have hwake : (s.player.settle limit).wake? =
          some ((s.withPlayer (s.player.settle limit)).later wake).player :=
        Option.map_eq_some_iff.mpr ⟨wake, hw, rfl⟩
      simp only [hwake]
      obtain ⟨hclock, hmoves⟩ := at_wake h' hnone hw
      have hlater := place_pass h' wake
      have heffort : ((s.withPlayer (s.player.settle limit)).later wake).effort bound' r' =
        (s.withPlayer (s.player.settle limit)).effort bound' r' := rfl
      have hlimit' : ((s.withPlayer (s.player.settle limit)).later wake).effort bound' r' <
          limit := by omega
      have hsleeps' : ((s.withPlayer (s.player.settle limit)).later wake).effort bound' r' +
          (if ((s.withPlayer (s.player.settle limit)).later wake).form.move? host = none
            then 1 else 0) ≤ sleeps := by
        rw [if_neg hmoves]
        by_cases hm : s.form.move? host = none
        · rw [if_pos hm] at hsleeps
          omega
        · rw [if_neg hm] at hle
          omega
      obtain ⟨m, bound'', r'', hrun', h'', hquiet, hle''⟩ :=
        rest_run limit sleeps hlater hlimit' hsleeps'
      exact ⟨n + m, bound'', r'', Run.trans (hrun.pass hclock) hrun', h'', hquiet,
        Nat.le_trans hle'' (by omega)⟩

theorem At.quiet (h : s.At settings lines bound r) (hq : s.Quiet) :
    views r.history = [] ∧ s.form.queue = [] ∧ s.form.next? = none := by
  obtain ⟨ticket, d, hs⟩ := Place.stands h
  have hnext : s.form.next? = none := by
    by_contra hn
    rcases Form.heads_ready hs.heads hn with ⟨f', hm⟩ | ⟨wake, hw, _⟩
    · cases hq.1.symm.trans hm
    · cases hq.2.symm.trans hw
  obtain ⟨hact, _, _, hhistory⟩ := hs.rest hnext
  refine ⟨by rw [hhistory]; rfl, ?_, hnext⟩
  cases hqueue : s.form.queue with
  | nil => rfl
  | cons submission queue =>
    have hm := hq.1
    simp [hs.heads.alive.move_eq, hact, Form.serve, hqueue] at hm

theorem At.watching_cases {version : Nat} (h : s.At settings lines bound r)
    (hd : s.doing = .watching version) :
    version < s.form.version ∨ version = s.form.version ∧ views r.history ≠ [] := by
  cases h.place hd with
  | watching hs hq hr hp hv hn => exact hn

theorem At.replied_quiet {t : Nat} (h : s.At settings lines bound r) (hquiet : s.Quiet)
    (hd : s.doing = .awaiting t) : (s.form.reply? t).isSome = true := by
  obtain ⟨_, hqueue, hnext⟩ := h.quiet hquiet
  cases h.place hd with
  | sent hs hq hr hp ht hn => cases hqueue.symm.trans hq
  | heard hs hq hr hp => exact (hs.heads.owed _ rfl).mpr hnext

theorem Plays.after {n : Nat} {looked : Sitting} {result : Option Play} {texts : List String}
    (h : looked.Plays result) (hrun : s.Run n looked) (hout : looked.output = s.output ++ texts) :
    s.Plays (result.map (·.after texts)) := by
  obtain ⟨play, m, s', rfl, hrun', hdone, hout'⟩ := h
  refine ⟨play.after texts, n + m, s', rfl, hrun.trans hrun', hdone, ?_⟩
  rw [hout', hout, List.append_assoc]
  rfl

/-- A play goes on from a look as a sitting does. It takes a look for each line and one more, and
another one while the start is still under way. -/
theorem playFrom_run (limit : Nat) : ∀ (looks : Nat) {s : Sitting} {bound : Nat}
    {r : Returned Callback Unit}, s.At settings lines bound r → s.doing = .looking →
      0 < settings.eventCapacity → s.effort bound r < limit →
      s.lines.length + (if views r.history = [] then 1 else 2) ≤ looks →
      s.Plays (playFrom limit looks s.player (s.lines.map some))
  | 0, s, bound, r, h, hd, hc, hlimit, hlooks => by
    split at hlooks <;> omega
  | looks + 1, s, bound, r, h, hd, hc, hlimit, hlooks => by
    have hlook : s.Step _ := .look hd
    obtain ⟨h', hless⟩ := at_look h hd
    rw [playFrom]
    rcases hp : s.player.look with ⟨texts, cue, p⟩
    simp only [hp] at hlook h' hless ⊢
    cases cue with
    | finish verdict => exact ⟨⟨texts, verdict⟩, 1, _, rfl, .step .refl hlook, rfl, rfl⟩
    | watch =>
      obtain ⟨n, bound', r', hrun, hat, hquiet, hle⟩ :=
        rest_run limit limit h' (by omega) (by split <;> omega)
      -- the start is over by now, and what it has published since the look is new to the player
      have hover := (hat.quiet hquiet).1
      have hform : p.form = s.form := congrArg (fun looked => looked.2.2.form) hp.symm
      have hpending : views r.history ≠ [] := by
        rcases h'.watching_cases rfl with hlt | ⟨_, hviews⟩
        · exact absurd (hform ▸ hlt : s.form.version < s.form.version) (Nat.lt_irrefl _)
        · exact hviews
      rw [if_neg hpending] at hlooks
      rcases hat.watching_cases rfl with hlt | ⟨_, hviews⟩
      · obtain ⟨hnext, hless'⟩ := at_changed hat rfl hlt
        have hleft : s.lines.length + 1 ≤ looks := Nat.le_of_succ_le_succ hlooks
        have hplays := playFrom_run limit looks hnext rfl hc (by omega)
          (by rw [if_pos hover]; exact hleft)
        exact hplays.after ((Run.trans (.step .refl hlook) hrun).step (.changed rfl hlt)) rfl
      · exact absurd hover hviews
    | readLine prompt =>
      cases hl : s.lines with
      | nil =>
        rw [hl] at hlook
        exact ⟨⟨texts, .success⟩, 2, _, rfl, .step (.step .refl hlook) (.leave rfl rfl), rfl, rfl⟩
      | cons line left =>
        rw [hl] at hlook h' hless hlooks
        obtain ⟨hanswered, hless'⟩ := at_answer hc h' rfl rfl
        obtain ⟨n, bound', r', hrun, hat, hquiet, hle⟩ :=
          rest_run limit limit hanswered (by omega) (by split <;> omega)
        -- no reply would mean that the line is still in the queue, which a form at rest has emptied
        have hreplied := hat.replied_quiet hquiet rfl
        obtain ⟨hnext, hless''⟩ := at_replied hat rfl hreplied
        have hleft : left.length + 1 ≤ looks := by
          rw [List.length_cons] at hlooks
          split at hlooks <;> omega
        have hplays := playFrom_run limit looks hnext rfl hc (by omega)
          (by rw [if_pos (hat.quiet hquiet).1]; exact hleft)
        exact hplays.after ((Run.trans ((Run.refl.step hlook).step (.answer rfl rfl)) hrun).step
          (.replied rfl (.inl hreplied))) rfl

end

end Sitting

/-! ## Settings from outside -/

theorem readOne_holds {α : Type} {P : α → Prop} {key used : String} {read? : String → Option α}
    {default : α} (hd : P default) (hr : ∀ text value, read? text = some value → P value)
    (text? : Option String) : P (Settings.readOne key read? default used text?).1 := by
  cases text? with
  | none => exact hd
  | some text =>
    simp only [Settings.readOne]
    cases h : read? text with
    | none => exact hd
    | some value => exact hr text value h

theorem readCapacity?_pos {text : String} {n : Nat} (h : Settings.readCapacity? text = some n) :
    0 < n := by
  unfold Settings.readCapacity? at h
  obtain ⟨_, h⟩ := Option.filter_eq_some_iff.mp h
  simp only [Bool.and_eq_true, decide_eq_true_eq] at h
  exact h.1

theorem read_eventCapacity (value? : String → Option String) :
    0 < (Settings.read value?).1.eventCapacity :=
  readOne_holds (P := (0 < ·)) (by decide) (fun _ _ => readCapacity?_pos) _

theorem read_broadcastCapacity (value? : String → Option String) :
    0 < (Settings.read value?).1.broadcastCapacity :=
  readOne_holds (P := (0 < ·)) (by decide) (fun _ _ => readCapacity?_pos) _

/-! ## Spawning -/

def WithinLimits (settings : Settings) : Prop :=
  settings.eventCapacity ≤ Form.queueLimit ∧ settings.broadcastCapacity ≤ Form.feedLimit

def Spawnable (slots : Nat) (settings : Settings) : Prop :=
  WithinLimits settings ∧ settings.broadcastCapacity.nextPowerOfTwo ≤ slots

section
variable {slots : Nat} {settings : Settings}

theorem spawn?_spawnable (hc : 0 < settings.eventCapacity) (hb : 0 < settings.broadcastCapacity)
    (h : Spawnable slots settings) : Player.spawn? slots settings = .ok (.spawn settings) := by
  obtain ⟨⟨hevent, hbroadcast⟩, hslots⟩ := h
  unfold Player.spawn? Form.spawn?
  rw [if_neg (by omega), if_neg (by omega), if_neg]
  · rfl
  · exact Nat.not_lt.mpr hslots

theorem spawn?_failed (hc : 0 < settings.eventCapacity) (hb : 0 < settings.broadcastCapacity)
    (h : ¬ Spawnable slots settings) : ∃ failure,
      Player.spawn? slots settings = .error failure ∧
        (failure = .memory ↔ WithinLimits settings) := by
  unfold Player.spawn? Form.spawn?
  by_cases hevent : settings.eventCapacity ≤ Form.queueLimit
  · rw [if_neg (by omega)]
    by_cases hbroadcast : settings.broadcastCapacity ≤ Form.feedLimit
    · have hslots : slots < (Feed.ofCapacity settings.broadcastCapacity).room :=
        Nat.lt_of_not_le fun hle => h ⟨⟨hevent, hbroadcast⟩, hle⟩
      rw [if_neg (by omega), if_pos hslots]
      exact ⟨.memory, rfl, fun _ => ⟨hevent, hbroadcast⟩, fun _ => rfl⟩
    · rw [if_pos (by omega)]
      exact ⟨.feed, rfl, nofun, fun hw => absurd hw.2 hbroadcast⟩
  · rw [if_pos (by omega)]
    exact ⟨.queue, rfl, nofun, fun hw => absurd hw.1 hevent⟩

theorem play_failed {failure : SpawnFailure} (h : Player.spawn? slots settings = .error failure)
    (bound : Nat) (input : List UInt8) :
    play slots bound settings input = some ⟨[], .crash failure⟩ := by
  rw [play, h]

end

/-! ## The outcome -/

section
variable {settings : Settings} {lines : List String}

theorem run_comes_out (hc : 0 < settings.eventCapacity) {n : Nat} {s : Sitting}
    (hrun : (Sitting.opening settings lines).Run n s) :
    n ≤ 200 * lines.length + 22 ∧ s.output <+: (outcome lines).output ∧
      ((∃ verdict, s.doing = .done verdict) ∨ s.CanGoOn) ∧
      ∀ verdict, s.doing = .done verdict → verdict = .success ∧
        outcome lines = ⟨s.output, s.form.view.answers, s.lines⟩ := by
  obtain ⟨bound₀, r, hopening, heffort⟩ := Sitting.at_opening settings lines
  obtain ⟨bound', r', h, hle⟩ := Sitting.run_at hc hopening hrun
  exact ⟨by omega, Sitting.place_output h, Sitting.place_canGoOn h rfl,
    fun verdict => Sitting.at_end h⟩

theorem playFrom_comes_out (hc : 0 < settings.eventCapacity) {bound : Nat}
    (hbound : 200 * lines.length + 22 < bound) :
    playFrom bound (2 * lines.length + 4) (.spawn settings) (lines.map some) =
      some ⟨(outcome lines).output, .success⟩ := by
  obtain ⟨bound₀, r, hopening, heffort⟩ := Sitting.at_opening settings lines
  have hlooks : (Sitting.opening settings lines).lines.length +
      (if views r.history = [] then 1 else 2) ≤ 2 * lines.length + 4 := by
    have hlines : (Sitting.opening settings lines).lines = lines := rfl
    rw [hlines]
    split <;> omega
  obtain ⟨played, n, s, hplay, hrun, hdone, hout⟩ :=
    Sitting.playFrom_run bound _ hopening rfl hc (by omega) hlooks
  obtain ⟨_, _, h, _⟩ := Sitting.run_at hc hopening hrun
  obtain ⟨hverdict, houtcome⟩ := Sitting.at_end h hdone
  have hprinted : played = ⟨(outcome lines).output, .success⟩ := by
    obtain ⟨printed, verdict⟩ := played
    cases hverdict
    rw [houtcome]
    exact congrArg (Play.mk · _) hout.symm
  rw [← hprinted]
  exact hplay

end

/-- Settings from outside may have capacities that no form can be spawned with. Then the player ends
with a crash before anything is printed, whatever there is to read; the crash is one of memory only
if both capacities are within their limits. With any other settings, and however the task and the
player take turns, a sitting has a bound on its steps, and there is a step to take until the player
leaves. What is printed is at all times the beginning of what the lines come to. When the player
leaves, which is never with a failure, it is all of that, the answers are as they should be, and no
further line has been read. The player of the command line prints the same, given bounds enough. -/
theorem sitting_comes_out (slots : Nat) (value? : String → Option String) (lines : List String) :
    let settings := (Settings.read value?).1
    (Spawnable slots settings → ∃ opening, Sitting.opening? slots settings lines = .ok opening ∧
      (∀ n s, opening.Run n s →
        n ≤ 200 * lines.length + 22 ∧ s.output <+: (outcome lines).output ∧
          ((∃ verdict, s.doing = .done verdict) ∨ s.CanGoOn) ∧
          ∀ verdict, s.doing = .done verdict → verdict = .success ∧
            outcome lines = ⟨s.output, s.form.view.answers, s.lines⟩) ∧
      ∀ input bound, (Text.splitLines input).map Text.decode? = lines.map some →
        200 * lines.length + 22 < bound →
          play slots bound settings input = some ⟨(outcome lines).output, .success⟩) ∧
    (¬ Spawnable slots settings → ∃ failure,
      Sitting.opening? slots settings lines = .error failure ∧
        (failure = .memory ↔ WithinLimits settings) ∧
        ∀ input bound, play slots bound settings input = some ⟨[], .crash failure⟩) := by
  intro settings
  have hc : 0 < settings.eventCapacity := read_eventCapacity value?
  have hb : 0 < settings.broadcastCapacity := read_broadcastCapacity value?
  constructor
  · intro h
    have hspawned := spawn?_spawnable hc hb h
    refine ⟨.opening settings lines, ?_, fun n s => run_comes_out hc, ?_⟩
    · rw [Sitting.opening?, hspawned]
      rfl
    · intro input bound hinput hbound
      simp only [play, hspawned, hinput, List.length_map]
      exact playFrom_comes_out hc hbound
  · intro h
    obtain ⟨failure, hfailed, hmemory⟩ := spawn?_failed hc hb h
    refine ⟨failure, ?_, hmemory, fun input bound => play_failed hfailed bound input⟩
    rw [Sitting.opening?, hfailed]
    rfl

/-! ## The capacity of the queue -/

def queueOnly (text key : String) : Option String :=
  if key = Settings.eventCapacityKey then some text else none

theorem read_queueOnly {text : String} {n : Nat} (h : Settings.readCapacity? text = some n) :
    Settings.read (queueOnly text) = ({ Settings.standard with eventCapacity := n }, []) := by
  have hscale : queueOnly text Settings.timeScaleKey = none := rfl
  have hqueue : queueOnly text Settings.eventCapacityKey = some text := rfl
  have hfeed : queueOnly text Settings.broadcastCapacityKey = none := rfl
  simp only [Settings.read, hscale, hqueue, hfeed, Settings.readOne, h]
  rfl

/-- A queue of eight places will do, and Ada is greeted. -/
theorem ada_greeted :
    let settings := (Settings.read (queueOnly "8")).1
    settings = { Settings.standard with eventCapacity := 8 } ∧ Spawnable 128 settings ∧
      play 128 223 settings "Ada\n".toUTF8.data.toList =
        some ⟨["Enter your name: ", "Thinking...", "Hello, Ada!"], .success⟩ := by
  have hread := read_queueOnly (by decide : Settings.readCapacity? "8" = some 8)
  have hspawnable : Spawnable 128 (Settings.read (queueOnly "8")).1 := by
    rw [hread]
    exact ⟨⟨by decide, by decide⟩, by decide +kernel⟩
  obtain ⟨_, _, _, hplay⟩ := (sitting_comes_out 128 (queueOnly "8") ["Ada"]).1 hspawnable
  refine ⟨by rw [hread], hspawnable, ?_⟩
  rw [hplay "Ada\n".toUTF8.data.toList 223 rfl (by decide)]
  rfl

/-- The greatest word is read as the capacity of the queue, and nobody is greeted. -/
theorem ada_crashed :
    let text := "18446744073709551615"
    Settings.read (queueOnly text) =
        ({ Settings.standard with eventCapacity := 18446744073709551615 }, []) ∧
      (outcome ["Ada"]).output = ["Enter your name: ", "Thinking...", "Hello, Ada!"] ∧
      ∀ slots bound, play slots bound (Settings.read (queueOnly text)).1 "Ada\n".toUTF8.data.toList =
        some ⟨[], .crash .queue⟩ := by
  have hread := read_queueOnly
    (by decide : Settings.readCapacity? "18446744073709551615" = some 18446744073709551615)
  intro text
  rw [hread]
  exact ⟨rfl, rfl, fun slots bound => play_failed rfl bound _⟩

end Dialogue.Demo
