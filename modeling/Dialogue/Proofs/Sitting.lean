import Dialogue.Proofs.Greeting
import Dialogue.Proofs.Prospects

/-!
# Sittings

The demo with someone at the terminal. The form goes on by itself, and the player looks at it now
and then, prints what is new, and watches it, reads a line or leaves. Whatever comes between a look
and the next one, what is printed is told by the lines alone, and the sitting comes to an end.
-/

namespace Dialogue.Demo

/-! ## Steps -/

/-- What the player does next. One who watches knows how many views there were at the last look, and
one who has sent a line holds the ticket of it. -/
inductive Doing
  | looking
  | watching (version : Nat)
  | reading (prompt : Nat)
  | awaiting (ticket : Nat)
  | done (verdict : Verdict)

def Cue.doing (version : Nat) : Cue → Doing
  | .finish verdict => .done verdict
  | .readLine prompt => .reading prompt
  | .watch => .watching version

structure Sitting where
  player : Player
  doing : Doing
  -- what is left to read
  lines : List String
  output : List String

namespace Sitting

def opening (settings : Settings) (lines : List String) : Sitting :=
  ⟨.spawn settings, .looking, lines, []⟩

def opening? (slots : Nat) (settings : Settings) (lines : List String) :
    Except SpawnFailure Sitting :=
  (Player.spawn? slots settings).map fun player => ⟨player, .looking, lines, []⟩

abbrev form (s : Sitting) : Form Callback Unit := s.player.form

def withForm (s : Sitting) (form : Form Callback Unit) : Sitting :=
  { s with player := { s.player with form } }

inductive Step (s : Sitting) : Sitting → Prop
  | move {form : Form Callback Unit} (h : s.form.move? host = some form) : Step s (s.withForm form)
  | look (h : s.doing = .looking) :
    Step s ⟨s.player.look.2.2, s.player.look.2.1.doing s.form.version, s.lines,
      s.output ++ s.player.look.1⟩
  | changed {version : Nat} (h : s.doing = .watching version) (hv : version < s.form.version) :
    Step s { s with doing := .looking }
  | closed {version : Nat} (h : s.doing = .watching version) (hv : ¬ version < s.form.version)
    (hg : s.form.isGone = true) : Step s { s with doing := .done .success }
  | answer {prompt : Nat} {line : String} {lines : List String} (h : s.doing = .reading prompt)
    (hl : s.lines = line :: lines) :
    Step s ⟨(s.player.answer line prompt).2, .awaiting (s.player.answer line prompt).1, lines,
      s.output⟩
  | leave {prompt : Nat} (h : s.doing = .reading prompt) (hl : s.lines = []) :
    Step s { s with doing := .done .success }
  | replied {ticket : Nat} (h : s.doing = .awaiting ticket)
    (hr : (s.form.reply? ticket).isSome = true ∨ s.form.isGone = true) :
    Step s { s with doing := .looking }

def later (s : Sitting) (clock : Nat) : Sitting := s.withForm { s.form with clock }

inductive Run (start : Sitting) : Nat → Sitting → Prop
  | refl : Run start 0 start
  | step {n : Nat} {s s' : Sitting} : Run start n s → s.Step s' → Run start (n + 1) s'
  | pass {n : Nat} {s : Sitting} {clock : Nat} : Run start n s → s.form.clock ≤ clock →
    Run start n (s.later clock)

def CanGoOn (s : Sitting) : Prop :=
  (∃ s', s.Step s') ∨ ∃ wake, s.form.wake? = some wake ∧ s.form.clock ≤ wake ∧
    ∃ s', (s.later wake).Step s'

end Sitting

/-! ## Forms of the demo -/

/-- The call in hand leads to a standing, whose view is the last one to come. -/
structure Stands (settings : Settings) (f : Form Callback Unit) (ticket : Option Nat) (bound : Nat)
    (r : Returned Callback Unit) (d : Standing) : Prop where
  heads : f.Heads host ticket bound r
  session : r.session = d.session settings
  senders : f.senders = []
  last : (f.view :: views r.history).getLast? = some d.view

section
variable {settings : Settings} {f f' : Form Callback Unit} {ticket : Option Nat} {bound : Nat}
  {r : Returned Callback Unit} {d : Standing}

theorem Stands.move (h : Stands settings f ticket bound r d) (hn : f.next? ≠ none)
    (hm : f.move? host = some f') : ∃ bound' r', Stands settings f' ticket bound' r' d ∧
      f'.queue = f.queue ∧ f'.tickets = f.tickets ∧
      (∀ t, ticket ≠ some t → f'.reply? t = f.reply? t) ∧ f.Shows bound r f' bound' r' := by
  obtain ⟨bound', r', hn⟩ := Form.nears_move h.heads hn hm
  refine ⟨bound', r', ⟨hn.heads, hn.session.trans h.session, hn.senders.trans h.senders, ?_⟩,
    hn.queue, hn.tickets, hn.others, hn.shows⟩
  have hlast := h.last
  rcases hn.shows with ⟨hv, _, hviews, _⟩ | ⟨hviews, _⟩
  · rwa [hv, hviews]
  · rw [hviews, List.getLast?_cons_cons] at hlast
    exact hlast

theorem Stands.view_eq (h : Stands settings f ticket bound r d) (hv : views r.history = []) :
    f.view = d.view := by
  have hlast := h.last
  rw [hv] at hlast
  exact Option.some.inj hlast

theorem Stands.rest (h : Stands settings f ticket bound r d) (hn : f.next? = none) :
    f.activity = .resting ∧ f.session = d.session settings ∧ f.view = d.view ∧
      r.history = [] := by
  obtain ⟨hact, hs, _, hh⟩ := Form.heads_resting h.heads hn
  exact ⟨hact, hs.symm.trans h.session, h.view_eq (by rw [hh]; rfl), hh⟩

theorem Stands.congr {g : Form Callback Unit} (h : Stands settings f ticket bound r d)
    (hs : g.session = f.session) (ha : g.activity = f.activity) (hk : g.abandoned = f.abandoned)
    (hr : g.replies = f.replies) (ht : f.tickets ≤ g.tickets) (hsend : g.senders = f.senders)
    (hv : g.view = f.view) : Stands settings g ticket bound r d :=
  ⟨Form.heads_congr h.heads hs rfl ha hk hr ht, h.session, hsend.trans h.senders,
    by rw [hv]; exact h.last⟩

theorem Stands.release (h : Stands settings f ticket bound r d) (hn : f.next? = none) :
    Stands settings f none bound r d :=
  ⟨⟨h.heads.alive, h.heads.finish, fun hsome => absurd hn hsome, fun _ ht => (by cases ht),
    fun t hle => ⟨fun ht => (by cases ht), (h.heads.fresh t hle).2⟩⟩, h.session, h.senders, h.last⟩

theorem Stands.serve {refused : List String} {line : String} {t : Nat}
    (h : Stands settings f none bound r (.asking refused)) (hn : f.next? = none)
    (hq : f.queue = [⟨t, line, refused.length + 1⟩]) (ht : t < f.tickets)
    (hr : f.reply? t = none) (hm : f.move? host = some f') :
    ∃ bound' r', Stands settings f' (some t) bound' r' (.hear refused line) ∧ f'.queue = [] ∧
      f'.toGo bound' r' < 65 := by
  obtain ⟨_, hs, _, _⟩ := h.rest hn
  obtain ⟨taken, history, hp, hless, hlast⟩ := passes_line settings refused line
  rw [← hs] at hp
  have hh : f.session.halted = false := by rw [hs]; rfl
  obtain ⟨hheads, hq', hsend', hv⟩ := Form.heads_serve h.heads hn hq h.senders ht hr hh hp hm
  have hviews : (f'.view :: views history).getLast? = some (Standing.hear refused line).view := by
    rw [List.getLast?_cons, hlast]
    rfl
  refine ⟨taken, _, ⟨hheads, rfl, hsend', hviews⟩, hq', ?_⟩
  simp only [Form.toGo]
  split <;> omega

end

/-! ## What a look prints -/

/-- The views that can be looked at from now on: each goes on from what has been printed, and the
player goes on watching at all of them but the last. -/
structure Ahead (seen : Transcript) (vs : List View) : Prop where
  chain : (seen :: vs.map View.transcript).Pairwise (· <+: ·)
  numbered : ∀ v ∈ vs, Numbered v.transcript
  early : ∀ v ∈ vs.dropLast, cueOf v = .watch

section
variable {seen : Transcript} {v w : View} {vs : List View}

theorem Ahead.tail (h : Ahead seen (v :: w :: vs)) : Ahead seen (w :: vs) := by
  obtain ⟨hc, hn, he⟩ := h
  refine ⟨?_, fun u hu => hn u (List.mem_cons_of_mem _ hu), fun u hu => he u ?_⟩
  · exact hc.sublist (.cons_cons _ (List.sublist_cons_self _ _))
  · rw [List.dropLast_cons_cons]
    exact List.mem_cons_of_mem _ hu

theorem Ahead.look (h : Ahead seen (v :: vs)) : Ahead v.transcript (v :: vs) := by
  refine ⟨?_, h.numbered, h.early⟩
  have hc := (List.pairwise_cons.mp h.chain).2
  rw [List.map_cons] at hc ⊢
  refine List.pairwise_cons.mpr ⟨fun t ht => ?_, hc⟩
  rcases List.mem_cons.mp ht with rfl | ht
  · exact List.prefix_rfl
  · exact (List.pairwise_cons.mp hc).1 t ht

theorem Ahead.of_mem (h : Ahead seen vs) (hv : v ∈ vs) : seen <+: v.transcript :=
  (List.pairwise_cons.mp h.chain).1 _ (List.mem_map_of_mem hv)

theorem Ahead.last (hp : seen <+: v.transcript) (hn : Numbered v.transcript) : Ahead seen [v] :=
  ⟨by simpa using hp, by simpa using hn, fun _ hu => (by cases hu)⟩

end

/-! ## Where a sitting stands -/

namespace Sitting

def weight (s : Sitting) : Nat :=
  match s.doing with
  | .looking => 2
  | .watching version => if version < s.form.version then 3 else 1
  | .reading _ => 1
  | .awaiting _ => 4
  | .done _ => 0

/-- A bound on the steps that are left. A line that is left to read is worth more than one in the
queue, which is worth more than the call that it leads to. -/
def effort (s : Sitting) (bound : Nat) (r : Returned Callback Unit) : Nat :=
  s.form.toGo bound r + 100 * s.form.queue.length + 200 * s.lines.length + s.weight

structure Printed (s : Sitting) (seen : Transcript) : Prop where
  count : s.player.printed = seen.length
  output : s.output = botTexts seen

inductive Place (settings : Settings) (lines : List String) (s : Sitting) (bound : Nat)
    (r : Returned Callback Unit) : Doing → Prop
  -- nothing is under way but perhaps the start
  | looking {d : Standing} {seen : Transcript} (hs : Stands settings s.form none bound r d)
    (hq : s.form.queue = []) (hr : d.Reads lines s.lines) (hp : s.Printed seen)
    (hv : Ahead seen (s.form.view :: views r.history)) : Place settings lines s bound r .looking
  -- there is a view that the player has not seen, or there will be
  | watching {d : Standing} {seen : Transcript} {version : Nat}
    (hs : Stands settings s.form none bound r d) (hq : s.form.queue = [])
    (hr : d.Reads lines s.lines) (hp : s.Printed seen)
    (hv : Ahead seen (s.form.view :: views r.history))
    (hn : version < s.form.version ∨ version = s.form.version ∧ views r.history ≠ []) :
    Place settings lines s bound r (.watching version)
  | reading {refused : List String} (hs : Stands settings s.form none bound r (.asking refused))
    (hq : s.form.queue = []) (hr : (Standing.asking refused).Reads lines s.lines)
    (hp : s.Printed (asked refused)) (hv : views r.history = []) :
    Place settings lines s bound r (.reading (refused.length + 1))
  -- the line is in the queue
  | sent {refused : List String} {line : String} {t : Nat}
    (hs : Stands settings s.form none bound r (.asking refused))
    (hq : s.form.queue = [⟨t, line, refused.length + 1⟩])
    (hr : (Standing.asking refused).Reads lines (line :: s.lines)) (hp : s.Printed (asked refused))
    (ht : t < s.form.tickets) (hn : s.form.reply? t = none) :
    Place settings lines s bound r (.awaiting t)
  -- the call for the line is in hand or over
  | heard {refused : List String} {line : String} {t : Nat}
    (hs : Stands settings s.form (some t) bound r (.hear refused line)) (hq : s.form.queue = [])
    (hr : (Standing.asking refused).Reads lines (line :: s.lines))
    (hp : s.Printed (asked refused)) : Place settings lines s bound r (.awaiting t)
  | done {d : Standing} (hs : Stands settings s.form none bound r d) (hq : s.form.queue = [])
    (hr : d.Reads lines s.lines) (hp : s.Printed d.transcript) (hv : views r.history = [])
    (hl : ∀ refused, d = .asking refused → s.lines = []) :
    Place settings lines s bound r (.done .success)

def At (settings : Settings) (lines : List String) (s : Sitting) (bound : Nat)
    (r : Returned Callback Unit) : Prop :=
  s.Place settings lines bound r s.doing

section
variable {settings : Settings} {lines : List String} {s : Sitting} {f' : Form Callback Unit}
  {bound bound' : Nat} {r r' : Returned Callback Unit}

theorem effort_doing (doing : Doing) (h : weight { s with doing } < s.weight) :
    effort { s with doing } bound r < s.effort bound r :=
  Nat.add_lt_add_left h _

/-! ### Moves of the task -/

theorem effort_shows (hq : f'.queue = s.form.queue) (h : s.form.Shows bound r f' bound' r') :
    (s.withForm f').effort bound' r' < s.effort bound r := by
  have hform : (s.withForm f').form = f' := rfl
  have hlines : (s.withForm f').lines = s.lines := rfl
  have hdoing : (s.withForm f').doing = s.doing := rfl
  unfold effort weight
  rw [hform, hlines, hdoing, hq]
  rcases h with ⟨_, hversion, _, hless⟩ | ⟨_, hversion, hless⟩
  · rw [hversion]
    omega
  · cases s.doing with
    | watching version => simp only [hversion]; split <;> split <;> omega
    | _ => simp only; omega

theorem shows_ahead {seen : Transcript} (h : s.form.Shows bound r f' bound' r')
    (hv : Ahead seen (s.form.view :: views r.history)) :
    Ahead seen (f'.view :: views r'.history) := by
  rcases h with ⟨hview, _, hviews, _⟩ | ⟨hviews, _⟩
  · rwa [hview, hviews]
  · rw [hviews] at hv
    exact hv.tail

theorem shows_settled (h : s.form.Shows bound r f' bound' r') (hv : views r.history = []) :
    views r'.history = [] := by
  rcases h with ⟨_, _, hviews, _⟩ | ⟨hviews, _⟩
  · rwa [hviews]
  · rw [hv] at hviews
    cases hviews

theorem shows_pending {version : Nat} (h : s.form.Shows bound r f' bound' r')
    (hn : version < s.form.version ∨ version = s.form.version ∧ views r.history ≠ []) :
    version < f'.version ∨ version = f'.version ∧ views r'.history ≠ [] := by
  rcases h with ⟨_, hversion, hviews, _⟩ | ⟨_, hversion, _⟩
  · rwa [hversion, hviews]
  · rcases hn with hlt | ⟨rfl, _⟩ <;> exact .inl (by omega)

theorem idle {f : Form Callback Unit} {ticket : Option Nat} {d : Standing}
    (h : Stands settings f ticket bound r d) (hn : f.next? = none) (hq : f.queue = []) :
    f.move? host = none := by
  simp [h.heads.alive.move_eq, (h.rest hn).1, Form.serve, hq]

theorem Place.stands {doing : Doing} (h : s.Place settings lines bound r doing) :
    ∃ ticket d, Stands settings s.form ticket bound r d := by
  cases h with
  | _ hs => exact ⟨_, _, hs⟩

theorem place_move {doing : Doing} (h : s.Place settings lines bound r doing)
    (hd : s.doing = doing) (hm : s.form.move? host = some f') :
    ∃ bound' r', (s.withForm f').Place settings lines bound' r' doing ∧
      (s.withForm f').effort bound' r' < s.effort bound r := by
  have hbusy {ticket : Option Nat} {d : Standing} (hs : Stands settings s.form ticket bound r d)
      (hq : s.form.queue = []) : s.form.next? ≠ none := by
    intro hn
    rw [idle hs hn hq] at hm
    cases hm
  have hprinted {seen : Transcript} (hp : s.Printed seen) : (s.withForm f').Printed seen :=
    ⟨hp.count, hp.output⟩
  cases h with
  | looking hs hq hr hp hv =>
    obtain ⟨bound', r', hs', hq', _, _, hshows⟩ := hs.move (hbusy hs hq) hm
    exact ⟨bound', r', .looking hs' (hq'.trans hq) hr (hprinted hp) (shows_ahead hshows hv),
      effort_shows hq' hshows⟩
  | watching hs hq hr hp hv hn =>
    obtain ⟨bound', r', hs', hq', _, _, hshows⟩ := hs.move (hbusy hs hq) hm
    exact ⟨bound', r', .watching hs' (hq'.trans hq) hr (hprinted hp) (shows_ahead hshows hv)
      (shows_pending hshows hn), effort_shows hq' hshows⟩
  | reading hs hq hr hp hv =>
    obtain ⟨bound', r', hs', hq', _, _, hshows⟩ := hs.move (hbusy hs hq) hm
    exact ⟨bound', r', .reading hs' (hq'.trans hq) hr (hprinted hp) (shows_settled hshows hv),
      effort_shows hq' hshows⟩
  | @sent refused line t hs hq hr hp ht hn =>
    -- the last view of the start is out before the start has returned, so a line may come first
    by_cases hnext : s.form.next? = none
    · obtain ⟨bound', r', hs', hq', hless⟩ := hs.serve hnext hq ht hn hm
      refine ⟨bound', r', .heard hs' hq' hr (hprinted hp), ?_⟩
      have hform : (s.withForm f').form = f' := rfl
      have hlines : (s.withForm f').lines = s.lines := rfl
      have hdoing : (s.withForm f').doing = s.doing := rfl
      simp only [effort, weight, hform, hlines, hdoing, hd, hq, hq', List.length_nil,
        List.length_singleton]
      omega
    · obtain ⟨bound', r', hs', hq', ht', hothers, hshows⟩ := hs.move hnext hm
      exact ⟨bound', r', .sent hs' (hq'.trans hq) hr (hprinted hp) (ht' ▸ ht)
        ((hothers t (fun h => (by cases h))).trans hn), effort_shows hq' hshows⟩
  | heard hs hq hr hp =>
    obtain ⟨bound', r', hs', hq', _, _, hshows⟩ := hs.move (hbusy hs hq) hm
    exact ⟨bound', r', .heard hs' (hq'.trans hq) hr (hprinted hp), effort_shows hq' hshows⟩
  | done hs hq hr hp hv hl =>
    obtain ⟨bound', r', hs', hq', _, _, hshows⟩ := hs.move (hbusy hs hq) hm
    exact ⟨bound', r', .done hs' (hq'.trans hq) hr (hprinted hp) (shows_settled hshows hv) hl,
      effort_shows hq' hshows⟩

/-! ### Steps of the player -/

theorem At.place {doing : Doing} (h : s.At settings lines bound r) (hd : s.doing = doing) :
    s.Place settings lines bound r doing := hd ▸ h

theorem Place.at {doing : Doing} (h : s.Place settings lines bound r doing) (hd : s.doing = doing) :
    s.At settings lines bound r := by
  rw [At, hd]
  exact h

theorem at_look (h : s.At settings lines bound r) (hd : s.doing = .looking) :
    let looked : Sitting := ⟨s.player.look.2.2, s.player.look.2.1.doing s.form.version, s.lines,
      s.output ++ s.player.look.1⟩
    looked.At settings lines bound r ∧ looked.effort bound r < s.effort bound r := by
  intro looked
  have hform : looked.form = s.form := rfl
  have hcue : looked.doing = (cueOf s.form.view).doing s.form.version := rfl
  have hless (hw : looked.weight < 2) : looked.effort bound r < s.effort bound r := by
    have hbefore : s.weight = 2 := by rw [weight, hd]
    have hlines : looked.lines = s.lines := rfl
    simp only [effort, hform, hlines, hbefore]
    omega
  cases h.place hd with
  | @looking d seen hs hq hr hp hv =>
    obtain ⟨htexts, hlast⟩ := prints_rest (hv.numbered _ List.mem_cons_self)
      (hv.of_mem List.mem_cons_self)
    have hprinted : looked.Printed s.form.view.transcript := by
      refine ⟨?_, ?_⟩
      · rw [← hlast, ← hp.count]
        rfl
      · rw [← htexts, ← hp.output, ← hp.count]
        rfl
    -- a look at the last of the views is a look at that of the standing
    cases hviews : views r.history with
    | nil =>
      rw [hs.view_eq hviews] at hcue hprinted
      cases d with
      | asking refused =>
        have hdoing : looked.doing = .reading (refused.length + 1) := hcue
        have hplace : looked.Place settings lines bound r (.reading (refused.length + 1)) :=
          .reading hs hq hr hprinted hviews
        exact ⟨hplace.at hdoing, hless (by simp [weight, hdoing])⟩
      | greeted refused name =>
        have hdoing : looked.doing = .done .success := hcue
        have hplace : looked.Place settings lines bound r (.done .success) :=
          .done hs hq hr hprinted hviews fun _ h => (by cases h)
        exact ⟨hplace.at hdoing, hless (by simp [weight, hdoing])⟩
    | cons w ws =>
      have hwatch : cueOf s.form.view = .watch :=
        hv.early _ (by rw [hviews, List.dropLast_cons_cons]; exact List.mem_cons_self)
      have hdoing : looked.doing = .watching s.form.version := by rw [hcue, hwatch]; rfl
      have hplace : looked.Place settings lines bound r (.watching s.form.version) :=
        .watching hs hq hr hprinted hv.look (.inr ⟨rfl, by simp [hviews]⟩)
      exact ⟨hplace.at hdoing, hless (by simp [weight, hdoing, hform])⟩

theorem at_changed {version : Nat} (h : s.At settings lines bound r)
    (hd : s.doing = .watching version) (hv : version < s.form.version) :
    let looking : Sitting := { s with doing := .looking }
    looking.At settings lines bound r ∧ looking.effort bound r < s.effort bound r := by
  intro looking
  cases h.place hd with
  | watching hs hq hr hp hahead _ =>
    exact ⟨.looking hs hq hr ⟨hp.count, hp.output⟩ hahead,
      effort_doing .looking (by simp [weight, hd, hv])⟩

theorem at_answer (hc : 0 < settings.eventCapacity) {prompt : Nat} {line : String}
    {rest : List String} (h : s.At settings lines bound r) (hd : s.doing = .reading prompt)
    (hl : s.lines = line :: rest) :
    let answered : Sitting := ⟨(s.player.answer line prompt).2,
      .awaiting (s.player.answer line prompt).1, rest, s.output⟩
    answered.At settings lines bound r ∧ answered.effort bound r < s.effort bound r := by
  cases h.place hd with
  | @reading refused hs hq hr hp hv =>
    have hcapacity : 0 < s.form.capacity := by
      have hset := finish_settings hs.heads.finish
      rw [hs.session] at hset
      have hsettings : s.form.session.settings = settings := hset.symm
      rwa [Form.capacity, hsettings]
    have hanswer : s.player.answer line (refused.length + 1) = (s.form.tickets, { s.player with
        form := { s.form with
          tickets := s.form.tickets + 1
          queue := [⟨s.form.tickets, line, refused.length + 1⟩] } }) := by
      rw [Player.answer, Form.send_empty hq hs.senders hcapacity]
    rw [hanswer]
    intro answered
    have hstands : Stands settings answered.form none bound r (.asking refused) :=
      hs.congr rfl rfl rfl rfl (Nat.le_succ _) rfl rfl
    refine ⟨.sent hstands rfl (hl ▸ hr) ⟨hp.count, hp.output⟩ (Nat.lt_succ_self _)
      (hs.heads.fresh _ (Nat.le_refl _)).2, ?_⟩
    have hbefore : s.weight = 1 := by rw [weight, hd]
    have hafter : answered.weight = 4 := rfl
    have hqueue : answered.form.queue.length = 1 := rfl
    have htogo : answered.form.toGo bound r = s.form.toGo bound r := rfl
    have hlines : answered.lines = rest := rfl
    simp only [effort, hbefore, hafter, hqueue, htogo, hlines, hl, hq, List.length_cons,
      List.length_nil]
    omega

theorem at_leave {prompt : Nat} (h : s.At settings lines bound r) (hd : s.doing = .reading prompt)
    (hl : s.lines = []) :
    let left : Sitting := { s with doing := .done .success }
    left.At settings lines bound r ∧ left.effort bound r < s.effort bound r := by
  intro left
  cases h.place hd with
  | reading hs hq hr hp hv =>
    exact ⟨.done hs hq hr ⟨hp.count, hp.output⟩ hv fun _ _ => hl,
      effort_doing (.done .success) (by simp [weight, hd])⟩

theorem at_replied {t : Nat} (h : s.At settings lines bound r) (hd : s.doing = .awaiting t)
    (hreply : (s.form.reply? t).isSome = true) :
    let looking : Sitting := { s with doing := .looking }
    looking.At settings lines bound r ∧ looking.effort bound r < s.effort bound r := by
  intro looking
  cases h.place hd with
  | sent hs hq hr hp ht hn =>
    rw [hn] at hreply
    cases hreply
  | @heard refused line _ hs hq hr hp =>
    have hnext := (hs.heads.owed t rfl).mp hreply
    obtain ⟨_, _, hview, hnothing⟩ := hs.rest hnext
    have hahead : Ahead (asked refused) (s.form.view :: views r.history) := by
      rw [hview, hnothing]
      exact .last (asked_hear refused line) (Standing.hear refused line).numbered
    exact ⟨.looking (hs.release hnext) hq hr.hear ⟨hp.count, hp.output⟩ hahead,
      effort_doing .looking (by simp [weight, hd])⟩

/-! ### Runs -/

theorem at_step (hc : 0 < settings.eventCapacity) {s' : Sitting}
    (h : s.At settings lines bound r) (hs : s.Step s') :
    ∃ bound' r', s'.At settings lines bound' r' ∧ s'.effort bound' r' < s.effort bound r := by
  obtain ⟨_, _, hstands⟩ := Place.stands h
  have hthere := hstands.heads.alive.there
  cases hs with
  | move hm => exact place_move h rfl hm
  | look hd => exact ⟨bound, r, at_look h hd⟩
  | changed hd hv => exact ⟨bound, r, at_changed h hd hv⟩
  | closed hd hv hg => cases hthere.symm.trans hg
  | answer hd hl => exact ⟨bound, r, at_answer hc h hd hl⟩
  | leave hd hl => exact ⟨bound, r, at_leave h hd hl⟩
  | replied hd hr =>
    rcases hr with hr | hg
    · exact ⟨bound, r, at_replied h hd hr⟩
    · cases hthere.symm.trans hg

theorem place_pass {doing : Doing} (h : s.Place settings lines bound r doing) (clock : Nat) :
    (s.later clock).Place settings lines bound r doing := by
  have hlater {ticket : Option Nat} {d : Standing} (hs : Stands settings s.form ticket bound r d) :
      Stands settings (s.later clock).form ticket bound r d :=
    hs.congr rfl rfl rfl rfl (Nat.le_refl _) rfl rfl
  have hprinted {seen : Transcript} (hp : s.Printed seen) : (s.later clock).Printed seen :=
    ⟨hp.count, hp.output⟩
  cases h with
  | looking hs hq hr hp hv => exact .looking (hlater hs) hq hr (hprinted hp) hv
  | watching hs hq hr hp hv hn => exact .watching (hlater hs) hq hr (hprinted hp) hv hn
  | reading hs hq hr hp hv => exact .reading (hlater hs) hq hr (hprinted hp) hv
  | sent hs hq hr hp ht hn => exact .sent (hlater hs) hq hr (hprinted hp) ht hn
  | heard hs hq hr hp => exact .heard (hlater hs) hq hr (hprinted hp)
  | done hs hq hr hp hv hl => exact .done (hlater hs) hq hr (hprinted hp) hv hl

theorem at_opening (settings : Settings) (lines : List String) :
    ∃ bound r, (opening settings lines).At settings lines bound r ∧
      (opening settings lines).effort bound r = 200 * lines.length + 22 := by
  obtain ⟨history, hp, hlength, hviews⟩ := passes_start settings
  let r : Returned Callback Unit :=
    ⟨history, (Standing.asking []).session settings, (), .ok ()⟩
  have hv : views r.history = [opened, (Standing.asking []).view] := hviews
  have hlast : ((opening settings lines).form.view :: views r.history).getLast? =
      some (Standing.asking []).view := by rw [hv]; rfl
  have hahead : Ahead [] ((opening settings lines).form.view :: views r.history) := by
    rw [hv]
    refine ⟨?_, ?_, ?_⟩
    · simp [opening, Player.spawn, Form.spawn, Session.view, Session.fresh, opened, Standing.view,
        Standing.transcript]
    · exact List.forall_mem_cons.mpr ⟨rfl, List.forall_mem_cons.mpr ⟨numbered_asked [],
        List.forall_mem_singleton.mpr (numbered_asked [])⟩⟩
    · exact List.forall_mem_cons.mpr ⟨rfl, List.forall_mem_singleton.mpr rfl⟩
  refine ⟨4, r, .looking (d := .asking []) ⟨Form.spawn_heads hp, rfl, rfl, hlast⟩ rfl
    ⟨rfl, fun _ h => (by cases h)⟩ ⟨rfl, rfl⟩ hahead, ?_⟩
  have htogo : (opening settings lines).form.toGo 4 r = 20 := by
    have hnext : (opening settings lines).form.next? = some (.again .drive) := rfl
    simp [Form.toGo, hnext, r, hlength]
  have hqueue : (opening settings lines).form.queue = [] := rfl
  have hlines : (opening settings lines).lines = lines := rfl
  have hweight : (opening settings lines).weight = 2 := rfl
  simp only [effort, htogo, hqueue, hlines, hweight, List.length_nil]
  omega

/-- Every step of a run is paid for by the effort it saves. -/
theorem run_at (hc : 0 < settings.eventCapacity) {start : Sitting}
    (h : start.At settings lines bound r) {n : Nat} (hs : start.Run n s) :
    ∃ bound' r', s.At settings lines bound' r' ∧
      n + s.effort bound' r' ≤ start.effort bound r := by
  induction hs with
  | refl => exact ⟨bound, r, h, by omega⟩
  | step _ hs ih =>
    obtain ⟨bound', r', h', hle⟩ := ih
    obtain ⟨bound'', r'', h'', hless⟩ := at_step hc h' hs
    exact ⟨bound'', r'', h'', by omega⟩
  | pass _ _ ih =>
    obtain ⟨bound', r', h', hle⟩ := ih
    exact ⟨bound', r', place_pass h' _, hle⟩

theorem place_canGoOn {doing : Doing} (h : s.Place settings lines bound r doing)
    (hd : s.doing = doing) : (∃ verdict, s.doing = .done verdict) ∨ s.CanGoOn := by
  have hready {ticket : Option Nat} {d : Standing} (hs : Stands settings s.form ticket bound r d)
      (hn : s.form.next? ≠ none) : s.CanGoOn := by
    rcases Form.heads_ready hs.heads hn with ⟨f', hm⟩ | ⟨wake, hw, hle, f', hm⟩
    · exact .inl ⟨_, .move hm⟩
    · exact .inr ⟨wake, hw, hle, (s.later wake).withForm f', .move hm⟩
  cases h with
  | looking hs hq hr hp hv => exact .inr (.inl ⟨_, .look hd⟩)
  | watching hs hq hr hp hv hn =>
    rcases hn with hlt | ⟨_, hviews⟩
    · exact .inr (.inl ⟨_, .changed hd hlt⟩)
    · refine .inr (hready hs fun hn => hviews ?_)
      rw [(hs.rest hn).2.2.2]
      rfl
  | reading hs hq hr hp hv =>
    cases hl : s.lines with
    | nil => exact .inr (.inl ⟨_, .leave hd hl⟩)
    | cons line rest => exact .inr (.inl ⟨_, .answer hd hl⟩)
  | sent hs hq hr hp ht hn =>
    refine .inr ?_
    by_cases hnext : s.form.next? = none
    · have hmove : (s.form.move? host).isSome = true := by
        simp [hs.heads.alive.move_eq, (hs.rest hnext).1, Form.serve, hq]
      obtain ⟨f', hm⟩ := Option.isSome_iff_exists.mp hmove
      exact .inl ⟨_, .move hm⟩
    · exact hready hs hnext
  | heard hs hq hr hp =>
    refine .inr ?_
    by_cases hnext : s.form.next? = none
    · exact .inl ⟨_, .replied hd (.inl ((hs.heads.owed _ rfl).mpr hnext))⟩
    · exact hready hs hnext
  | done hs hq hr hp hv hl => exact .inl ⟨_, hd⟩

theorem place_output {doing : Doing} (h : s.Place settings lines bound r doing) :
    s.output <+: (outcome lines).output := by
  have hsaid {d : Standing} {seen : Transcript} (hs : Stands settings s.form none bound r d)
      (hr : d.Reads lines s.lines) (hp : s.Printed seen)
      (hv : Ahead seen (s.form.view :: views r.history)) : s.output <+: (outcome lines).output := by
    have hseen : seen <+: d.transcript := hv.of_mem (List.mem_of_getLast? hs.last)
    rw [hp.output]
    exact (botTexts_mono hseen).trans hr.printed
  cases h with
  | looking hs hq hr hp hv => exact hsaid hs hr hp hv
  | watching hs hq hr hp hv hn => exact hsaid hs hr hp hv
  | reading hs hq hr hp hv => exact hp.output ▸ hr.printed
  | sent hs hq hr hp ht hn => exact hp.output ▸ hr.printed
  | heard hs hq hr hp => exact hp.output ▸ hr.printed
  | done hs hq hr hp hv hl => exact hp.output ▸ hr.printed

theorem at_end {verdict : Verdict} (h : s.At settings lines bound r)
    (hd : s.doing = .done verdict) :
    verdict = .success ∧ outcome lines = ⟨s.output, s.form.view.answers, s.lines⟩ := by
  cases h.place hd with
  | @done d hs hq hr hp hv hl =>
    refine ⟨rfl, ?_⟩
    rw [hr.outcome_eq hl, hp.output, hs.view_eq hv]
    rfl

end

end Sitting

end Dialogue.Demo
