import Dialogue.Proofs.Conservation
import Dialogue.Proofs.Greeting
import Dialogue.Proofs.Waits

/-!
# Printing

Every view has just what was said before it was shown, so the transcripts of the views of a form go
on one from another, and their messages are numbered from one. Whoever looks at some of the views,
at any of them as often as they like, and prints what is new each time, prints every message of the
bot up to the last view that was looked at, and prints it once.
-/

namespace Dialogue

variable {κ W : Type}

/-! ## What views show -/

def Retells : Transcript → List (Occurrence κ) → Prop
  | _, [] => True
  | t, o :: history =>
    (∀ view, o.view? = some view → view.transcript = t) ∧ Retells (t ++ messages [o]) history

theorem messages_cons (o : Occurrence κ) (history : List (Occurrence κ)) :
    messages (o :: history) = messages [o] ++ messages history :=
  messages_append [o] history

theorem retells_append {b : List (Occurrence κ)} : ∀ {t : Transcript} {a : List (Occurrence κ)},
    Retells t (a ++ b) ↔ Retells t a ∧ Retells (t ++ messages a) b
  | t, [] => by simp [Retells, messages]
  | t, o :: a => by
    rw [List.cons_append, Retells, Retells, retells_append, messages_cons o a, List.append_assoc,
      and_assoc]

theorem retells_asking : ∀ {t : Transcript} {history : List (Occurrence κ)}, Asking history →
    Retells t history
  | _, [], _ => trivial
  | t, o :: history, h => by
    have ho : o.view? = none :=
      Outward.asking ⟨fun _ _ => rfl, fun _ => rfl⟩ (h o List.mem_cons_self)
    refine ⟨fun view hv => ?_, retells_asking fun o ho => h o (List.mem_cons_of_mem _ ho)⟩
    rw [ho] at hv
    cases hv

namespace Session

theorem told_retells (s : Session κ) (notice : Notice) :
    Retells s.transcript ((s.noting notice).told notice) := by
  refine ⟨nofun, fun view hv => ?_, trivial⟩
  cases hv
  cases notice with
  | message message => rfl
  | _ => exact (List.append_nil _).symm

section
variable (host : Host κ W)

theorem perform_retells (s : Session κ) (world : W) (effect : Effect κ) :
    Retells s.transcript (s.perform host world effect).history := by
  cases hn : s.effectNotice? effect with
  | none => exact retells_asking (perform_asks host hn world).1
  | some notice =>
    rw [perform_announces host hn]
    exact s.told_retells notice

theorem carry_retells : ∀ (effects : List (Effect κ)) (event : Option Event) (s : Session κ)
    (world : W), Retells s.transcript (carry host effects event s world).history
  | [], event, s, world => by
    obtain ⟨next, hc, _⟩ := carry_nil host event s world
    rw [hc]
    trivial
  | effect :: effects, event, s, world => by
    have hfirst := perform_retells host s world effect
    have hsaid := (perform_grows host s world effect).transcript
    cases ho : (s.perform host world effect).outcome with
    | error failure =>
      rw [carry_cons_error host ho, retells_append, ← hsaid]
      exact ⟨hfirst, told_retells _ (.failed failure.message)⟩
    | ok answer =>
      rw [carry_cons_ok host ho, Stage.after, retells_append, ← hsaid]
      exact ⟨hfirst, carry_retells effects _ _ _⟩

end

end Session

theorem numbered_add? {t : Transcript} (h : Demo.Numbered t) (said : Option (Speaker × String)) :
    Demo.Numbered (t.add? said) := by
  cases said with
  | none => exact h
  | some said => exact Transcript.numbers_add h said.1 said.2

structure Session.Unfolds (s : Session κ) (history : List (Occurrence κ)) : Prop where
  transcript : s.transcript = messages history
  numbered : Demo.Numbered s.transcript
  retold : Retells [] history

theorem fresh_unfolds (script : Script κ) (settings : Settings) :
    (Session.fresh script settings).Unfolds [] :=
  ⟨rfl, rfl, trivial⟩

section
variable {host : Host κ W} {s : Session κ} {history : List (Occurrence κ)}

theorem react_unfolds {event : Event} {t : Transition κ} (hs : s.Unfolds history)
    (ht : transition s.script s.state event = .ok t) (world : W) :
    (s.react host world event).session.Unfolds
      (history ++ (s.react host world event).history) := by
  have htold : Retells s.transcript (s.react host world event).history := by
    rw [Session.react_of_ok host ht]
    exact Session.carry_retells host t.effects none { s with state := t.state } world
  refine ⟨?_, ?_, ?_⟩
  · rw [messages_append, ← hs.transcript]
    exact (Session.react_grows host ht world).transcript
  · rw [Session.react_transcript host ht world]
    exact numbered_add? hs.numbered event.spoken?
  · rw [retells_append, List.nil_append, ← hs.transcript]
    exact ⟨hs.retold, htold⟩

theorem change_unfolds {l l' : Ledger κ W} (hl : l.session.Unfolds l.line)
    (h : Ledger.Change host l l') : l'.session.Unfolds l'.line := by
  cases h with
  | again hh ha hi ht => exact react_unfolds hl ht _
  | refused => exact hl
  | accepted hh hp ht hi =>
    rw [ht]
    exact react_unfolds hl (moves_transition (.submit hp hi)) _
  | reply => exact hl

theorem turn_unfolds {c c' : Conversation κ W} (hc : c.session.Unfolds (occurrences c.marks))
    (h : c.Turn host c') : c'.session.Unfolds (occurrences c'.marks) := by
  cases h with
  | idle => exact hc
  | declined =>
    rw [occurrences_append, occurrences_returned, List.append_nil]
    exact hc
  | taken he hh ht =>
    rw [Conversation.staged, occurrences_append, occurrences_stage]
    exact react_unfolds hc ht c.world

end

/-! ## Views in a row -/

/-- Every transcript goes on from the ones before it, with messages numbered from one. -/
structure Unfolding (shown : List View) : Prop where
  extending : shown.Pairwise fun v w => v.transcript <+: w.transcript
  numbered : ∀ view ∈ shown, Demo.Numbered view.transcript

theorem retells_views : ∀ {t : Transcript} {history : List (Occurrence κ)}, Retells t history →
    (views history).Pairwise (fun v w => v.transcript <+: w.transcript) ∧
      ∀ view ∈ views history, t <+: view.transcript ∧ view.transcript <+: t ++ messages history
  | t, [], _ => ⟨List.Pairwise.nil, nofun⟩
  | t, o :: history, h => by
    obtain ⟨hview, hrest⟩ := h
    obtain ⟨hpairs, hwithin⟩ := retells_views hrest
    have hpre : t <+: t ++ messages [o] := List.prefix_append t _
    have hlater : ∀ view ∈ views history,
        t <+: view.transcript ∧ view.transcript <+: t ++ messages (o :: history) := by
      intro view hv
      obtain ⟨hlo, hhi⟩ := hwithin view hv
      rw [List.append_assoc, ← messages_cons] at hhi
      exact ⟨hpre.trans hlo, hhi⟩
    cases ho : o.view? with
    | none =>
      have hviews : views (o :: history) = views history := List.filterMap_cons_none ho
      rw [hviews]
      exact ⟨hpairs, hlater⟩
    | some first =>
      have hviews : views (o :: history) = first :: views history := List.filterMap_cons_some ho
      have hfirst := hview first ho
      rw [hviews]
      refine ⟨List.pairwise_cons.mpr ⟨fun view hv => ?_, hpairs⟩,
        List.forall_mem_cons.mpr ⟨?_, hlater⟩⟩
      · rw [hfirst]
        exact (hlater view hv).1
      · rw [hfirst]
        exact ⟨List.prefix_rfl, List.prefix_append t _⟩

theorem numbered_of_prefix {a b : Transcript} (h : Demo.Numbered b) (hp : a <+: b) :
    Demo.Numbered a := by
  obtain ⟨rest, rfl⟩ := hp
  unfold Demo.Numbered at h ⊢
  rw [List.map_append, List.length_append, ← List.range'_append_1] at h
  exact (List.append_inj h (by simp)).1

theorem Session.Unfolds.unfolding {s : Session κ} {history earlier : List (Occurrence κ)}
    (h : s.Unfolds history) (hp : earlier <+: history) :
    Unfolding (.blank :: views earlier) := by
  obtain ⟨later, rfl⟩ := hp
  obtain ⟨hpairs, hwithin⟩ := retells_views (retells_append.mp h.retold).1
  refine ⟨List.pairwise_cons.mpr ⟨fun view _ => List.nil_prefix, hpairs⟩,
    List.forall_mem_cons.mpr ⟨rfl, fun view hv => ?_⟩⟩
  apply numbered_of_prefix h.numbered
  rw [h.transcript, messages_append]
  exact (hwithin view hv).2.trans (List.prefix_append _ _)

/-! ## Views of a form -/

namespace Desk

inductive Unfolded (script : Script κ) (d : Desk κ W) : Prop
  | going (hd : d.Sound script) (hu : d.ledger.session.Unfolds d.ledger.line)
  | left (hk : d.form.abandoned = true) (hs : Unfolding d.form.shown)

section
variable {host : Host κ W} {script : Script κ} {d d' : Desk κ W}

theorem Course.sequel (h : d.Course host d') : d.Sequel host d' := by
  induction h with
  | refl => exact .refl
  | step _ hstep ih => exact ih.step hstep

theorem Unfolded.shown (h : d.Unfolded script) : Unfolding d.form.shown := by
  cases h with
  | going hd hu => exact hu.unfolding (List.prefix_append _ _)
  | left hk hs => exact hs

theorem step_unfolded (hd : d.Unfolded script) (h : d.Step host d') : d'.Unfolded script := by
  cases hd with
  | going hd hu =>
    refine .going (step_sound hd h) ?_
    rcases (step_ledger hd.alive h).2 with hl | hl
    · rw [hl]
      exact hu
    · exact change_unfolds hu (Ledger.turn_change hd.steady hl)
  | left hk hs =>
    obtain ⟨hk', hshown, _⟩ := step_left hk h
    exact .left hk' (hshown ▸ hs)

theorem sequel_unfolded (hd : d.Unfolded script) (h : d.Sequel host d') :
    d'.Unfolded script := by
  induction h with
  | refl => exact hd
  | step _ hstep ih => exact step_unfolded ih hstep
  | abandon _ ih => exact .left rfl ih.shown

end

end Desk

/-! ## Looking and printing -/

/-- Views looked at in the order in which they are shown, any of them passed over or looked at more
than once. -/
inductive Glimpses : List View → List View → Prop
  | ended : Glimpses [] []
  | pass {view : View} {shown seen : List View} :
    Glimpses shown seen → Glimpses (view :: shown) seen
  | look {view : View} {shown seen : List View} :
    Glimpses (view :: shown) seen → Glimpses (view :: shown) (view :: seen)

def printViews : List View → Nat → List String × Nat
  | [], printed => ([], printed)
  | view :: seen, printed =>
    let (texts, last) := printViews seen (Demo.lastPrinted view.transcript printed)
    (Demo.newTexts view.transcript printed ++ texts, last)

def lastTranscript (seen : List View) (before : Transcript) : Transcript :=
  (seen.getLast?.map View.transcript).getD before

theorem lastTranscript_cons (view : View) (seen : List View) (before : Transcript) :
    lastTranscript (view :: seen) before = lastTranscript seen view.transcript := by
  rw [lastTranscript, lastTranscript, List.getLast?_cons]
  cases seen.getLast? <;> rfl

section
variable {shown seen : List View}

theorem Glimpses.mem (h : Glimpses shown seen) : ∀ view ∈ seen, view ∈ shown := by
  induction h with
  | ended => exact nofun
  | pass _ ih => exact fun view hv => List.mem_cons_of_mem _ (ih view hv)
  | look _ ih => exact List.forall_mem_cons.mpr ⟨List.mem_cons_self, ih⟩

theorem Glimpses.unfolding (h : Glimpses shown seen) (hs : Unfolding shown) : Unfolding seen := by
  refine ⟨?_, fun view hv => hs.numbered view (h.mem view hv)⟩
  have hpairs := hs.extending
  clear hs
  induction h with
  | ended => exact hpairs
  | pass _ ih => exact ih hpairs.tail
  | look h ih =>
    refine List.pairwise_cons.mpr ⟨fun later hv => ?_, ih hpairs⟩
    -- a later look at the same view, or one at a later view
    rcases List.mem_cons.mp (h.mem later hv) with rfl | hv
    · exact List.prefix_rfl
    · exact (List.pairwise_cons.mp hpairs).1 later hv

/-- After the messages of `t`, those up to the last view are printed, and only what comes after
`t`. -/
theorem printViews_after : ∀ {seen : List View} {t : Transcript}, Unfolding seen →
    (∀ view ∈ seen, t <+: view.transcript) →
      Demo.botTexts t ++ (printViews seen t.length).1 = Demo.botTexts (lastTranscript seen t) ∧
        (printViews seen t.length).2 = (lastTranscript seen t).length
  | [], t, _, _ => ⟨List.append_nil _, rfl⟩
  | view :: seen, t, hs, ht => by
    obtain ⟨hlater, hpairs⟩ := List.pairwise_cons.mp hs.extending
    obtain ⟨hview, hnumbers⟩ := List.forall_mem_cons.mp hs.numbered
    obtain ⟨hprinted, hlast⟩ := Demo.prints_rest hview (ht view List.mem_cons_self)
    obtain ⟨htexts, hend⟩ := printViews_after ⟨hpairs, hnumbers⟩ hlater
    rw [printViews, hlast, lastTranscript_cons]
    refine ⟨?_, hend⟩
    rw [← List.append_assoc, hprinted]
    exact htexts

end

/-- Whoever looks at views of this sort, however seldom or often, prints every message of the bot up
to the last view once. -/
structure Printable (shown : List View) : Prop where
  unfolding : Unfolding shown
  printed : ∀ seen, Glimpses shown seen → printViews seen 0 =
    (Demo.botTexts (lastTranscript seen []), (lastTranscript seen []).length)

theorem Unfolding.printable {shown : List View} (h : Unfolding shown) : Printable shown := by
  refine ⟨h, fun seen hg => ?_⟩
  obtain ⟨htexts, hlast⟩ := printViews_after (hg.unfolding h) (t := []) fun _ _ => List.nil_prefix
  exact Prod.ext htexts hlast

/-- **Printing.** Whatever becomes of a form, and whatever is asked of a session, the transcripts of
the views go on one from another, with messages numbered from one; and who prints what is new at
every look prints the messages of the bot in the last view looked at, each once and in order. -/
theorem views_printed_once (host : Host κ W) (script : Script κ) (settings : Settings) (world : W) :
    (∀ d, (Desk.opened script settings world).Sequel host d → Printable d.form.shown) ∧
    ∀ requests n,
      let c := (Conversation.opened script settings world requests).after host n
      Printable (.blank :: views (occurrences c.marks)) := by
  have hfresh := fresh_unfolds script settings
  refine ⟨fun d h => ?_, fun requests n => ?_⟩
  · have hopened : (Desk.opened script settings world).Unfolded script :=
      .going (opened_sound script settings world) hfresh
    exact (Desk.sequel_unfolded hopened h).shown.printable
  · have hafter : ((Conversation.opened script settings world requests).after host n).session.Unfolds
        (occurrences ((Conversation.opened script settings world requests).after host n).marks) :=
      Conversation.after_induction (P := fun c => c.session.Unfolds (occurrences c.marks)) hfresh
        (fun _ _ => turn_unfolds) n
    exact (hafter.unfolding List.prefix_rfl).printable

/-- Two looks at the first prompt and two after the empty name was refused, with nothing seen in
between. -/
theorem empty_name_printed_once : ∃ d : Desk Demo.Callback Unit,
    (Desk.opened Demo.script .instant ()).Sequel Demo.host d ∧
      ∃ seen, Glimpses d.form.shown seen ∧ seen.length = 4 ∧
        printViews seen 0 = (["Enter your name: ", "Please enter a name."], 3) := by
  let asked := (Demo.Standing.asking []).view
  let taken : View := { asked with status := .active }
  let heard : View := { taken with transcript := taken.transcript.add .user "" }
  let refused : View := { heard with
    transcript := heard.transcript.add .bot "Please enter a name." }
  have h : ((Desk.moves Demo.host 10 (.opened Demo.script .instant ())).bind fun d =>
      (Desk.moves Demo.host 12 ⟨(d.form.send "" 1).2, d.docket⟩).map fun d => d.form.shown) =
        some [.blank, Demo.opened, asked, taken, heard, refused] := rfl
  obtain ⟨d, hd, h⟩ := Option.bind_eq_some_iff.mp h
  obtain ⟨d', hd', hshown⟩ := Option.map_eq_some_iff.mp h
  have hcourse : (Desk.opened Demo.script .instant ()).Course Demo.host d' :=
    ((Desk.Course.refl.moves hd).step (.send "" 1)).moves hd'
  have hseen : Glimpses d'.form.shown [asked, asked, refused, refused] := by
    rw [hshown]
    exact .pass (.pass (.look (.look (.pass (.pass (.pass (.look (.look (.pass .ended)))))))))
  have hprinted :=
    ((views_printed_once Demo.host Demo.script .instant ()).1 d' hcourse.sequel).printed _ hseen
  exact ⟨d', hcourse.sequel, _, hseen, rfl, hprinted.trans rfl⟩

end Dialogue
