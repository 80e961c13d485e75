import Dialogue.Demo.Player
import Dialogue.Proofs.Chronicle
import Dialogue.Proofs.Passages
import Mathlib.Data.List.Induction
import Mathlib.Data.List.TakeWhile

/-!
# The demo, call by call

What each call of the demo comes to. The start asks for a name; a line that is blank is refused, and
the name is asked for again; any other line is the name, and the demo says hello and is complete.
Whoever prints the messages as they come prints each of them once, whatever views were passed over.
-/

namespace Dialogue.Demo

inductive Standing
  | asking (refused : List String)
  | greeted (refused : List String) (name : String)

def asked (refused : List String) : Transcript :=
  refused.foldl (fun t line => (t.add .user line).add .bot "Please enter a name.")
    (Transcript.add [] .bot "Enter your name: ")

namespace Standing

def transcript : Standing → Transcript
  | asking refused => asked refused
  | greeted refused name => (((asked refused).add .user name).add .bot "Thinking...").add .bot
      ("Hello, " ++ name ++ "!")

def answers : Standing → Answers
  | asking _ => .empty
  | greeted _ name => ⟨[("name", [name])]⟩

def state : Standing → State
  | asking refused => ⟨[1], .awaitingInput, refused.length + 1⟩
  | greeted refused _ => ⟨[4], .completed, refused.length + 1⟩

def view (d : Standing) : View :=
  ⟨d.state.status, d.state.position, d.state.prompts, d.transcript, d.answers, false⟩

def session (d : Standing) (settings : Settings) : Session Callback :=
  ⟨script, settings, d.state, d.answers, d.transcript, false, d.view⟩

def hear (refused : List String) (line : String) : Standing :=
  if Text.isAllBlank line then asking (refused ++ [line]) else greeted refused line

end Standing

/-! ## The start -/

section
variable (settings : Settings)

def opened : View := ⟨.active, [0], 0, asked [], .empty, false⟩

theorem passes_start : ∃ history, Stage.Passes host
    ⟨[], .fresh script settings, (), .again .drive⟩
    ⟨[], (Standing.asking []).session settings, (), .returns (.ok ())⟩ 4 history ∧
      history.length = 5 ∧ views history = [opened, (Standing.asking []).view] := by
  let s : Session Callback := .fresh script settings
  have hsaid : Stage.Passes host ⟨[], s, (), .again .drive⟩ _ _ _ :=
    Session.passes_output rfl rfl rfl rfl rfl rfl
  exact ⟨_, hsaid.event (Session.react_present host rfl rfl ()), rfl, rfl⟩

/-! ## A line -/

variable (refused : List String) (line : String)

def nameInput : Input Callback :=
  ⟨"name", [⟨some .notBlank, .literal "Please enter a name."⟩], none⟩

theorem nameInput_asked (answers : Answers) :
    let c := checkRules host line answers nameInput.rules ()
    c.result = .ok (if Text.isAllBlank line then some "Please enter a name." else none) ∧
      c.history.length = 2 := by
  by_cases hb : Text.isAllBlank line = true
  · simp [checkRules, nameInput, consultPredicate, consult, consultFor, host, hb, Wording.resolve,
      Except.mapError, Except.map]
  · simp [checkRules, nameInput, consultPredicate, consult, consultFor, host, hb,
      Except.mapError]

theorem views_told (history : List (Occurrence Callback)) (notice : Notice) (v : View) :
    (views (history ++ [.notified notice, .published v])).getLast? = some v := by
  rw [views_append]
  exact List.getLast?_concat

theorem asked_snoc : asked (refused ++ [line]) =
    ((asked refused).add .user line).add .bot "Please enter a name." := by
  unfold asked
  rw [List.foldl_append]
  rfl

theorem passes_blank (hb : Text.isAllBlank line = true) : ∃ history, Stage.Passes host
    ⟨[], (Standing.asking refused).session settings, (),
      .again (.submitted line (refused.length + 1))⟩
    ⟨[], (Standing.asking (refused ++ [line])).session settings, (), .returns (.ok ())⟩ 3 history ∧
      history.length = 10 ∧
      (views history).getLast? = some (Standing.asking (refused ++ [line])).view := by
  let s := (Standing.asking refused).session settings
  obtain ⟨hverdict, hlength⟩ := nameInput_asked line s.answers
  rw [if_pos hb] at hverdict
  have hanswered := (Stage.Passes.refl _).event
    (Session.react_answer (i := nameInput) (s := s) rfl rfl hverdict)
  have hrefused := hanswered.event (Session.react_refused rfl "Please enter a name.")
  have hpresent := hrefused.event (Session.react_present host rfl rfl ())
  have hview : (Standing.asking (refused ++ [line])).view = ⟨.waiting, [1], refused.length + 1 + 1,
      ((asked refused).add .user line).add .bot "Please enter a name.", .empty, false⟩ := by
    simp [Standing.view, Standing.state, Standing.transcript, Standing.answers, State.status,
      Phase.status, asked_snoc]
  have hsession : (Standing.asking (refused ++ [line])).session settings =
      ⟨script, settings, ⟨[1], .awaitingInput, refused.length + 1 + 1⟩, .empty,
        ((asked refused).add .user line).add .bot "Please enter a name.", false,
        (Standing.asking (refused ++ [line])).view⟩ := by
    simp [Standing.session, Standing.state, Standing.transcript, Standing.answers, asked_snoc]
  rw [hsession, hview]
  refine ⟨_, hpresent, ?_, views_told _ _ _⟩
  have hheard : (s.heard line).length = 4 := rfl
  simp only [List.length_append, List.length_cons, List.length_nil, hlength, hheard]

theorem greet_name (name : String) :
    greet (Answers.empty.push "name" name) = "Hello, " ++ name ++ "!" := by
  simp [greet, Answers.first?, Answers.get?, Answers.push, Answers.empty, Answers.insert]

theorem passes_name (hb : Text.isAllBlank line = false) : ∃ history, Stage.Passes host
    ⟨[], (Standing.asking refused).session settings, (),
      .again (.submitted line (refused.length + 1))⟩
    ⟨[], (Standing.greeted refused line).session settings, (), .returns (.ok ())⟩ 9 history ∧
      history.length = 18 ∧
      (views history).getLast? = some (Standing.greeted refused line).view := by
  let s := (Standing.asking refused).session settings
  obtain ⟨hverdict, hlength⟩ := nameInput_asked line s.answers
  rw [hb] at hverdict
  have hgreeting : (Wording.resolve host (.computed .greeting) (Answers.empty.push "name" line)
      ()).result = .ok ("Hello, " ++ line ++ "!") := by
    rw [← greet_name]
    rfl
  have hanswered := (Stage.Passes.refl _).event
    (Session.react_answer (i := nameInput) (s := s) rfl rfl hverdict)
  have hpassed := hanswered.event
    (Session.react_passed (i := nameInput) rfl rfl rfl rfl)
  have hthinking := hpassed.trans (Session.passes_output rfl rfl rfl rfl rfl rfl)
  have hhello := hthinking.trans
    (Session.passes_output rfl rfl rfl hgreeting rfl rfl)
  have hfinished := hhello.event (Session.react_finished rfl rfl rfl)
  refine ⟨_, hfinished, ?_, views_told _ _ _⟩
  have hheard : (s.heard line).length = 4 := rfl
  simp only [List.length_append, List.length_cons, List.length_nil, hlength, hheard]
  rfl

theorem passes_line : ∃ taken history, Stage.Passes host
    ⟨[], (Standing.asking refused).session settings, (),
      .again (.submitted line (refused.length + 1))⟩
    ⟨[], (Standing.hear refused line).session settings, (), .returns (.ok ())⟩ (taken + 1) history ∧
      taken + 3 * history.length < 64 ∧
      (views history).getLast? = some (Standing.hear refused line).view := by
  unfold Standing.hear
  cases hb : Text.isAllBlank line with
  | true =>
    obtain ⟨history, hp, hlength, hlast⟩ := passes_blank settings refused line hb
    exact ⟨2, history, hp, by omega, hlast⟩
  | false =>
    obtain ⟨history, hp, hlength, hlast⟩ := passes_name settings refused line hb
    exact ⟨8, history, hp, by omega, hlast⟩

end

/-! ## Transcripts -/

def botTexts (t : Transcript) : List String :=
  (t.filter fun m => m.speaker = .bot).map Message.text

theorem botTexts_append (a b : List Message) : botTexts (a ++ b) = botTexts a ++ botTexts b := by
  simp [botTexts]

theorem botTexts_mono {a b : Transcript} (h : a <+: b) : botTexts a <+: botTexts b := by
  obtain ⟨rest, rfl⟩ := h
  exact ⟨botTexts rest, (botTexts_append a rest).symm⟩

@[simp] theorem botTexts_bot (t : Transcript) (text : String) :
    botTexts (t.add .bot text) = botTexts t ++ [text] := by
  rw [Transcript.add, botTexts_append]
  rfl

@[simp] theorem botTexts_user (t : Transcript) (text : String) :
    botTexts (t.add .user text) = botTexts t := by
  rw [Transcript.add, botTexts_append]
  exact List.append_nil _

def Numbered (t : Transcript) : Prop := t.map Message.number = List.range' 1 t.length

theorem numbered_asked (refused : List String) : Numbered (asked refused) := by
  induction refused using List.reverseRecOn with
  | nil => rfl
  | append_singleton refused line ih =>
    rw [asked_snoc]
    exact Transcript.numbers_add (Transcript.numbers_add ih _ _) _ _

theorem Standing.numbered : ∀ d : Standing, Numbered d.transcript
  | asking refused => numbered_asked refused
  | greeted refused _ => Transcript.numbers_add (Transcript.numbers_add
      (Transcript.numbers_add (numbered_asked refused) _ _) _ _) _ _

theorem asked_texts (refused : List String) : botTexts (asked refused) =
    "Enter your name: " :: List.replicate refused.length "Please enter a name." := by
  induction refused using List.reverseRecOn with
  | nil => rfl
  | append_singleton refused line ih => simp [asked_snoc, ih, List.replicate_succ']

theorem asked_hear (refused : List String) (line : String) :
    asked refused <+: (Standing.hear refused line).transcript := by
  unfold Standing.hear
  split
  · rw [Standing.transcript, asked_snoc]
    exact ((List.prefix_append _ _).trans (List.prefix_append _ _))
  · exact (((List.prefix_append _ _).trans (List.prefix_append _ _)).trans (List.prefix_append _ _))

/-! ## Printing -/

theorem numbers_cons {n : Nat} {m : Message} {t : List Message}
    (h : (m :: t).map Message.number = List.range' (n + 1) (m :: t).length) :
    m.number = n + 1 ∧ t.map Message.number = List.range' (n + 1 + 1) t.length := by
  simpa [List.range'_succ] using h

/-- Numbers from `n + 1` on, of which those up to `k` are left out. -/
theorem filter_numbers (k : Nat) : ∀ {n : Nat} {t : List Message},
    t.map Message.number = List.range' (n + 1) t.length →
      t.filter (fun m => k < m.number) = t.drop (k - n)
  | _, [], _ => by simp
  | n, m :: t, h => by
    obtain ⟨hm, ht⟩ := numbers_cons h
    rw [List.filter_cons, filter_numbers k ht, hm]
    by_cases hk : k < n + 1
    · have h0 : k - n = 0 := by omega
      have h1 : k - (n + 1) = 0 := by omega
      simp [hk, h0, h1]
    · have h1 : k - n = (k - (n + 1)) + 1 := by omega
      simp [hk, h1]

theorem foldl_numbers : ∀ {n : Nat} {t : List Message},
    t.map Message.number = List.range' (n + 1) t.length →
      t.foldl (fun _ m => m.number) n = n + t.length
  | _, [], _ => rfl
  | n, m :: t, h => by
    obtain ⟨hm, ht⟩ := numbers_cons h
    rw [List.foldl_cons, hm, foldl_numbers ht, List.length_cons]
    omega

theorem prints_rest {seen t : Transcript} (hn : Numbered t) (hp : seen <+: t) :
    botTexts seen ++ newTexts t seen.length = botTexts t ∧
      lastPrinted t seen.length = t.length := by
  obtain ⟨rest, rfl⟩ := hp
  have hnew : newMessages (seen ++ rest) seen.length = rest := by
    rw [newMessages, filter_numbers seen.length (n := 0) hn]
    simp
  have hrest : rest.map Message.number = List.range' (seen.length + 1) rest.length := by
    have h : seen.map Message.number ++ rest.map Message.number =
        List.range' 1 seen.length ++ List.range' (1 + seen.length) rest.length := by
      rw [← List.map_append, List.range'_append_1, ← List.length_append]
      exact hn
    rw [(List.append_inj h (by simp)).2, Nat.add_comm]
  refine ⟨?_, ?_⟩
  · rw [newTexts, hnew, botTexts_append]
    rfl
  · rw [lastPrinted, hnew, foldl_numbers hrest, List.length_append]

/-! ## What lines come to -/

structure Outcome where
  output : List String
  answers : Answers
  -- the lines that are never read
  unread : List String
  deriving DecidableEq

def isBlankLine (line : String) : Bool := Text.trim line = ""

/-- Blank lines are refused one after another. The first line that is not blank is the name. -/
def outcome (lines : List String) : Outcome :=
  let refusals := (lines.takeWhile isBlankLine).map fun _ => "Please enter a name."
  match lines.dropWhile isBlankLine with
  | [] => ⟨"Enter your name: " :: refusals, .empty, []⟩
  | name :: unread =>
    ⟨"Enter your name: " :: refusals ++ ["Thinking...", "Hello, " ++ name ++ "!"],
      ⟨[("name", [name])]⟩, unread⟩

section
open Text

theorem trim_eq_empty {line : String} : trim line = "" ↔ isAllBlank line = true := by
  have hstart {cs : List Char} : cs.dropWhile isBlank = [] ↔ ∀ c ∈ cs, isBlank c = true :=
    List.dropWhile_eq_nil_iff
  have hboth {cs : List Char} : trimBlanks cs = [] ↔ cs.dropWhile isBlank = [] := by
    unfold trimBlanks
    rw [List.reverse_eq_nil_iff, hstart]
    cases hd : cs.dropWhile isBlank with
    | nil => simp
    | cons c rest =>
      have hc : isBlank c = false := by
        have hne : cs.dropWhile isBlank ≠ [] := by simp [hd]
        have := List.head_dropWhile_not isBlank hne
        simpa [hd] using this
      simp [hc]
  rw [trim, isAllBlank, List.all_eq_true, ← hstart, ← hboth]
  simp

end

theorem isBlankLine_eq (line : String) : isBlankLine line = Text.isAllBlank line := by
  rw [isBlankLine, Bool.eq_iff_iff, decide_eq_true_iff]
  exact trim_eq_empty

theorem outcome_append {refused : List String}
    (hb : ∀ line ∈ refused, Text.isAllBlank line = true) (left : List String) :
    outcome (refused ++ left) = ⟨"Enter your name: " ::
      (List.replicate refused.length "Please enter a name." ++ (outcome left).output.tail),
        (outcome left).answers, (outcome left).unread⟩ := by
  have hb' : ∀ line ∈ refused, isBlankLine line = true := by
    simpa only [isBlankLine_eq] using hb
  unfold outcome
  rw [List.takeWhile_append_of_pos hb', List.dropWhile_append_of_pos hb', List.map_append,
    List.map_const']
  cases left.dropWhile isBlankLine with
  | nil => rfl
  | cons name unread => simp only [List.cons_append, List.append_assoc, List.tail_cons]

example : outcome ["", " ", "Ann ", "Bob"] = ⟨["Enter your name: ", "Please enter a name.",
    "Please enter a name.", "Thinking...", "Hello, Ann !"], ⟨[("name", ["Ann "])]⟩, ["Bob"]⟩ := by
  decide

def Standing.Reads (lines left : List String) : Standing → Prop
  | asking refused => lines = refused ++ left ∧ ∀ line ∈ refused, Text.isAllBlank line = true
  | greeted refused name => lines = refused ++ name :: left ∧
      (∀ line ∈ refused, Text.isAllBlank line = true) ∧ Text.isAllBlank name = false

theorem Standing.Reads.hear {lines left refused : List String} {line : String}
    (h : (asking refused).Reads lines (line :: left)) :
    (Standing.hear refused line).Reads lines left := by
  obtain ⟨rfl, hblank⟩ := h
  unfold Standing.hear
  cases hb : Text.isAllBlank line with
  | true =>
    refine ⟨by simp, fun l hl => ?_⟩
    rcases List.mem_append.mp hl with hl | hl
    · exact hblank l hl
    · rw [List.mem_singleton.mp hl]
      exact hb
  | false => exact ⟨rfl, hblank, hb⟩

theorem Standing.Reads.outcome_eq {d : Standing} {lines left : List String}
    (h : d.Reads lines left) (hl : ∀ refused, d = asking refused → left = []) :
    outcome lines = ⟨botTexts d.transcript, d.answers, left⟩ := by
  cases d with
  | asking refused =>
    obtain ⟨rfl, hblank⟩ := h
    cases hl refused rfl
    rw [outcome_append hblank, transcript, asked_texts]
    simp [outcome, answers]
  | greeted refused name =>
    obtain ⟨rfl, hblank, hname⟩ := h
    have hfirst : isBlankLine name = false := (isBlankLine_eq name).trans hname
    rw [outcome_append hblank, transcript, botTexts_bot, botTexts_bot, botTexts_user, asked_texts]
    simp [outcome, answers, hfirst]

theorem Standing.Reads.printed {d : Standing} {lines left : List String}
    (h : d.Reads lines left) : botTexts d.transcript <+: (outcome lines).output := by
  cases d with
  | asking refused =>
    obtain ⟨rfl, hblank⟩ := h
    rw [outcome_append hblank, transcript, asked_texts]
    exact ⟨_, rfl⟩
  | greeted refused name =>
    have hall : (outcome lines).output = botTexts (greeted refused name).transcript :=
      congrArg Outcome.output (h.outcome_eq fun _ hd => (by cases hd))
    exact hall ▸ List.prefix_rfl

end Dialogue.Demo
