import Dialogue.Proofs.Doubles
import Dialogue.Proofs.Numerals
import Dialogue.Settings
import Dialogue.Text.Lines

/-!
# Settings from an environment

Variables have bytes as values. Each setting is read from its own variable: it has the value that
the text means, and where there is no text, or one that means nothing fit for the setting, the
default. A warning tells of each text that was refused, and of nothing else.
-/

namespace Dialogue

namespace Text

def Encodes (bytes : List UInt8) (text : String) : Prop :=
  text.toUTF8.data.toList = bytes

theorem decode?_eq_some_iff {bytes : List UInt8} {text : String} :
    decode? bytes = some text ↔ Encodes bytes text := by
  unfold decode? String.fromUTF8? Encodes
  constructor
  · intro h
    split at h
    · cases h
      rfl
    · cases h
  · rintro rfl
    exact (dif_pos text.isValidUTF8).trans rfl

theorem decode?_eq_none_iff {bytes : List UInt8} :
    decode? bytes = none ↔ ∀ text, ¬ Encodes bytes text := by
  rw [Option.eq_none_iff_forall_ne_some]
  exact forall_congr' fun text => not_congr decode?_eq_some_iff

end Text

namespace Settings

/-! ## What texts say -/

/-- The text is a natural number from one to the largest of a word, among blanks. -/
def MeansCapacity (text : String) (n : Nat) : Prop :=
  ∃ t, Text.Trims text.toList t ∧ Number.Natural t n ∧ 1 ≤ n ∧ n ≤ 2 ^ 64 - 1

/-- The text is a real number, among blanks, and `x` is its double, which is finite and not below
zero. -/
def MeansScale (text : String) (x : Float) : Prop :=
  ∃ t n, Text.Trims text.toList t ∧ Number.Real t n ∧ Number.Denotes x n

theorem readCapacity?_eq_some_iff (text : String) (n : Nat) :
    readCapacity? text = some n ↔ MeansCapacity text n := by
  have hmax : Number.wordCount = 2 ^ 64 := rfl
  unfold readCapacity?
  rw [Option.filter_eq_some_iff, Number.readNat?_eq_some_iff, Text.toList_trim]
  simp only [Bool.and_eq_true, decide_eq_true_eq]
  constructor
  · intro ⟨hn, hpos, hlt⟩
    exact ⟨_, Text.trims_trimBlanks text.toList, hn, hpos, by omega⟩
  · intro ⟨t, ht, hn, hpos, hle⟩
    rw [Text.trimBlanks_of_trims ht]
    exact ⟨hn, hpos, by omega⟩

theorem readScale?_eq_some_iff (text : String) (x : Float) :
    readScale? text = some x ↔ MeansScale text x := by
  unfold readScale? Number.readFloat?
  rw [Option.filter_eq_some_iff, Option.map_eq_some_iff]
  simp only [Bool.and_eq_true, decide_eq_true_eq, Number.readNumeral?_eq_some_iff,
    Text.toList_trim]
  constructor
  · intro ⟨⟨n, hn, hx⟩, hfit⟩
    exact ⟨_, n, Text.trims_trimBlanks text.toList, hn, Number.denotes_iff.mpr ⟨hx, hfit⟩⟩
  · intro ⟨t, n, ht, hn, hx⟩
    obtain ⟨hvalue, hfit⟩ := Number.denotes_iff.mp hx
    rw [Text.trimBlanks_of_trims ht]
    exact ⟨⟨n, hn, hvalue⟩, hfit⟩

/-! ## One variable -/

section
variable {α : Type} (means : String → α → Prop) (key : String) (default : α) (used : String)

/-- What the bytes of a variable make of its setting, and the warnings that come of them. -/
inductive Reads : Option (List UInt8) → α → List Warning → Prop
  | unset : Reads none default []
  | undecodable {bytes : List UInt8} (h : ∀ text, ¬ Text.Encodes bytes text) :
    Reads (some bytes) default []
  | accepted {bytes : List UInt8} {text : String} {value : α} (ht : Text.Encodes bytes text)
    (hv : means text value) (hu : ∀ other, means text other → other = value) :
    Reads (some bytes) value []
  | refused {bytes : List UInt8} {text : String} (ht : Text.Encodes bytes text)
    (hv : ∀ value, ¬ means text value) : Reads (some bytes) default [⟨key, text, used⟩]

variable {means}

theorem readOne_reads {read? : String → Option α}
    (h : ∀ text value, read? text = some value ↔ means text value)
    (bytes? : Option (List UInt8)) :
    let r := readOne key read? default used (bytes?.bind Text.decode?)
    Reads means key default used bytes? r.1 r.2 := by
  cases bytes? with
  | none => exact .unset
  | some bytes =>
    rw [Option.bind_some]
    cases ht : Text.decode? bytes with
    | none => exact .undecodable (Text.decode?_eq_none_iff.mp ht)
    | some text =>
      have htext := Text.decode?_eq_some_iff.mp ht
      simp only [readOne]
      cases hv : read? text with
      | none =>
        refine .refused htext fun value hother => ?_
        rw [(h _ _).mpr hother] at hv
        cases hv
      | some value =>
        refine .accepted htext ((h _ _).mp hv) fun other hother => ?_
        rw [(h _ _).mpr hother] at hv
        exact Option.some.inj hv

end

/-! ## An environment -/

def ofEnvironment (env : String → Option (List UInt8)) : Settings × List Warning :=
  read fun key => (env key).bind Text.decode?

theorem standard_written : MeansScale "1" standard.timeScale ∧
    MeansCapacity "32" standard.eventCapacity ∧ MeansCapacity "128" standard.broadcastCapacity := by
  refine ⟨(readScale?_eq_some_iff _ _).mp ?_, (readCapacity?_eq_some_iff _ _).mp ?_,
    (readCapacity?_eq_some_iff _ _).mp ?_⟩
  · rfl
  · rfl
  · rfl

theorem scale_fit {used : String} {bytes? : Option (List UInt8)} {x : Float} {ws : List Warning}
    (h : Reads MeansScale timeScaleKey standard.timeScale used bytes? x ws) :
    x.isFinite = true ∧ 0.0 ≤ x := by
  have hstandard : standard.timeScale.isFinite = true ∧ 0.0 ≤ standard.timeScale := by decide
  cases h with
  | accepted _ hv _ =>
    obtain ⟨_, _, _, _, hx⟩ := hv
    exact (Number.denotes_iff.mp hx).2
  | _ => exact hstandard

theorem timeScale_eq (env : String → Option (List UInt8)) : (ofEnvironment env).1.timeScale =
    (readOne timeScaleKey readScale? standard.timeScale "1"
      ((env timeScaleKey).bind Text.decode?)).1 :=
  rfl

theorem eventCapacity_eq (env : String → Option (List UInt8)) :
    (ofEnvironment env).1.eventCapacity =
      (readOne eventCapacityKey readCapacity? standard.eventCapacity "32"
        ((env eventCapacityKey).bind Text.decode?)).1 :=
  rfl

theorem broadcastCapacity_eq (env : String → Option (List UInt8)) :
    (ofEnvironment env).1.broadcastCapacity =
      (readOne broadcastCapacityKey readCapacity? standard.broadcastCapacity "128"
        ((env broadcastCapacityKey).bind Text.decode?)).1 :=
  rfl

end Settings

open Settings in
/-- **The environment.** Every setting is read from its own variable and from no other: it has the
value that its text means, among blanks, or else the default. There is one warning for each variable
with a text that was refused, in the order of the settings, with the text as it was and the default
as text. -/
theorem environment_read (env : String → Option (List UInt8)) :
    ∃ s w₁ w₂ w₃, ofEnvironment env = (s, w₁ ++ w₂ ++ w₃) ∧
      Reads MeansScale timeScaleKey standard.timeScale "1" (env timeScaleKey) s.timeScale w₁ ∧
      Reads MeansCapacity eventCapacityKey standard.eventCapacity "32" (env eventCapacityKey)
        s.eventCapacity w₂ ∧
      Reads MeansCapacity broadcastCapacityKey standard.broadcastCapacity "128"
        (env broadcastCapacityKey) s.broadcastCapacity w₃ ∧
      (MeansScale "1" standard.timeScale ∧ MeansCapacity "32" standard.eventCapacity ∧
        MeansCapacity "128" standard.broadcastCapacity) ∧
      s.timeScale.isFinite = true ∧ 0.0 ≤ s.timeScale ∧
      ∀ other, (other timeScaleKey = env timeScaleKey →
          (ofEnvironment other).1.timeScale = s.timeScale) ∧
        (other eventCapacityKey = env eventCapacityKey →
          (ofEnvironment other).1.eventCapacity = s.eventCapacity) ∧
        (other broadcastCapacityKey = env broadcastCapacityKey →
          (ofEnvironment other).1.broadcastCapacity = s.broadcastCapacity) := by
  have hscale := readOne_reads timeScaleKey standard.timeScale "1" readScale?_eq_some_iff
    (env timeScaleKey)
  have hevent := readOne_reads eventCapacityKey standard.eventCapacity "32"
    readCapacity?_eq_some_iff (env eventCapacityKey)
  have hbroadcast := readOne_reads broadcastCapacityKey standard.broadcastCapacity "128"
    readCapacity?_eq_some_iff (env broadcastCapacityKey)
  obtain ⟨hfinite, hle⟩ := scale_fit hscale
  refine ⟨(ofEnvironment env).1, _, _, _, rfl, hscale, hevent, hbroadcast, standard_written, hfinite,
    hle, fun other => ⟨fun h => ?_, fun h => ?_, fun h => ?_⟩⟩
  · rw [timeScale_eq, timeScale_eq, h]
  · rw [eventCapacity_eq, eventCapacity_eq, h]
  · rw [broadcastCapacity_eq, broadcastCapacity_eq, h]

open Settings in
/-- A scale below zero is refused, and the capacity beside it is read as if it stood alone. -/
theorem scale_refused_alone : ∃ env other : String → Option (List UInt8),
    other eventCapacityKey = env eventCapacityKey ∧ other timeScaleKey = none ∧
      (ofEnvironment env).1.eventCapacity = 16 ∧ (ofEnvironment other).1.eventCapacity = 16 ∧
      (ofEnvironment env).2 = [⟨timeScaleKey, "-1", "1"⟩] := by
  let other key := if key = eventCapacityKey then some " +016".toUTF8.data.toList else none
  let env key := if key = timeScaleKey then some "-1".toUTF8.data.toList else other key
  obtain ⟨s, _, _, _, hs, _, _, _, _, _, _, halone⟩ := environment_read env
  have hevent : other eventCapacityKey = env eventCapacityKey := rfl
  have hread : (ofEnvironment env).1.eventCapacity = 16 := rfl
  have hwarned : (ofEnvironment env).2 = [⟨timeScaleKey, "-1", "1"⟩] := rfl
  refine ⟨env, other, hevent, rfl, hread, ?_, hwarned⟩
  rw [(halone other).2.1 hevent, ← hread, hs]

end Dialogue
