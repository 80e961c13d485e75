import Dialogue.Number.Decimal
import Dialogue.Text.Blank
import Mathlib.Data.List.Induction
import Mathlib.Data.List.TakeWhile
import Mathlib.Tactic.IntervalCases

/-!
# Numerals

What the texts of numbers say, told without the functions that read them: the part of a text between
its blanks, digits, natural numbers with an optional plus, and real numerals with a point and an
exponent. Each reader takes exactly the texts of its grammar, at the value that the grammar gives.
-/

namespace Dialogue

/-! ## Runs of characters -/

section
variable {α : Type} {p : α → Bool} {front rest : List α}

theorem takeWhile_front (hf : ∀ x ∈ front, p x = true) (hr : ∀ x ∈ rest.head?, p x = false) :
    (front ++ rest).takeWhile p = front := by
  rw [List.takeWhile_append_of_pos hf]
  cases rest with
  | nil => simp
  | cons x rest => simp [hr x rfl]

theorem dropWhile_front (hf : ∀ x ∈ front, p x = true) (hr : ∀ x ∈ rest.head?, p x = false) :
    (front ++ rest).dropWhile p = rest := by
  have h := List.takeWhile_append_dropWhile (p := p) (l := front ++ rest)
  rw [takeWhile_front hf hr] at h
  exact List.append_cancel_left h

theorem head_dropWhile {l : List α} : ∀ x ∈ (l.dropWhile p).head?, p x = false := by
  intro x hx
  have hnot := List.head?_dropWhile_not p l
  rw [hx] at hnot
  simpa using hnot

end

namespace Text

structure Trims (raw t : List Char) : Prop where
  parts : ∃ before after, raw = before ++ t ++ after ∧
    (∀ c ∈ before, isBlank c = true) ∧ ∀ c ∈ after, isBlank c = true
  first : ∀ c ∈ t.head?, isBlank c = false
  last : ∀ c ∈ t.getLast?, isBlank c = false

theorem trims_trimBlanks (raw : List Char) : Trims raw (trimBlanks raw) := by
  let middle := (raw.dropWhile isBlank).reverse
  have hmiddle : raw.dropWhile isBlank =
      trimBlanks raw ++ (middle.takeWhile isBlank).reverse := by
    show _ = (middle.dropWhile isBlank).reverse ++ _
    rw [← List.reverse_append, List.takeWhile_append_dropWhile, List.reverse_reverse]
  refine ⟨⟨raw.takeWhile isBlank, (middle.takeWhile isBlank).reverse, ?_, ?_, ?_⟩, ?_, ?_⟩
  · rw [List.append_assoc, ← hmiddle, List.takeWhile_append_dropWhile]
  · exact fun c hc => List.mem_takeWhile_imp hc
  · exact fun c hc => List.mem_takeWhile_imp (List.mem_reverse.mp hc)
  · intro c hc
    apply head_dropWhile (l := raw)
    rw [hmiddle, List.head?_append, hc]
    rfl
  · intro c hc
    rw [trimBlanks, List.getLast?_reverse] at hc
    exact head_dropWhile c hc

theorem trimBlanks_of_trims {raw t : List Char} (h : Trims raw t) : trimBlanks raw = t := by
  obtain ⟨⟨before, after, rfl, hbefore, hafter⟩, hfirst, hlast⟩ := h
  cases t with
  | nil =>
    have hall : ∀ c ∈ before ++ [] ++ after, isBlank c = true := by
      intro c hc
      rw [List.append_nil] at hc
      rcases List.mem_append.mp hc with hc | hc
      · exact hbefore c hc
      · exact hafter c hc
    rw [trimBlanks, List.dropWhile_eq_nil_iff.mpr hall]
    rfl
  | cons c t =>
    have hfront : (before ++ (c :: t) ++ after).dropWhile isBlank = c :: t ++ after := by
      rw [List.append_assoc]
      exact dropWhile_front hbefore hfirst
    have hback : (c :: t ++ after).reverse.dropWhile isBlank = (c :: t).reverse := by
      rw [List.reverse_append]
      apply dropWhile_front (fun c hc => hafter c (List.mem_reverse.mp hc))
      rw [List.head?_reverse]
      exact hlast
    rw [trimBlanks, hfront, hback, List.reverse_reverse]

theorem toList_trim (s : String) : (trim s).toList = trimBlanks s.toList :=
  String.toList_ofList

end Text

namespace Number

/-! ## Digits -/

inductive Digits : List Char → Nat → Prop
  | one {d : Nat} (h : d < 10) : Digits [d.digitChar] d
  | more {cs : List Char} {n d : Nat} (hcs : Digits cs n) (h : d < 10) :
    Digits (cs ++ [d.digitChar]) (10 * n + d)

theorem isDigit_iff {c : Char} : isDigit c = true ↔ ∃ d < 10, c = d.digitChar := by
  constructor
  · intro h
    have hrange : 48 ≤ c.toNat ∧ c.toNat ≤ 57 := by
      simpa [isDigit, Char.le_def, UInt32.le_iff_toNat_le] using h
    obtain ⟨d, hd⟩ := Nat.exists_eq_add_of_le hrange.1
    have hlt : d < 10 := by omega
    refine ⟨d, hlt, ?_⟩
    rw [← Char.ofNat_toNat c, hd]
    interval_cases d <;> rfl
  · rintro ⟨d, hd, rfl⟩
    interval_cases d <;> rfl

theorem digitChar_value {d : Nat} (h : d < 10) : d.digitChar.toNat - '0'.toNat = d := by
  interval_cases d <;> rfl

theorem digitsValue_append (cs : List Char) (c : Char) :
    digitsValue (cs ++ [c]) = 10 * digitsValue cs + (c.toNat - '0'.toNat) := by
  simp [digitsValue]

theorem digits_iff {cs : List Char} {n : Nat} :
    Digits cs n ↔ cs ≠ [] ∧ (∀ c ∈ cs, isDigit c = true) ∧ digitsValue cs = n := by
  constructor
  · intro h
    induction h with
    | one h =>
      refine ⟨by simp, List.forall_mem_singleton.mpr (isDigit_iff.mpr ⟨_, h, rfl⟩), ?_⟩
      rw [← List.nil_append [_], digitsValue_append, digitChar_value h]
      simp [digitsValue]
    | more _ h ih =>
      obtain ⟨_, hall, hvalue⟩ := ih
      refine ⟨by simp, List.forall_mem_append.mpr
        ⟨hall, List.forall_mem_singleton.mpr (isDigit_iff.mpr ⟨_, h, rfl⟩)⟩, ?_⟩
      rw [digitsValue_append, digitChar_value h, hvalue]
  · rintro ⟨hne, hall, rfl⟩
    induction cs using List.reverseRecOn with
    | nil => exact absurd rfl hne
    | append_singleton cs c ih =>
      obtain ⟨hcs, hc⟩ := List.forall_mem_append.mp hall
      obtain ⟨d, hd, rfl⟩ := isDigit_iff.mp (hc c List.mem_cons_self)
      rw [digitsValue_append, digitChar_value hd]
      by_cases hnil : cs = []
      · subst hnil
        rw [List.nil_append, digitsValue, List.foldl_nil, Nat.mul_zero, Nat.zero_add]
        exact .one hd
      · exact .more (ih hnil hcs) hd

theorem Digits.all {cs : List Char} {n : Nat} (h : Digits cs n) : ∀ c ∈ cs, isDigit c = true :=
  (digits_iff.mp h).2.1

theorem readDigits?_eq_some_iff {cs : List Char} {n : Nat} :
    readDigits? cs = some n ↔ Digits cs n := by
  rw [digits_iff, readDigits?]
  simp [and_assoc]

/-! ## Natural numbers -/

inductive Natural : List Char → Nat → Prop
  | bare {cs : List Char} {n : Nat} (h : Digits cs n) : Natural cs n
  | plus {cs : List Char} {n : Nat} (h : Digits cs n) : Natural ('+' :: cs) n

theorem dropPlus_of_digits {cs : List Char} {n : Nat} (h : Digits cs n) : dropPlus cs = cs := by
  unfold dropPlus
  split
  · exact absurd (h.all '+' List.mem_cons_self) (by decide)
  · rfl

theorem readNat?_eq_some_iff {s : String} {n : Nat} :
    readNat? s = some n ↔ Natural s.toList n := by
  rw [readNat?, readDigits?_eq_some_iff]
  generalize s.toList = cs
  constructor
  · intro h
    unfold dropPlus at h
    split at h
    · exact .plus h
    · exact .bare h
  · intro h
    cases h with
    | bare h =>
      rw [dropPlus_of_digits h]
      exact h
    | plus h => exact h

/-! ## Real numerals -/

inductive Sign : List Char → Bool → Prop
  | absent : Sign [] false
  | plus : Sign ['+'] false
  | minus : Sign ['-'] true

inductive Exponent : List Char → Int → Prop
  | absent : Exponent [] 0
  | present {mark : Char} {sign digits : List Char} {negative : Bool} {n : Nat}
    (hm : mark = 'e' ∨ mark = 'E') (hs : Sign sign negative) (hd : Digits digits n) :
    Exponent (mark :: (sign ++ digits)) (if negative then -(n : Int) else n)

inductive Fraction : List Char → List Char → Prop
  | absent : Fraction [] []
  | present {digits : List Char} (h : ∀ c ∈ digits, isDigit c = true) :
    Fraction ('.' :: digits) digits

/-- A real number without its sign: a word, in any case, or digits before and after a point, at
least one of them, with an exponent. -/
inductive Unsigned : List Char → Magnitude → Prop
  | infinite {cs : List Char} (h : cs.map Char.toLower = "inf".toList ∨
      cs.map Char.toLower = "infinity".toList) : Unsigned cs .infinite
  | undefined {cs : List Char} (h : cs.map Char.toLower = "nan".toList) : Unsigned cs .undefined
  | decimal {whole fraction digits exponent : List Char} {n : Nat} {e : Int}
    (hf : Fraction fraction digits) (hd : Digits (whole ++ digits) n) (he : Exponent exponent e) :
    Unsigned (whole ++ (fraction ++ exponent)) (.finite n (e - digits.length))

inductive Real : List Char → Numeral → Prop
  | mk {sign cs : List Char} {negative : Bool} {m : Magnitude} (hs : Sign sign negative)
    (hm : Unsigned cs m) : Real (sign ++ cs) ⟨negative, m⟩

def isSign (c : Char) : Bool :=
  c = '+' || c = '-'

theorem sign_splitSign (cs : List Char) :
    ∃ sign, cs = sign ++ (splitSign cs).2 ∧ Sign sign (splitSign cs).1 := by
  unfold splitSign
  split
  · exact ⟨['-'], rfl, .minus⟩
  · exact ⟨['+'], rfl, .plus⟩
  · exact ⟨[], rfl, .absent⟩

theorem splitSign_append {sign cs : List Char} {negative : Bool} (hs : Sign sign negative)
    (hcs : ∀ c ∈ cs.head?, isSign c = false) : splitSign (sign ++ cs) = (negative, cs) := by
  cases hs with
  | plus => rfl
  | minus => rfl
  | absent =>
    show splitSign cs = _
    unfold splitSign
    split
    · exact absurd (hcs '-' rfl) (by decide)
    · exact absurd (hcs '+' rfl) (by decide)
    · rfl

theorem isSign_of_isDigit {c : Char} (h : isDigit c = true) : isSign c = false := by
  obtain ⟨d, hd, rfl⟩ := isDigit_iff.mp h
  interval_cases d <;> rfl

theorem Digits.head {cs : List Char} {n : Nat} (h : Digits cs n) :
    ∀ c ∈ cs.head?, isSign c = false :=
  fun c hc => isSign_of_isDigit (h.all c (List.mem_of_mem_head? hc))

theorem readExponent?_marked {c : Char} (cs : List Char) (h : c = 'e' ∨ c = 'E') :
    readExponent? (c :: cs) = (readDigits? (splitSign cs).2).map fun n : Nat =>
      if (splitSign cs).1 then -(n : Int) else n := by
  have hmark : (c = 'e' || c = 'E') = true := by simpa using h
  rw [readExponent?, if_pos hmark]
  obtain ⟨negative, digits⟩ := splitSign cs
  dsimp only
  cases readDigits? digits <;> rfl

theorem readExponent?_eq_some_iff {cs : List Char} {e : Int} :
    readExponent? cs = some e ↔ Exponent cs e := by
  constructor
  · intro h
    cases cs with
    | nil =>
      cases h
      exact .absent
    | cons c cs =>
      by_cases hc : c = 'e' ∨ c = 'E'
      · rw [readExponent?_marked cs hc] at h
        obtain ⟨n, hn, rfl⟩ := Option.map_eq_some_iff.mp h
        obtain ⟨sign, hcs, hs⟩ := sign_splitSign cs
        generalize splitSign cs = split at hcs hs hn
        subst hcs
        exact .present hc hs (readDigits?_eq_some_iff.mp hn)
      · rw [readExponent?, if_neg (by simpa using hc)] at h
        cases h
  · intro h
    cases h with
    | absent => rfl
    | @present mark sign digits negative n hm hs hd =>
      rw [readExponent?_marked _ hm, splitSign_append hs hd.head, readDigits?_eq_some_iff.mpr hd]
      rfl

theorem Exponent.head {cs : List Char} {e : Int} (h : Exponent cs e) :
    ∀ c ∈ cs.head?, isDigit c = false ∧ c ≠ '.' := by
  cases h with
  | absent => exact nofun
  | present hm _ _ =>
    intro c hc
    cases hc
    rcases hm with rfl | rfl <;> decide

theorem splitFraction_parts {cs digits tail : List Char}
    (h : splitFraction cs = (digits, tail)) :
    ∃ fraction, cs = fraction ++ tail ∧ Fraction fraction digits := by
  unfold splitFraction at h
  split at h
  · next cs =>
    cases h
    refine ⟨'.' :: cs.takeWhile isDigit, ?_, .present fun c hc => List.mem_takeWhile_imp hc⟩
    rw [List.cons_append, List.takeWhile_append_dropWhile]
  · cases h
    exact ⟨[], rfl, .absent⟩

theorem splitFraction_append {fraction digits exponent : List Char} {e : Int}
    (hf : Fraction fraction digits) (he : Exponent exponent e) :
    splitFraction (fraction ++ exponent) = (digits, exponent) := by
  have hhead := he.head
  cases hf with
  | absent =>
    rw [List.nil_append]
    unfold splitFraction
    split
    · exact absurd rfl (hhead '.' rfl).2
    · rfl
  | present h =>
    have hstop : ∀ c ∈ exponent.head?, isDigit c = false := fun c hc => (hhead c hc).1
    rw [List.cons_append, splitFraction, takeWhile_front h hstop, dropWhile_front h hstop]

theorem Fraction.all {fraction digits : List Char} (h : Fraction fraction digits) :
    ∀ c ∈ digits, isDigit c = true := by
  cases h with
  | absent => exact nofun
  | present h => exact h

theorem readFinite?_eq {cs whole digits tail : List Char} (hw : cs.takeWhile isDigit = whole)
    (hs : splitFraction (cs.dropWhile isDigit) = (digits, tail))
    (hall : ∀ c ∈ whole ++ digits, isDigit c = true) :
    readFinite? cs = (readDigits? (whole ++ digits)).bind fun n =>
      (readExponent? tail).map fun e => .finite n (e - digits.length) := by
  unfold readFinite? readDigits?
  simp only [hw, hs]
  by_cases hne : whole ++ digits = []
  · obtain ⟨rfl, rfl⟩ := List.append_eq_nil_iff.mp hne
    rfl
  · have hnot : ¬ (whole.isEmpty && digits.isEmpty) = true := by simpa using hne
    have hsome : (!(whole ++ digits).isEmpty && (whole ++ digits).all isDigit) = true := by
      rw [List.all_eq_true.mpr hall, Bool.and_true, Bool.not_eq_true', List.isEmpty_eq_false_iff]
      exact hne
    rw [if_neg hnot, if_pos hsome]
    rfl

theorem readFinite?_sound {cs : List Char} {m : Magnitude} (h : readFinite? cs = some m) :
    Unsigned cs m := by
  let whole := cs.takeWhile isDigit
  have hwhole : ∀ c ∈ whole, isDigit c = true := fun c hc => List.mem_takeWhile_imp hc
  have hcs : whole ++ cs.dropWhile isDigit = cs := List.takeWhile_append_dropWhile
  cases hs : splitFraction (cs.dropWhile isDigit) with
  | mk digits tail =>
    obtain ⟨fraction, hrest, hf⟩ := splitFraction_parts hs
    rw [readFinite?_eq rfl hs (List.forall_mem_append.mpr ⟨hwhole, hf.all⟩)] at h
    obtain ⟨n, hn, h⟩ := Option.bind_eq_some_iff.mp h
    obtain ⟨e, he, rfl⟩ := Option.map_eq_some_iff.mp h
    rw [← hcs, hrest]
    exact .decimal hf (readDigits?_eq_some_iff.mp hn) (readExponent?_eq_some_iff.mp he)

theorem readFinite?_complete {whole fraction digits exponent : List Char} {n : Nat} {e : Int}
    (hf : Fraction fraction digits) (hd : Digits (whole ++ digits) n) (he : Exponent exponent e) :
    readFinite? (whole ++ (fraction ++ exponent)) = some (.finite n (e - digits.length)) := by
  have hwhole : ∀ c ∈ whole, isDigit c = true := (List.forall_mem_append.mp hd.all).1
  have hstop : ∀ c ∈ (fraction ++ exponent).head?, isDigit c = false := by
    cases hf with
    | absent => exact fun c hc => (he.head c hc).1
    | present =>
      intro c hc
      cases hc
      rfl
  have hsplit : splitFraction ((whole ++ (fraction ++ exponent)).dropWhile isDigit) =
      (digits, exponent) := by
    rw [dropWhile_front hwhole hstop]
    exact splitFraction_append hf he
  rw [readFinite?_eq (takeWhile_front hwhole hstop) hsplit hd.all,
    readDigits?_eq_some_iff.mpr hd, readExponent?_eq_some_iff.mpr he]
  rfl

def startsNumber (c : Char) : Bool :=
  isDigit c || c = '.'

theorem startsNumber_iff {c : Char} : startsNumber c = true ↔ isDigit c = true ∨ c = '.' := by
  simp [startsNumber]

theorem decimal_head {whole fraction digits exponent : List Char} {n : Nat}
    (hf : Fraction fraction digits) (hd : Digits (whole ++ digits) n) :
    ∃ c cs, whole ++ (fraction ++ exponent) = c :: cs ∧ startsNumber c = true := by
  cases whole with
  | cons c whole =>
    exact ⟨c, _, rfl, startsNumber_iff.mpr (.inl (hd.all c List.mem_cons_self))⟩
  | nil =>
    cases hf with
    | absent => exact absurd rfl (digits_iff.mp hd).1
    | present => exact ⟨'.', _, rfl, rfl⟩

theorem lowered_eq {cs : List Char} {w : String} (h : String.ofList (cs.map Char.toLower) = w) :
    cs.map Char.toLower = w.toList := by
  rw [← h, String.toList_ofList]

theorem toLower_of_startsNumber {c : Char} (h : startsNumber c = true) : c.toLower = c := by
  rcases startsNumber_iff.mp h with hd | rfl
  · obtain ⟨d, hlt, rfl⟩ := isDigit_iff.mp hd
    interval_cases d <;> rfl
  · rfl

/-- No word begins like a number with digits. -/
theorem readMagnitude?_of_startsNumber {c : Char} {cs : List Char} (h : startsNumber c = true) :
    readMagnitude? (c :: cs) = readFinite? (c :: cs) := by
  have hhead : ∀ {w : String}, String.ofList ((c :: cs).map Char.toLower) = w →
      w.toList.head? = some c := by
    intro w hw
    rw [← lowered_eq hw, List.map_cons, List.head?_cons, toLower_of_startsNumber h]
  unfold readMagnitude?
  split
  · next hw =>
    cases hhead hw
    cases h
  · next hw =>
    cases hhead hw
    cases h
  · next hw =>
    cases hhead hw
    cases h
  · rfl

theorem readMagnitude?_eq_some_iff {cs : List Char} {m : Magnitude} :
    readMagnitude? cs = some m ↔ Unsigned cs m := by
  constructor
  · intro h
    unfold readMagnitude? at h
    split at h
    · next hw =>
      cases h
      exact .infinite (.inl (lowered_eq hw))
    · next hw =>
      cases h
      exact .infinite (.inr (lowered_eq hw))
    · next hw =>
      cases h
      exact .undefined (lowered_eq hw)
    · exact readFinite?_sound h
  · intro h
    cases h with
    | infinite h =>
      rcases h with h | h
      · rw [readMagnitude?, h]
        rfl
      · rw [readMagnitude?, h]
        rfl
    | undefined h =>
      rw [readMagnitude?, h]
      rfl
    | decimal hf hd he =>
      obtain ⟨c, cs, hcs, hc⟩ := decimal_head hf hd
      rw [hcs, readMagnitude?_of_startsNumber hc, ← hcs]
      exact readFinite?_complete hf hd he

theorem word_head {cs word : List Char} {first : Char} (h : cs.map Char.toLower = word)
    (hw : word.head? = some first) (hf : isSign first = false) :
    ∀ c ∈ cs.head?, isSign c = false := by
  intro c hc
  have hlower : c.toLower = first := by
    rw [← h, List.head?_map, hc] at hw
    exact Option.some.inj hw
  by_cases hs : c = '+' ∨ c = '-'
  · have hsame : c.toLower = c := by rcases hs with rfl | rfl <;> rfl
    rw [← hsame, hlower]
    exact hf
  · simpa [isSign] using hs

theorem Unsigned.head {cs : List Char} {m : Magnitude} (h : Unsigned cs m) :
    ∀ c ∈ cs.head?, isSign c = false := by
  cases h with
  | infinite h =>
    rcases h with h | h
    · exact word_head h rfl rfl
    · exact word_head h rfl rfl
  | undefined h => exact word_head h rfl rfl
  | decimal hf hd he =>
    obtain ⟨c, cs, hcs, hc⟩ := decimal_head hf hd
    rw [hcs]
    intro x hx
    cases hx
    rcases startsNumber_iff.mp hc with hd | rfl
    · exact isSign_of_isDigit hd
    · rfl

theorem readNumeral?_eq_some_iff {s : String} {n : Numeral} :
    readNumeral? s = some n ↔ Real s.toList n := by
  unfold readNumeral?
  generalize s.toList = cs
  constructor
  · intro h
    cases hs : splitSign cs with
    | mk negative rest =>
      obtain ⟨sign, hcs, hsign⟩ := sign_splitSign cs
      rw [hs] at h hcs hsign
      obtain ⟨m, hm, rfl⟩ := Option.map_eq_some_iff.mp h
      rw [hcs]
      exact .mk hsign (readMagnitude?_eq_some_iff.mp hm)
  · intro h
    cases h with
    | @mk sign rest negative m hs hm =>
      rw [splitSign_append hs hm.head]
      exact congrArg (Option.map _) (readMagnitude?_eq_some_iff.mpr hm)

end Number

end Dialogue
