import Mathlib
import Dialogue.Proofs.Store

/-!
# Names

Every name stands in a store once, and names go by their bytes in UTF-8. This is the order of
their code points: of two characters the lower one has the lower bytes, and no character's bytes
begin another's. So a store is known by what was pushed under each name, however the pushes of
different names took turns.
-/

namespace Dialogue

/-! ## Bytes -/

namespace Name

def bytes (name : String) : List UInt8 :=
  name.toUTF8.data.toList

theorem bytes_ofList (cs : List Char) :
    bytes (String.ofList cs) = cs.flatMap String.utf8EncodeChar := by
  unfold bytes
  rw [String.toUTF8_eq_toByteArray, String.toByteArray_ofList, List.utf8Encode,
    List.data_toByteArray]

def continuation (v : Nat) : Nat → List UInt8
  | 0 => []
  | k + 1 => UInt8.ofNat (v / 64 ^ k % 64 + 0x80) :: continuation v k

inductive Shape (v : Nat) : Nat → Nat → Prop
  | one (h : v ≤ 0x7f) : Shape v v 0
  | two (h : 0x7f < v) (h' : v ≤ 0x7ff) : Shape v (v / 64 + 0xc0) 1
  | three (h : 0x7ff < v) (h' : v ≤ 0xffff) : Shape v (v / 4096 + 0xe0) 2
  | four (h : 0xffff < v) (h' : v < 0x110000) : Shape v (v / 262144 + 0xf0) 3

theorem toNat_lt (c : Char) : c.val.toNat < 0x110000 := by
  have h : c.val.toNat < 0xd800 ∨ 0xdfff < c.val.toNat ∧ c.val.toNat < 0x110000 := c.valid
  omega

theorem encode_shape (c : Char) : ∃ lead k, Shape c.val.toNat lead k ∧
    String.utf8EncodeChar c = UInt8.ofNat lead :: continuation c.val.toNat k := by
  have hv := toNat_lt c
  unfold String.utf8EncodeChar
  generalize c.val.toNat = v at hv ⊢
  by_cases h₁ : v ≤ 0x7f
  · exact ⟨v, 0, .one h₁, by simp [h₁, continuation]⟩
  · by_cases h₂ : v ≤ 0x7ff
    · refine ⟨v / 64 + 0xc0, 1, .two (by omega) h₂, ?_⟩
      have hlead : v / 64 % 0x20 = v / 64 := Nat.mod_eq_of_lt (by omega)
      simp [h₁, h₂, hlead, continuation]
    · by_cases h₃ : v ≤ 0xffff
      · refine ⟨v / 4096 + 0xe0, 2, .three (by omega) h₃, ?_⟩
        have hlead : v / 4096 % 0x10 = v / 4096 := Nat.mod_eq_of_lt (by omega)
        simp [h₁, h₂, h₃, hlead, continuation]
      · refine ⟨v / 262144 + 0xf0, 3, .four (by omega) hv, ?_⟩
        have hlead : v / 262144 % 0x08 = v / 262144 := Nat.mod_eq_of_lt (by omega)
        simp [h₁, h₂, h₃, hlead, continuation]

theorem cons_lt {m n : Nat} {s t : List UInt8} (hn : n < 256) (h : m < n ∨ m = n ∧ s < t) :
    UInt8.ofNat m :: s < UInt8.ofNat n :: t := by
  apply List.cons_lt_cons_iff.mpr
  rcases h with h | ⟨rfl, h⟩
  · left
    rw [UInt8.lt_iff_toNat_lt, UInt8.toNat_ofNat_of_lt' (by omega : m < 256),
      UInt8.toNat_ofNat_of_lt' hn]
    exact h
  · exact .inr ⟨rfl, h⟩

/-- What follows the lead is compared like the bits it stands for. -/
theorem continuation_lt {m n : Nat} (s t : List UInt8) : ∀ {k : Nat}, m % 64 ^ k < n % 64 ^ k →
    continuation m k ++ s < continuation n k ++ t
  | 0, h => by
    rw [Nat.pow_zero, Nat.mod_one, Nat.mod_one] at h
    exact absurd h (Nat.lt_irrefl 0)
  | k + 1, h => by
    rw [Nat.mod_pow_succ, Nat.mod_pow_succ] at h
    apply cons_lt (by omega)
    have hm : m % 64 ^ k < 64 ^ k := Nat.mod_lt _ (Nat.pow_pos (by decide))
    have hn : n % 64 ^ k < 64 ^ k := Nat.mod_lt _ (Nat.pow_pos (by decide))
    rcases Nat.lt_trichotomy (m / 64 ^ k % 64) (n / 64 ^ k % 64) with hlt | heq | hgt
    · exact .inl (by omega)
    · rw [heq] at h
      exact .inr ⟨by omega, continuation_lt s t (by omega)⟩
    · -- the bits above would make the first number the larger one
      exfalso
      have hmul := Nat.mul_le_mul_left (64 ^ k) (Nat.succ_le_of_lt hgt)
      rw [Nat.mul_succ] at hmul
      omega

/-- A number is compared by the bits that go into the lead, and then by those that follow. -/
theorem bits_lt {m n : Nat} (h : m < n) (k : Nat) : m / 64 ^ k < n / 64 ^ k ∨
    m / 64 ^ k = n / 64 ^ k ∧ m % 64 ^ k < n % 64 ^ k := by
  have hle : m / 64 ^ k ≤ n / 64 ^ k := Nat.div_le_div_right h.le
  rcases Nat.lt_or_eq_of_le hle with hlt | heq
  · exact .inl hlt
  · refine .inr ⟨heq, ?_⟩
    have hm := Nat.div_add_mod m (64 ^ k)
    have hn := Nat.div_add_mod n (64 ^ k)
    rw [heq] at hm
    omega

theorem encode_lt {c d : Char} (h : c < d) (s t : List UInt8) :
    String.utf8EncodeChar c ++ s < String.utf8EncodeChar d ++ t := by
  have h : c.val.toNat < d.val.toNat := h
  obtain ⟨p, k, hc, ec⟩ := encode_shape c
  obtain ⟨q, l, hd, ed⟩ := encode_shape d
  rw [ec, ed, List.cons_append, List.cons_append]
  generalize c.val.toNat = m at h hc ⊢
  generalize d.val.toNat = n at h hd ⊢
  apply cons_lt (by cases hd <;> omega)
  -- of two characters with as many bytes either the leads differ or the bits that follow them
  cases hc <;> cases hd <;> try (left; omega)
  · exact (bits_lt h 1).imp (by omega) fun hb => ⟨by omega, continuation_lt s t hb.2⟩
  · exact (bits_lt h 2).imp (by omega) fun hb => ⟨by omega, continuation_lt s t hb.2⟩
  · exact (bits_lt h 3).imp (by omega) fun hb => ⟨by omega, continuation_lt s t hb.2⟩

theorem flatMap_encode_lt : ∀ {cs ds : List Char}, cs < ds →
    cs.flatMap String.utf8EncodeChar < ds.flatMap String.utf8EncodeChar
  | _, [], h => absurd h (List.not_lt_nil _)
  | [], d :: ds, _ => by
    obtain ⟨q, l, -, ed⟩ := encode_shape d
    rw [List.flatMap_cons, ed]
    exact List.nil_lt_cons _ _
  | c :: cs, d :: ds, h => by
    rw [List.flatMap_cons, List.flatMap_cons]
    rcases List.cons_lt_cons_iff.mp h with hlt | ⟨rfl, hlt⟩
    · exact encode_lt hlt _ _
    · exact List.append_left_lt (flatMap_encode_lt hlt)

/-- Names are in the order of their bytes. -/
theorem bytes_lt {m n : String} (h : m < n) : bytes m < bytes n := by
  have h : m.toList < n.toList := h
  have hbytes := flatMap_encode_lt h
  rw [← bytes_ofList, ← bytes_ofList, String.ofList_toList, String.ofList_toList] at hbytes
  exact hbytes

end Name

namespace Answers

variable {a b : Answers} {pushes : List (String × String)}

/-! ## Entries -/

theorem sorted_pushAll : ∀ (pushes : List (String × String)) {a : Answers}, Sorted a.entries →
    Sorted (a.pushAll pushes).entries
  | [], _, h => h
  | (name, value) :: pushes, a, h => by
    rw [pushAll_cons]
    exact sorted_pushAll pushes (sorted_insert name value h)

theorem sorted_ofPushes (pushes : List (String × String)) : Sorted (ofPushes pushes).entries :=
  sorted_pushAll pushes List.Pairwise.nil

/-- No other entry hides an entry, so each is found under its name. -/
theorem Sorted.mem_iff {name : String} {values : List String} :
    ∀ {entries : List (String × List String)}, Sorted entries →
      ((name, values) ∈ entries ↔ entries.lookup name = some values)
  | [], _ => by simp
  | (n, vs) :: rest, h => by
    obtain ⟨hhead, htail⟩ := List.pairwise_cons.mp h
    rw [List.mem_cons, List.lookup_cons, Sorted.mem_iff htail]
    by_cases hn : name = n
    · subst hn
      -- the name does not stand further on, where every name is above it
      have habsent : rest.lookup name = none := by
        rw [List.lookup_eq_none_iff]
        intro q hq
        simpa using Std.ne_of_lt (hhead q hq)
      simp [habsent, eq_comm]
    · simp [hn, beq_false_of_ne hn]

theorem Sorted.ext (ha : Sorted a.entries) (hb : Sorted b.entries)
    (h : ∀ name, a.get? name = b.get? name) : a = b := by
  have : Std.Irrefl fun p q : String × List String => p.1 < q.1 := ⟨fun p => String.lt_irrefl p.1⟩
  have : Std.Antisymm fun p q : String × List String => p.1 < q.1 :=
    ⟨fun p q hpq hqp => absurd hqp (String.lt_asymm hpq)⟩
  suffices heq : a.entries = b.entries by
    cases a
    cases b
    exact congrArg mk heq
  apply List.Pairwise.eq_of_mem_iff ha hb
  rintro ⟨name, values⟩
  rw [ha.mem_iff, hb.mem_iff]
  exact Eq.congr_left (h name)

/-! ## Pushes that leave equal stores -/

theorem pushedAs_append (name : String) (pushes more : List (String × String)) :
    pushedAs name (pushes ++ more) = pushedAs name pushes ++ pushedAs name more := by
  unfold pushedAs
  rw [List.filter_append, List.map_append]

theorem pushedAs_ne_nil {name : String} :
    pushedAs name pushes ≠ [] ↔ ∃ value, (name, value) ∈ pushes := by
  unfold pushedAs
  constructor
  · intro h
    obtain ⟨value, hvalue⟩ := List.exists_mem_of_ne_nil _ h
    obtain ⟨⟨n, v⟩, hp, rfl⟩ := List.mem_map.mp hvalue
    obtain ⟨hmem, hn⟩ := List.mem_filter.mp hp
    exact ⟨v, of_decide_eq_true hn ▸ hmem⟩
  · rintro ⟨value, h⟩
    apply List.ne_nil_of_mem
    exact List.mem_map.mpr ⟨_, List.mem_filter.mpr ⟨h, decide_eq_true rfl⟩, rfl⟩

theorem get?_ofPushes_eq_some {name : String} {values : List String} :
    (ofPushes pushes).get? name = some values ↔ pushedAs name pushes = values ∧ values ≠ [] := by
  rw [get?_ofPushes]
  by_cases h : pushedAs name pushes = []
  · rw [if_pos h, h]
    simp only [reduceCtorEq, false_iff]
    rintro ⟨rfl, hne⟩
    exact hne rfl
  · rw [if_neg h, Option.some_inj]
    exact ⟨fun heq => ⟨heq, heq ▸ h⟩, And.left⟩

theorem pushedAs_eq_getD (name : String) (pushes : List (String × String)) :
    pushedAs name pushes = ((ofPushes pushes).get? name).getD [] := by
  rw [get?_ofPushes]
  by_cases h : pushedAs name pushes = [] <;> simp [h]

theorem ofPushes_eq_iff {pushes' : List (String × String)} :
    ofPushes pushes = ofPushes pushes' ↔
      ∀ name, pushedAs name pushes = pushedAs name pushes' := by
  constructor
  · intro h name
    rw [pushedAs_eq_getD name pushes, pushedAs_eq_getD name pushes', h]
  · intro h
    apply Sorted.ext (sorted_ofPushes _) (sorted_ofPushes _)
    intro name
    rw [get?_ofPushes, get?_ofPushes, h]

/-- Two pushes in a row may change places if their names differ, and only then if their values
differ. -/
theorem ofPushes_swap_iff {p q : String × String} (before after : List (String × String)) :
    ofPushes (before ++ p :: q :: after) = ofPushes (before ++ q :: p :: after) ↔
      p.1 ≠ q.1 ∨ p.2 = q.2 := by
  obtain ⟨m, v⟩ := p
  obtain ⟨n, w⟩ := q
  simp only [ofPushes_eq_iff, pushedAs_append, List.append_cancel_left_eq, pushedAs_cons]
  by_cases hmn : m = n
  · subst hmn
    simp only [ne_eq, not_true_eq_false, false_or]
    constructor
    · intro h
      have hhead := h m
      rw [if_pos rfl, if_pos rfl, if_pos rfl, if_pos rfl] at hhead
      exact (List.cons.inj hhead).1
    · rintro rfl name
      rfl
  · refine ⟨fun _ => .inl hmn, fun _ name => ?_⟩
    by_cases hm : m = name
    · subst hm
      simp [Ne.symm hmn]
    · simp [hm]

/-! ## The store of a list of pushes -/

structure Holds (pushes : List (String × String)) (a : Answers) : Prop where
  get : ∀ name, a.get? name =
    if pushedAs name pushes = [] then none else some (pushedAs name pushes)
  first : ∀ name, a.first? name = (pushedAs name pushes).head?
  last : ∀ name, a.last? name = (pushedAs name pushes).getLast?
  empty : a.isEmpty = true ↔ pushes = []
  ordered : (a.entries.map Prod.fst).Pairwise fun m n => Name.bytes m < Name.bytes n
  names : ∀ name, name ∈ a.entries.map Prod.fst ↔ ∃ value, (name, value) ∈ pushes
  entries : ∀ name values, (name, values) ∈ a.entries →
    a.get? name = some values ∧ values ≠ []

theorem ofPushes_holds (pushes : List (String × String)) : Holds pushes (ofPushes pushes) where
  get := get?_ofPushes pushes
  first name := by
    rw [first?, get?_ofPushes]
    split <;> simp_all
  last name := by
    rw [last?, get?_ofPushes]
    split <;> simp_all
  empty := by
    have htotal := total_ofPushes pushes
    unfold isEmpty
    rw [List.isEmpty_iff]
    constructor
    · intro h
      rw [total, h] at htotal
      exact List.length_eq_zero_iff.mp htotal.symm
    · rintro rfl
      rfl
  ordered := List.pairwise_map.mpr ((sorted_ofPushes pushes).imp Name.bytes_lt)
  names name := by
    rw [← pushedAs_ne_nil, List.mem_map]
    constructor
    · rintro ⟨⟨n, values⟩, h, rfl⟩
      obtain ⟨heq, hne⟩ := get?_ofPushes_eq_some.mp ((sorted_ofPushes pushes).mem_iff.mp h)
      exact heq ▸ hne
    · intro h
      exact ⟨(name, _), (sorted_ofPushes pushes).mem_iff.mpr (get?_ofPushes_eq_some.mpr ⟨rfl, h⟩),
        rfl⟩
  entries name values h := by
    have hget := (sorted_ofPushes pushes).mem_iff.mp h
    exact ⟨hget, (get?_ofPushes_eq_some.mp hget).2⟩

/-- A store is a list of values for each name and nothing else: pushes lead to the same store if
and only if they agree under every name. -/
theorem ofPushes_canonical (pushes : List (String × String)) :
    Holds pushes (ofPushes pushes) ∧
    (∀ pushes', ofPushes pushes = ofPushes pushes' ↔
      ∀ name, pushedAs name pushes = pushedAs name pushes') ∧
    ∀ p q later, ofPushes (pushes ++ p :: q :: later) = ofPushes (pushes ++ q :: p :: later) ↔
      p.1 ≠ q.1 ∨ p.2 = q.2 :=
  ⟨ofPushes_holds pushes, fun _ => ofPushes_eq_iff, fun _ _ later => ofPushes_swap_iff pushes later⟩

example : (ofPushes [("é", "1"), ("a", "2"), ("é", "3"), ("z", "4")]).entries =
    [("a", ["2"]), ("z", ["4"]), ("é", ["1", "3"])] := by decide

end Answers

end Dialogue
