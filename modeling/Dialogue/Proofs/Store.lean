import Dialogue.Answers

/-!
# The store of answers

What a store gives back. It keeps its names in increasing order, so a name is found where it was
pushed first, and it has the values that were pushed under it and no others.
-/

namespace Dialogue

namespace Answers

def Sorted (entries : List (String × List String)) : Prop :=
  entries.Pairwise fun p q => p.1 < q.1

def pushAll (answers : Answers) (pushes : List (String × String)) : Answers :=
  pushes.foldl (fun a p => a.push p.1 p.2) answers

def total (a : Answers) : Nat :=
  (a.entries.flatMap Prod.snd).length

def pushedAs (name : String) (pushes : List (String × String)) : List String :=
  (pushes.filter fun p => p.1 = name).map Prod.snd

/-! ## Insertion -/

theorem mem_insert {name value : String} {p : String × List String} :
    ∀ {entries : List (String × List String)}, p ∈ insert name value entries →
      p.1 = name ∨ ∃ q ∈ entries, q.1 = p.1
  | [], h => .inl (congrArg Prod.fst (List.mem_singleton.mp h))
  | (n, values) :: rest, h => by
    rw [insert] at h
    split at h
    · rename_i hn
      rcases List.mem_cons.mp h with rfl | h
      · exact .inl hn.symm
      · exact .inr ⟨p, List.mem_cons_of_mem _ h, rfl⟩
    · split at h
      · rcases List.mem_cons.mp h with rfl | h
        · exact .inl rfl
        · exact .inr ⟨p, h, rfl⟩
      · rcases List.mem_cons.mp h with rfl | h
        · exact .inr ⟨_, List.mem_cons_self, rfl⟩
        · rcases mem_insert h with hp | ⟨q, hq, hqp⟩
          · exact .inl hp
          · exact .inr ⟨q, List.mem_cons_of_mem _ hq, hqp⟩

theorem sorted_insert (name value : String) : ∀ {entries : List (String × List String)},
    Sorted entries → Sorted (insert name value entries)
  | [], _ => List.pairwise_singleton _ _
  | (n, values) :: rest, h => by
    obtain ⟨hhead, htail⟩ := List.pairwise_cons.mp h
    rw [insert]
    split
    · exact List.pairwise_cons.mpr ⟨hhead, htail⟩
    · rename_i hne
      split
      · rename_i hlt
        refine List.pairwise_cons.mpr ⟨fun q hq => ?_, h⟩
        rcases List.mem_cons.mp hq with rfl | hq
        · exact hlt
        · exact String.lt_trans hlt (hhead q hq)
      · rename_i hlt
        refine List.pairwise_cons.mpr ⟨fun q hq => ?_, sorted_insert name value htail⟩
        rcases mem_insert hq with hq | ⟨r, hr, hrq⟩
        · rw [hq]
          exact Std.lt_of_le_of_ne (String.not_lt.mp hlt) (Ne.symm hne)
        · rw [← hrq]
          exact hhead r hr

theorem lookup_insert_of_ne {name key : String} (h : key ≠ name) (value : String) :
    ∀ entries : List (String × List String),
      (insert name value entries).lookup key = entries.lookup key
  | [] => by simp [insert, List.lookup_cons, beq_false_of_ne h]
  | (n, values) :: rest => by
    rw [insert]
    split
    · rename_i hn
      subst hn
      simp [List.lookup_cons, beq_false_of_ne h]
    · split
      · simp [List.lookup_cons, beq_false_of_ne h]
      · rw [List.lookup_cons, List.lookup_cons, lookup_insert_of_ne h value rest]

theorem lookup_insert_self (name value : String) : ∀ {entries : List (String × List String)},
    Sorted entries → (insert name value entries).lookup name =
      some ((entries.lookup name).getD [] ++ [value])
  | [], _ => by simp [insert]
  | (n, values) :: rest, h => by
    obtain ⟨hhead, htail⟩ := List.pairwise_cons.mp h
    rw [insert]
    split
    · rename_i hn
      subst hn
      simp
    · rename_i hne
      split
      · rename_i hlt
        -- every name of the store is above the new one
        have habsent : List.lookup name ((n, values) :: rest) = none := by
          rw [List.lookup_eq_none_iff]
          intro q hq
          have hq : name < q.1 := by
            rcases List.mem_cons.mp hq with rfl | hq
            · exact hlt
            · exact String.lt_trans hlt (hhead q hq)
          simpa using Std.ne_of_lt hq
        rw [habsent, List.lookup_cons_self]
        rfl
      · have hne : (name == n) = false := by simpa using hne
        rw [List.lookup_cons, List.lookup_cons, hne]
        exact lookup_insert_self name value htail

theorem total_insert (name value : String) : ∀ entries : List (String × List String),
    total ⟨insert name value entries⟩ = total ⟨entries⟩ + 1
  | [] => rfl
  | (n, values) :: rest => by
    have ih : total ⟨insert name value rest⟩ = total ⟨rest⟩ + 1 := total_insert name value rest
    unfold total at ih ⊢
    rw [insert]
    split
    · simp
      omega
    · split
      · simp
      · simp only [List.flatMap_cons, List.length_append] at ih ⊢
        omega

/-! ## Pushes -/

theorem get?_push {a : Answers} (h : Sorted a.entries) (name value key : String) :
    (a.push name value).get? key =
      if name = key then some ((a.get? key).getD [] ++ [value]) else a.get? key := by
  by_cases hk : name = key
  · subst hk
    rw [if_pos rfl]
    exact lookup_insert_self name value h
  · rw [if_neg hk]
    exact lookup_insert_of_ne (Ne.symm hk) value a.entries

theorem pushedAs_cons (key name value : String) (pushes : List (String × String)) :
    pushedAs key ((name, value) :: pushes) =
      if name = key then value :: pushedAs key pushes else pushedAs key pushes := by
  by_cases h : name = key <;> simp [pushedAs, h]

theorem pushAll_cons (a : Answers) (name value : String) (pushes : List (String × String)) :
    a.pushAll ((name, value) :: pushes) = (a.push name value).pushAll pushes := rfl

theorem get?_pushAll (key : String) : ∀ (pushes : List (String × String)) {a : Answers},
    Sorted a.entries → (a.pushAll pushes).get? key =
      if pushedAs key pushes = [] then a.get? key
      else some ((a.get? key).getD [] ++ pushedAs key pushes)
  | [], _, _ => rfl
  | (name, value) :: pushes, a, h => by
    have hs : Sorted (a.push name value).entries := sorted_insert name value h
    have ih := get?_pushAll key pushes hs
    rw [pushAll_cons, ih, get?_push h, pushedAs_cons]
    by_cases hn : name = key <;> by_cases hp : pushedAs key pushes = [] <;> simp [hn, hp]

theorem ofPushes_snoc (pushes : List (String × String)) (name value : String) :
    ofPushes (pushes ++ [(name, value)]) = (ofPushes pushes).push name value := by
  rw [ofPushes, List.foldl_append]
  rfl

/-- A name has the values that were pushed under it, in order, and is absent without any. -/
theorem get?_ofPushes (pushes : List (String × String)) (key : String) :
    (ofPushes pushes).get? key =
      if pushedAs key pushes = [] then none else some (pushedAs key pushes) :=
  get?_pushAll key pushes List.Pairwise.nil

theorem total_pushAll : ∀ (pushes : List (String × String)) (a : Answers),
    (a.pushAll pushes).total = a.total + pushes.length
  | [], _ => rfl
  | (name, value) :: pushes, a => by
    have ih := total_pushAll pushes (a.push name value)
    have hpush : (a.push name value).total = a.total + 1 := total_insert name value a.entries
    rw [pushAll_cons, ih, hpush, List.length_cons]
    omega

theorem total_ofPushes (pushes : List (String × String)) :
    (ofPushes pushes).total = pushes.length := by
  have h : (ofPushes pushes).total = empty.total + pushes.length := total_pushAll pushes empty
  simpa [total, empty] using h

end Answers

end Dialogue
