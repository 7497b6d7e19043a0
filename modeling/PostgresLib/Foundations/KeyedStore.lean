import Mathlib.Data.List.AList
import Mathlib.Data.Nat.Notation

/-! # Keyed stores

A map from keys to values that is filled entry by entry, where an entry replaces the
one its key had. Whatever the order of the entries, a key has the value of the last
entry with that key, and the entries of other keys do not matter.
-/

namespace PostgresLib.Foundations

universe u v
variable {κ : Type u} {ν : Type v}

def Absent (k : κ) (entries : List (κ × ν)) : Prop := ∀ entry ∈ entries, entry.1 ≠ k

/-- The last entry with the key has the value. -/
def Last (k : κ) (v : ν) (entries : List (κ × ν)) : Prop :=
  ∃ front back, entries = front ++ (k, v) :: back ∧ Absent k back

theorem Last.mem {k : κ} {v : ν} {entries : List (κ × ν)} (h : Last k v entries) :
    (k, v) ∈ entries := by
  rcases h with ⟨front, back, rfl, -⟩
  exact List.mem_append_right _ List.mem_cons_self

/-- The entry at a position is the last with its key when no later one has the key. -/
theorem last_of_getElem? {k : κ} {v : ν} {entries : List (κ × ν)} {i : ℕ}
    (h : entries[i]? = some (k, v))
    (hlater : ∀ (j : ℕ) entry, i < j → entries[j]? = some entry → entry.1 ≠ k) :
    Last k v entries := by
  rcases List.getElem?_eq_some_iff.mp h with ⟨hi, hentry⟩
  refine ⟨entries.take i, entries.drop (i + 1), ?_, fun entry hmem => ?_⟩
  · rw [← hentry, List.getElem_cons_drop, List.take_append_drop]
  · rcases List.mem_iff_getElem?.mp hmem with ⟨j, hj⟩
    rw [List.getElem?_drop] at hj
    exact hlater (i + 1 + j) entry (by omega) hj

variable [DecidableEq κ]

/-- A map that has at most one value for each key. -/
abbrev KeyedStore (κ : Type u) (ν : Type v) : Type (max u v) := AList fun _ : κ => ν

/-- Insert the entries of a list, from left to right. -/
def insertAll (store : KeyedStore κ ν) (entries : List (κ × ν)) : KeyedStore κ ν :=
  entries.foldl (fun store entry => store.insert entry.1 entry.2) store

@[simp] theorem insertAll_nil (store : KeyedStore κ ν) : insertAll store [] = store := rfl

@[simp] theorem insertAll_cons (store : KeyedStore κ ν) (entry : κ × ν)
    (entries : List (κ × ν)) :
    insertAll store (entry :: entries) = insertAll (store.insert entry.1 entry.2) entries := rfl

theorem insertAll_append (store : KeyedStore κ ν) (front back : List (κ × ν)) :
    insertAll store (front ++ back) = insertAll (insertAll store front) back :=
  List.foldl_append

theorem lookup_insertAll_of_absent {k : κ} {entries : List (κ × ν)} (h : Absent k entries)
    (store : KeyedStore κ ν) : (insertAll store entries).lookup k = store.lookup k := by
  induction entries generalizing store with
  | nil => rfl
  | cons entry entries ih =>
    have hne : k ≠ entry.1 := (h entry List.mem_cons_self).symm
    have hrest : Absent k entries := fun e he => h e (List.mem_cons_of_mem _ he)
    rw [insertAll_cons, ih hrest, AList.lookup_insert_ne hne]

theorem lookup_insertAll_of_last {k : κ} {v : ν} {entries : List (κ × ν)}
    (h : Last k v entries) (store : KeyedStore κ ν) :
    (insertAll store entries).lookup k = some v := by
  rcases h with ⟨front, back, rfl, habsent⟩
  rw [insertAll_append, insertAll_cons, lookup_insertAll_of_absent habsent, AList.lookup_insert]

/-- Every key either has a last entry or none at all. -/
theorem absent_or_last (k : κ) (entries : List (κ × ν)) :
    Absent k entries ∨ ∃ v, Last k v entries := by
  induction entries with
  | nil => exact .inl fun _ h => absurd h List.not_mem_nil
  | cons entry entries ih =>
    rcases ih with habsent | ⟨v, front, back, rfl, hback⟩
    · by_cases hk : entry.1 = k
      · exact .inr ⟨entry.2, [], entries, by rw [← hk]; rfl, habsent⟩
      · exact .inl (List.forall_mem_cons.mpr ⟨hk, habsent⟩)
    · exact .inr ⟨v, entry :: front, back, rfl, hback⟩

theorem lookup_insertAll_isSome (k : κ) (entries : List (κ × ν)) :
    ((insertAll ∅ entries).lookup k).isSome ↔ ∃ entry ∈ entries, entry.1 = k := by
  rcases absent_or_last k entries with habsent | ⟨v, hlast⟩
  · rw [lookup_insertAll_of_absent habsent, AList.lookup_empty]
    exact ⟨fun h => absurd h (by simp), fun ⟨entry, he, hk⟩ => absurd hk (habsent entry he)⟩
  · rw [lookup_insertAll_of_last hlast]
    exact ⟨fun _ => ⟨_, hlast.mem, rfl⟩, fun _ => rfl⟩

theorem lookup_insertAll_filter (k : κ) (entries : List (κ × ν)) :
    (insertAll ∅ (entries.filter fun entry => entry.1 = k)).lookup k =
      (insertAll ∅ entries).lookup k := by
  rcases absent_or_last k entries with habsent | ⟨v, front, back, rfl, hback⟩
  · have hnone : entries.filter (fun entry => entry.1 = k) = [] :=
      List.filter_eq_nil_iff.mpr fun entry he => by simpa using habsent entry he
    rw [hnone, insertAll_nil, lookup_insertAll_of_absent habsent]
  · have hnone : back.filter (fun entry => entry.1 = k) = [] :=
      List.filter_eq_nil_iff.mpr fun entry he => by simpa using hback entry he
    have hfilter : Last k v ((front ++ (k, v) :: back).filter fun entry => entry.1 = k) :=
      ⟨front.filter fun entry => entry.1 = k, [], by simp [hnone],
        fun _ h => absurd h List.not_mem_nil⟩
    rw [lookup_insertAll_of_last hfilter, lookup_insertAll_of_last ⟨front, back, rfl, hback⟩]

end PostgresLib.Foundations
