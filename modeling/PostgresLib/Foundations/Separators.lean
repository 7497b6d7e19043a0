import Mathlib.Data.List.Basic

/-! # Texts with separators

A text is divided at the first occurrence of a separator, or into the pieces between
all occurrences. What is appended behind a separator adds its own pieces; what is
appended behind anything else only makes the last piece longer.
-/

namespace PostgresLib.Foundations

universe u
variable {α : Type u} [DecidableEq α] {a b : α} {xs ys : List α}

/-- What stands before the first separator; the whole text when there is none. -/
def beforeFirst (a : α) (xs : List α) : List α := xs.takeWhile (· ≠ a)

/-- What stands behind the first separator; nothing when there is none. -/
def afterFirst (a : α) (xs : List α) : List α := (xs.dropWhile (· ≠ a)).tail

/-- The pieces between separators that are not empty. -/
def pieces (a : α) (xs : List α) : List (List α) := (xs.splitOn a).filter (· ≠ [])

theorem beforeFirst_append (h : a ∉ xs) (ys : List α) :
    beforeFirst a (xs ++ ys) = xs ++ beforeFirst a ys :=
  List.takeWhile_append_of_pos fun x hx => by
    have hne : x ≠ a := fun he => h (he ▸ hx)
    simpa using hne

theorem beforeFirst_append_cons (h : a ∉ xs) (ys : List α) :
    beforeFirst a (xs ++ a :: ys) = xs := by
  rw [beforeFirst_append h, beforeFirst, List.takeWhile_cons_of_neg (by simp), List.append_nil]

theorem afterFirst_append_cons (h : a ∉ xs) (ys : List α) :
    afterFirst a (xs ++ a :: ys) = ys := by
  have hall : ∀ x ∈ xs, decide (x ≠ a) = true := fun x hx => by
    have hne : x ≠ a := fun he => h (he ▸ hx)
    simpa using hne
  rw [afterFirst, List.dropWhile_append_of_pos hall, List.dropWhile_cons_of_neg (by simp),
    List.tail_cons]

@[simp] theorem pieces_nil (a : α) : pieces a [] = [] := rfl

theorem pieces_append_cons (a : α) (xs ys : List α) :
    pieces a (xs ++ a :: ys) = pieces a xs ++ pieces a ys := by
  rw [pieces, List.splitOn_append_cons_self, List.filter_append]
  rfl

theorem pieces_append_singleton (a : α) (xs : List α) : pieces a (xs ++ [a]) = pieces a xs := by
  rw [pieces_append_cons, pieces_nil, List.append_nil]

theorem pieces_of_not_mem (hne : xs ≠ []) (h : a ∉ xs) : pieces a xs = [xs] := by
  rw [pieces, List.splitOn_eq_singleton h]
  simp [hne]

/-- Behind anything but a separator, a text without separators adds no piece. -/
theorem length_pieces_append (hlast : xs.getLast? = some b) (hb : b ≠ a) (h : a ∉ ys) :
    (pieces a (xs ++ ys)).length = (pieces a xs).length := by
  induction hn : xs.length using Nat.strongRecOn generalizing xs with
  | ind n ih =>
    by_cases hmem : a ∈ xs
    · rcases List.eq_append_cons_of_mem hmem with ⟨front, back, rfl, -⟩
      have hback : back.getLast? = some b := by
        rw [List.getLast?_append_cons] at hlast
        cases back with
        | nil => exact absurd (Option.some.inj hlast).symm hb
        | cons c back => rwa [List.getLast?_cons_cons] at hlast
      have hless : back.length < n := by
        rw [← hn, List.length_append, List.length_cons]
        omega
      rw [List.append_assoc, List.cons_append, pieces_append_cons, pieces_append_cons,
        List.length_append, List.length_append, ih _ hless hback rfl]
    · have hne : xs ≠ [] := by
        rintro rfl
        cases hlast
      have hmem' : a ∉ xs ++ ys := fun hm => (List.mem_append.mp hm).elim hmem h
      rw [pieces_of_not_mem hne hmem, pieces_of_not_mem (List.append_ne_nil_of_left_ne_nil hne _)
        hmem', List.length_singleton, List.length_singleton]

end PostgresLib.Foundations
