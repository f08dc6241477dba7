import Mathlib.Tactic

/-!
# Reassembly in order

A receiver that hands out numbered elements in order has handed out a prefix of the
sequence they come from, and the longest run of numbers it has seen tells how far
it can be.
-/

namespace FecRelay.Base.Reassembly

variable {α : Type}

/-! ## Prefixes -/

/-- An element of a prefix is found in the whole under the same number. -/
theorem getElem?_of_prefix {xs ys : List α} (h : xs <+: ys) {i : Nat} {a : α}
    (ha : xs[i]? = some a) : ys[i]? = some a := by
  obtain ⟨rest, rfl⟩ := h
  have hi := (List.getElem?_eq_some_iff.mp ha).1
  rwa [List.getElem?_append_left hi]

/-- The next element in order makes a longer prefix. -/
theorem snoc_prefix {xs ys : List α} (h : xs <+: ys) {a : α} (ha : ys[xs.length]? = some a) :
    xs ++ [a] <+: ys := by
  obtain ⟨rest, rfl⟩ := h
  rw [List.getElem?_append_right le_rfl, Nat.sub_self] at ha
  cases rest with
  | nil => simp at ha
  | cons b rest =>
      obtain rfl : b = a := by simpa using ha
      exact ⟨rest, by rw [List.append_assoc, List.singleton_append]⟩

/-! ## Runs of numbers -/

/-- `k` is the length of the longest run `0 .. k - 1` of numbers in `nums`. -/
def IsRun (nums : List Nat) (k : Nat) : Prop := (∀ i < k, i ∈ nums) ∧ k ∉ nums

theorem IsRun.unique {nums : List Nat} {j k : Nat} (hj : IsRun nums j) (hk : IsRun nums k) :
    j = k := by
  rcases lt_trichotomy j k with hlt | heq | hgt
  · exact absurd (hk.1 j hlt) hj.2
  · exact heq
  · exact absurd (hj.1 k hgt) hk.2

end FecRelay.Base.Reassembly
