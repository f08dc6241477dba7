import Mathlib.Tactic

/-!
# Cutting a list into chunks

A list is cut into `count` consecutive chunks of `b` elements, of which the last
may be shorter. Put side by side the chunks are the list again.
-/

namespace FecRelay.Base.Chunks

variable {α : Type}

/-- The number of chunks of `b` elements that `len` elements make. -/
def count (b len : Nat) : Nat := (len + b - 1) / b

/-- Chunk number `i`. -/
def chunk (b : Nat) (xs : List α) (i : Nat) : List α := (xs.take ((i + 1) * b)).drop (i * b)

theorem le_count_mul {b : Nat} (hb : 0 < b) (len : Nat) : len ≤ count b len * b := by
  unfold count
  have hrest := Nat.div_add_mod (len + b - 1) b
  have hlt := Nat.mod_lt (len + b - 1) hb
  rw [Nat.mul_comm] at hrest
  omega

/-- A chunk starts inside the list. -/
theorem mul_lt_of_lt_count {b : Nat} (hb : 0 < b) {len i : Nat} (h : i < count b len) :
    i * b < len := by
  have hle : (i + 1) * b ≤ len + b - 1 := (Nat.le_div_iff_mul_le hb).mp h
  rw [Nat.add_mul, Nat.one_mul] at hle
  omega

/-- The first `n` chunks are the front of the list. -/
theorem flatMap_chunk_range (b : Nat) (xs : List α) (n : Nat) :
    (List.range n).flatMap (chunk b xs) = xs.take (n * b) := by
  induction n with
  | zero => simp
  | succ n ih =>
      rw [List.range_succ, List.flatMap_append, ih, List.flatMap_singleton]
      -- the next chunk starts where the front ends
      have hfront : xs.take (n * b) = (xs.take ((n + 1) * b)).take (n * b) := by
        rw [List.take_take, min_eq_left (Nat.mul_le_mul_right b (Nat.le_succ n))]
      rw [hfront]
      exact List.take_append_drop (n * b) (xs.take ((n + 1) * b))

/-- All chunks together are the list. -/
theorem flatMap_chunk {b : Nat} (hb : 0 < b) (xs : List α) :
    (List.range (count b xs.length)).flatMap (chunk b xs) = xs := by
  rw [flatMap_chunk_range]
  exact List.take_of_length_le (le_count_mul hb xs.length)

theorem length_chunk (b : Nat) (xs : List α) (i : Nat) :
    (chunk b xs i).length = min ((i + 1) * b) xs.length - i * b := by
  simp [chunk]

/-- A chunk that counts is not empty. -/
theorem chunk_ne_nil {b : Nat} (hb : 0 < b) {xs : List α} {i : Nat} (h : i < count b xs.length) :
    chunk b xs i ≠ [] := by
  have hstart := mul_lt_of_lt_count hb h
  have hlength := length_chunk b xs i
  rw [Nat.add_mul, Nat.one_mul] at hlength
  intro hnil
  rw [hnil, List.length_nil] at hlength
  omega

/-- Parts that are as long as the chunks of a list make a list of that length. -/
theorem length_flatMap_of_length {b len : Nat} (hb : 0 < b) {f : Nat → List α}
    (h : ∀ i < count b len, (f i).length = min ((i + 1) * b) len - i * b) :
    ((List.range (count b len)).flatMap f).length = len := by
  have hunits := flatMap_chunk hb (List.replicate len ())
  rw [List.length_replicate] at hunits
  have hsame : (List.range (count b len)).map (fun i => (f i).length) =
      (List.range (count b len)).map fun i => (chunk b (List.replicate len ()) i).length := by
    refine List.map_congr_left fun i hi => ?_
    rw [h i (List.mem_range.mp hi), length_chunk, List.length_replicate]
  calc ((List.range (count b len)).flatMap f).length
    _ = ((List.range (count b len)).flatMap (chunk b (List.replicate len ()))).length := by
        rw [List.length_flatMap, List.length_flatMap, hsame]
    _ = len := by rw [hunits, List.length_replicate]

end FecRelay.Base.Chunks
