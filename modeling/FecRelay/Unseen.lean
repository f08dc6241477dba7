import FecRelay.Block

/-!
# What `unseen_range` yields

The generator walks through the indices that are not marked, in increasing order, until the
32 bits of its index are used up. `unseen_range(n)` yields the first `n` of them with the
data that the block has for them.
-/

namespace FecRelay.Block

open FecRelay.Base

variable {W : Wirehair} {seen : List Bool} {b : Block W}

/-! ## The indices that are left -/

/-- The indices from `j` on that are not marked, in increasing order. -/
def unmarkedFrom (seen : List Bool) (j : Nat) : List Nat :=
  (List.range' j (2 ^ 32 - j)).filter fun k => !marked seen k

theorem unmarkedFrom_of_le {j : Nat} (h : 2 ^ 32 ≤ j) : unmarkedFrom seen j = [] := by
  rw [unmarkedFrom, Nat.sub_eq_zero_of_le h]
  rfl

/-- The index does not wrap while one is left behind it. -/
theorem u32_succ_of_left (seen : List Bool) {i : Nat} (h : 0 < (unmarkedFrom seen (i + 1)).length) :
    u32 (i + 1) = i + 1 := by
  apply u32_of_lt
  by_contra hwrap
  simp [unmarkedFrom_of_le (not_lt.mp hwrap)] at h

/-- The next index is left unless it is marked. -/
theorem unmarkedFrom_of_lt {j : Nat} (h : j < 2 ^ 32) : unmarkedFrom seen j =
    if marked seen j then unmarkedFrom seen (j + 1) else j :: unmarkedFrom seen (j + 1) := by
  have hsucc : 2 ^ 32 - j = 2 ^ 32 - (j + 1) + 1 := by omega
  unfold unmarkedFrom
  rw [hsucc, List.range'_succ, List.filter_cons]
  cases marked seen j <;> rfl

theorem mem_unmarkedFrom {j k : Nat} :
    k ∈ unmarkedFrom seen j ↔ j ≤ k ∧ k < 2 ^ 32 ∧ marked seen k = false := by
  have hrange : j ≤ k ∧ k < j + (2 ^ 32 - j) ↔ j ≤ k ∧ k < 2 ^ 32 := by omega
  rw [unmarkedFrom, List.mem_filter, List.mem_range'_1, Bool.not_eq_true', hrange, and_assoc]

theorem unmarkedFrom_ascending (seen : List Bool) (j : Nat) :
    (unmarkedFrom seen j).Pairwise (· < ·) :=
  (List.pairwise_lt_range' (s := j)).sublist List.filter_sublist

/-- Every index from `j` on is left or marked. -/
theorem le_length_unmarkedFrom (seen : List Bool) : ∀ n j, j + n = 2 ^ 32 →
    n ≤ (unmarkedFrom seen j).length + (seen.drop j).count true := by
  intro n
  induction n with
  | zero => intro j _; exact Nat.zero_le _
  | succ n ih =>
      intro j hj
      have hrest := ih (j + 1) (by omega)
      have hcount := count_drop seen j
      rw [unmarkedFrom_of_lt (by omega)]
      cases hmark : marked seen j with
      | true =>
          rw [hmark, if_pos rfl] at hcount
          rw [if_pos rfl]
          omega
      | false =>
          rw [hmark, if_neg Bool.false_ne_true] at hcount
          rw [if_neg Bool.false_ne_true, List.length_cons]
          omega

/-- What comes before an index that is left is less than it. -/
theorem lt_of_mem_take {n : Nat} (h : n < (unmarkedFrom seen 0).length) :
    ∀ k ∈ (unmarkedFrom seen 0).take n, k + 1 < 2 ^ 32 := by
  intro k hk
  have hlast := (mem_unmarkedFrom.mp (List.getElem_mem h)).2.1
  have hascending := unmarkedFrom_ascending seen 0
  rw [← List.take_append_drop n (unmarkedFrom seen 0), List.pairwise_append] at hascending
  have hbefore := hascending.2.2 k hk ((unmarkedFrom seen 0)[n]) (by
    rw [List.drop_eq_getElem_cons h]
    exact List.mem_cons_self)
  omega

/-! ## The generator -/

/-- The loop over marked symbols stops at the first index that is left. -/
theorem skipSeen_of_unmarkedFrom {i : Nat} {rest : List Nat} : ∀ (rounds j : Nat),
    seen.length - j < rounds → unmarkedFrom seen j = i :: rest →
      skipSeen seen rounds j = .ok i ∧ rest = unmarkedFrom seen (i + 1) := by
  intro rounds
  induction rounds with
  | zero => intro j hrounds _; exact absurd hrounds (Nat.not_lt_zero _)
  | succ rounds ih =>
      intro j hrounds hleft
      have hj : j < 2 ^ 32 := by
        by_contra hj
        rw [unmarkedFrom_of_le (not_lt.mp hj)] at hleft
        cases hleft
      rw [unmarkedFrom_of_lt hj] at hleft
      rw [skipSeen]
      cases hmark : marked seen j with
      | false =>
          rw [hmark, if_neg Bool.false_ne_true] at hleft
          cases hleft
          exact ⟨rfl, rfl⟩
      | true =>
          rw [hmark, if_pos rfl] at hleft
          have hlen := lt_length_of_marked hmark
          rw [if_pos rfl, u32_succ_of_left seen (by simp [hleft])]
          exact ih (j + 1) (by omega) hleft

/-- The loop stops at no marked index. -/
theorem marked_of_skipSeen {i : Nat} : ∀ (rounds j : Nat), skipSeen seen rounds j = .ok i →
    marked seen i = false := by
  intro rounds
  induction rounds with
  | zero => intro j h; cases h
  | succ rounds ih =>
      intro j h
      rw [skipSeen] at h
      cases hmark : marked seen j with
      | true =>
          rw [hmark, if_pos rfl] at h
          exact ih _ h
      | false =>
          rw [hmark, if_neg Bool.false_ne_true] at h
          cases h
          exact hmark

/-- What a call of the generator that returns does. -/
theorem generate_ok_iff {j j' : Nat} {symbol : Bytes × Nat} : generate b j = .ok symbol j' ↔
    skipSeen b.symbolsSeen (b.symbolsSeen.length + 1) j = .ok symbol.2 ∧
      b.symbolData symbol.2 = .ok symbol.1 ∧ j' = u32 (symbol.2 + 1) := by
  rw [generate, Method.bind_of_ok (Method.get_apply j), Method.lift_bind_ok_iff]
  constructor
  · rintro ⟨index, hskip, h⟩
    rw [Method.bind_of_ok (Method.set_apply j _)] at h
    obtain ⟨data, hdata, h⟩ := Method.lift_bind_ok_iff.mp h
    obtain ⟨rfl, rfl⟩ := Method.pure_ok_iff.mp h
    exact ⟨hskip, hdata, rfl⟩
  · rintro ⟨hskip, hdata, rfl⟩
    refine ⟨symbol.2, hskip, ?_⟩
    rw [Method.bind_of_ok (Method.set_apply j _)]
    exact Method.lift_bind_ok_iff.mpr ⟨symbol.1, hdata, rfl⟩

/-- Nothing that is yielded is marked. -/
theorem unmarked_of_unseenRange : ∀ (n j : Nat) {symbols : List (Bytes × Nat)} {j' : Nat},
    unseenRange b n j = .ok symbols j' →
      ∀ symbol ∈ symbols, marked b.symbolsSeen symbol.2 = false := by
  intro n
  induction n with
  | zero =>
      intro j symbols j' h symbol hsymbol
      obtain ⟨rfl, -⟩ := Method.pure_ok_iff.mp h
      cases hsymbol
  | succ n ih =>
      intro j symbols j' h symbol hsymbol
      rw [unseenRange] at h
      obtain ⟨first, mid, hfirst, h⟩ := Method.bind_ok_iff.mp h
      obtain ⟨rest, last, hrest, h⟩ := Method.bind_ok_iff.mp h
      obtain ⟨rfl, -⟩ := Method.pure_ok_iff.mp h
      rcases List.mem_cons.mp hsymbol with rfl | hsymbol
      · exact marked_of_skipSeen _ _ (generate_ok_iff.mp hfirst).1
      · exact ih mid hrest symbol hsymbol

/-- Where so many indices are left, what is yielded are the first `n` of them. -/
theorem indices_of_unseenRange : ∀ (n j : Nat) {symbols : List (Bytes × Nat)} {j' : Nat},
    n ≤ (unmarkedFrom b.symbolsSeen j).length → unseenRange b n j = .ok symbols j' →
      symbols.map Prod.snd = (unmarkedFrom b.symbolsSeen j).take n := by
  intro n
  induction n with
  | zero =>
      intro j symbols j' _ h
      obtain ⟨rfl, -⟩ := Method.pure_ok_iff.mp h
      rfl
  | succ n ih =>
      intro j symbols j' hn h
      rw [unseenRange] at h
      obtain ⟨first, mid, hfirst, h⟩ := Method.bind_ok_iff.mp h
      obtain ⟨rest, last, hrest, h⟩ := Method.bind_ok_iff.mp h
      obtain ⟨rfl, -⟩ := Method.pure_ok_iff.mp h
      obtain ⟨hskip, -, rfl⟩ := generate_ok_iff.mp hfirst
      cases hleft : unmarkedFrom b.symbolsSeen j with
      | nil => simp [hleft] at hn
      | cons i left =>
          rw [hleft, List.length_cons] at hn
          obtain ⟨hskip', hleft'⟩ :=
            skipSeen_of_unmarkedFrom (b.symbolsSeen.length + 1) j (by omega) hleft
          obtain rfl : first.2 = i := by simpa [hskip] using hskip'
          rw [List.map_cons, List.take_succ_cons]
          congr 1
          cases n with
          | zero =>
              obtain ⟨rfl, -⟩ := Method.pure_ok_iff.mp hrest
              rfl
          | succ n =>
              rw [hleft'] at hn ⊢
              rw [u32_succ_of_left b.symbolsSeen (by omega)] at hrest
              exact ih (first.2 + 1) (by omega) hrest

/-- A block that has data for every index yields the first `n` indices that are left. -/
theorem unseenRange_exact (hdata : ∀ k < 2 ^ 32, ∃ data, b.symbolData k = .ok data) :
    ∀ (n j : Nat), n ≤ (unmarkedFrom b.symbolsSeen j).length → ∃ symbols j',
      unseenRange b n j = .ok symbols j' ∧
        symbols.map Prod.snd = (unmarkedFrom b.symbolsSeen j).take n ∧
        ∀ symbol ∈ symbols, b.symbolData symbol.2 = .ok symbol.1 := by
  intro n
  induction n with
  | zero => exact fun j _ => ⟨[], j, rfl, rfl, nofun⟩
  | succ n ih =>
      intro j hn
      cases hleft : unmarkedFrom b.symbolsSeen j with
      | nil => simp [hleft] at hn
      | cons i rest =>
          rw [hleft, List.length_cons] at hn
          obtain ⟨hskip, hrest⟩ :=
            skipSeen_of_unmarkedFrom (b.symbolsSeen.length + 1) j (by omega) hleft
          have hi : i < 2 ^ 32 := by
            have hmem : i ∈ unmarkedFrom b.symbolsSeen j := hleft ▸ List.mem_cons_self
            exact (mem_unmarkedFrom.mp hmem).2.1
          obtain ⟨data, hi'⟩ := hdata i hi
          have hfirst : generate b j = .ok (data, i) (u32 (i + 1)) :=
            generate_ok_iff.mpr ⟨hskip, hi', rfl⟩
          -- the index wraps only where nothing is left to yield
          obtain ⟨symbols, j', hrange, hindices, hsymbols⟩ : ∃ symbols j',
              unseenRange b n (u32 (i + 1)) = .ok symbols j' ∧
                symbols.map Prod.snd = rest.take n ∧
                ∀ symbol ∈ symbols, b.symbolData symbol.2 = .ok symbol.1 := by
            cases n with
            | zero => exact ⟨[], _, rfl, rfl, nofun⟩
            | succ n =>
                rw [hrest] at hn ⊢
                rw [u32_succ_of_left b.symbolsSeen (by omega)]
                exact ih (i + 1) (by omega)
          refine ⟨(data, i) :: symbols, j', ?_, by simp [hindices], ?_⟩
          · rw [unseenRange, Method.bind_of_ok hfirst, Method.bind_of_ok hrange]
            rfl
          · intro symbol hsymbol
            rcases List.mem_cons.mp hsymbol with rfl | hsymbol
            · exact hi'
            · exact hsymbols symbol hsymbol

end FecRelay.Block
