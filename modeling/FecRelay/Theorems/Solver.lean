import FecRelay.Base.Run
import FecRelay.Codec.Substitution

/-!
# The solver decides whether the equations determine the lost packets

The elimination stops and resumes, changes the order of rows, and leaves out what the counts
of columns say is zero. In any case the matrix that it leaves is a factorisation of the
coefficients, so that the solver succeeds exactly if the equations have one solution.
-/

namespace FecRelay

open FecRelay.Base FecRelay.Base.Elimination Finset

/-- The coefficient of a column in a row. -/
def coefficients (columns : List ColumnInfo) (rows : List RecoveryPacket) (i c : Nat) : Gf256 :=
  match rows[i]?, columns[c]? with
  | some r, some x => r.coefficient x
  | _, _ => 0

theorem coefficients_eq {columns : List ColumnInfo} {rows : List RecoveryPacket} {i c : Nat}
    (hi : i < rows.length) (hc : c < columns.length) :
    coefficients columns rows i c = (rows[i]).coefficient columns[c] := by
  simp [coefficients, hi, hc]

theorem coefficients_prefix {columns columns' : List ColumnInfo} {rows rows' : List RecoveryPacket}
    (hcolumns : columns <+: columns') (hrows : rows <+: rows') {i c : Nat}
    (hi : i < rows.length) (hc : c < columns.length) :
    coefficients columns' rows' i c = coefficients columns rows i c := by
  obtain ⟨cs, rfl⟩ := hcolumns
  obtain ⟨rs, rfl⟩ := hrows
  simp [coefficients, List.getElem?_append_left, hi, hc]

/-- Rows in the order of the columns that they cover, of which each row covers the first ones,
as far as its count of lost packets goes. -/
structure Consistent (columns : List ColumnInfo) (rows : List RecoveryPacket) : Prop where
  nodup : (columns.map (·.element)).Nodup
  ordered : ∀ r ∈ rows, r.Ordered columns
  sorted : rows.Pairwise fun r r' => r.lostCount ≤ r'.lostCount
  bounded : ∀ r ∈ rows, r.lostCount ≤ columns.length
  outside : ∀ i c, ∀ (hi : i < rows.length), (rows[i]).lostCount ≤ c → coefficients columns rows i c = 0

namespace RecoveryMatrixState

variable {s t : RecoveryMatrixState} {n : Nat}

/-- A row is zero after its count of columns. -/
def ZeroBeyond (s : RecoveryMatrixState) : Prop :=
  ∀ i < s.rows.length, ∀ c < s.columns.length, s.matrixColumnCount i ≤ c → s.matrix i c = 0

/-- The first `n` pivots are found. -/
structure Progress (n : Nat) (s : RecoveryMatrixState) : Prop where
  consistent : Consistent s.columns s.rows
  pivots_lt : ∀ k < s.rows.length, s.pivots k < s.rows.length
  pivots_inj : ∀ k < s.rows.length, ∀ k' < s.rows.length, s.pivots k = s.pivots k' → k = k'
  factors : Factors (coefficients s.columns s.rows) s.matrix s.pivots n s.rows.length
    s.columns.length
  zero : s.ZeroBeyond

/-- The rows of the first `n` pivots are used, and no others. -/
def Uses (s : RecoveryMatrixState) (n : Nat) : Prop :=
  ∀ k < s.rows.length, s.usedForSolution (s.pivots k) = true ↔ k < n

/-- Rows and columns were added to a matrix that is eliminated as far as it was before. -/
structure Ready (s : RecoveryMatrixState) : Prop where
  progress : s.Progress s.geResumePivot
  uses : s.Uses s.geResumePivot
  resumes : 0 < s.geResumePivot → s.geResumePivot < s.columns.length ∧
    s.matrix (s.pivots s.geResumePivot) s.geResumePivot = 0
  fresh : s.geResumePivot = 0 → ∀ k, ∀ (hk : k < s.rows.length),
    s.pivots k = k ∧ s.matrixColumnCount k = (s.rows[k]).lostCount

/-- No row that is left has the next pivot. -/
structure Stuck (s : RecoveryMatrixState) : Prop where
  progress : s.Progress s.geResumePivot
  uses : s.Uses s.geResumePivot
  lt : s.geResumePivot < s.columns.length
  zero : ∀ k < s.rows.length, s.geResumePivot ≤ k → s.matrix (s.pivots k) s.geResumePivot = 0
  fresh : s.geResumePivot = 0 → ∀ k, ∀ (hk : k < s.rows.length),
    s.pivots k = k ∧ s.matrixColumnCount k = (s.rows[k]).lostCount

/-- Every column has a pivot. -/
structure Solved (s : RecoveryMatrixState) : Prop where
  consistent : Consistent s.columns s.rows
  le : s.columns.length ≤ s.rows.length
  pivots_lt : ∀ k < s.rows.length, s.pivots k < s.rows.length
  pivots_inj : ∀ k < s.rows.length, ∀ k' < s.rows.length, s.pivots k = s.pivots k' → k = k'
  factors : Factors (coefficients s.columns s.rows) s.matrix s.pivots s.columns.length
    s.columns.length s.columns.length
  uses : s.Uses s.columns.length

/-! ## One pivot -/

/-- The counts of the rows that are eliminated grow with the count of the pivot row, unless
they are at least as large in any case. -/
theorem ZeroBeyond.eliminateAll (h : s.ZeroBeyond) (grow : Bool) {rowI : Nat} {rowKs : List Nat}
    (hn : n < s.columns.length) (hrow : rowI < s.rows.length) (hpivot : s.matrix rowI n ≠ 0)
    (hnodup : rowKs.Nodup) (hself : rowI ∉ rowKs)
    (hgrow : grow = true ∨ ∀ i ∈ rowKs, s.matrixColumnCount rowI ≤ s.matrixColumnCount i) :
    (s.eliminateAll grow n rowI rowKs).ZeroBeyond := by
  have hcount : n < s.matrixColumnCount rowI := not_le.mp fun hle => hpivot (h rowI hrow n hn hle)
  rw [eliminateAll_eq s grow hnodup hself]
  intro i hi c hc hle
  dsimp only at hi hc hle ⊢
  by_cases hmem : i ∈ rowKs
  · rw [if_pos hmem]
    by_cases hzero : s.matrix i n = 0
    · -- a row without the pivot stays as it is
      rw [if_neg fun hcond => hcond.2.2 hzero] at hle
      rw [eliminated, eliminateRow, if_pos hzero]
      exact h i hi c hc hle
    · have hboth : s.matrixColumnCount i ≤ c ∧ s.matrixColumnCount rowI ≤ c := by
        rcases hgrow with hgrow | hgrow
        · rw [if_pos ⟨hgrow, hmem, hzero⟩] at hle
          exact max_le_iff.mp hle
        · split at hle
          · exact max_le_iff.mp hle
          · exact ⟨hle, (hgrow i hmem).trans hle⟩
      exact eliminated_eq_zero (by omega) hboth.2 (h i hi c hc hboth.1)
  · rw [if_neg hmem]
    rw [if_neg fun hcond => hmem hcond.2.1] at hle
    exact h i hi c hc hle

/-- The rows after position `n`, in the order of the pivots. -/
def rest (s : RecoveryMatrixState) (n : Nat) : List Nat :=
  (List.range' (n + 1) (s.rows.length - (n + 1))).map s.pivots

theorem Progress.rest_nodup (h : s.Progress n) (m : Nat) : (s.rest m).Nodup := by
  refine List.Nodup.map_on (fun k hk k' hk' heq => ?_) List.nodup_range'
  have hk := List.mem_range'_1.mp hk
  have hk' := List.mem_range'_1.mp hk'
  exact h.pivots_inj k (by omega) k' (by omega) heq

theorem Progress.mem_rest (h : s.Progress n) {m k : Nat} (hk : k < s.rows.length) :
    s.pivots k ∈ s.rest m ↔ m < k := by
  rw [rest, List.mem_map]
  constructor
  · rintro ⟨k', hk', heq⟩
    have hk' := List.mem_range'_1.mp hk'
    obtain rfl := h.pivots_inj k' (by omega) k hk heq
    omega
  · intro hlt
    exact ⟨k, List.mem_range'_1.mpr (by omega), rfl⟩

/-- **One pivot.** The rows that are left are eliminated by the row of the pivot. -/
theorem Progress.eliminate (h : s.Progress n) (grow : Bool) (hn : n < s.columns.length)
    (hrows : n < s.rows.length) (hpivot : s.matrix (s.pivots n) n ≠ 0)
    (hgrow : grow = true ∨ ∀ k < s.rows.length, n < k →
      s.matrixColumnCount (s.pivots n) ≤ s.matrixColumnCount (s.pivots k)) :
    (s.eliminateAll grow n (s.pivots n) (s.rest n)).Progress (n + 1) := by
  have hself : s.pivots n ∉ s.rest n := by
    rw [h.mem_rest hrows]
    exact lt_irrefl n
  have hzero := h.zero.eliminateAll grow hn (h.pivots_lt n hrows) hpivot (h.rest_nodup n) hself
    (hgrow.imp_right fun hcounts i hi => by
      obtain ⟨k, hk, rfl⟩ := List.mem_map.mp hi
      have hk := List.mem_range'_1.mp hk
      exact hcounts k (by omega) (by omega))
  rw [eliminateAll_eq s grow (h.rest_nodup n) hself] at hzero ⊢
  refine ⟨h.consistent, h.pivots_lt, h.pivots_inj, ?_, hzero⟩
  refine h.factors.eliminate hpivot (fun k hk => ?_) fun k hk hlt => ?_
  · exact if_neg fun hmem => absurd ((h.mem_rest (by omega)).mp hmem) (by omega)
  · dsimp only
    rw [if_pos ((h.mem_rest hk).mpr hlt)]
    exact ⟨fun c hc => eliminated_before hc, eliminated_at, fun c hc hnc =>
      eliminated_after (h.zero _ (h.pivots_lt n hrows) c hc) hnc⟩

/-- A row from position `j` on takes the position of the next pivot. -/
theorem usePivot_pivots (s : RecoveryMatrixState) (n j k : Nat) :
    (s.usePivot n j).pivots k =
      if k = j then s.pivots n else if k = n then s.pivots j else s.pivots k := by
  unfold usePivot
  dsimp only
  by_cases hj : k = j
  · rw [if_pos hj, hj, Function.update_self]
  · rw [if_neg hj, Function.update_of_ne hj]
    by_cases hn : k = n
    · rw [if_pos hn, hn, Function.update_self]
    · rw [if_neg hn, Function.update_of_ne hn]

theorem Progress.usePivot (h : s.Progress n) {j : Nat} (hnj : n ≤ j) (hj : j < s.rows.length) :
    (s.usePivot n j).Progress n := by
  have hpivots := s.usePivot_pivots n j
  refine ⟨h.consistent, fun k hk => ?_, fun k hk k' hk' heq => ?_, ?_, h.zero⟩
  · rw [hpivots]
    have hlt := h.pivots_lt
    split
    · exact hlt n (by omega)
    · split
      · exact hlt j hj
      · exact hlt k hk
  · have hinj := h.pivots_inj
    have hn : n < s.rows.length := by omega
    have hk : k < s.rows.length := hk
    have hk' : k' < s.rows.length := hk'
    rw [hpivots, hpivots] at heq
    split_ifs at heq
    all_goals
      have hsame := hinj _ (by omega) _ (by omega) heq
      omega
  · refine h.factors.permute (fun p hp => ?_) fun k hk hge => ?_
    · rw [hpivots, if_neg (by omega), if_neg (by omega)]
    · by_cases hkj : k = j
      · exact ⟨n, by omega, le_rfl, by rw [hpivots, if_pos hkj]⟩
      · by_cases hkn : k = n
        · exact ⟨j, hj, hnj, by rw [hpivots, if_neg hkj, if_pos hkn]⟩
        · exact ⟨k, hk, hge, by rw [hpivots, if_neg hkj, if_neg hkn]⟩

theorem Uses.usePivot (h : s.Uses n) (hs : s.Progress n) {j : Nat} (hnj : n ≤ j)
    (hj : j < s.rows.length) : (s.usePivot n j).Uses (n + 1) := by
  intro k hk
  have hk : k < s.rows.length := hk
  have hp := hs.usePivot hnj hj
  have hat : (s.usePivot n j).pivots n = s.pivots j := by
    rw [usePivot_pivots]
    split
    next heq => rw [heq]
    · rw [if_pos rfl]
  show Function.update s.usedForSolution (s.pivots j) true _ = true ↔ _
  by_cases hkn : k = n
  · rw [hkn, hat, Function.update_self]
    simp
  · rw [Function.update_of_ne fun heq => hkn (hp.pivots_inj k hk n (by omega : n < s.rows.length)
      (heq.trans hat.symm))]
    rw [usePivot_pivots, if_neg hkn]
    split
    next hkj =>
      subst hkj
      rw [h n (by omega)]
      omega
    · rw [h k hk]
      omega

theorem Uses.eliminateAll (h : s.Uses n) (grow : Bool) (pivotI rowI : Nat) (rowKs : List Nat) :
    (s.eliminateAll grow pivotI rowI rowKs).Uses n := by
  simpa [Uses] using h

/-- The last pivot need not eliminate anything. -/
theorem Progress.solved (h : s.Progress n) (huses : s.Uses (n + 1))
    (hn : n + 1 = s.columns.length) (hrows : n < s.rows.length)
    (hpivot : s.matrix (s.pivots n) n ≠ 0) : s.Solved := by
  refine ⟨h.consistent, by omega, h.pivots_lt, h.pivots_inj, ⟨fun p hp => ?_, fun k hk => ?_⟩,
    hn ▸ huses⟩
  · rcases Nat.lt_succ_iff_lt_or_eq.mp (hn ▸ hp) with hlt | rfl
    · exact h.factors.pivot p hlt
    · exact hpivot
  · have hreduced := h.factors.reduced k (by omega)
    rw [Nat.min_eq_left (by omega)] at hreduced ⊢
    exact hreduced

/-! ## The loops -/

/-- What an attempt ends with. -/
def Ends (columns : List ColumnInfo) (rows : List RecoveryPacket) (x : Bool × RecoveryMatrixState) :
    Prop :=
  x.2.columns = columns ∧ x.2.rows = rows ∧ (x.1 = true → x.2.Solved) ∧ (x.1 = false → x.2.Stuck)

theorem findPivot_some {j j' : Nat} (h : s.findPivot n j = some j') :
    j ≤ j' ∧ j' < s.rows.length ∧ s.matrix (s.pivots j') n ≠ 0 := by
  have hmem := List.mem_range'_1.mp (List.mem_of_find?_eq_some h)
  have hsome := List.find?_some h
  rw [decide_eq_true_eq] at hsome
  exact ⟨hmem.1, by omega, hsome⟩

theorem findPivot_none {j : Nat} (h : s.findPivot n j = none) :
    ∀ k < s.rows.length, j ≤ k → s.matrix (s.pivots k) n = 0 := by
  intro k hk hle
  have hnone := List.find?_eq_none.mp h k (List.mem_range'_1.mpr (by omega))
  simpa using hnone

/-- **The loop with pivots.** It may skip positions whose rows do not have the pivot. -/
theorem Progress.pivotedLoop (h : s.Progress n) (huses : s.Uses n) {m j : Nat}
    (hcols : n + m = s.columns.length) (hrows : s.columns.length ≤ s.rows.length) (hnj : n ≤ j)
    (hskip : ∀ k < s.rows.length, n ≤ k → k < j → s.matrix (s.pivots k) n = 0)
    (hfresh : n = 0 → ∀ k, ∀ (hk : k < s.rows.length),
      s.pivots k = k ∧ s.matrixColumnCount k = (s.rows[k]).lostCount) :
    Ends s.columns s.rows (s.pivotedLoop m n j) := by
  induction m generalizing s n j with
  | zero =>
      rw [RecoveryMatrixState.pivotedLoop]
      obtain rfl : n = s.columns.length := by omega
      refine ⟨rfl, rfl, fun _ => ⟨h.consistent, hrows, h.pivots_lt, h.pivots_inj,
        ⟨h.factors.pivot, fun k hk => ?_⟩, huses⟩, fun hfalse => by cases hfalse⟩
      exact h.factors.reduced k (lt_of_lt_of_le hk hrows)
  | succ m ih =>
      rw [RecoveryMatrixState.pivotedLoop]
      cases hfind : s.findPivot n j with
      | none =>
          have hnone := findPivot_none hfind
          refine ⟨rfl, rfl, fun htrue => (by cases htrue), fun _ => ⟨⟨h.consistent, h.pivots_lt,
            h.pivots_inj, h.factors, h.zero⟩, huses, ?_, fun k hk hle => ?_, hfresh⟩⟩
          · show n < s.columns.length
            omega
          · rcases Nat.lt_or_ge k j with hlt | hge
            · exact hskip k hk hle hlt
            · exact hnone k hk hge
      | some j' =>
          obtain ⟨hjj', hj', hpivot⟩ := findPivot_some hfind
          have hp := h.usePivot (hnj.trans hjj') hj'
          have hu := huses.usePivot h (hnj.trans hjj') hj'
          have hn : n < s.rows.length := by omega
          have hat : (s.usePivot n j').pivots n = s.pivots j' := by
            rw [usePivot_pivots]
            split
            next heq => rw [heq]
            · rw [if_pos rfl]
          have hdiag : (s.usePivot n j').matrix ((s.usePivot n j').pivots n) n ≠ 0 := by
            rw [hat]
            exact hpivot
          dsimp only
          split
          next hlast =>
            have hlast : s.columns.length - 1 ≤ n := hlast
            exact ⟨rfl, rfl, fun _ => hp.solved hu (by show n + 1 = s.columns.length; omega) hn
              hdiag, fun hfalse => by cases hfalse⟩
          next hmore =>
            have hmore : ¬s.columns.length - 1 ≤ n := hmore
            have hnext := hp.eliminate true (by show n < s.columns.length; omega) hn hdiag (.inl rfl)
            have hunext := hu.eliminateAll true n ((s.usePivot n j').pivots n)
              ((s.usePivot n j').rest n)
            have hcolumns : (s.usePivot n j').columns = s.columns := rfl
            have hrows' : (s.usePivot n j').rows = s.rows := rfl
            have hdone := ih hnext hunext (by rw [eliminateAll_columns, hcolumns]; omega)
              (by rw [eliminateAll_columns, eliminateAll_rows]; exact hrows) (le_refl (n + 1))
              (fun k _ hge hlt => by omega) (fun hzero => by omega)
            rwa [eliminateAll_columns, eliminateAll_rows] at hdone

/-- **The loop without pivots.** The rows are in the order of their counts, so that no row has
a smaller count than a row before it. -/
theorem Progress.gaussianLoop (h : s.Progress n) (huses : s.Uses n) {m : Nat}
    (hcols : n + m = s.columns.length) (hrows : s.columns.length ≤ s.rows.length)
    (hfresh : ∀ k, ∀ (hk : k < s.rows.length),
      s.pivots k = k ∧ s.matrixColumnCount k = (s.rows[k]).lostCount) :
    Ends s.columns s.rows (s.gaussianLoop m n) := by
  induction m generalizing s n with
  | zero =>
      obtain rfl : n = s.columns.length := by omega
      exact ⟨rfl, rfl, fun _ => ⟨h.consistent, hrows, h.pivots_lt, h.pivots_inj,
        ⟨h.factors.pivot, fun k hk => h.factors.reduced k (lt_of_lt_of_le hk hrows)⟩, huses⟩,
        fun hfalse => by cases hfalse⟩
  | succ m ih =>
      have hn : n < s.rows.length := by omega
      have hself := (hfresh n hn).1
      rw [RecoveryMatrixState.gaussianLoop]
      by_cases hzero : s.matrix n n = 0
      · rw [if_pos hzero]
        refine h.pivotedLoop huses (by omega) hrows (Nat.le_succ n) (fun k hk hge hlt => ?_)
          (fun _ => hfresh)
        obtain rfl : k = n := by omega
        rw [hself]
        exact hzero
      · rw [if_neg hzero]
        generalize hs' : ({ s with usedForSolution := Function.update s.usedForSolution n true } :
          RecoveryMatrixState) = s'
        have hp : s'.Progress n := by
          rw [← hs']
          exact ⟨h.consistent, h.pivots_lt, h.pivots_inj, h.factors, h.zero⟩
        have hu : s'.Uses (n + 1) := by
          rw [← hs']
          intro k hk
          have hk : k < s.rows.length := hk
          show Function.update s.usedForSolution n true (s.pivots k) = true ↔ _
          have hold := huses k hk
          rw [(hfresh k hk).1] at hold ⊢
          by_cases hkn : k = n
          · simp [hkn]
          · rw [Function.update_of_ne hkn, hold]
            omega
        have hcolumns : s'.columns = s.columns := by rw [← hs']
        have hrows' : s'.rows = s.rows := by rw [← hs']
        have hfresh' : ∀ k, ∀ (hk : k < s'.rows.length),
            s'.pivots k = k ∧ s'.matrixColumnCount k = (s'.rows[k]).lostCount := by
          rw [← hs']
          exact hfresh
        have hrest : s'.rest n = List.range' (n + 1) (s'.rows.length - (n + 1)) := by
          refine (List.map_congr_left fun k hk => ?_).trans (List.map_id' _)
          have hk := List.mem_range'_1.mp hk
          exact (hfresh' k (by omega)).1
        have hself' : s'.pivots n = n := (hfresh' n (hrows' ▸ hn)).1
        have hnext := hp.eliminate false (hcolumns ▸ (by omega)) (hrows' ▸ hn)
          (by rw [hself', ← hs']; exact hzero) (.inr fun k hk hlt => by
            rw [hself', (hfresh' k hk).1, (hfresh' n (by omega)).2, (hfresh' k hk).2]
            exact List.pairwise_iff_getElem.mp hp.consistent.sorted n k _ _ hlt)
        have hunext := hu.eliminateAll false n (s'.pivots n) (s'.rest n)
        rw [hself', hrest] at hnext hunext
        have hcounts : (s'.eliminateAll false n n
            (List.range' (n + 1) (s'.rows.length - (n + 1)))).matrixColumnCount =
              s'.matrixColumnCount := by
          rw [eliminateAll_eq s' false List.nodup_range' fun hmem => by
            have hmem := List.mem_range'_1.mp hmem
            omega]
          simp
        have hdone := ih hnext hunext (by rw [eliminateAll_columns, hcolumns]; omega)
          (by rw [eliminateAll_columns, eliminateAll_rows, hcolumns, hrows']; exact hrows)
          (fun k hk => by
            rw [eliminateAll_rows] at hk
            simpa only [eliminateAll_pivots, eliminateAll_rows, hcounts] using hfresh' k hk)
        rw [eliminateAll_columns, eliminateAll_rows, hcolumns, hrows'] at hdone
        show Ends _ _ ((s'.eliminateAll false n n
          (List.range' (n + 1) (s'.rows.length - (n + 1)))).gaussianLoop m (n + 1))
        rw [hrows']
        exact hdone

/-- **An attempt succeeds or gets stuck.** -/
theorem Ready.gaussianElimination (h : s.Ready) (hrows : s.columns.length ≤ s.rows.length) :
    Ends s.columns s.rows s.gaussianElimination := by
  unfold RecoveryMatrixState.gaussianElimination
  by_cases hresume : 0 < s.geResumePivot
  · rw [if_pos hresume]
    obtain ⟨hlt, hzero⟩ := h.resumes hresume
    refine h.progress.pivotedLoop h.uses (by omega) hrows (Nat.le_succ _)
      (fun k hk hge hlt => ?_) (fun hfresh => by omega)
    obtain rfl : k = s.geResumePivot := by omega
    exact hzero
  · rw [if_neg hresume]
    have hstart : s.geResumePivot = 0 := by omega
    have hp := h.progress
    have hu := h.uses
    rw [hstart] at hp hu
    exact hp.gaussianLoop hu (by omega) hrows (h.fresh hstart)

/-! ## Adding rows and columns -/

section grow

variable {columns : List ColumnInfo} {rows : List RecoveryPacket}

/-- Rows that were there have none of the new columns, and new rows are filled in. -/
theorem filled_matrix (hs : Consistent s.columns s.rows) (h : Consistent columns rows)
    (hrows : s.rows <+: rows) {i c : Nat} (hi : i < rows.length)
    (hc : c < columns.length) : (s.filled columns rows).matrix i c =
      if i < s.rows.length then if c < s.columns.length then s.matrix i c else 0
      else coefficients columns rows i c := by
  have hordered := h.ordered rows[i] (List.getElem_mem hi)
  have hfill := (rows[i]).fillRow_spec hordered h.nodup
  rw [coefficients_eq hi hc]
  unfold filled
  dsimp only
  rw [List.getElem?_eq_getElem hi]
  dsimp only
  by_cases hold : i < s.rows.length
  · rw [if_pos hold, if_pos hold]
    have hzero : s.columns.length ≤ c → (rows[i]).coefficient columns[c] = 0 := by
      intro hle
      rw [← coefficients_eq hi hc]
      refine h.outside i c hi (le_trans ?_ hle)
      rw [← hrows.getElem hold]
      exact hs.bounded _ (List.getElem_mem hold)
    by_cases hmore : columns.length ≤ s.columns.length
    · rw [if_pos hmore, if_neg (by omega), if_pos (by omega)]
    · rw [if_neg hmore, if_pos (Nat.zero_le i), hfill _ _ hc]
      by_cases hcold : c < s.columns.length
      · rw [if_neg (by omega), if_pos hcold]
      · rw [if_pos (by omega), if_neg hcold, hzero (by omega)]
  · rw [if_neg hold, if_neg hold]
    split
    · rw [if_pos (by omega), hfill _ _ hc, if_pos (Nat.zero_le c)]
    · rw [if_pos (Nat.zero_le i), hfill _ _ hc, if_pos (Nat.zero_le c)]

theorem filled_matrixColumnCount {i : Nat} (hi : i < rows.length) :
    (s.filled columns rows).matrixColumnCount i =
      if s.rows.length ≤ i then (rows[i]).lostCount else s.matrixColumnCount i := by
  simp [filled, hi]

theorem Ready.zeroBeyond_filled (hs : s.Ready) (h : Consistent columns rows)
    (hrows : s.rows <+: rows) :
    (s.filled columns rows).ZeroBeyond := by
  intro i hi c hc hle
  have hi : i < rows.length := hi
  have hc : c < columns.length := hc
  rw [filled_matrixColumnCount hi] at hle
  rw [filled_matrix hs.progress.consistent h hrows hi hc]
  by_cases hold : i < s.rows.length
  · rw [if_neg (by omega)] at hle
    rw [if_pos hold]
    split
    next hcold => exact hs.progress.zero i hold c hcold hle
    · rfl
  · rw [if_pos (by omega)] at hle
    rw [if_neg hold]
    exact h.outside i c hi hle

theorem Ready.pivots_filled (hs : s.Ready) (hrows : s.rows <+: rows)
    (columns : List ColumnInfo) :
    (∀ k < rows.length, (s.filled columns rows).pivots k < rows.length) ∧
    ∀ k < rows.length, ∀ k' < rows.length,
      (s.filled columns rows).pivots k = (s.filled columns rows).pivots k' → k = k' := by
  have hlt := hs.progress.pivots_lt
  have hinj := hs.progress.pivots_inj
  have hle := hrows.length_le
  constructor
  · intro k hk
    show (if _ then _ else _) < _
    split
    · exact hk
    · exact lt_of_lt_of_le (hlt k (by omega)) hle
  · intro k hk k' hk' heq
    have heq : (if s.rows.length ≤ k then k else s.pivots k) =
        if s.rows.length ≤ k' then k' else s.pivots k' := heq
    split_ifs at heq with hge hge' hge'
    · exact heq
    · have := hlt k' (by omega)
      omega
    · have := hlt k (by omega)
      omega
    · exact hinj k (by omega) k' (by omega) heq

theorem Uses.filled (hu : s.Uses n) (hs : s.Ready) (hn : n ≤ s.rows.length) :
    ∀ k < rows.length, (s.filled columns rows).usedForSolution ((s.filled columns rows).pivots k)
      = true ↔ k < n := by
  intro k hk
  show (if s.rows.length ≤ (if s.rows.length ≤ k then k else s.pivots k) then false
    else s.usedForSolution (if s.rows.length ≤ k then k else s.pivots k)) = true ↔ _
  by_cases hold : s.rows.length ≤ k
  · rw [if_pos hold, if_pos hold]
    simp
    omega
  · have hlt := hs.progress.pivots_lt k (by omega)
    rw [if_neg hold, if_neg (by omega)]
    exact hu k (by omega)

/-- New rows while they are reduced by the pivots that there are, of which `p` are done. -/
structure Resuming (s : RecoveryMatrixState) (columns : List ColumnInfo)
    (rows : List RecoveryPacket) (p : Nat) (t : RecoveryMatrixState) : Prop where
  frame : ∃ matrix matrixColumnCount, t = { s.filled columns rows with
    matrix := matrix, matrixColumnCount := matrixColumnCount }
  old : ∀ i < s.rows.length, t.matrix i = (s.filled columns rows).matrix i
  new : ∀ i < rows.length, s.rows.length ≤ i →
    Reduced (upper (s.filled columns rows).matrix (s.filled columns rows).pivots) columns.length
      (coefficients columns rows i) (t.matrix i) p
  zero : t.ZeroBeyond

theorem Resuming.step {p : Nat} (h : Resuming s columns rows p t) (hs : s.Ready)
    (hc : Consistent columns rows) (hcolumns : s.columns <+: columns) (hrows : s.rows <+: rows)
    (hp : p < s.geResumePivot) (hle : s.columns.length ≤ s.rows.length) :
    Resuming s columns rows (p + 1)
      (t.eliminateAll true p (t.pivots p)
        (List.range' s.rows.length (t.rows.length - s.rows.length))) := by
  obtain ⟨hcols, -⟩ := hs.resumes (by omega)
  have hcle := hcolumns.length_le
  have hrle := hrows.length_le
  have hprows : p < s.rows.length := by omega
  -- the row of the pivot is one of the old rows
  have hrow := hs.progress.pivots_lt p hprows
  have hat : (s.filled columns rows).pivots p = s.pivots p := if_neg (by omega)
  have hpivot : (s.filled columns rows).matrix (s.pivots p) p ≠ 0 := by
    rw [filled_matrix hs.progress.consistent hc hrows (by omega) (by omega), if_pos hrow,
      if_pos (by omega)]
    exact hs.progress.factors.pivot p hp
  have htrows : t.rows = rows ∧ t.columns = columns ∧
      t.pivots = (s.filled columns rows).pivots := by
    obtain ⟨_, _, rfl⟩ := h.frame
    exact ⟨rfl, rfl, rfl⟩
  rw [htrows.1, htrows.2.2, hat]
  have hself : s.pivots p ∉ List.range' s.rows.length (rows.length - s.rows.length) := by
    intro hmem
    have hmem := List.mem_range'_1.mp hmem
    omega
  have hzero := h.zero.eliminateAll true (by rw [htrows.2.1]; omega : p < t.columns.length)
    (by rw [htrows.1]; omega : s.pivots p < t.rows.length) (by rw [h.old _ hrow]; exact hpivot)
    List.nodup_range' hself (.inl rfl)
  refine ⟨?_, fun i hi => ?_, fun i hi hge => ?_, hzero⟩
  · obtain ⟨matrix, matrixColumnCount, ht⟩ := h.frame
    obtain ⟨matrix', matrixColumnCount', ht'⟩ := t.eliminateAll_frame true p (s.pivots p)
      (List.range' s.rows.length (rows.length - s.rows.length))
    exact ⟨matrix', matrixColumnCount', by rw [ht', ht]⟩
  · rw [eliminateAll_eq t true List.nodup_range' hself]
    dsimp only
    rw [if_neg fun hmem => by have hmem := List.mem_range'_1.mp hmem; omega]
    exact h.old i hi
  · have hmem : i ∈ List.range' s.rows.length (rows.length - s.rows.length) :=
      List.mem_range'_1.mpr (by omega)
    have hupper : ∀ c, p ≤ c → upper (s.filled columns rows).matrix
        (s.filled columns rows).pivots p c = t.matrix (s.pivots p) c := by
      intro c hc
      rw [upper, if_pos hc, hat, h.old _ hrow]
    rw [eliminateAll_eq t true List.nodup_range' hself]
    dsimp only
    rw [if_pos hmem]
    refine (h.new i hi hge).eliminate ?_ (fun c hlt => if_neg (by omega))
      (fun c hlt => eliminated_before hlt) ?_ fun c hlt hpc => ?_
    · rw [hupper p le_rfl, h.old _ hrow]
      exact hpivot
    · rw [hupper p le_rfl]
      exact eliminated_at
    · rw [hupper p le_rfl, hupper c hpc.le]
      refine eliminated_after (fun hcount => ?_) hpc
      exact h.zero _ (by rw [htrows.1]; omega) c (by rw [htrows.2.1]; exact hlt) hcount

/-- `ResumeGE` reduces the new rows by all pivots that there are. -/
theorem Ready.resumeGE (hs : s.Ready) (hc : Consistent columns rows)
    (hcolumns : s.columns <+: columns) (hrows : s.rows <+: rows)
    (hle : s.columns.length ≤ s.rows.length) :
    Resuming s columns rows s.geResumePivot
      ((s.filled columns rows).resumeGE s.rows.length) := by
  have hloop : ∀ p ≤ s.geResumePivot, Resuming s columns rows p
      ((List.range p).foldl (fun t pivotI => t.eliminateAll true pivotI (t.pivots pivotI)
        (List.range' s.rows.length (t.rows.length - s.rows.length))) (s.filled columns rows)) := by
    intro p hp
    induction p with
    | zero =>
        refine ⟨⟨_, _, rfl⟩, fun _ _ => rfl, fun i hi hge => ?_,
          hs.zeroBeyond_filled hc hrows⟩
        intro c hlt
        show _ = _ + (s.filled columns rows).matrix i c
        rw [filled_matrix hs.progress.consistent hc hrows hi hlt, if_neg (by omega)]
        simp
    | succ p ih =>
        rw [List.range_succ, List.foldl_append]
        exact (ih (by omega)).step hs hc hcolumns hrows (by omega) hle
  exact hloop s.geResumePivot le_rfl

/-- **Rows and columns may be added at any time.** -/
theorem Ready.fillMatrix (hs : s.Ready) (hc : Consistent columns rows)
    (hcolumns : s.columns <+: columns) (hrows : s.rows <+: rows)
    (hle : s.columns.length ≤ s.rows.length) : (s.fillMatrix columns rows).Ready ∧
      (s.fillMatrix columns rows).columns = columns ∧ (s.fillMatrix columns rows).rows = rows := by
  have hcle := hcolumns.length_le
  have hrle := hrows.length_le
  obtain ⟨hlt, hinj⟩ := hs.pivots_filled hrows columns
  have hmatrix : ∀ i < rows.length, ∀ c < columns.length, (s.filled columns rows).matrix i c =
      if i < s.rows.length then if c < s.columns.length then s.matrix i c else 0
      else coefficients columns rows i c :=
    fun i hi c hlt => filled_matrix hs.progress.consistent hc hrows hi hlt
  have hpivots : ∀ k < s.rows.length, (s.filled columns rows).pivots k = s.pivots k := by
    intro k hk
    exact if_neg (by omega)
  have hcoefficients : ∀ i < s.rows.length, ∀ c < columns.length, coefficients columns rows i c =
      if c < s.columns.length then coefficients s.columns s.rows i c else 0 := by
    intro i hi c hclt
    split
    next hcold => exact coefficients_prefix hcolumns hrows hi hcold
    next hnew =>
      refine hc.outside i c (by omega) (le_trans ?_ (not_lt.mp hnew))
      rw [← hrows.getElem hi]
      exact hs.progress.consistent.bounded _ (List.getElem_mem hi)
  have hlt' := hs.progress.pivots_lt
  have huses : s.geResumePivot ≤ s.rows.length → ∀ k < rows.length,
      (s.filled columns rows).usedForSolution ((s.filled columns rows).pivots k) = true ↔
        k < s.geResumePivot := hs.uses.filled hs
  unfold RecoveryMatrixState.fillMatrix
  by_cases hresume : 0 < s.geResumePivot
  · rw [if_pos hresume]
    have hdone := hs.resumeGE hc hcolumns hrows hle
    generalize (s.filled columns rows).resumeGE s.rows.length = t at hdone
    obtain ⟨hge, hstuck⟩ := hs.resumes hresume
    have hold : ∀ k < s.rows.length, ∀ c < columns.length, t.matrix (s.pivots k) c =
        if c < s.columns.length then s.matrix (s.pivots k) c else 0 := by
      intro k hk c hclt
      rw [hdone.old _ (hlt' k hk), hmatrix _ (lt_of_lt_of_le (hlt' k hk) hrle) c hclt,
        if_pos (hlt' k hk)]
    have hnew := hdone.new
    have hzero := hdone.zero
    have holdrows := hdone.old
    obtain ⟨matrix, matrixColumnCount, rfl⟩ := hdone.frame
    dsimp only at hold hnew holdrows
    have hfactors : Factors (coefficients columns rows) matrix (s.filled columns rows).pivots
        s.geResumePivot rows.length columns.length := by
      refine hs.progress.factors.grow (fun k hk c hge hclt => ?_) (fun k hk c hclt => ?_) hpivots
        (by omega) hge.le fun k hk hge => ?_
      · rw [hcoefficients _ (hlt' k hk) c hclt, hold k hk c hclt, if_neg (by omega),
          if_neg (by omega)]
        exact ⟨rfl, rfl⟩
      · rw [hcoefficients _ (hlt' k hk) c (by omega), hold k hk c (by omega), if_pos hclt,
          if_pos hclt]
        exact ⟨rfl, rfl⟩
      · have hself : (s.filled columns rows).pivots k = k := if_pos hge
        rw [hself]
        refine (hnew k hk hge).congr fun p hp c hclt => ?_
        rw [upper, upper, hpivots p (by omega), holdrows _ (hlt' p (by omega))]
    refine ⟨⟨⟨hc, hlt, hinj, hfactors, hzero⟩, huses (by omega), fun _ => ⟨?_, ?_⟩,
      fun hfresh => absurd hfresh (by show s.geResumePivot ≠ 0; omega)⟩, rfl, rfl⟩
    · show s.geResumePivot < columns.length
      omega
    · show matrix ((s.filled columns rows).pivots s.geResumePivot) s.geResumePivot = 0
      rw [hpivots _ (by omega), hold _ (by omega) _ (by omega), if_pos hge]
      exact hstuck
  · rw [if_neg hresume]
    have hstart : s.geResumePivot = 0 := by omega
    have hfresh := hs.fresh hstart
    have hself : ∀ k, (hk : k < rows.length) → (s.filled columns rows).pivots k = k := by
      intro k hk
      by_cases hold : k < s.rows.length
      · rw [hpivots k hold]
        exact (hfresh k hold).1
      · exact if_pos (by omega)
    have hfactors : Factors (coefficients columns rows) (s.filled columns rows).matrix
        (s.filled columns rows).pivots s.geResumePivot rows.length columns.length := by
      rw [hstart]
      refine ⟨fun p hp => absurd hp (Nat.not_lt_zero p), fun k hk c hclt => ?_⟩
      rw [hself k hk, Nat.min_zero, range_zero, sum_empty, zero_add, if_pos (Nat.zero_le c),
        hmatrix k hk c hclt]
      by_cases hold : k < s.rows.length
      · rw [if_pos hold, hcoefficients k hold c hclt]
        have hreduced := hs.progress.factors.reduced k hold
        rw [(hfresh k hold).1, hstart, Nat.min_zero] at hreduced
        split
        next hcold => simpa using hreduced c hcold
        · rfl
      · rw [if_neg hold]
    refine ⟨⟨⟨hc, hlt, hinj, hfactors, hs.zeroBeyond_filled hc hrows⟩, huses (by omega),
      fun hpos => absurd hpos hresume, fun _ k hk => ⟨hself k hk, ?_⟩⟩, rfl, rfl⟩
    · have hk : k < rows.length := hk
      rw [filled_matrixColumnCount hk]
      split
      · rfl
      next hold =>
        rw [(hfresh k (by omega)).2]
        exact congrArg _ (hrows.getElem (by omega))

end grow

/-! ## Attempts -/

theorem ready_init : ({} : RecoveryMatrixState).Ready where
  progress := {
    consistent := ⟨List.nodup_nil, by simp, List.Pairwise.nil, by simp, by simp⟩
    pivots_lt := by simp
    pivots_inj := by simp
    factors := ⟨by simp, by simp⟩
    zero := by simp [ZeroBeyond] }
  uses := by simp [Uses]
  resumes := by simp
  fresh := by simp

theorem Stuck.ready (h : s.Stuck) (hrows : s.columns.length ≤ s.rows.length) : s.Ready where
  progress := h.progress
  uses := h.uses
  resumes _ := ⟨h.lt, h.zero _ (lt_of_lt_of_le h.lt hrows) le_rfl⟩
  fresh := h.fresh

/-- `GenerateMatrix` and `GaussianElimination`. -/
def attempt (s : RecoveryMatrixState) (columns : List ColumnInfo) (rows : List RecoveryPacket) :
    Bool × RecoveryMatrixState :=
  (s.fillMatrix columns rows).gaussianElimination

/-- The columns and rows of an attempt: those of the last one, and maybe more. -/
structure Extends (s : RecoveryMatrixState) (columns : List ColumnInfo)
    (rows : List RecoveryPacket) : Prop where
  oldColumns : s.columns <+: columns
  oldRows : s.rows <+: rows
  consistent : Consistent columns rows
  enough : columns.length ≤ rows.length

/-- An attempt that fails. -/
def Fails (s : RecoveryMatrixState) (x : List ColumnInfo × List RecoveryPacket)
    (t : RecoveryMatrixState) : Prop :=
  s.Extends x.1 x.2 ∧ s.attempt x.1 x.2 = (false, t)

theorem Ready.attempt {columns : List ColumnInfo} {rows : List RecoveryPacket} (h : s.Ready)
    (hle : s.columns.length ≤ s.rows.length) (hx : s.Extends columns rows) :
    Ends columns rows (s.attempt columns rows) := by
  obtain ⟨hready, hcolumns, hrows⟩ := h.fillMatrix hx.consistent hx.oldColumns hx.oldRows hle
  have hdone := hready.gaussianElimination (by rw [hcolumns, hrows]; exact hx.enough)
  rwa [hcolumns, hrows] at hdone

/-- After attempts that failed, the next one may begin. -/
theorem ready_of_fails {xs : List (List ColumnInfo × List RecoveryPacket)}
    (h : Run Fails {} xs s) : s.Ready ∧ s.columns.length ≤ s.rows.length := by
  refine h.invariant (I := fun s => s.Ready ∧ s.columns.length ≤ s.rows.length)
    (fun s x t hs hfails => ?_) ⟨ready_init, le_rfl⟩
  obtain ⟨hx, hattempt⟩ := hfails
  have hends := hs.1.attempt hs.2 hx
  rw [hattempt] at hends
  obtain ⟨hcolumns, hrows, -, hstuck⟩ := hends
  have hle : t.columns.length ≤ t.rows.length := by
    rw [hcolumns, hrows]
    exact hx.enough
  exact ⟨(hstuck rfl).ready hle, hle⟩

/-- The rows determine what is in the columns. -/
def Determined (columns : List ColumnInfo) (rows : List RecoveryPacket) : Prop :=
  ∀ x : Nat → Gf256,
    (∀ i < rows.length, ∑ c ∈ range columns.length, coefficients columns rows i c * x c = 0) →
    ∀ c < columns.length, x c = 0

theorem Solved.determined (h : s.Solved) : Determined s.columns s.rows := by
  intro x hx
  refine h.factors.eq_zero fun k hk => ?_
  exact hx _ (h.pivots_lt k (lt_of_lt_of_le hk h.le))

theorem Stuck.not_determined (h : s.Stuck) : ¬Determined s.columns s.rows := by
  obtain ⟨z, hone, -, hz⟩ := h.progress.factors.kernel h.lt h.zero
  -- every row is at some position
  have hsurj : ∀ i < s.rows.length, ∃ k < s.rows.length, s.pivots k = i := by
    intro i hi
    have hmaps : Set.MapsTo s.pivots (Finset.range s.rows.length) (Finset.range s.rows.length) :=
      fun k hk => by simpa using h.progress.pivots_lt k (by simpa using hk)
    have hinj : Set.InjOn s.pivots (Finset.range s.rows.length) := fun k hk k' hk' heq =>
      h.progress.pivots_inj k (by simpa using hk) k' (by simpa using hk') heq
    obtain ⟨k, hk, heq⟩ := Finset.surjOn_of_injOn_of_card_le s.pivots hmaps hinj le_rfl
      (by simpa using hi : i ∈ (Finset.range s.rows.length : Set Nat))
    exact ⟨k, by simpa using hk, heq⟩
  intro hdetermined
  refine one_ne_zero (hone.symm.trans (hdetermined z (fun i hi => ?_) _ h.lt))
  obtain ⟨k, hk, rfl⟩ := hsurj i hi
  exact hz k hk

/-- The solver succeeds exactly if the equations determine the lost packets. -/
theorem succeeds_iff {xs : List (List ColumnInfo × List RecoveryPacket)} (h : Run Fails {} xs s)
    {columns : List ColumnInfo} {rows : List RecoveryPacket} (hx : s.Extends columns rows) :
    (s.attempt columns rows).1 = true ↔ Determined columns rows := by
  obtain ⟨hready, hle⟩ := ready_of_fails h
  obtain ⟨hcolumns, hrows, hsolved, hstuck⟩ := hready.attempt hle hx
  constructor
  · intro htrue
    have hdetermined := (hsolved htrue).determined
    rwa [hcolumns, hrows] at hdetermined
  · intro hdetermined
    by_contra hfalse
    have hnot := (hstuck (by simpa using hfalse)).not_determined
    rw [hcolumns, hrows] at hnot
    exact hnot hdetermined

/-! ## Recovery -/

/-- A buffer is what a row says of the packets in some columns. -/
structure Says (columns : List ColumnInfo) (r : RecoveryPacket) (packet : Nat → Bytes)
    (buffer : Bytes) : Prop where
  sums : vec buffer = (columns.map fun x => r.coefficient x • vec (packet x.element)).sum
  room : ∀ x ∈ columns, r.coefficient x ≠ 0 → (packet x.element).length ≤ buffer.length

theorem sum_map_eq_sum_range {α V : Type} [AddCommMonoid V] (f : α → V) (l : List α) :
    (l.map f).sum = ∑ c ∈ range l.length, (l[c]?.map f).getD 0 := by
  induction l with
  | nil => rfl
  | cons x xs ih =>
      rw [List.map_cons, List.sum_cons, ih, List.length_cons, sum_range_succ', add_comm]
      simp

/-- The columns are those of elements of a window. -/
def InWindow (w : DecoderPacketWindow) (columns : List ColumnInfo) : Prop :=
  ∀ x ∈ columns, w.columnToElement x.column = x.element ∧ x.element < w.count

/-- The loop from the last column to the first recovers the packets of all columns, and finds out
whether the next expected one is among them. -/
theorem substituteColumns_spec {cols n : Nat} {b : Nat → Bytes} {data : Nat → Bytes}
    {packet : Nat → Bytes} {w : DecoderPacketWindow} (hcols : s.columns.length = cols)
    (hwindow : InWindow w s.columns)
    (hpacket : ∀ c x, s.columns[c]? = some x →
      packet c = (DecoderPacketWindow.originalPacket (data x.element)).buffer)
    (hdata : ∀ x ∈ s.columns, data x.element ≠ [] ∧ (data x.element).length ≤ 0x1fffffff)
    (hpivot : ∀ c < cols, s.matrix (s.pivots c) c ≠ 0)
    (hinj : ∀ k < cols, ∀ k' < cols, s.pivots k = s.pivots k' → k = k')
    (h : s.Substituting cols packet n b) (hn : n ≤ cols) :
    s.substituteColumns w n b = some ((s.columns.take n).map fun x =>
        (x.element, DecoderPacketWindow.originalPacket (data x.element)),
      (s.columns.take n).any fun x => decide (x.element = w.nextExpectedElement)) := by
  induction n generalizing b with
  | zero => rw [List.take_zero]; rfl
  | succ n ih =>
      have hlt : n < s.columns.length := by omega
      have hsome : s.columns[n]? = some s.columns[n] := List.getElem?_eq_getElem hlt
      obtain ⟨hnonempty, hlength⟩ := hdata s.columns[n] (List.getElem_mem hlt)
      have hvec : (s.matrix (s.pivots n) n)⁻¹ • vec (b (s.pivots n)) = vec (packet n) := by
        rw [h.sums n (Nat.lt_succ_self n)]
        exact backward_self _ _ _ (hpivot n (by omega))
      have hroom := h.room n (Nat.lt_succ_self n) n (by omega) (by
        rw [upper, if_pos le_rfl]
        exact hpivot n (by omega))
      rw [hpacket n _ hsome] at hvec hroom
      have hreveal := reveal_spec hnonempty hlength hvec hroom
      have hmark : w.markGotColumn s.columns[n].column =
          some (decide (s.columns[n].element = w.nextExpectedElement)) := by
        obtain ⟨helement, hinside⟩ := hwindow _ (List.getElem_mem hlt)
        rw [DecoderPacketWindow.markGotColumn, helement]
        exact if_neg (not_le.mpr hinside)
      rw [substituteColumns, hsome]
      dsimp only
      rw [hreveal, hmark]
      dsimp only
      rw [← hpacket n _ hsome, ih (h.step (by omega) hinj) (by omega)]
      dsimp only
      rw [List.take_add_one, hsome, List.map_append, List.any_append]
      simp

theorem Solved.recovers (h : s.Solved) {w : DecoderPacketWindow} (hwindow : InWindow w s.columns)
    {data : Nat → Bytes} {b : Nat → Bytes}
    (hdata : ∀ x ∈ s.columns, data x.element ≠ [] ∧ (data x.element).length ≤ 0x1fffffff)
    (hholds : ∀ i, ∀ (hi : i < s.rows.length), s.usedForSolution i = true →
      Says s.columns (s.rows[i]) (fun e => (DecoderPacketWindow.originalPacket (data e)).buffer)
        (b i)) :
    s.backSubstitution w (s.multiplyLowerTriangle b) =
      if w.nextExpectedElement ∈ s.columns.map (·.element) then
        some (s.columns.map fun x =>
          (x.element, DecoderPacketWindow.originalPacket (data x.element)))
      else none := by
  have hinj : ∀ k < s.columns.length, ∀ k' < s.columns.length,
      s.pivots k = s.pivots k' → k = k' := fun k hk k' hk' =>
    h.pivots_inj k (lt_of_lt_of_le hk h.le) k' (lt_of_lt_of_le hk' h.le)
  have hrow : ∀ k < s.columns.length, s.pivots k < s.rows.length ∧
      s.usedForSolution (s.pivots k) = true := fun k hk =>
    ⟨h.pivots_lt k (lt_of_lt_of_le hk h.le), (h.uses k (lt_of_lt_of_le hk h.le)).mpr hk⟩
  -- the packet of a column
  let packet (c : Nat) : Bytes := (s.columns[c]?.map fun x =>
    (DecoderPacketWindow.originalPacket (data x.element)).buffer).getD []
  have hpacket : ∀ c x, s.columns[c]? = some x →
      packet c = (DecoderPacketWindow.originalPacket (data x.element)).buffer := by
    intro c x hx
    simp [packet, hx]
  have hforward := forwarded_multiplyLowerTriangle packet (b := b) h.factors rfl hinj
    (fun k hk => ?_) fun k hk c hc hne => ?_
  · have hdone := substituteColumns_spec rfl hwindow hpacket hdata h.factors.pivot hinj
      (hforward.substituting h.factors) le_rfl
    rw [List.take_length] at hdone
    rw [backSubstitution, hdone]
    dsimp only
    refine if_congr ?_ rfl rfl
    simp only [List.any_eq_true, decide_eq_true_eq, List.mem_map]
  · obtain ⟨hlt, hused⟩ := hrow k hk
    rw [(hholds _ hlt hused).sums, sum_map_eq_sum_range]
    refine sum_congr rfl fun c hc => ?_
    have hc := mem_range.mp hc
    rw [coefficients_eq hlt hc, hpacket c _ (List.getElem?_eq_getElem hc)]
    simp [hc]
  · obtain ⟨hlt, hused⟩ := hrow k hk
    rw [coefficients_eq hlt hc] at hne
    rw [hpacket c _ (List.getElem?_eq_getElem hc)]
    exact (hholds _ hlt hused).room _ (List.getElem_mem hc) hne

/-- **The solver succeeds exactly if the equations determine the lost packets**, whatever
attempts failed before with some of the rows and columns, and then it recovers them, each with
its length and its bytes, if the next expected packet is among them. The columns and rows are
in order. Only the rows that the solver uses have to hold what they say. -/
theorem attempt_iff {xs : List (List ColumnInfo × List RecoveryPacket)} (h : Run Fails {} xs s)
    {columns : List ColumnInfo} {rows : List RecoveryPacket} (holdColumns : s.columns <+: columns)
    (holdRows : s.rows <+: rows) (hconsistent : Consistent columns rows)
    (henough : columns.length ≤ rows.length) :
    ((s.attempt columns rows).1 = true ↔ Determined columns rows) ∧
    ∀ t, s.attempt columns rows = (true, t) → ∀ (w : DecoderPacketWindow) (data b : Nat → Bytes),
      InWindow w columns →
      (∀ x ∈ columns, data x.element ≠ [] ∧ (data x.element).length ≤ 0x1fffffff) →
      (∀ i, ∀ (hi : i < rows.length), t.usedForSolution i = true →
        Says columns (rows[i]) (fun e => (DecoderPacketWindow.originalPacket (data e)).buffer)
          (b i)) →
      t.backSubstitution w (t.multiplyLowerTriangle b) =
        if w.nextExpectedElement ∈ columns.map (·.element) then
          some (columns.map fun x =>
            (x.element, DecoderPacketWindow.originalPacket (data x.element)))
        else none := by
  have hx : s.Extends columns rows := ⟨holdColumns, holdRows, hconsistent, henough⟩
  refine ⟨succeeds_iff h hx, fun t ht w data b hwindow hdata hholds => ?_⟩
  obtain ⟨hready, hle⟩ := ready_of_fails h
  obtain ⟨hcolumns, hrows, hsolved, -⟩ := hready.attempt hle hx
  rw [ht] at hcolumns hrows hsolved
  dsimp only at hcolumns hrows
  subst hcolumns hrows
  exact (hsolved rfl).recovers hwindow hdata hholds

/-- Two rows that say the same of two packets do not determine them, and a third row does. -/
theorem attempt_iff_third : ∃ (columns : List ColumnInfo) (rows : List RecoveryPacket),
    (({} : RecoveryMatrixState).attempt columns (rows.take 2)).1 = false ∧
      Determined columns rows := by
  let columns : List ColumnInfo := [⟨1, 1⟩, ⟨4, 4⟩]
  let row (i : Nat) : RecoveryPacket := {
    metadata := { sumCount := 6, ldpcCount := 6, columnStart := 0 }
    row := i
    elementStart := 0
    elementEnd := 6
    lostCount := 2 }
  have hconsistent : ∀ is : List Nat, Consistent columns (is.map row) := by
    intro is
    refine ⟨by decide, fun r hr => ?_, ?_, fun r hr => ?_, fun i c hi hle => ?_⟩
    · obtain ⟨i, -, rfl⟩ := List.mem_map.mp hr
      exact (by decide : columns.Pairwise fun c c' => (row 0).Covers c'.column →
        (row 0).Covers c.column)
    · exact List.pairwise_map.mpr (List.pairwise_of_forall fun _ _ => le_rfl)
    · obtain ⟨i, -, rfl⟩ := List.mem_map.mp hr
      exact le_rfl
    · rw [List.getElem_map] at hle
      have hnone : columns[c]? = none := List.getElem?_eq_none hle
      simp [coefficients, hnone]
  have hfails : Fails {} (columns, [0, 0].map row) _ :=
    ⟨⟨List.nil_prefix, List.nil_prefix, hconsistent _, le_rfl⟩,
      Prod.ext (by decide +kernel : _ = false) rfl⟩
  obtain ⟨hcolumns, hrows, -⟩ := ready_init.attempt le_rfl hfails.1
  exact ⟨columns, [0, 0, 1].map row, by decide +kernel,
    (attempt_iff (.single hfails) (by rw [hcolumns]) (by rw [hrows]; exact ⟨[row 1], rfl⟩)
      (hconsistent _) (by decide)).1.mp (by decide +kernel)⟩

/-- Where a row covers a lost packet and not one that is lost before it, the solver may fail
though the rows determine the packets. `GenerateMatrix` leaves such a row empty. -/
theorem exists_determined_fails : ∃ (columns : List ColumnInfo) (rows : List RecoveryPacket),
    Determined columns rows ∧ (({} : RecoveryMatrixState).attempt columns rows).1 = false := by
  let row (start lostCount : Nat) : RecoveryPacket := {
    metadata := { sumCount := 3, ldpcCount := 3, columnStart := start }
    row := 0
    elementStart := start
    elementEnd := start + 3
    lostCount := lostCount }
  refine ⟨[⟨1, 1⟩, ⟨3, 3⟩], [row 0 1, row 2 2], fun x hx c hc => ?_, by decide +kernel⟩
  have hcoefficients : ∀ i < 2, ∀ c < 2, coefficients [⟨1, 1⟩, ⟨3, 3⟩] [row 0 1, row 2 2] i c =
      if i = c then 1 else 0 := by decide +kernel
  have hzero := hx c hc
  rw [sum_eq_single_of_mem c (mem_range.mpr hc) fun d hd hne => by
    rw [hcoefficients c hc d (mem_range.mp hd), if_neg (Ne.symm hne), zero_mul],
    hcoefficients c hc c hc, if_pos rfl, one_mul] at hzero
  exact hzero

end RecoveryMatrixState

end FecRelay
