import FecRelay.Base.Elimination
import FecRelay.Codec.Rows

/-!
# The solver of the stream codec

`RecoveryMatrixState`: the matrix of the coefficients of the lost packets in the recovery
packets, and the elimination that brings it to triangular form in place. Elimination starts
without an array of pivots, goes on with one at the first zero, and when it gets stuck it
resumes there after rows and columns were added. Rows have a count of columns, after which
they are zero.
-/

namespace FecRelay

open FecRelay.Base FecRelay.Base.Elimination

/-- `RecoveryMatrixState`. What `RowInfo` says of a row is a function of the row each. -/
structure RecoveryMatrixState where
  columns : List ColumnInfo := []
  rows : List RecoveryPacket := []
  usedForSolution : Nat → Bool := fun _ => false
  matrixColumnCount : Nat → Nat := fun _ => 0
  matrix : Nat → Nat → Gf256 := fun _ _ => 0
  pivots : Nat → Nat := fun i => i
  previousNextCheckStart : Nat := 0
  geResumePivot : Nat := 0

namespace RecoveryMatrixState

/-! ## Elimination -/

/-- `EliminateRow`, and `none` where the element is zero already. -/
def eliminateRow (geRow remRow : Nat → Gf256) (pivotI columnEnd : Nat) : Option (Nat → Gf256) :=
  if remRow pivotI = 0 then none
  else
    let y := remRow pivotI / geRow pivotI
    some fun j =>
      if j = pivotI then y
      else if pivotI < j ∧ j < columnEnd then remRow j + y * geRow j
      else remRow j

/-- The body of the loops over the rows that are left: a row is eliminated by the pivot row
`rowI`, and its count of columns grows with it if the loop does that. -/
def eliminateInto (grow : Bool) (pivotI rowI : Nat) (s : RecoveryMatrixState) (rowK : Nat) :
    RecoveryMatrixState :=
  match eliminateRow (s.matrix rowI) (s.matrix rowK) pivotI (s.matrixColumnCount rowI) with
  | none => s
  | some remRow => { s with
      matrix := Function.update s.matrix rowK remRow
      matrixColumnCount :=
        if grow then
          Function.update s.matrixColumnCount rowK
            (max (s.matrixColumnCount rowK) (s.matrixColumnCount rowI))
        else s.matrixColumnCount }

/-- The loop over the rows that are left. -/
def eliminateAll (s : RecoveryMatrixState) (grow : Bool) (pivotI rowI : Nat) (rowKs : List Nat) :
    RecoveryMatrixState :=
  rowKs.foldl (eliminateInto grow pivotI rowI) s

/-- `ResumeGE` -/
def resumeGE (s : RecoveryMatrixState) (oldRows : Nat) : RecoveryMatrixState :=
  (List.range s.geResumePivot).foldl (fun s pivotI =>
    s.eliminateAll true pivotI (s.pivots pivotI)
      (List.range' oldRows (s.rows.length - oldRows))) s

/-- The rows of positions from `pivotJ` on, of which the first that has the pivot is taken. -/
def findPivot (s : RecoveryMatrixState) (pivotI pivotJ : Nat) : Option Nat :=
  (List.range' pivotJ (s.rows.length - pivotJ)).find? fun j => s.matrix (s.pivots j) pivotI ≠ 0

/-- The row of position `pivotJ` becomes the one of the pivot. -/
def usePivot (s : RecoveryMatrixState) (pivotI pivotJ : Nat) : RecoveryMatrixState :=
  { s with
    pivots := Function.update (Function.update s.pivots pivotI (s.pivots pivotJ)) pivotJ
      (s.pivots pivotI)
    usedForSolution := Function.update s.usedForSolution (s.pivots pivotJ) true }

/-- The loop of `PivotedGaussianElimination` over so many columns from `pivotI` on, which
looks for the first pivot from position `pivotJ` on. -/
def pivotedLoop (s : RecoveryMatrixState) : Nat → Nat → Nat → Bool × RecoveryMatrixState
  | 0, _, _ => (true, s)
  | n + 1, pivotI, pivotJ =>
      match s.findPivot pivotI pivotJ with
      | none => (false, { s with geResumePivot := pivotI })
      | some pivotJ =>
          let s := s.usePivot pivotI pivotJ
          if s.columns.length - 1 ≤ pivotI then (true, s)
          else
            pivotedLoop (s.eliminateAll true pivotI (s.pivots pivotI)
              ((List.range' (pivotI + 1) (s.rows.length - (pivotI + 1))).map s.pivots))
              n (pivotI + 1) (pivotI + 1)

/-- `PivotedGaussianElimination`. The row of the pivot itself was found to be zero. -/
def pivotedGaussianElimination (s : RecoveryMatrixState) (pivotI : Nat) :
    Bool × RecoveryMatrixState :=
  s.pivotedLoop (s.columns.length - pivotI) pivotI (pivotI + 1)

/-- The loop of `GaussianElimination` over so many columns from `pivotI` on. -/
def gaussianLoop (s : RecoveryMatrixState) : Nat → Nat → Bool × RecoveryMatrixState
  | 0, _ => (true, s)
  | n + 1, pivotI =>
      if s.matrix pivotI pivotI = 0 then s.pivotedGaussianElimination pivotI
      else
        let s := { s with usedForSolution := Function.update s.usedForSolution pivotI true }
        gaussianLoop (s.eliminateAll false pivotI pivotI
          (List.range' (pivotI + 1) (s.rows.length - (pivotI + 1)))) n (pivotI + 1)

/-- `GaussianElimination` -/
def gaussianElimination (s : RecoveryMatrixState) : Bool × RecoveryMatrixState :=
  if 0 < s.geResumePivot then s.pivotedGaussianElimination s.geResumePivot
  else s.gaussianLoop s.columns.length 0

/-! ## The matrix -/

/-- What `GenerateMatrix` fills in when `PopulateColumns` and `PopulateRows` have added columns
and rows. -/
def filled (s : RecoveryMatrixState) (columns : List ColumnInfo) (rows : List RecoveryPacket) :
    RecoveryMatrixState :=
  let oldRows := s.rows.length
  let oldColumns := s.columns.length
  let startRow := if columns.length ≤ oldColumns then oldRows else 0
  { s with
    columns := columns
    rows := rows
    usedForSolution := fun i => if oldRows ≤ i then false else s.usedForSolution i
    matrixColumnCount := fun i =>
      if oldRows ≤ i then (rows[i]?.map (·.lostCount)).getD 0 else s.matrixColumnCount i
    matrix := fun i =>
      match rows[i]? with
      | none => s.matrix i
      | some r =>
          if startRow ≤ i then r.fillRow columns (if i < oldRows then oldColumns else 0) (s.matrix i)
          else s.matrix i
    pivots := fun i => if oldRows ≤ i then i else s.pivots i }

/-- `GenerateMatrix` with these columns and rows. -/
def fillMatrix (s : RecoveryMatrixState) (columns : List ColumnInfo) (rows : List RecoveryPacket) :
    RecoveryMatrixState :=
  if 0 < s.geResumePivot then (s.filled columns rows).resumeGE s.rows.length
  else s.filled columns rows

/-! ## What a loop over rows does -/

/-- The row that `EliminateRow` leaves. -/
def eliminated (geRow remRow : Nat → Gf256) (pivotI columnEnd : Nat) : Nat → Gf256 :=
  (eliminateRow geRow remRow pivotI columnEnd).getD remRow

section eliminated

variable {geRow remRow : Nat → Gf256} {pivotI columnEnd c : Nat}

theorem eliminated_before (h : c < pivotI) :
    eliminated geRow remRow pivotI columnEnd c = remRow c := by
  unfold eliminated eliminateRow
  split
  · rfl
  · show (if _ then _ else _) = _
    rw [if_neg (by omega), if_neg (by omega)]

theorem eliminated_at :
    eliminated geRow remRow pivotI columnEnd pivotI = remRow pivotI / geRow pivotI := by
  unfold eliminated eliminateRow
  split
  next hzero =>
    rw [hzero, zero_div]
    exact hzero
  · exact if_pos rfl

/-- Where the pivot row is zero from `columnEnd` on, the whole row is eliminated. -/
theorem eliminated_after (hzero : columnEnd ≤ c → geRow c = 0) (h : pivotI < c) :
    eliminated geRow remRow pivotI columnEnd c =
      remRow c - remRow pivotI / geRow pivotI * geRow c := by
  have hsub : ∀ x y : Gf256, x - y = x + y := fun _ _ => rfl
  unfold eliminated eliminateRow
  split
  next hnone => simp [hnone]
  · show (if _ then _ else _) = _
    rw [if_neg (by omega), hsub]
    by_cases hend : c < columnEnd
    · rw [if_pos ⟨h, hend⟩]
    · rw [if_neg fun hc => hend hc.2, hzero (by omega), mul_zero, add_zero]

/-- A row stays zero where it was and the pivot row is. -/
theorem eliminated_eq_zero (hc : pivotI < c) (hge : columnEnd ≤ c) (hrem : remRow c = 0) :
    eliminated geRow remRow pivotI columnEnd c = 0 := by
  unfold eliminated eliminateRow
  split
  · exact hrem
  · show (if _ then _ else _) = _
    rw [if_neg (by omega), if_neg (by omega), hrem]

end eliminated

/-- A loop over different rows that are not the pivot row changes each of them by the pivot
row as it was. -/
theorem eliminateAll_eq (s : RecoveryMatrixState) (grow : Bool) {pivotI rowI : Nat}
    {rowKs : List Nat} (hnodup : rowKs.Nodup) (hrow : rowI ∉ rowKs) :
    s.eliminateAll grow pivotI rowI rowKs = { s with
      matrix := fun i =>
        if i ∈ rowKs then
          eliminated (s.matrix rowI) (s.matrix i) pivotI (s.matrixColumnCount rowI)
        else s.matrix i
      matrixColumnCount := fun i =>
        if grow ∧ i ∈ rowKs ∧ s.matrix i pivotI ≠ 0 then
          max (s.matrixColumnCount i) (s.matrixColumnCount rowI)
        else s.matrixColumnCount i } := by
  induction rowKs generalizing s with
  | nil => simp [eliminateAll]
  | cons k ks ih =>
      obtain ⟨hk, hks⟩ := List.nodup_cons.mp hnodup
      rw [List.mem_cons, not_or] at hrow
      have hstep : s.eliminateAll grow pivotI rowI (k :: ks) =
          (eliminateInto grow pivotI rowI s k).eliminateAll grow pivotI rowI ks := rfl
      have hinto : eliminateInto grow pivotI rowI s k = { s with
          matrix := Function.update s.matrix k
            (eliminated (s.matrix rowI) (s.matrix k) pivotI (s.matrixColumnCount rowI))
          matrixColumnCount :=
            if grow ∧ s.matrix k pivotI ≠ 0 then
              Function.update s.matrixColumnCount k
                (max (s.matrixColumnCount k) (s.matrixColumnCount rowI))
            else s.matrixColumnCount } := by
        unfold eliminateInto eliminated eliminateRow
        by_cases hzero : s.matrix k pivotI = 0
        · simp [hzero]
        · cases grow <;> simp [hzero]
      rw [hstep, hinto, ih _ hks hrow.2]
      dsimp only
      congr 1
      · funext i
        by_cases hgrow : grow = true ∧ s.matrix k pivotI ≠ 0
        · rw [if_pos hgrow]
          by_cases hik : i = k
          · subst hik
            rw [if_neg (fun hc => hk hc.2.1), Function.update_self,
              if_pos ⟨hgrow.1, List.mem_cons_self .., hgrow.2⟩]
          · simp only [Function.update_of_ne hik, Function.update_of_ne hrow.1, List.mem_cons,
              hik, false_or]
        · rw [if_neg hgrow]
          by_cases hik : i = k
          · subst hik
            rw [if_neg (fun hc => hk hc.2.1), if_neg (fun hc => hgrow ⟨hc.1, hc.2.2⟩)]
          · simp only [Function.update_of_ne hik, List.mem_cons, hik, false_or]
      · have hcount : (if grow = true ∧ s.matrix k pivotI ≠ 0 then
            Function.update s.matrixColumnCount k
              (max (s.matrixColumnCount k) (s.matrixColumnCount rowI))
            else s.matrixColumnCount) rowI = s.matrixColumnCount rowI := by
          split
          · exact Function.update_of_ne hrow.1 ..
          · rfl
        funext i
        rw [Function.update_of_ne hrow.1, hcount]
        by_cases hik : i = k
        · subst hik
          rw [if_neg hk, if_pos (List.mem_cons_self ..), Function.update_self]
        · rw [Function.update_of_ne hik]
          simp only [List.mem_cons, hik, false_or]

/-- Elimination changes nothing but the matrix and the counts. -/
theorem eliminateAll_frame (s : RecoveryMatrixState) (grow : Bool) (pivotI rowI : Nat)
    (rowKs : List Nat) : ∃ matrix matrixColumnCount, s.eliminateAll grow pivotI rowI rowKs =
      { s with matrix := matrix, matrixColumnCount := matrixColumnCount } := by
  induction rowKs generalizing s with
  | nil => exact ⟨s.matrix, s.matrixColumnCount, rfl⟩
  | cons k ks ih =>
      obtain ⟨matrix, matrixColumnCount, hrest⟩ := ih (eliminateInto grow pivotI rowI s k)
      refine ⟨matrix, matrixColumnCount, ?_⟩
      show (eliminateInto grow pivotI rowI s k).eliminateAll grow pivotI rowI ks = _
      rw [hrest]
      unfold eliminateInto
      split <;> rfl

section frame

variable (s : RecoveryMatrixState) (grow : Bool) (pivotI rowI : Nat) (rowKs : List Nat)

@[simp] theorem eliminateAll_columns :
    (s.eliminateAll grow pivotI rowI rowKs).columns = s.columns := by
  obtain ⟨_, _, h⟩ := s.eliminateAll_frame grow pivotI rowI rowKs
  rw [h]

@[simp] theorem eliminateAll_rows :
    (s.eliminateAll grow pivotI rowI rowKs).rows = s.rows := by
  obtain ⟨_, _, h⟩ := s.eliminateAll_frame grow pivotI rowI rowKs
  rw [h]

@[simp] theorem eliminateAll_pivots :
    (s.eliminateAll grow pivotI rowI rowKs).pivots = s.pivots := by
  obtain ⟨_, _, h⟩ := s.eliminateAll_frame grow pivotI rowI rowKs
  rw [h]

@[simp] theorem eliminateAll_usedForSolution :
    (s.eliminateAll grow pivotI rowI rowKs).usedForSolution = s.usedForSolution := by
  obtain ⟨_, _, h⟩ := s.eliminateAll_frame grow pivotI rowI rowKs
  rw [h]

@[simp] theorem eliminateAll_geResumePivot :
    (s.eliminateAll grow pivotI rowI rowKs).geResumePivot = s.geResumePivot := by
  obtain ⟨_, _, h⟩ := s.eliminateAll_frame grow pivotI rowI rowKs
  rw [h]

end frame

end RecoveryMatrixState

end FecRelay
