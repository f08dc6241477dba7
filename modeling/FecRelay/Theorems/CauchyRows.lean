import FecRelay.Base.Cauchy
import FecRelay.Codec.Combines
import FecRelay.Theorems.Solver

/-!
# Parity and Cauchy rows

The rows of at most 64 packets are a row of ones and the rows of a Cauchy matrix, which the
parity row takes part in. As many of them as packets are lost determine the lost packets,
whichever packets and rows they are, and whatever else the decoder has.
-/

namespace FecRelay

open FecRelay.Base Finset

/-- A row of the Cauchy matrix as an element of the field -/
def cauchyX (row : Nat) : Gf256 := ⟨UInt8.ofNat (row - 1 + cauchyMaxColumns)⟩

/-- A column of the Cauchy matrix as an element of the field -/
def cauchyY (column : Nat) : Gf256 := ⟨UInt8.ofNat (column % cauchyMaxColumns)⟩

theorem cauchyElement_eq (row column : Nat) :
    cauchyElement (row - 1) (column % cauchyMaxColumns) = (cauchyX row - cauchyY column)⁻¹ := rfl

theorem byte_eq_iff {a b : Nat} (ha : a < 256) (hb : b < 256) :
    (⟨UInt8.ofNat a⟩ : Gf256) = ⟨UInt8.ofNat b⟩ ↔ a = b := by
  refine ⟨fun h => ?_, fun h => by rw [h]⟩
  have hnat := congrArg (fun x : Gf256 => x.byte.toNat) h
  simpa [Nat.mod_eq_of_lt ha, Nat.mod_eq_of_lt hb] using hnat

theorem cauchyX_ne_cauchyY {row column : Nat} (hrow : row ≤ cauchyMaxRows) :
    cauchyX row ≠ cauchyY column := by
  unfold cauchyMaxRows at hrow
  have hmod : column % cauchyMaxColumns < cauchyMaxColumns := Nat.mod_lt _ (by decide)
  have hcolumns : cauchyMaxColumns = 64 := rfl
  intro heq
  have heq := (byte_eq_iff (by omega) (by omega)).mp heq
  omega

theorem cauchyX_inj {row row' : Nat} (hrow : row ≤ cauchyMaxRows) (hrow' : row' ≤ cauchyMaxRows)
    (hpos : row ≠ 0) (hpos' : row' ≠ 0) (heq : cauchyX row = cauchyX row') : row = row' := by
  unfold cauchyMaxRows at hrow hrow'
  have hcolumns : cauchyMaxColumns = 64 := rfl
  have heq := (byte_eq_iff (by omega) (by omega)).mp heq
  omega

/-- The columns that a row covers are different columns of the Cauchy matrix. -/
theorem cauchyY_inj {r : RecoveryPacket} (hr : r.IsCauchy) {column column' : Nat}
    (hlt : column < siamesePacketNumCount) (hlt' : column' < siamesePacketNumCount)
    (hcovers : r.Covers column) (hcovers' : r.Covers column')
    (heq : cauchyY column = cauchyY column') : column = column' := by
  have hmod : column % cauchyMaxColumns < cauchyMaxColumns := Nat.mod_lt _ (by decide)
  have hmod' : column' % cauchyMaxColumns < cauchyMaxColumns := Nat.mod_lt _ (by decide)
  have hcolumns : cauchyMaxColumns = 64 := rfl
  have heq := (byte_eq_iff (by omega) (by omega)).mp heq
  rw [hcolumns] at heq
  have hcount : r.metadata.sumCount ≤ 64 := hr
  unfold RecoveryPacket.Covers subtractColumns Cyclic.distance at hcovers hcovers'
  unfold siamesePacketNumCount at *
  omega

/-! ## What the rows determine -/

/-- Parity and Cauchy rows that are different and cover all the columns -/
structure CauchyRows (columns : List ColumnInfo) (rs : List RecoveryPacket) : Prop where
  cauchy : ∀ r ∈ rs, r.IsCauchy ∧ r.row ≤ cauchyMaxRows
  covers : ∀ r ∈ rs, ∀ c ∈ columns, r.Covers c.column
  different : (rs.map (·.row)).Nodup

/-- What a parity or Cauchy row says of the columns. -/
theorem RecoveryPacket.sum_coefficient {r : RecoveryPacket} {columns : List ColumnInfo}
    (hr : r.IsCauchy) (hcovers : ∀ c ∈ columns, r.Covers c.column) {column : Nat → Nat}
    (hcolumn : ∀ c, ∀ (hc : c < columns.length), (columns[c]).column = column c)
    {rows : List RecoveryPacket} {i : Nat} (hi : i < rows.length) (hrow : rows[i] = r)
    (z : Nat → Gf256) :
    ∑ c ∈ range columns.length, coefficients columns rows i c * z c =
      ∑ c ∈ range columns.length,
        (if r.row = 0 then 1 else (cauchyX r.row - cauchyY (column c))⁻¹) * z c := by
  refine sum_congr rfl fun c hc => ?_
  have hlt := mem_range.mp hc
  rw [coefficients_eq hi hlt, hrow, coefficient_cauchy hr (hcovers _ (List.getElem_mem hlt)),
    hcolumn c hlt, cauchyElement_eq]

namespace CauchyRows

variable {columns : List ColumnInfo} {rows rs : List RecoveryPacket} {column : Nat → Nat}

/-- The rows of the matrix, without the parity row -/
theorem mem_rows {k : Nat} (hk : k ∈ (rs.map (·.row)).toFinset.erase 0) :
    k ≠ 0 ∧ ∃ r ∈ rs, r.row = k := by
  obtain ⟨hpos, hk⟩ := mem_erase.mp hk
  obtain ⟨r, hr, heq⟩ := List.mem_map.mp (List.mem_toFinset.mp hk)
  exact ⟨hpos, r, hr, heq⟩

theorem rows_inj (h : CauchyRows columns rs) :
    Set.InjOn cauchyX ((rs.map (·.row)).toFinset.erase 0) := by
  intro k hk k' hk' heq
  obtain ⟨hpos, r, hr, rfl⟩ := mem_rows hk
  obtain ⟨hpos', r', hr', rfl⟩ := mem_rows hk'
  exact cauchyX_inj (h.cauchy r hr).2 (h.cauchy r' hr').2 hpos hpos' heq

theorem columns_inj (h : CauchyRows columns rs) {r : RecoveryPacket} (hr : r ∈ rs)
    (hlt : ∀ c ∈ columns, c.column < siamesePacketNumCount)
    (hnodup : (columns.map (·.column)).Nodup)
    (hcolumn : ∀ c, ∀ (hc : c < columns.length), (columns[c]).column = column c) :
    Set.InjOn (fun c => cauchyY (column c)) (range columns.length) := by
  intro c hc c' hc' heq
  have hc := mem_range.mp hc
  have hc' := mem_range.mp hc'
  have hmem := List.getElem_mem hc
  have hmem' := List.getElem_mem hc'
  have hsame : (columns[c]).column = (columns[c']).column := by
    refine cauchyY_inj (h.cauchy r hr).1 (hlt _ hmem) (hlt _ hmem') (h.covers r hr _ hmem)
      (h.covers r hr _ hmem') ?_
    rw [hcolumn c hc, hcolumn c' hc']
    exact heq
  have hc₁ : c < (columns.map (·.column)).length := by simpa using hc
  have hc₂ : c' < (columns.map (·.column)).length := by simpa using hc'
  have hsame' : (columns.map (·.column))[c] = (columns.map (·.column))[c'] := by simpa using hsame
  exact hnodup.getElem_inj_iff.mp hsame'

/-- **As many rows as columns** determine what is in the columns. -/
theorem determined (h : CauchyRows columns rs) (hrows : rs ⊆ rows)
    (hmany : columns.length ≤ rs.length)
    (hlt : ∀ c ∈ columns, c.column < siamesePacketNumCount)
    (hnodup : (columns.map (·.column)).Nodup) :
    RecoveryMatrixState.Determined columns rows := by
  intro z hz c hc
  obtain ⟨column, hcolumn⟩ : ∃ column : Nat → Nat, ∀ c, ∀ (hc : c < columns.length),
      (columns[c]).column = column c := by
    refine ⟨fun c => (columns.getD c ⟨0, 0⟩).column, fun c hc => ?_⟩
    dsimp only
    rw [List.getD_eq_getElem _ _ hc]
  have hsays : ∀ r ∈ rs, ∑ c ∈ range columns.length,
      (if r.row = 0 then 1 else (cauchyX r.row - cauchyY (column c))⁻¹) * z c = 0 := by
    intro r hr
    obtain ⟨i, hi, hrow⟩ := List.mem_iff_getElem.mp (hrows hr)
    rw [← r.sum_coefficient (h.cauchy r hr).1 (h.covers r hr) hcolumn hi hrow z]
    exact hz i hi
  obtain ⟨r₀, hr₀⟩ : ∃ r, r ∈ rs := List.exists_mem_of_length_pos (by omega)
  have hx := h.rows_inj
  have hy := h.columns_inj hr₀ hlt hnodup hcolumn
  have hxy : ∀ k ∈ (rs.map (·.row)).toFinset.erase 0, ∀ c ∈ range columns.length,
      cauchyX k ≠ cauchyY (column c) := by
    intro k hk c _
    obtain ⟨-, r, hr, rfl⟩ := mem_rows hk
    exact cauchyX_ne_cauchyY (h.cauchy r hr).2
  have hzero : ∀ k ∈ (rs.map (·.row)).toFinset.erase 0, ∑ c ∈ range columns.length,
      (cauchyX k - cauchyY (column c))⁻¹ * z c = 0 := by
    intro k hk
    obtain ⟨hpos, r, hr, rfl⟩ := mem_rows hk
    have hsum := hsays r hr
    simpa only [if_neg hpos] using hsum
  have hcard : #(rs.map (·.row)).toFinset = rs.length := by
    rw [List.toFinset_card_of_nodup h.different, List.length_map]
  -- the parity row is no row of the matrix, and makes up for the one that is missing
  by_cases hparity : 0 ∈ (rs.map (·.row)).toFinset
  · obtain ⟨r, hr, hrow⟩ := List.mem_map.mp (List.mem_toFinset.mp hparity)
    have hones : ∑ c ∈ range columns.length, z c = 0 := by
      have hsum := hsays r hr
      simpa only [if_pos hrow, one_mul] using hsum
    have herased := card_erase_add_one hparity
    exact Cauchy.eq_zero_of_sum hx hy hxy (by rw [card_range]; omega) hzero hones c
      (mem_range.mpr hc)
  · rw [erase_eq_of_notMem hparity] at hx hxy hzero
    exact Cauchy.eq_zero hx hy hxy (by rw [card_range, hcard]; exact hmany) hzero c
      (mem_range.mpr hc)

end CauchyRows

end FecRelay
