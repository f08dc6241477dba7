import FecRelay.Codec.DecoderWindow
import FecRelay.Codec.Rows

/-!
# What an attempt to decode is made on

`CheckRecoveryPossible` goes over the stored rows and gives each of them the count of the
packets that are lost up to its end, or to the end of a row before it that goes further.
`PopulateColumns` lists the lost packets of that region.
-/

namespace FecRelay

namespace DecoderPacketWindow

/-- The loop of `CheckRecoveryPossible` over the rows, from `nextCheckStart` on. -/
def checkRows (w : DecoderPacketWindow) : Nat → Nat → List RecoveryPacket → List RecoveryPacket
  | _, _, [] => []
  | nextCheckStart, lostCount, r :: rows =>
      let elementEnd := max r.elementEnd nextCheckStart
      let lostCount := lostCount + w.rangeLostPackets nextCheckStart elementEnd
      { r with lostCount := lostCount } :: checkRows w elementEnd lostCount rows

/-- `CheckedRegion.NextCheckStart` after it -/
def checkEnd : Nat → List RecoveryPacket → Nat
  | nextCheckStart, [] => nextCheckStart
  | nextCheckStart, r :: rows => checkEnd (max r.elementEnd nextCheckStart) rows

/-- `CheckedRegion.LostCount` after it -/
def checkLost (w : DecoderPacketWindow) : Nat → Nat → List RecoveryPacket → Nat
  | _, lostCount, [] => lostCount
  | nextCheckStart, lostCount, r :: rows =>
      let elementEnd := max r.elementEnd nextCheckStart
      checkLost w elementEnd (lostCount + w.rangeLostPackets nextCheckStart elementEnd) rows

/-- `PopulateColumns` for so many packets that are lost, from an element on -/
def populateColumns (w : DecoderPacketWindow) : Nat → Nat → List ColumnInfo
  | 0, _ => []
  | n + 1, elementStart =>
      let element := w.findNextLostElement elementStart
      { element := element, column := w.elementToColumn element } ::
        populateColumns w n (element + 1)

/-- The columns and the rows of the region that the stored rows make up -/
def checkedRegion (w : DecoderPacketWindow) :
    List RecoveryPacket → List ColumnInfo × List RecoveryPacket
  | [] => ([], [])
  | r :: rows => (w.populateColumns (w.checkLost r.elementStart 0 (r :: rows)) r.elementStart,
      w.checkRows r.elementStart 0 (r :: rows))

variable {w : DecoderPacketWindow}

theorem le_checkEnd (rows : List RecoveryPacket) {start : Nat} : start ≤ checkEnd start rows := by
  induction rows generalizing start with
  | nil => exact le_rfl
  | cons r rows ih => exact (le_max_right _ _).trans ih

theorem checkEnd_le {rows : List RecoveryPacket} {start count : Nat} (hstart : start ≤ count)
    (hrows : ∀ r ∈ rows, r.elementEnd ≤ count) : checkEnd start rows ≤ count := by
  induction rows generalizing start with
  | nil => exact hstart
  | cons r rows ih =>
      exact ih (max_le (hrows r List.mem_cons_self) hstart)
        fun r' hr' => hrows r' (List.mem_cons_of_mem _ hr')

theorem lostIn_mono (w : DecoderPacketWindow) {a b c : Nat} (hab : a ≤ b) (hbc : b ≤ c) :
    w.lostIn a (b - a) ≤ w.lostIn a (c - a) := by
  rw [show c - a = (b - a) + (c - b) by omega, lostIn_add]
  exact Nat.le_add_right _ _

theorem Coherent.lostIn_next (h : w.Coherent) (r : RecoveryPacket) {start next : Nat}
    (hle : start ≤ next) :
    w.lostIn start (next - start) + w.rangeLostPackets next (max r.elementEnd next) =
      w.lostIn start (max r.elementEnd next - start) := by
  have hnext : next ≤ max r.elementEnd next := le_max_right _ _
  rw [h.rangeLostPackets_spec, show max r.elementEnd next - start =
    (next - start) + (max r.elementEnd next - next) by omega, lostIn_add,
    show start + (next - start) = next by omega]

/-- What is counted is what is lost up to the end of the region. -/
theorem Coherent.checkLost_spec (h : w.Coherent) (rows : List RecoveryPacket) {start next : Nat}
    (hle : start ≤ next) : w.checkLost next (w.lostIn start (next - start)) rows =
      w.lostIn start (checkEnd next rows - start) := by
  induction rows generalizing next with
  | nil => rfl
  | cons r rows ih =>
      unfold checkLost
      dsimp only
      rw [h.lostIn_next r hle]
      exact ih (hle.trans (le_max_right _ _))

/-- **The counts of the rows.** Each row counts what is lost up to an end that is not before its
own, and no row counts less than those before it. -/
theorem Coherent.checkRows_spec (h : w.Coherent) (rows : List RecoveryPacket) {start next : Nat}
    (hle : start ≤ next) :
    (∀ r' ∈ w.checkRows next (w.lostIn start (next - start)) rows, ∃ r ∈ rows, ∃ e,
      r' = { r with lostCount := w.lostIn start (e - start) } ∧ r.elementEnd ≤ e ∧ next ≤ e ∧
        e ≤ checkEnd next rows) ∧
    (w.checkRows next (w.lostIn start (next - start)) rows).Pairwise fun r r' =>
      r.lostCount ≤ r'.lostCount := by
  induction rows generalizing next with
  | nil => exact ⟨fun _ hr => absurd hr List.not_mem_nil, .nil⟩
  | cons r rows ih =>
      have hnext : next ≤ max r.elementEnd next := le_max_right _ _
      obtain ⟨hrest, hsorted⟩ := ih (hle.trans hnext)
      unfold checkRows
      dsimp only
      rw [h.lostIn_next r hle]
      constructor
      · intro r' hr'
        rcases List.mem_cons.mp hr' with rfl | hr'
        · exact ⟨r, List.mem_cons_self, _, rfl, le_max_left _ _, hnext, le_checkEnd rows⟩
        · obtain ⟨r₀, hr₀, e, heq, hend, hge, hlast⟩ := hrest r' hr'
          exact ⟨r₀, List.mem_cons_of_mem _ hr₀, e, heq, hend, hnext.trans hge, hlast⟩
      · refine List.pairwise_cons.mpr ⟨fun r' hr' => ?_, hsorted⟩
        obtain ⟨r₀, -, e, rfl, -, hge, -⟩ := hrest r' hr'
        exact w.lostIn_mono (hle.trans hnext) hge

/-- The lost elements between two, and what is written of each -/
def lostColumns (w : DecoderPacketWindow) (a b : Nat) : List ColumnInfo :=
  ((List.range' a (b - a)).filter fun e => !w.has e).map fun e =>
    { element := e, column := w.elementToColumn e }

theorem length_lostColumns (w : DecoderPacketWindow) (a b : Nat) :
    (w.lostColumns a b).length = w.lostIn a (b - a) := by
  rw [lostColumns, List.length_map, lostIn, List.countP_eq_length_filter]

theorem mem_lostColumns {a b : Nat} {c : ColumnInfo} : c ∈ w.lostColumns a b ↔
    (a ≤ c.element ∧ c.element < b) ∧ w.has c.element = false ∧
      c.column = w.elementToColumn c.element := by
  unfold lostColumns
  rw [List.mem_map]
  constructor
  · rintro ⟨e, he, rfl⟩
    obtain ⟨hmem, hlost⟩ := List.mem_filter.mp he
    have hmem := List.mem_range'_1.mp hmem
    exact ⟨⟨hmem.1, by dsimp only; omega⟩, by simpa using hlost, rfl⟩
  · rintro ⟨hin, hlost, hcolumn⟩
    refine ⟨c.element, List.mem_filter.mpr ⟨List.mem_range'_1.mpr (by omega), by simpa using hlost⟩,
      ?_⟩
    rw [← hcolumn]

theorem lostColumns_append (w : DecoderPacketWindow) {a b c : Nat} (hab : a ≤ b) (hbc : b ≤ c) :
    w.lostColumns a c = w.lostColumns a b ++ w.lostColumns b c := by
  have hsplit : List.range' a (c - a) = List.range' a (b - a) ++ List.range' b (c - b) := by
    rw [show c - a = (b - a) + (c - b) by omega, ← List.range'_append_1,
      show a + (b - a) = b by omega]
  unfold lostColumns
  rw [hsplit, List.filter_append, List.map_append]

theorem lostColumns_ascending (w : DecoderPacketWindow) (a b : Nat) :
    (w.lostColumns a b).Pairwise fun c c' => c.element < c'.element :=
  List.pairwise_map.mpr ((List.pairwise_lt_range' (s := a) (n := b - a)).filter _)

/-- A column that comes after as many as are lost before an element is not before it. -/
theorem le_of_lostIn_le {a b c i : Nat} (hab : a ≤ b) (hbc : b ≤ c)
    (hi : i < (w.lostColumns a c).length) (hle : w.lostIn a (b - a) ≤ i) :
    b ≤ ((w.lostColumns a c)[i]).element := by
  rw [← length_lostColumns] at hle
  have hget : (w.lostColumns a c)[i]? =
      (w.lostColumns b c)[i - (w.lostColumns a b).length]? := by
    rw [w.lostColumns_append hab hbc, List.getElem?_append_right hle]
  rw [List.getElem?_eq_getElem hi] at hget
  exact (mem_lostColumns.mp (List.mem_of_getElem? hget.symm)).1.1

/-- **`PopulateColumns` lists what is lost.** -/
theorem Coherent.populateColumns_spec (h : w.Coherent) {n a b : Nat} (hb : b ≤ w.count)
    (hn : n = w.lostIn a (b - a)) : w.populateColumns n a = w.lostColumns a b := by
  induction n generalizing a with
  | zero =>
      have hlength := w.length_lostColumns a b
      rw [← hn] at hlength
      rw [List.length_eq_zero_iff.mp hlength]
      rfl
  | succ n ih =>
      obtain ⟨e, he, hlost⟩ : ∃ e ∈ List.range' a (b - a), (!w.has e) = true :=
        List.countP_pos_iff.mp (show 0 < w.lostIn a (b - a) by omega)
      have he := List.mem_range'_1.mp he
      obtain ⟨hcount, hbefore, hat⟩ := h.findNextLostElement_spec a
      have hle : w.findNextLostElement a ≤ e := by
        by_contra hgt
        exact hbefore e he.1 (not_le.mp hgt) (by simpa using hlost)
      obtain ⟨hge, hfound⟩ := hat (by omega)
      -- nothing is lost before the element that is found
      have hfirst : w.lostColumns a (w.findNextLostElement a) = [] := by
        rw [List.eq_nil_iff_forall_not_mem]
        intro c hc
        obtain ⟨hin, hlostc, -⟩ := mem_lostColumns.mp hc
        exact hbefore _ hin.1 hin.2 hlostc
      have hhead : w.lostColumns (w.findNextLostElement a) (w.findNextLostElement a + 1) =
          [{ element := w.findNextLostElement a
             column := w.elementToColumn (w.findNextLostElement a) }] := by
        rw [lostColumns, Nat.add_sub_cancel_left, List.range'_one]
        simp [hfound]
      have hsplit : w.lostColumns a b =
          { element := w.findNextLostElement a
            column := w.elementToColumn (w.findNextLostElement a) } ::
              w.lostColumns (w.findNextLostElement a + 1) b := by
        rw [w.lostColumns_append hge (show w.findNextLostElement a ≤ b by omega), hfirst,
          w.lostColumns_append (Nat.le_succ _) (show w.findNextLostElement a + 1 ≤ b by omega), hhead]
        rfl
      have hlength := congrArg List.length hsplit
      rw [length_lostColumns, List.length_cons, length_lostColumns, ← hn] at hlength
      rw [hsplit, populateColumns]
      exact congrArg _ (ih (Nat.succ.inj hlength))

/-- **The region.** It starts with the first row, its columns are what is lost up to its end, and
each row counts what is lost up to its own end at least. -/
theorem Coherent.checkedRegion_spec (h : w.Coherent) {columns : List ColumnInfo}
    {rows stored : List RecoveryPacket}
    (hstored : ∀ r ∈ stored, r.elementStart ≤ w.count ∧ r.elementEnd ≤ w.count)
    (hregion : w.checkedRegion stored = (columns, rows)) :
    ∃ a b, columns = w.lostColumns a b ∧ b ≤ w.count ∧
      (a = 0 ∨ ∃ r ∈ stored, r.elementStart = a) ∧
      (∀ r' ∈ rows, ∃ r ∈ stored, ∃ e, r' = { r with lostCount := w.lostIn a (e - a) } ∧
        r.elementEnd ≤ e ∧ a ≤ e ∧ e ≤ b) ∧
      rows.Pairwise fun r r' => r.lostCount ≤ r'.lostCount := by
  rcases stored with _ | ⟨first, rest⟩
  · obtain ⟨rfl, rfl⟩ := Prod.mk.inj hregion
    exact ⟨0, 0, rfl, Nat.zero_le _, .inl rfl, fun _ hr => absurd hr List.not_mem_nil, .nil⟩
  have hzero : w.lostIn first.elementStart (first.elementStart - first.elementStart) = 0 := by
    rw [Nat.sub_self]
    rfl
  have hlast := checkEnd_le (hstored first List.mem_cons_self).1 fun r hr => (hstored r hr).2
  have hcount := h.checkLost_spec (first :: rest) (le_refl first.elementStart)
  obtain ⟨hrows, hsorted⟩ := h.checkRows_spec (first :: rest) (le_refl first.elementStart)
  rw [hzero] at hcount hrows hsorted
  obtain ⟨hcolumns, rfl⟩ := Prod.mk.inj hregion
  exact ⟨first.elementStart, _, hcolumns.symm.trans (h.populateColumns_spec hlast hcount), hlast,
    .inr ⟨first, List.mem_cons_self, rfl⟩, hrows, hsorted⟩

end DecoderPacketWindow

end FecRelay
