import FecRelay.Codec.BitSet
import FecRelay.Codec.EncoderWindow
import Mathlib.Data.List.GetD

/-!
# The decoder's window of the stream codec

`DecoderPacketWindow` without its running sums: the packets that were received, in
subwindows of 64 that keep the packets, a bit for each of them and a count of the bits. The
searches and counts skip subwindows by their counts and use the bits in the others. They
compute what they are named after as long as the window is `WellFormed`.
-/

namespace FecRelay

open FecRelay.Base

/-- `OriginalPacket` in the decoder's window. It has no bytes until the packet is there. -/
structure OriginalPacket where
  buffer : Bytes := []
  headerBytes : Nat := 0
  deriving DecidableEq

/-- `DecoderSubwindow` -/
structure DecoderSubwindow where
  originals : Nat → OriginalPacket := fun _ => {}
  got : CustomBitSet := {}
  gotCount : Nat := 0

/-- `DecoderPacketWindow` -/
structure DecoderPacketWindow where
  count : Nat := 0
  columnStart : Nat := 0
  nextExpectedElement : Nat := 0
  subwindows : List DecoderSubwindow := []

namespace DecoderPacketWindow

/-- `ColumnToElement` -/
def columnToElement (w : DecoderPacketWindow) (column : Nat) : Nat :=
  Cyclic.distance siamesePacketNumCount column w.columnStart

/-- `ElementToColumn` -/
def elementToColumn (w : DecoderPacketWindow) (element : Nat) : Nat :=
  (element + w.columnStart) % siamesePacketNumCount

/-- `Subwindows.GetRef(i)` -/
def subwindow (w : DecoderPacketWindow) (i : Nat) : DecoderSubwindow := w.subwindows.getD i {}

/-- `GetWindowElement` -/
def getWindowElement (w : DecoderPacketWindow) (element : Nat) : OriginalPacket :=
  (w.subwindow (element / subwindowSize)).originals (element % subwindowSize)

/-- `GrowWindow` -/
def growWindow (w : DecoderPacketWindow) (windowElementEnd : Nat) : DecoderPacketWindow :=
  let subwindowsNeeded := (windowElementEnd + columnLaneCount + subwindowSize - 1) / subwindowSize
  { w with
    count := max w.count windowElementEnd
    subwindows := w.subwindows ++
      List.replicate (subwindowsNeeded - w.subwindows.length) {} }

/-- A packet takes its place, and its bit is set and counted. -/
def fill (w : DecoderPacketWindow) (element : Nat) (packet : OriginalPacket) :
    DecoderPacketWindow :=
  let s := w.subwindow (element / subwindowSize)
  { w with
    subwindows := w.subwindows.set (element / subwindowSize) {
      originals := Function.update s.originals (element % subwindowSize) packet
      got := s.got.set (element % subwindowSize)
      gotCount := s.gotCount + 1 } }

/-- `MarkGotColumn`, but for the mark: whether the column is the one that is expected next. A
column that is not in the window disables the decoder. -/
def markGotColumn (w : DecoderPacketWindow) (column : Nat) : Option Bool :=
  let element := w.columnToElement column
  if w.count ≤ element then none else some (decide (element = w.nextExpectedElement))

/-! ## Searches -/

/-- `RangeLostPackets` -/
def rangeLostPackets (w : DecoderPacketWindow) (elementStart elementEnd : Nat) : Nat :=
  if elementEnd ≤ elementStart then 0
  else
    let subwindowStart := elementStart / subwindowSize
    let bitStart := elementStart % subwindowSize
    let bitEnd := min (bitStart + elementEnd - elementStart) subwindowSize
    -- the first subwindow, unless the range has all of it
    let partialStart :=
      if 0 < bitStart then
        bitEnd - bitStart - (w.subwindow subwindowStart).got.rangePopcount bitStart bitEnd
      else 0
    let subwindowStart := if 0 < bitStart then subwindowStart + 1 else subwindowStart
    let subwindowEnd := elementEnd / subwindowSize
    let whole := ((List.range' subwindowStart (subwindowEnd - subwindowStart)).map fun i =>
      subwindowSize - (w.subwindow i).gotCount).sum
    let lastSubwindowBits := elementEnd - subwindowEnd * subwindowSize
    let partialEnd :=
      if subwindowStart ≤ subwindowEnd ∧ 0 < lastSubwindowBits then
        lastSubwindowBits - (w.subwindow subwindowEnd).got.rangePopcount 0 lastSubwindowBits
      else 0
    partialStart + whole + partialEnd

/-- The loop over subwindows that looks for a bit, and skips those that have none by their
counts. The argument that it recurses on is the number of subwindows left. -/
def findLoop (w : DecoderPacketWindow) (mayHave : Nat → Bool)
    (find : CustomBitSet → Nat → Nat) : Nat → Nat → Nat → Nat
  | 0, _, _ => w.count
  | n + 1, subwindowIndex, bitIndex =>
      let s := w.subwindow subwindowIndex
      let found := find s.got bitIndex
      if mayHave s.gotCount ∧ found < subwindowSize then
        min (subwindowIndex * subwindowSize + found) w.count
      else findLoop w mayHave find n (subwindowIndex + 1) 0

/-- What both searches do. -/
def findNext (w : DecoderPacketWindow) (mayHave : Nat → Bool)
    (find : CustomBitSet → Nat → Nat) (elementStart : Nat) : Nat :=
  if w.count ≤ elementStart then w.count
  else
    let subwindowEnd := (w.count + subwindowSize - 1) / subwindowSize
    w.findLoop mayHave find (subwindowEnd - elementStart / subwindowSize)
      (elementStart / subwindowSize) (elementStart % subwindowSize)

/-- `FindNextLostElement` -/
def findNextLostElement (w : DecoderPacketWindow) (elementStart : Nat) : Nat :=
  w.findNext (fun gotCount => decide (gotCount < subwindowSize)) CustomBitSet.findFirstClear
    elementStart

/-- `FindNextGotElement` -/
def findNextGotElement (w : DecoderPacketWindow) (elementStart : Nat) : Nat :=
  w.findNext (fun gotCount => decide (0 < gotCount)) CustomBitSet.findFirstSet elementStart

/-- `IterateNextExpectedElement` -/
def iterateNextExpectedElement (w : DecoderPacketWindow) (elementStart : Nat) :
    DecoderPacketWindow :=
  if w.count ≤ w.nextExpectedElement then w
  else { w with nextExpectedElement := w.findNextLostElement elementStart }

/-! ## Packets -/

/-- `OriginalPacket::Initialize` -/
def originalPacket (data : Bytes) : OriginalPacket :=
  let header := serializeHeaderPacketLength data.length
  { buffer := header ++ data, headerBytes := header.length }

/-- `AddOriginal`, as far as the window goes. -/
def addOriginal (w : DecoderPacketWindow) (packetNum : Nat) (data : Bytes) :
    SiameseResult × DecoderPacketWindow :=
  let element := w.columnToElement packetNum
  if Cyclic.backwards siamesePacketNumCount element then (.duplicateData, w)
  else
    let w := w.growWindow (element + 1)
    if (w.getWindowElement element).buffer ≠ [] then (.duplicateData, w)
    else
      let filled := w.fill element (originalPacket data)
      (.success, if element = w.nextExpectedElement then
        filled.iterateNextExpectedElement (element + 1) else filled)

/-- The packets that were recovered take their places, and the window expects what is lost
next, as at the end of `BackSubstitution` and of `AddSingleRecovery`. -/
def recover (w : DecoderPacketWindow) (packets : List (Nat × OriginalPacket))
    (nextCheckStart : Nat) : DecoderPacketWindow :=
  (packets.foldl (fun w x => w.fill x.1 x.2) w).iterateNextExpectedElement nextCheckStart

/-- The end of `RemoveElements`: the first subwindows are reset and put behind the others. -/
def shift (w : DecoderPacketWindow) (firstKeptSubwindow : Nat) : DecoderPacketWindow :=
  let removedElementCount := firstKeptSubwindow * subwindowSize
  { count := w.count - removedElementCount
    columnStart := w.elementToColumn removedElementCount
    nextExpectedElement := w.nextExpectedElement - removedElementCount
    subwindows := w.subwindows.drop firstKeptSubwindow ++
      List.replicate (min firstKeptSubwindow w.subwindows.length) {} }

/-! ## What is in the window -/

/-- The packet of the element is there. -/
def has (w : DecoderPacketWindow) (element : Nat) : Bool :=
  (w.subwindow (element / subwindowSize)).got.check (element % subwindowSize)

/-- A window whose bits and counts fit its packets. -/
structure Coherent (w : DecoderPacketWindow) : Prop where
  counts : ∀ i, (w.subwindow i).gotCount = (List.range subwindowSize).countP (w.subwindow i).got.check
  room : w.count ≤ w.subwindows.length * subwindowSize
  inside : ∀ e, w.has e = true → e < w.count
  stored : ∀ e, w.has e = true ↔ (w.getWindowElement e).buffer ≠ []

/-- A window that expects the first element that is lost. -/
structure WellFormed (w : DecoderPacketWindow) : Prop extends Coherent w where
  expected_le : w.nextExpectedElement ≤ w.count
  before : ∀ e < w.nextExpectedElement, w.has e = true
  expected : w.has w.nextExpectedElement = false

theorem subwindowSize_eq : subwindowSize = 64 := rfl

variable {w : DecoderPacketWindow}

theorem wellFormed_init : ({} : DecoderPacketWindow).WellFormed where
  counts i := by
    rw [eq_comm]
    exact List.countP_eq_zero.mpr fun j _ => by simp [subwindow]
  room := Nat.zero_le _
  inside e h := by simp [has, subwindow] at h
  stored e := by simp [has, subwindow, getWindowElement]
  expected_le := le_rfl
  before e h := absurd h (Nat.not_lt_zero e)
  expected := by simp [has, subwindow]

@[simp] theorem subwindow_growWindow (w : DecoderPacketWindow) (n i : Nat) :
    (w.growWindow n).subwindow i = w.subwindow i := by
  unfold subwindow growWindow
  rcases Nat.lt_or_ge i w.subwindows.length with hlt | hge
  · exact List.getD_append _ _ _ _ hlt
  · rw [List.getD_append_right _ _ _ _ hge, List.getD_eq_default _ _ hge]
    simp [List.getD_eq_getElem?_getD]

@[simp] theorem has_growWindow (w : DecoderPacketWindow) (n e : Nat) :
    (w.growWindow n).has e = w.has e := by simp [has]

@[simp] theorem getWindowElement_growWindow (w : DecoderPacketWindow) (n e : Nat) :
    (w.growWindow n).getWindowElement e = w.getWindowElement e := by simp [getWindowElement]

theorem Coherent.growWindow (h : w.Coherent) (n : Nat) : (w.growWindow n).Coherent where
  counts i := by simpa using h.counts i
  room := by
    have hroom := h.room
    simp only [DecoderPacketWindow.growWindow, List.length_append, List.length_replicate]
    unfold columnLaneCount
    rw [subwindowSize_eq] at hroom ⊢
    omega
  inside e he := by
    have hlt := h.inside e (by simpa using he)
    simp only [DecoderPacketWindow.growWindow]
    omega
  stored e := by simpa using h.stored e

theorem WellFormed.growWindow (h : w.WellFormed) (n : Nat) : (w.growWindow n).WellFormed where
  toCoherent := h.toCoherent.growWindow n
  expected_le := by
    have hle := h.expected_le
    simp only [DecoderPacketWindow.growWindow]
    omega
  before e he := by simpa using h.before e he
  expected := by
    rw [has_growWindow]
    exact h.expected

/-! ## The searches find what they look for -/

/-- The bits of a subwindow are elements. -/
theorem has_eq (w : DecoderPacketWindow) {i j : Nat} (hj : j < 64) :
    w.has (i * 64 + j) = (w.subwindow i).got.check j := by
  have hdiv : (i * 64 + j) / 64 = i := by omega
  have hmod : (i * 64 + j) % 64 = j := by omega
  rw [has, subwindowSize_eq, hdiv, hmod]

/-- The loop over subwindows, when a search of one finds the first bit that is `b`. -/
theorem findLoop_spec {mayHave : Nat → Bool} {find : CustomBitSet → Nat → Nat} {b : Bool}
    (hmay : ∀ i, mayHave (w.subwindow i).gotCount = false →
      ∀ j < 64, (w.subwindow i).got.check j ≠ b)
    (hfind : ∀ (s : CustomBitSet) {bit : Nat}, bit < 64 →
      CustomBitSet.FirstAt (fun i => s.check i = b) bit 64 (find s bit))
    (n i bit : Nat) (hbit : bit < 64) (hn : w.count ≤ (i + n) * 64) :
    CustomBitSet.FirstAt (fun e => w.has e = b) (i * 64 + bit) w.count
      (w.findLoop mayHave find n i bit) := by
  induction n generalizing i bit with
  | zero =>
      refine ⟨le_rfl, fun e he hlt => absurd hlt ?_, fun hlt => absurd hlt (lt_irrefl _)⟩
      show ¬e < w.count
      omega
  | succ n ih =>
      obtain ⟨hle, hbefore, hat⟩ := hfind (w.subwindow i).got hbit
      -- what the search of this subwindow says about elements
      have hskip : ∀ e, i * 64 + bit ≤ e → e < i * 64 + find (w.subwindow i).got bit →
          w.has e ≠ b := by
        intro e he hlt
        have hj : e = i * 64 + (e - i * 64) := by omega
        rw [hj, has_eq w (by omega)]
        exact hbefore (e - i * 64) (by omega) (by omega)
      unfold findLoop
      rw [subwindowSize_eq]
      simp only
      by_cases hfound : mayHave (w.subwindow i).gotCount = true ∧
          find (w.subwindow i).got bit < 64
      · rw [if_pos hfound]
        obtain ⟨hge, hcheck⟩ := hat hfound.2
        refine ⟨min_le_right _ _, fun e he hlt => hskip e he (by omega), fun hlt => ?_⟩
        have hmin : min (i * 64 + find (w.subwindow i).got bit) w.count =
            i * 64 + find (w.subwindow i).got bit := by omega
        rw [hmin]
        refine ⟨by omega, ?_⟩
        show w.has _ = b
        rw [has_eq w hfound.2]
        exact hcheck
      · rw [if_neg hfound]
        have hnone : ∀ e, i * 64 + bit ≤ e → e < (i + 1) * 64 → w.has e ≠ b := by
          intro e he hlt
          by_cases hmayHave : mayHave (w.subwindow i).gotCount = true
          · have hall : ¬find (w.subwindow i).got bit < 64 := fun h => hfound ⟨hmayHave, h⟩
            exact hskip e he (by omega)
          · have hj : e = i * 64 + (e - i * 64) := by omega
            rw [hj, has_eq w (by omega)]
            exact hmay i (by simpa using hmayHave) _ (by omega)
        obtain ⟨hle', hbefore', hat'⟩ := ih (i + 1) 0 (by omega) (by
          rw [show i + 1 + n = i + (n + 1) by omega]
          exact hn)
        refine ⟨hle', fun e he hlt => ?_, fun hlt => ?_⟩
        · rcases Nat.lt_or_ge e ((i + 1) * 64) with hsame | hnext
          · exact hnone e he hsame
          · exact hbefore' e (by omega) hlt
        · obtain ⟨hge, hhas⟩ := hat' hlt
          exact ⟨by omega, hhas⟩

theorem findNext_spec {mayHave : Nat → Bool} {find : CustomBitSet → Nat → Nat} {b : Bool}
    (hmay : ∀ i, mayHave (w.subwindow i).gotCount = false →
      ∀ j < 64, (w.subwindow i).got.check j ≠ b)
    (hfind : ∀ (s : CustomBitSet) {bit : Nat}, bit < 64 →
      CustomBitSet.FirstAt (fun i => s.check i = b) bit 64 (find s bit)) (e : Nat) :
    CustomBitSet.FirstAt (fun e => w.has e = b) e w.count (w.findNext mayHave find e) := by
  unfold findNext
  by_cases hend : w.count ≤ e
  · rw [if_pos hend]
    exact ⟨le_rfl, fun j hj hlt => absurd hlt (by omega), fun hlt => absurd hlt (lt_irrefl _)⟩
  · rw [if_neg hend, subwindowSize_eq]
    have hspec := findLoop_spec hmay hfind ((w.count + 64 - 1) / 64 - e / 64) (e / 64) (e % 64)
      (by omega) (by omega)
    rwa [show e / 64 * 64 + e % 64 = e by omega] at hspec

/-- **`FindNextLostElement` finds the first element that is lost.** -/
theorem Coherent.findNextLostElement_spec (h : w.Coherent) (e : Nat) :
    CustomBitSet.FirstAt (fun e => w.has e = false) e w.count (w.findNextLostElement e) := by
  refine findNext_spec (fun i hmay j hj => ?_)
    (fun s _ hbit => CustomBitSet.findFirstClear_spec s hbit) e
  -- a full count leaves no bit clear
  have hfull : ¬(w.subwindow i).gotCount < subwindowSize := by simpa using hmay
  rw [h.counts i] at hfull
  have hall : (List.range subwindowSize).countP (w.subwindow i).got.check =
      (List.range subwindowSize).length := by
    have hle := List.countP_le_length (p := (w.subwindow i).got.check) (l := List.range subwindowSize)
    simp only [List.length_range] at hle ⊢
    omega
  have hcheck := List.countP_eq_length.mp hall j (List.mem_range.mpr hj)
  simp [hcheck]

/-- **`FindNextGotElement` finds the first element that is there.** -/
theorem Coherent.findNextGotElement_spec (h : w.Coherent) (e : Nat) :
    CustomBitSet.FirstAt (fun e => w.has e = true) e w.count (w.findNextGotElement e) := by
  refine findNext_spec (fun i hmay j hj hcheck => ?_)
    (fun s _ hbit => CustomBitSet.findFirstSet_spec s hbit) e
  have hempty : ¬0 < (w.subwindow i).gotCount := by simpa using hmay
  rw [h.counts i, List.countP_pos_iff] at hempty
  exact hempty ⟨j, List.mem_range.mpr hj, hcheck⟩

/-! ## The count of what is lost -/

/-- The elements among `n` from `a` on that are lost. -/
def lostIn (w : DecoderPacketWindow) (a n : Nat) : Nat :=
  (List.range' a n).countP fun e => !w.has e

theorem lostIn_add (w : DecoderPacketWindow) (a m n : Nat) :
    w.lostIn a (m + n) = w.lostIn a m + w.lostIn (a + m) n := by
  rw [lostIn, ← List.range'_append_1, List.countP_append]
  rfl

/-- Within a subwindow, the bits that are not set. -/
theorem lostIn_subwindow (w : DecoderPacketWindow) (i : Nat) {bit n : Nat} (h : bit + n ≤ 64) :
    w.lostIn (i * 64 + bit) n = n - (List.range' bit n).countP (w.subwindow i).got.check := by
  have hmap : List.range' (i * 64 + bit) n = (List.range' bit n).map (i * 64 + ·) := by
    rw [List.map_add_range']
  have hlost : w.lostIn (i * 64 + bit) n =
      (List.range' bit n).countP fun j => !(w.subwindow i).got.check j := by
    rw [lostIn, hmap, List.countP_map]
    refine List.countP_congr fun j hj => ?_
    have hj := List.mem_range'_1.mp hj
    rw [Function.comp_apply, has_eq w (by omega)]
  have hlength := List.length_eq_countP_add_countP (w.subwindow i).got.check
    (l := List.range' bit n)
  rw [List.length_range'] at hlength
  have hnot : (List.range' bit n).countP (fun j => !(w.subwindow i).got.check j) =
      (List.range' bit n).countP fun j => decide ¬(w.subwindow i).got.check j = true :=
    List.countP_congr fun j _ => by simp
  rw [hlost, hnot]
  omega

theorem Coherent.lostIn_whole (h : w.Coherent) (i k : Nat) :
    w.lostIn (i * 64) (k * 64) =
      ((List.range' i k).map fun i => 64 - (w.subwindow i).gotCount).sum := by
  induction k generalizing i with
  | zero => simp [lostIn]
  | succ k ih =>
      have hfirst := lostIn_subwindow w i (by omega : 0 + 64 ≤ 64)
      rw [Nat.add_zero, ← List.range_eq_range', ← subwindowSize_eq, ← h.counts i,
        subwindowSize_eq] at hfirst
      rw [show (k + 1) * 64 = 64 + k * 64 by omega, lostIn_add, hfirst, List.range'_succ,
        List.map_cons, List.sum_cons, ← ih (i + 1), Nat.succ_mul]

/-- **`RangeLostPackets` counts the elements that are lost.** -/
theorem Coherent.rangeLostPackets_spec (h : w.Coherent) (a b : Nat) :
    w.rangeLostPackets a b = w.lostIn a (b - a) := by
  unfold rangeLostPackets
  by_cases hempty : b ≤ a
  · rw [if_pos hempty, Nat.sub_eq_zero_of_le hempty]
    rfl
  rw [if_neg hempty, subwindowSize_eq]
  -- from the start of a subwindow on
  have hfrom : ∀ i, i * 64 ≤ b →
      ((List.range' i (b / 64 - i)).map fun i => 64 - (w.subwindow i).gotCount).sum +
        (if i ≤ b / 64 ∧ 0 < b - b / 64 * 64 then
          b - b / 64 * 64 - (w.subwindow (b / 64)).got.rangePopcount 0 (b - b / 64 * 64) else 0) =
      w.lostIn (i * 64) (b - i * 64) := by
    intro i hi
    have hsplit : b - i * 64 = (b / 64 - i) * 64 + (b - b / 64 * 64) := by omega
    rw [hsplit, lostIn_add, h.lostIn_whole]
    congr 1
    have hat : i * 64 + (b / 64 - i) * 64 = b / 64 * 64 + 0 := by omega
    rw [hat, lostIn_subwindow w _ (by omega), CustomBitSet.rangePopcount_spec _ (by omega) (by omega)]
    by_cases hlast : 0 < b - b / 64 * 64
    · rw [if_pos ⟨by omega, hlast⟩, Nat.sub_zero]
    · rw [if_neg fun hc => hlast hc.2]
      omega
  by_cases hbit : 0 < a % 64
  · simp only [if_pos hbit]
    have hpartial := lostIn_subwindow w (a / 64)
      (by omega : a % 64 + (min (a % 64 + b - a) 64 - a % 64) ≤ 64)
    rw [show a / 64 * 64 + a % 64 = a by omega] at hpartial
    rw [CustomBitSet.rangePopcount_spec _ (by omega) (by omega), ← hpartial, Nat.add_assoc]
    by_cases hover : b ≤ (a / 64 + 1) * 64
    · -- the range ends with this subwindow
      have hrest := hfrom
      have hwidth : min (a % 64 + b - a) 64 - a % 64 = b - a := by omega
      rw [hwidth]
      have hnone : b / 64 - (a / 64 + 1) = 0 := by omega
      have hno : ¬(a / 64 + 1 ≤ b / 64 ∧ 0 < b - b / 64 * 64) := by omega
      rw [hnone, if_neg hno]
      simp
    · rw [hfrom (a / 64 + 1) (by omega)]
      have hat : a + (min (a % 64 + b - a) 64 - a % 64) = (a / 64 + 1) * 64 := by omega
      rw [← hat, ← lostIn_add]
      congr 1
      omega
  · simp only [if_neg hbit, Nat.zero_add]
    rw [hfrom (a / 64) (by omega), show a / 64 * 64 = a by omega]

/-! ## Changes of the window -/

theorem subwindow_fill (w : DecoderPacketWindow) {e : Nat} (packet : OriginalPacket)
    (he : e / 64 < w.subwindows.length) (i : Nat) :
    (w.fill e packet).subwindow i = if i = e / 64 then {
      originals := Function.update (w.subwindow i).originals (e % 64) packet
      got := (w.subwindow i).got.set (e % 64)
      gotCount := (w.subwindow i).gotCount + 1 } else w.subwindow i := by
  unfold subwindow fill
  rw [subwindowSize_eq]
  by_cases hi : i = e / 64
  · subst hi
    rw [if_pos rfl, List.getD_eq_getElem _ _ (by simpa using he), List.getElem_set_self]
    rfl
  · rw [if_neg hi, List.getD_eq_getElem?_getD, List.getElem?_set_ne (by omega),
      List.getD_eq_getElem?_getD]

theorem has_fill (w : DecoderPacketWindow) {e : Nat} (packet : OriginalPacket)
    (he : e / 64 < w.subwindows.length) (e' : Nat) :
    (w.fill e packet).has e' = (w.has e' || decide (e' = e)) := by
  rw [has, has, subwindowSize_eq, subwindow_fill w packet he]
  by_cases hi : e' / 64 = e / 64
  · rw [if_pos hi, CustomBitSet.check_set _ (by omega) (by omega)]
    congr 1
    rw [decide_eq_decide]
    omega
  · rw [if_neg hi, decide_eq_false (by omega), Bool.or_false]

theorem getWindowElement_fill (w : DecoderPacketWindow) {e : Nat} (packet : OriginalPacket)
    (he : e / 64 < w.subwindows.length) (e' : Nat) :
    (w.fill e packet).getWindowElement e' = if e' = e then packet else w.getWindowElement e' := by
  rw [getWindowElement, getWindowElement, subwindowSize_eq, subwindow_fill w packet he]
  by_cases hi : e' / 64 = e / 64
  · rw [if_pos hi]
    by_cases heq : e' = e
    · rw [if_pos heq, heq]
      exact Function.update_self ..
    · rw [if_neg heq]
      exact Function.update_of_ne (by omega) ..
  · rw [if_neg hi, if_neg (by omega)]

/-- A packet that was lost arrives in a window that has its element. -/
theorem Coherent.fill (h : w.Coherent) {e : Nat} {packet : OriginalPacket} (he : e < w.count)
    (hlost : w.has e = false) (hpacket : packet.buffer ≠ []) : (w.fill e packet).Coherent := by
  have hindex : e / 64 < w.subwindows.length := by
    have hroom := h.room
    rw [subwindowSize_eq] at hroom
    omega
  refine ⟨fun i => ?_, ?_, fun e' he' => ?_, fun e' => ?_⟩
  · rw [subwindow_fill w packet hindex, subwindowSize_eq]
    by_cases hi : i = e / 64
    · rw [if_pos hi]
      show (w.subwindow i).gotCount + 1 = _
      rw [h.counts i, subwindowSize_eq]
      have hclear : (w.subwindow i).got.check (e % 64) = false := by
        rw [hi]
        exact hlost
      exact (CustomBitSet.countP_check_set _ le_rfl (by omega) hclear).symm
    · rw [if_neg hi]
      exact h.counts i
  · simpa [DecoderPacketWindow.fill] using h.room
  · rw [has_fill w packet hindex] at he'
    rcases Bool.or_eq_true_iff.mp he' with hold | hnew
    · exact h.inside e' hold
    · rw [of_decide_eq_true hnew]
      exact he
  · rw [has_fill w packet hindex, getWindowElement_fill w packet hindex]
    by_cases heq : e' = e
    · simp [heq, hpacket]
    · simpa [heq] using h.stored e'

theorem has_iterate (w : DecoderPacketWindow) (e e' : Nat) :
    (w.iterateNextExpectedElement e).has e' = w.has e' := by
  unfold iterateNextExpectedElement
  split <;> rfl

theorem getWindowElement_iterate (w : DecoderPacketWindow) (e e' : Nat) :
    (w.iterateNextExpectedElement e).getWindowElement e' = w.getWindowElement e' := by
  unfold iterateNextExpectedElement
  split <;> rfl

theorem count_iterate (w : DecoderPacketWindow) (e : Nat) :
    (w.iterateNextExpectedElement e).count = w.count := by
  unfold iterateNextExpectedElement
  split <;> rfl

/-- Where everything before an element is there, the search starts at the element. -/
theorem Coherent.iterate (h : w.Coherent) (hlt : w.nextExpectedElement < w.count) {e : Nat}
    (hbefore : ∀ e' < e, w.has e' = true) : (w.iterateNextExpectedElement e).WellFormed := by
  unfold iterateNextExpectedElement
  rw [if_neg (by omega)]
  obtain ⟨hle, hgot, hat⟩ := h.findNextLostElement_spec e
  refine ⟨⟨h.counts, h.room, h.inside, h.stored⟩, hle, fun e' he' => ?_, ?_⟩
  · rcases Nat.lt_or_ge e' e with hlt' | hge
    · exact hbefore e' hlt'
    · show w.has e' = true
      simpa using hgot e' hge he'
  · show w.has (w.findNextLostElement e) = false
    by_cases hend : w.findNextLostElement e < w.count
    · exact (hat hend).2
    · by_contra hhas
      have hin := h.inside _ (by simpa using hhas)
      omega

@[simp] theorem count_growWindow (w : DecoderPacketWindow) (n : Nat) :
    (w.growWindow n).count = max w.count n := rfl

/-- What `AddOriginal` makes of a packet that is not before the window. -/
theorem WellFormed.addOriginal (h : w.WellFormed) {packetNum : Nat} {data : Bytes}
    (hdata : data ≠ []) : (w.addOriginal packetNum data).2.WellFormed := by
  unfold DecoderPacketWindow.addOriginal
  generalize w.columnToElement packetNum = e
  dsimp only
  split
  · exact h
  have hgrown := h.growWindow (e + 1)
  have hcount : e < (w.growWindow (e + 1)).count := by
    rw [count_growWindow]
    omega
  split
  · exact hgrown
  rename_i hempty
  have hlost : (w.growWindow (e + 1)).has e = false := by
    rw [← Bool.not_eq_true, hgrown.stored e]
    exact hempty
  have hpacket : (originalPacket data).buffer ≠ [] := by
    simp [originalPacket, hdata]
  have hfilled := hgrown.toCoherent.fill hcount hlost hpacket
  have hindex : e / 64 < (w.growWindow (e + 1)).subwindows.length := by
    have hroom := hgrown.room
    rw [subwindowSize_eq] at hroom
    omega
  have hhas := has_fill (w.growWindow (e + 1)) (originalPacket data) hindex
  split
  · rename_i hexpected
    refine hfilled.iterate (lt_of_eq_of_lt hexpected.symm hcount) fun e' he' => ?_
    rw [hhas]
    rcases Nat.lt_succ_iff_lt_or_eq.mp he' with hlt | rfl
    · rw [hgrown.before e' (hexpected ▸ hlt), Bool.true_or]
    · simp
  · rename_i hother
    refine ⟨hfilled, hgrown.expected_le, fun e' he' => ?_, ?_⟩
    · rw [hhas, hgrown.before e' he', Bool.true_or]
    · show ((w.growWindow (e + 1)).fill e (originalPacket data)).has
        (w.growWindow (e + 1)).nextExpectedElement = false
      rw [hhas, hgrown.expected, decide_eq_false fun heq => hother heq.symm]
      rfl

/-- A packet is added once, at the element of its number. -/
theorem WellFormed.addOriginal_spec (h : w.WellFormed) {packetNum e : Nat}
    (he : w.columnToElement packetNum = e)
    (hahead : ¬Cyclic.backwards siamesePacketNumCount e = true) (data : Bytes) :
    ((w.addOriginal packetNum data).1 =
      if w.has e then .duplicateData else .success) ∧
    (∀ e', (w.addOriginal packetNum data).2.has e' = (w.has e' || decide (e' = e))) ∧
    (∀ e', (w.addOriginal packetNum data).2.getWindowElement e' =
      if e' = e ∧ w.has e = false then originalPacket data else w.getWindowElement e') ∧
    (w.addOriginal packetNum data).2.count = max w.count (e + 1) := by
  unfold DecoderPacketWindow.addOriginal
  rw [he]
  dsimp only
  rw [if_neg hahead]
  have hgrown := h.growWindow (e + 1)
  have hstored := hgrown.stored e
  rw [has_growWindow] at hstored
  by_cases hhas : w.has e = true
  · rw [if_pos (hstored.mp hhas), if_pos hhas]
    refine ⟨rfl, fun e' => ?_, fun e' => ?_, rfl⟩
    · by_cases heq : e' = e <;> simp [heq, hhas]
    · simp [hhas]
  · have hlost : w.has e = false := by simpa using hhas
    rw [if_neg (fun hne => hhas (hstored.mpr hne)), if_neg hhas]
    have hindex : e / 64 < (w.growWindow (e + 1)).subwindows.length := by
      have hroom := hgrown.room
      rw [subwindowSize_eq, count_growWindow] at hroom
      omega
    refine ⟨rfl, fun e' => ?_, fun e' => ?_, ?_⟩
    · split
      · rw [has_iterate, has_fill _ _ hindex, has_growWindow]
      · rw [has_fill _ _ hindex, has_growWindow]
    · have hfill := getWindowElement_fill (w.growWindow (e + 1)) (originalPacket data) hindex e'
      rw [getWindowElement_growWindow] at hfill
      simp only [hlost, and_true]
      split
      · rw [getWindowElement_iterate, hfill]
      · exact hfill
    · split
      · rw [count_iterate]
        rfl
      · rfl

@[simp] theorem subwindow_shift (w : DecoderPacketWindow) (k i : Nat) :
    (w.shift k).subwindow i = w.subwindow (i + k) := by
  unfold subwindow shift
  rcases Nat.lt_or_ge i (w.subwindows.drop k).length with hlt | hge
  · rw [List.getD_append _ _ _ _ hlt, List.getD_eq_getElem?_getD, List.getElem?_drop,
      List.getD_eq_getElem?_getD, Nat.add_comm k i]
  · rw [List.getD_append_right _ _ _ _ hge,
      List.getD_eq_default w.subwindows _ (by rw [List.length_drop] at hge; omega)]
    simp [List.getD_eq_getElem?_getD]

theorem has_shift (w : DecoderPacketWindow) (k e : Nat) :
    (w.shift k).has e = w.has (e + k * 64) := by
  rw [has, has, subwindow_shift, subwindowSize_eq]
  congr 1
  · congr 3
    omega
  · omega

theorem getWindowElement_shift (w : DecoderPacketWindow) (k e : Nat) :
    (w.shift k).getWindowElement e = w.getWindowElement (e + k * 64) := by
  rw [getWindowElement, getWindowElement, subwindow_shift, subwindowSize_eq]
  congr 1
  · congr 2
    omega
  · omega

/-- Whole subwindows go from a window that expects nothing in them. -/
theorem WellFormed.shift (h : w.WellFormed) {k : Nat} (hk : k * 64 ≤ w.nextExpectedElement) :
    (w.shift k).WellFormed := by
  have hle := h.expected_le
  refine ⟨⟨fun i => ?_, ?_, fun e he => ?_, fun e => ?_⟩, ?_, fun e he => ?_, ?_⟩
  · rw [subwindow_shift]
    exact h.counts _
  · have hroom := h.room
    simp only [DecoderPacketWindow.shift, List.length_append, List.length_drop,
      List.length_replicate]
    rw [subwindowSize_eq] at hroom ⊢
    omega
  · rw [has_shift] at he
    have hin := h.inside _ he
    simp only [DecoderPacketWindow.shift]
    rw [subwindowSize_eq]
    omega
  · rw [has_shift, getWindowElement_shift]
    exact h.stored _
  · simp only [DecoderPacketWindow.shift]
    rw [subwindowSize_eq]
    omega
  · rw [has_shift]
    simp only [DecoderPacketWindow.shift] at he
    rw [subwindowSize_eq] at he
    exact h.before _ (by omega)
  · rw [has_shift]
    simp only [DecoderPacketWindow.shift]
    rw [subwindowSize_eq, Nat.sub_add_cancel hk]
    exact h.expected

/-- Packets that were lost are filled in. -/
theorem Coherent.fills (h : w.Coherent) {packets : List (Nat × OriginalPacket)}
    (hnodup : (packets.map Prod.fst).Nodup)
    (hpackets : ∀ x ∈ packets, x.1 < w.count ∧ w.has x.1 = false ∧ x.2.buffer ≠ []) :
    (packets.foldl (fun w x => w.fill x.1 x.2) w).Coherent ∧
      (packets.foldl (fun w x => w.fill x.1 x.2) w).count = w.count ∧
      (packets.foldl (fun w x => w.fill x.1 x.2) w).nextExpectedElement = w.nextExpectedElement ∧
      ∀ e, (packets.foldl (fun w x => w.fill x.1 x.2) w).has e =
        (w.has e || decide (e ∈ packets.map Prod.fst)) := by
  induction packets generalizing w with
  | nil => exact ⟨h, rfl, rfl, by simp⟩
  | cons x xs ih =>
      obtain ⟨hlt, hlost, hbuffer⟩ := hpackets x (by simp)
      obtain ⟨hnot, hrest⟩ := List.nodup_cons.mp hnodup
      have hindex : x.1 / 64 < w.subwindows.length := by
        have hroom := h.room
        rw [subwindowSize_eq] at hroom
        omega
      have hhas := has_fill w x.2 hindex
      obtain ⟨hcoherent, hcount, hexpected, hfilled⟩ :=
        ih (h.fill hlt hlost hbuffer) hrest fun y hy => by
          obtain ⟨hlt', hlost', hbuffer'⟩ := hpackets y (List.mem_cons_of_mem _ hy)
          refine ⟨hlt', ?_, hbuffer'⟩
          rw [hhas, hlost', decide_eq_false fun heq => hnot (List.mem_map.mpr ⟨y, hy, heq⟩)]
          rfl
      refine ⟨hcoherent, hcount, hexpected, fun e => ?_⟩
      rw [List.foldl_cons, hfilled, hhas, Bool.or_assoc]
      congr 1
      by_cases heq : e = x.1 <;> simp [heq]

/-- What was lost before some element is recovered. -/
theorem WellFormed.recover (h : w.WellFormed) {packets : List (Nat × OriginalPacket)}
    {nextCheckStart : Nat} (hlt : w.nextExpectedElement < w.count)
    (hnodup : (packets.map Prod.fst).Nodup)
    (hpackets : ∀ x ∈ packets, x.1 < w.count ∧ w.has x.1 = false ∧ x.2.buffer ≠ [])
    (hall : ∀ e < nextCheckStart, w.has e = false → e ∈ packets.map Prod.fst) :
    (w.recover packets nextCheckStart).WellFormed := by
  obtain ⟨hcoherent, hcount, hexpected, hfilled⟩ := h.toCoherent.fills hnodup hpackets
  refine hcoherent.iterate (by rw [hcount, hexpected]; exact hlt) fun e he => ?_
  rw [hfilled]
  by_cases hhas : w.has e = true
  · rw [hhas, Bool.true_or]
  · rw [decide_eq_true (hall e he (by simpa using hhas)), Bool.or_true]

end DecoderPacketWindow

end FecRelay
