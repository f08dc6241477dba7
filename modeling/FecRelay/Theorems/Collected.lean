import FecRelay.Codec.Eliminates
import FecRelay.Codec.Receipt
import FecRelay.Theorems.Solver

/-!
# A decoder and its sums

The window of a decoder receives packets, grows, is filled with what the solver recovers, and is
shortened, while its running sums are started, rolled, plugged and moved. It has exactly the
packets of the stream that were received or recovered, and every attempt that the solver solves
recovers the lost packets as they were sent, and leaves the sums right for the next attempt.
-/

namespace FecRelay

open FecRelay.Base Finset

namespace SumWindow

/-- `DecodeCheckedRegion` after the solver succeeded: what is recovered -/
def solve (w : SumWindow) (t : RecoveryMatrixState) (rows : List RecoveryPacket) :
    Option (List (Nat × OriginalPacket) × SumWindow) :=
  match w.eliminateOriginalData t.usedForSolution 0 rows with
  | none => none
  | some (b, w) =>
      (t.backSubstitution w.toDecoderPacketWindow (t.multiplyLowerTriangle b)).map fun packets =>
        (packets, w)

/-- What was recovered takes its place, and its columns are holes of the sums. The columns are
appended from the last to the first. -/
def putBack (w : SumWindow) (columns : List ColumnInfo) (packets : List (Nat × OriginalPacket))
    (nextCheckStart : Nat) : SumWindow := { w with
  toDecoderPacketWindow := w.toDecoderPacketWindow.recover packets nextCheckStart
  recoveredColumns := w.recoveredColumns ++ (columns.map (·.column)).reverse }

/-- `AddSingleRecovery`, where the packet that is recovered has its length in front -/
def addSingleRecovery (w : SumWindow) (r : RecoveryPacket) : Option SumWindow :=
  let element := w.columnToElement r.metadata.columnStart
  if w.InvalidElement element then none
  else if (w.getWindowElement element).buffer ≠ [] then some w
  else
    match deserializeHeaderPacketLength r.buffer with
    | none => none
    | some (headerBytes, lengthCheck) =>
        if lengthCheck = 0 ∨ lengthCheck + headerBytes ≠ r.buffer.length then none
        else
          let filled := w.fill element
            (DecoderPacketWindow.originalPacket (r.buffer.drop headerBytes))
          some { w with
            toDecoderPacketWindow := if element = w.nextExpectedElement then
              filled.iterateNextExpectedElement (element + 1) else filled
            recoveredColumns := w.recoveredColumns ++ [r.metadata.columnStart] }

end SumWindow

/-- A packet that an encoder takes and a decoder reveals -/
def Sendable (data : Bytes) : Prop := data ≠ [] ∧ data.length ≤ siameseMaxPacketBytes

instance (data : Bytes) : Decidable (Sendable data) := inferInstanceAs (Decidable (_ ∧ _))

/-- The packets of a stream as they are in a window -/
def streamed (data : Nat → Bytes) (k : Nat) : Bytes := framed (data k)

/-- A decoder: its window with the sums, the number of the first packet in it, and the packets
that it received or recovered. -/
structure Collector where
  window : SumWindow := {}
  base : Nat := 0
  got : Finset Nat := ∅

namespace Collector

/-- The window without its sums -/
def receipt (s : Collector) : Receipt := ⟨s.window.toDecoderPacketWindow, s.base, s.got⟩

/-- An attempt to decode: lost packets, and rows that cover no other lost packets. -/
structure Asks (data : Nat → Bytes) (s : Collector) (columns : List ColumnInfo)
    (rows : List RecoveryPacket) : Prop where
  some : columns ≠ []
  lost : ∀ x ∈ columns, x.column = (s.base + x.element) % siamesePacketNumCount ∧
    x.element < s.window.count ∧ s.base + x.element ∉ s.got ∧ Sendable (data (s.base + x.element))
  stored : ∀ r ∈ rows, ∃ n a q, s.window.Stored (streamed data) s.got s.base n a q r
  covered : ∀ r ∈ rows, ∀ e, r.elementStart ≤ e → e < r.elementEnd → s.base + e ∉ s.got →
    e ∈ columns.map (·.element)

/-- The solver succeeds, after any attempts that failed, and every row that it uses finds its
sums. -/
structure Solves (s : Collector) (columns : List ColumnInfo) (rows : List RecoveryPacket)
    (t : RecoveryMatrixState) : Prop where
  attempt : ∃ m xs, Run RecoveryMatrixState.Fails {} xs m ∧ m.Extends columns rows ∧
    m.attempt columns rows = (true, t)
  kept : SumWindow.Kept s.base t.usedForSolution 0 s.window.runningSums rows

/-- What `RemoveElements` goes by: a stored row that is made from sums, or the last one that
was. What it does not ask for was received, and is kept if the sums do not have it. -/
structure Targets (s : Collector) (removed : Nat) (metadata : RecoveryMetadata) : Prop where
  pos : 0 < metadata.sumCount
  inside : metadata.columnStart + metadata.sumCount ≤ s.base + s.window.count
  available : s.base ≤ metadata.columnStart ∨ s.window.sumColumnCount ≠ 0 ∧
    ¬s.window.Restarts metadata.columnStart metadata.sumCount
  got : ∀ k, metadata.columnStart ≤ k → k < s.base + removed → k ∈ s.got

end Collector

theorem framed_of_sendable {data : Bytes} (h : Sendable data) :
    framed data = (DecoderPacketWindow.originalPacket data).buffer := by
  have hlength := h.2
  unfold siameseMaxPacketBytes at hlength
  rw [framed, u32, Nat.mod_eq_of_lt (by omega), List.take_length]

theorem framed_ne_nil (data : Bytes) : framed data ≠ [] := by
  have hheader := serializeHeaderPacketLength_length (data.take (u32 data.length)).length
  intro hnil
  have hlength := congrArg List.length hnil
  rw [framed, DecoderPacketWindow.originalPacket, List.length_append, List.length_nil] at hlength
  omega

namespace DecoderPacketWindow

/-- Packets that are filled in are found at their elements. -/
theorem getWindowElement_fills (f : Nat → OriginalPacket) {es : List Nat}
    {w : DecoderPacketWindow} (hes : ∀ e ∈ es, e / 64 < w.subwindows.length) (e : Nat) :
    ((es.map fun e => (e, f e)).foldl (fun w x => w.fill x.1 x.2) w).getWindowElement e =
      if e ∈ es then f e else w.getWindowElement e := by
  induction es generalizing w with
  | nil => simp
  | cons x xs ih =>
      have hlength : (w.fill x (f x)).subwindows.length = w.subwindows.length := by
        simp [fill]
      rw [List.map_cons, List.foldl_cons, ih fun y hy => by
        rw [hlength]
        exact hes y (List.mem_cons_of_mem _ hy),
        getWindowElement_fill w (f x) (hes x List.mem_cons_self)]
      by_cases hx : e ∈ xs
      · rw [if_pos hx, if_pos (List.mem_cons_of_mem _ hx)]
      · by_cases heq : e = x
        · rw [if_neg hx, if_pos heq, if_pos (heq ▸ List.mem_cons_self), heq]
        · rw [if_neg hx, if_neg heq, if_neg fun h => (List.mem_cons.mp h).elim heq hx]

/-- A window that expects what is lost goes on expecting it. -/
theorem Coherent.iterate_self {w : DecoderPacketWindow} (h : w.Coherent)
    (hlt : w.nextExpectedElement < w.count) (hlost : w.has w.nextExpectedElement = false) :
    w.iterateNextExpectedElement w.nextExpectedElement = w := by
  obtain ⟨-, hbefore, hat⟩ := h.findNextLostElement_spec w.nextExpectedElement
  have hle : w.findNextLostElement w.nextExpectedElement ≤ w.nextExpectedElement := by
    by_contra hgt
    exact hbefore _ le_rfl (not_le.mp hgt) hlost
  have hge := (hat (hle.trans_lt hlt)).1
  rw [iterateNextExpectedElement, if_neg (not_le.mpr hlt), Nat.le_antisymm hle hge]

end DecoderPacketWindow

namespace SumWindow

/-- A packet that is sent alone takes its place as one that the solver recovers. -/
theorem addSingleRecovery_framed {w : SumWindow} {r : RecoveryPacket} {e : Nat} {data : Bytes}
    (hw : w.WellFormed) (helement : w.columnToElement r.metadata.columnStart = e)
    (hlt : e < w.count) (hlost : w.has e = false) (hbuffer : r.buffer = framed data)
    (hsendable : Sendable data) :
    w.addSingleRecovery r = some (w.putBack [⟨e, r.metadata.columnStart⟩]
      [(e, DecoderPacketWindow.originalPacket data)]
      (if e = w.nextExpectedElement then e + 1 else w.nextExpectedElement)) := by
  have hlength := hsendable.2
  unfold siameseMaxPacketBytes at hlength
  have hread := deserializeHeaderPacketLength_serialize (show data.length ≤ _ by omega) data
  have hpos := List.length_pos_iff.mpr hsendable.1
  have hempty : (w.getWindowElement e).buffer = [] := by
    by_contra hne
    rw [(hw.stored e).mpr hne] at hlost
    cases hlost
  rw [framed_of_sendable hsendable, DecoderPacketWindow.originalPacket] at hbuffer
  dsimp only at hbuffer
  unfold addSingleRecovery
  rw [helement]
  dsimp only
  rw [if_neg (show ¬w.InvalidElement e from not_le.mpr hlt), if_neg (not_not.mpr hempty),
    hbuffer, hread]
  dsimp only
  rw [if_neg (by rw [List.length_append]; omega), List.drop_left]
  unfold putBack DecoderPacketWindow.recover
  by_cases hexpected : e = w.nextExpectedElement
  · rw [if_pos hexpected, if_pos hexpected]
    rfl
  · have hfilled : (w.fill e (DecoderPacketWindow.originalPacket data)).Coherent :=
      hw.toCoherent.fill hlt hlost
        (by simpa [DecoderPacketWindow.originalPacket] using fun _ => hsendable.1)
    have hroom := hw.room
    rw [DecoderPacketWindow.subwindowSize_eq] at hroom
    have hexpected_lt : w.nextExpectedElement < w.count := by
      by_contra hge
      rw [hw.before e (by omega)] at hlost
      cases hlost
    have hself := hfilled.iterate_self hexpected_lt (by
      rw [DecoderPacketWindow.has_fill _ _ (by omega)]
      simpa using ⟨hw.expected, Ne.symm hexpected⟩)
    rw [if_neg hexpected, if_neg hexpected]
    exact congrArg (fun v => some ({ w with
      toDecoderPacketWindow := v
      recoveredColumns := w.recoveredColumns ++ [r.metadata.columnStart] } : SumWindow)) hself.symm

variable {p : Nat → Bytes} {got after after' : Finset Nat} {base top : Nat} {w : SumWindow}

theorem Summing.mono (h : w.Summing p got after base) (hle : after ⊆ after') :
    w.Summing p got after' base :=
  h.imp_left fun ⟨top, hreaches⟩ => ⟨top, hreaches.running, hreaches.base_le, hreaches.start_le,
    hreaches.le, fun k hge hlt => hle (hreaches.after k hge hlt)⟩

theorem Pending.withWindow (h : w.Pending got) (v : DecoderPacketWindow) :
    ({ w with toDecoderPacketWindow := v } : SumWindow).Pending got := ⟨h.nodup, h.got⟩

theorem Reaches.withWindow (h : w.Reaches p got after base top) (v : DecoderPacketWindow) :
    ({ w with toDecoderPacketWindow := v } : SumWindow).Reaches p got after base top :=
  ⟨⟨h.running.holds, h.running.upTo, h.running.kept⟩, h.base_le, h.start_le, h.le, h.after⟩

/-- The sums are no part of the window of packets. -/
theorem Summing.withWindow (h : w.Summing p got after base) (v : DecoderPacketWindow) :
    ({ w with toDecoderPacketWindow := v } : SumWindow).Summing p got after base :=
  h.imp (fun ⟨top, hreaches⟩ => ⟨top, hreaches.withWindow v⟩) fun h => ⟨h.idle, h.apart⟩

/-- Sums do not see a packet that they have not passed. -/
theorem Summing.grow {got' : Finset Nat} (h : w.Summing p got got base)
    (haligned : base % columnLaneCount = 0) (hle : got ⊆ got') : w.Summing p got' got' base := by
  refine h.imp_left fun ⟨top, hrunning, hbase, hstart, htop, hafter⟩ => ⟨top,
    ⟨hrunning.holds.congr haligned hrunning.upTo fun k hge hlt => ?_, hrunning.upTo, hrunning.kept⟩,
    hbase, hstart, htop, fun k hge hlt => hle (hafter k hge hlt)⟩
  have hgot := hafter k hge hlt
  simp [present, hgot, hle hgot]

end SumWindow

namespace Collector

variable {data : Nat → Bytes} {top : Nat} {s : Collector}

/-- What is in the window is what was sent. It ends before packet `top`. -/
structure HoldsSent (data : Nat → Bytes) (top : Nat) (s : Collector) : Prop where
  represents : s.receipt.Represents 0
  contents : ∀ e, s.window.has e = true →
    s.window.getWindowElement e = DecoderPacketWindow.originalPacket (data (s.base + e)) ∧
      Sendable (data (s.base + e))
  inside : s.base + s.window.count ≤ top
  short : top ≤ siamesePacketNumCount / 2
  aligned : s.base % columnLaneCount = 0
  pending : s.window.Pending s.got
  summing : s.window.Summing (streamed data) s.got s.got s.base

theorem holdsSent_start (data : Nat → Bytes) : ({} : Collector).HoldsSent data 0 where
  represents := Receipt.represents_start 0
  contents e h := by simp [DecoderPacketWindow.has, DecoderPacketWindow.subwindow] at h
  inside := le_rfl
  short := Nat.zero_le _
  aligned := rfl
  pending := ⟨List.nodup_nil, by simp⟩
  summing := .inr ⟨rfl, fun _ _ _ _ _ => .inl rfl⟩

theorem HoldsSent.near (h : s.HoldsSent data top) :
    s.base + s.window.count ≤ siamesePacketNumCount / 2 := h.inside.trans h.short

theorem HoldsSent.mono (h : s.HoldsSent data top) {top' : Nat} (hle : top ≤ top')
    (hshort : top' ≤ siamesePacketNumCount / 2) : s.HoldsSent data top' :=
  ⟨h.represents, h.contents, h.inside.trans hle, hshort, h.aligned, h.pending, h.summing⟩

theorem HoldsSent.has_iff (h : s.HoldsSent data top) (e : Nat) :
    s.window.has e = true ↔ s.base + e ∈ s.got := h.represents.has_iff e

theorem HoldsSent.shows (h : s.HoldsSent data top) : s.window.Shows (streamed data) s.got s.base where
  aligned := h.aligned
  columnStart := by
    have hnear := h.near
    have hcolumn : s.window.columnStart = s.base % siamesePacketNumCount :=
      h.represents.columnStart
    rw [hcolumn]
    exact Nat.mod_eq_of_lt (by unfold siamesePacketNumCount at *; omega)
  near := h.near
  element e := by
    by_cases hhas : s.window.has e = true
    · obtain ⟨hpacket, hsendable⟩ := h.contents e hhas
      rw [hpacket, present_of_mem ((h.has_iff e).mp hhas), streamed,
        framed_of_sendable hsendable]
    · have hempty : (s.window.getWindowElement e).buffer = [] := by
        by_contra hne
        exact hhas ((h.represents.wellFormed.stored e).mpr hne)
      rw [hempty, present_of_notMem fun hgot => hhas ((h.has_iff e).mpr hgot)]
  inside k hk := by
    rcases Nat.lt_or_ge k s.base with hlt | hge
    · omega
    · have hhas := (h.has_iff (k - s.base)).mpr (by rwa [Nat.add_sub_cancel' hge])
      have hlt := h.represents.wellFormed.inside _ hhas
      have hlt : k - s.base < s.window.count := hlt
      omega

/-! ## An attempt -/

theorem nodup_numbers (base : Nat) {columns : List ColumnInfo}
    (h : (columns.map (·.element)).Nodup) : (columns.map fun x => base + x.element).Nodup := by
  have hadd := h.map (f := fun e => base + e) fun e e' heq => Nat.add_left_cancel heq
  rwa [List.map_map] at hadd

/-- What a row says of a lost packet, by its number -/
theorem Asks.coefficient {columns : List ColumnInfo} {rows : List RecoveryPacket}
    (hasks : s.Asks data columns rows) {x : ColumnInfo} (hx : x ∈ columns) {r : RecoveryPacket}
    {n a q : Nat} (hstored : s.window.Stored (streamed data) s.got s.base n a q r) :
    r.coefficient x = r.coefficientOf n a (s.base + x.element) := by
  rw [← hstored.arrived.coefficient x.element, ← (hasks.lost x hx).1]

/-- Only the packets from the first one that was not acknowledged on have a part in a row, if
they are lost. -/
theorem HoldsSent.within (h : s.HoldsSent data top) {columns : List ColumnInfo}
    {rows : List RecoveryPacket} (hasks : s.Asks data columns rows) {x : ColumnInfo}
    (hx : x ∈ columns) {r : RecoveryPacket} {n a q : Nat}
    (hstored : s.window.Stored (streamed data) s.got s.base n a q r)
    (hne : r.coefficient x ≠ 0) : a ≤ s.base + x.element ∧ s.base + x.element < n := by
  obtain ⟨-, hcount, hlost, -⟩ := hasks.lost x hx
  have hnear := h.near
  have hinside := hstored.inside
  have hle : a ≤ s.base + x.element := by
    by_contra hgt
    exact hlost (hstored.acked _ (not_le.mp hgt))
  refine ⟨hle, ?_⟩
  by_contra hout
  rw [hasks.coefficient hx hstored,
    hstored.arrived.coefficientOf_eq_zero (.inr (not_lt.mp hout)) (by omega) (by omega)] at hne
  exact hne rfl

/-- What is left of a row is what it says of the lost packets. -/
theorem HoldsSent.says (h : s.HoldsSent data top) {columns : List ColumnInfo}
    {rows : List RecoveryPacket} (hasks : s.Asks data columns rows)
    (hnodup : (columns.map (·.element)).Nodup) {r : RecoveryPacket} (hr : r ∈ rows) {n a q : Nat}
    (hstored : s.window.Stored (streamed data) s.got s.base n a q r) {buffer : Bytes}
    (hleft : SumWindow.CombinesLost (streamed data) s.got n a r buffer) :
    RecoveryMatrixState.Says columns r
      (fun e => (DecoderPacketWindow.originalPacket (data (s.base + e))).buffer) buffer := by
  have harrived := hstored.arrived
  have hbase := harrived.base_le
  have hpacket : ∀ x ∈ columns,
      (DecoderPacketWindow.originalPacket (data (s.base + x.element))).buffer =
        streamed data (s.base + x.element) :=
    fun x hx => (framed_of_sendable (hasks.lost x hx).2.2.2).symm
  -- a lost packet that the row does not ask for has no part in it
  have hzero : ∀ x ∈ columns, ¬(a ≤ s.base + x.element ∧ s.base + x.element < n) →
      r.coefficientOf n a (s.base + x.element) = 0 := by
    intro x hx hout
    rw [← hasks.coefficient hx hstored]
    by_contra hne
    exact hout (h.within hasks hx hstored hne)
  refine ⟨?_, fun x hx hne => ?_⟩
  · have hmap : (columns.map fun x => r.coefficient x •
        vec (DecoderPacketWindow.originalPacket (data (s.base + x.element))).buffer) =
        (columns.map fun x => s.base + x.element).map fun k =>
          r.coefficientOf n a k • vec (streamed data k) := by
      rw [List.map_map]
      refine List.map_congr_left fun x hx => ?_
      rw [hasks.coefficient hx hstored, hpacket x hx]
      rfl
    have hnodup' := nodup_numbers s.base hnodup
    rw [hleft.lost, hmap, ← List.sum_toFinset _ hnodup']
    refine sum_subset (fun k hk => ?_) fun k hk hout => ?_
    · obtain ⟨hk, hlost⟩ := mem_filter.mp hk
      obtain ⟨ha, hn⟩ := mem_Ico.mp hk
      have hstart := harrived.elementStart
      have hend := harrived.elementEnd
      have hmem := hasks.covered r hr (k - s.base) (by omega) (by omega)
        (by rwa [Nat.add_sub_cancel' (hbase.trans ha)])
      obtain ⟨x, hx, heq⟩ := List.mem_map.mp hmem
      refine List.mem_toFinset.mpr (List.mem_map.mpr ⟨x, hx, ?_⟩)
      omega
    · obtain ⟨x, hx, rfl⟩ := List.mem_map.mp (List.mem_toFinset.mp hk)
      rw [hzero x hx fun hin => hout ?_, zero_smul]
      exact mem_filter.mpr ⟨mem_Ico.mpr hin, (hasks.lost x hx).2.2.1⟩
  · have hin := h.within hasks hx hstored hne
    have hroom := harrived.combines.room _ hin.1 hin.2
    rw [hpacket x hx, hleft.length]
    exact hroom

/-- The lost packets are those of the window. -/
theorem HoldsSent.inWindow (h : s.HoldsSent data top) {columns : List ColumnInfo}
    {rows : List RecoveryPacket} (hasks : s.Asks data columns rows) :
    RecoveryMatrixState.InWindow s.window.toDecoderPacketWindow columns := by
  intro x hx
  obtain ⟨hcolumn, hcount, -⟩ := hasks.lost x hx
  have hnear := h.near
  have hsmall : s.base + x.element < siamesePacketNumCount := by
    unfold siamesePacketNumCount at *
    omega
  refine ⟨?_, hcount⟩
  rw [hcolumn, Nat.mod_eq_of_lt hsmall, h.shows.columnToElement (Nat.le_add_right _ _) hsmall,
    Nat.add_sub_cancel_left]

/-- **The next expected packet is among those that are recovered**, so that `BackSubstitution`
does not disable the decoder: a row that says something of a lost packet was made when nothing
from the next expected packet on was acknowledged. -/
theorem HoldsSent.expects (h : s.HoldsSent data top) {columns : List ColumnInfo}
    {rows : List RecoveryPacket} (hasks : s.Asks data columns rows)
    (hdetermined : RecoveryMatrixState.Determined columns rows) :
    s.window.nextExpectedElement ∈ columns.map (·.element) := by
  have hpos : 0 < columns.length := List.length_pos_iff.mpr hasks.some
  have hmem := List.getElem_mem hpos
  -- some row has a part in the first lost packet, or it would not be determined
  obtain ⟨i, hi, hne⟩ : ∃ i, ∃ hi : i < rows.length, (rows[i]).coefficient columns[0] ≠ 0 := by
    by_contra hnone
    push Not at hnone
    have hzero := hdetermined (fun c => if c = 0 then 1 else 0) (fun i hi => ?_) 0 hpos
    · simp at hzero
    · rw [sum_eq_single_of_mem 0 (mem_range.mpr hpos) fun c _ hc => by rw [if_neg hc, mul_zero],
        coefficients_eq hi hpos, hnone i hi, zero_mul]
  obtain ⟨n, a, q, hstored⟩ := hasks.stored _ (List.getElem_mem hi)
  obtain ⟨hstart, hend⟩ := h.within hasks hmem hstored hne
  have hlost := (hasks.lost _ hmem).2.2.1
  have hwindow : s.window.toDecoderPacketWindow.WellFormed := h.represents.wellFormed
  have hexpected : s.base + s.window.nextExpectedElement ∉ s.got := fun hgot => by
    have hhas := (h.has_iff _).mpr hgot
    rw [hwindow.expected] at hhas
    cases hhas
  have hle : s.window.nextExpectedElement ≤ (columns[0]).element := by
    by_contra hgt
    exact hlost ((h.has_iff _).mp (hwindow.before _ (not_le.mp hgt)))
  have hacked : a ≤ s.base + s.window.nextExpectedElement := by
    by_contra hgt
    exact hexpected (hstored.acked _ (not_le.mp hgt))
  have helement := hstored.arrived.elementStart
  have helementEnd := hstored.arrived.elementEnd
  exact hasks.covered _ (List.getElem_mem hi) _ (by omega) (by omega) hexpected

/-- **An attempt recovers the lost packets as they were sent.** -/
theorem HoldsSent.solve (h : s.HoldsSent data top) {columns : List ColumnInfo} {rows : List RecoveryPacket}
    {t : RecoveryMatrixState} (hasks : s.Asks data columns rows)
    (hsolves : s.Solves columns rows t) :
    ∃ w, s.window.solve t rows = some (columns.map fun x =>
        (x.element, DecoderPacketWindow.originalPacket (data (s.base + x.element))), w) ∧
      w.toDecoderPacketWindow = s.window.toDecoderPacketWindow ∧
      w.Sound (streamed data) s.got
        (s.got ∪ (columns.map fun x => s.base + x.element).toFinset) s.base := by
  obtain ⟨⟨m, xs, hrun, hextends, hattempt⟩, hkept⟩ := hsolves
  obtain ⟨hready, hle⟩ := RecoveryMatrixState.ready_of_fails hrun
  obtain ⟨hcolumns, hrows, hsolved, -⟩ := hready.attempt hle hextends
  rw [hattempt] at hcolumns hrows hsolved
  dsimp only at hcolumns hrows
  have hsound : s.window.Sound (streamed data) s.got
      (s.got ∪ (columns.map fun x => s.base + x.element).toFinset) s.base :=
    ⟨h.shows, h.pending, h.summing.mono subset_union_left⟩
  obtain ⟨b, w, hdone, hsound', hwindow, hlefts⟩ := SumWindow.eliminateOriginalData_spec
    (fun k => framed_ne_nil (data k)) t.usedForSolution 0 hsound (fun r hr => by
      obtain ⟨n, a, q, hstored⟩ := hasks.stored r hr
      refine ⟨n, a, q, hstored, fun k ha hn => ?_⟩
      have hbase := hstored.arrived.base_le
      have hstart := hstored.arrived.elementStart
      have hend := hstored.arrived.elementEnd
      by_cases hk : k ∈ s.got
      · exact mem_union_left _ hk
      · have hmem := hasks.covered r hr (k - s.base) (by omega) (by omega)
          (by rwa [Nat.add_sub_cancel' (hbase.trans ha)])
        obtain ⟨x, hx, heq⟩ := List.mem_map.mp hmem
        exact mem_union_right _ (List.mem_toFinset.mpr (List.mem_map.mpr ⟨x, hx, by omega⟩)))
    subset_union_left s.window.goesOn_runningSums hkept
  subst hcolumns hrows
  have hexpects := h.expects hasks (hsolved rfl).determined
  have hback := @RecoveryMatrixState.Solved.recovers t (hsolved rfl) _ (h.inWindow hasks)
    (fun e => data (s.base + e)) b (fun x hx => (hasks.lost x hx).2.2.2) fun i hi hused => by
      obtain ⟨n, a, q, hstored, hleft⟩ := hlefts i hi (by rwa [Nat.zero_add])
      rw [Nat.zero_add] at hleft
      exact h.says hasks hextends.consistent.nodup (List.getElem_mem hi) hstored hleft
  refine ⟨w, ?_, hwindow, hsound'⟩
  unfold SumWindow.solve
  rw [hdone]
  dsimp only
  rw [hwindow, hback, if_pos hexpects]
  rfl

/-! ## Events -/

theorem HoldsSent.original (h : s.HoldsSent data top) {num : Nat} (hnum : num < top)
    (hsendable : Sendable (data num)) (hallowed : s.receipt.Allowed (.original num (data num))) :
    HoldsSent data top { s with
      window := { s.window with
        toDecoderPacketWindow := (s.window.toDecoderPacketWindow.addOriginal
          (num % siamesePacketNumCount) (data num)).2 }
      got := insert num s.got } := by
  have hcount : (s.window.toDecoderPacketWindow.addOriginal (num % siamesePacketNumCount)
      (data num)).2.count ≤ max s.window.count (num + 1 - s.base) :=
    h.represents.count_original hallowed
  refine ⟨h.represents.original hallowed, fun e he => ?_, ?_, h.short, h.aligned, ?_,
    (h.summing.grow h.aligned (subset_insert _ _)).withWindow _⟩
  · dsimp only at he ⊢
    rcases Nat.lt_or_ge num s.base with hold | hnew
    · have hsame : s.window.toDecoderPacketWindow.addOriginal (num % siamesePacketNumCount)
          (data num) = (.duplicateData, s.window.toDecoderPacketWindow) :=
        h.represents.addOriginal_old hallowed hold
      rw [hsame] at he ⊢
      exact h.contents e he
    · obtain ⟨helement, hforward⟩ := h.represents.element_original hallowed hnew
      obtain ⟨-, hhas, hget, -⟩ :=
        h.represents.wellFormed.addOriginal_spec helement hforward (data num)
      have he := (hhas e).symm.trans he
      have hget := hget e
      by_cases hadded : e = num - s.base ∧ s.window.has (num - s.base) = false
      · have hnumber : s.base + e = num := by omega
        rw [hnumber]
        exact ⟨hget.trans (if_pos hadded), hsendable⟩
      · have hhad : s.window.has e = true := by
          rcases Bool.or_eq_true_iff.mp he with hhad | heq
          · exact hhad
          · have heq := of_decide_eq_true heq
            rw [heq]
            by_contra hlost
            exact hadded ⟨heq, eq_false_of_ne_true hlost⟩
        obtain ⟨hpacket, hsent⟩ := h.contents e hhad
        exact ⟨(hget.trans (if_neg hadded)).trans hpacket, hsent⟩
  · have hinside := h.inside
    dsimp only
    omega
  · exact ⟨h.pending.nodup, fun k hk => mem_insert_of_mem (h.pending.got k hk)⟩

theorem HoldsSent.covers (h : s.HoldsSent data top) {top' : Nat} (htop : top' ≤ top) :
    HoldsSent data top { s with
      window := { s.window with
        toDecoderPacketWindow := s.window.toDecoderPacketWindow.growWindow (top' - s.base) } } := by
  have hinside := h.inside
  have hshort := h.short
  refine ⟨h.represents.covers (show top' ≤ s.base + _ by omega), fun e he => ?_, ?_, h.short,
    h.aligned,
    h.pending.withWindow _, h.summing.withWindow _⟩
  · dsimp only at he ⊢
    rw [DecoderPacketWindow.has_growWindow] at he
    rw [DecoderPacketWindow.getWindowElement_growWindow]
    exact h.contents e he
  · dsimp only
    rw [DecoderPacketWindow.count_growWindow]
    omega

/-- What was recovered takes its place, and leaves holes in the sums. -/
theorem HoldsSent.putBack (h : s.HoldsSent data top) {columns : List ColumnInfo}
    {rows : List RecoveryPacket}
    (hasks : s.Asks data columns rows) (hnodup : (columns.map (·.element)).Nodup)
    (hlt : s.window.nextExpectedElement < s.window.count) {nextCheckStart : Nat}
    (hall : ∀ e < nextCheckStart, s.base + e ∉ s.got → e ∈ columns.map (·.element))
    {packets : List (Nat × OriginalPacket)} (hpackets : packets = columns.map fun x =>
      (x.element, DecoderPacketWindow.originalPacket (data (s.base + x.element))))
    {w : SumWindow} (hwindow : w.toDecoderPacketWindow = s.window.toDecoderPacketWindow)
    (hsound : w.Sound (streamed data) s.got
      (s.got ∪ (columns.map fun x => s.base + x.element).toFinset) s.base) :
    HoldsSent data top { s with
      window := w.putBack columns packets nextCheckStart
      got := s.got ∪ (packets.map fun x => s.base + x.1).toFinset } := by
  have hnear := h.near
  have hcoherent : s.window.toDecoderPacketWindow.Coherent := h.represents.wellFormed.toCoherent
  have hnew : packets.map (fun x => s.base + x.1) = columns.map fun x => s.base + x.element := by
    rw [hpackets, List.map_map]
    rfl
  have hfirst : packets.map Prod.fst = columns.map (·.element) := by
    rw [hpackets, List.map_map]
    rfl
  have hlost : ∀ x ∈ packets, x.1 < s.window.count ∧ s.window.has x.1 = false ∧
      x.2.buffer ≠ [] := by
    intro x hx
    rw [hpackets] at hx
    obtain ⟨c, hc, rfl⟩ := List.mem_map.mp hx
    obtain ⟨-, hcount, hgot, hsendable⟩ := hasks.lost c hc
    refine ⟨hcount, eq_false_of_ne_true fun hhas => hgot ((h.has_iff _).mp hhas), ?_⟩
    dsimp only
    rw [← framed_of_sendable hsendable]
    exact framed_ne_nil _
  have hallowed : s.receipt.Allowed (.recovered packets nextCheckStart) := by
    refine ⟨hlt, by rwa [hfirst], hlost, fun e he hhas => ?_⟩
    rw [hfirst]
    refine hall e he fun hgot => ?_
    have hhad : s.window.has e = true := (h.has_iff e).mpr hgot
    rw [show s.window.has e = false from hhas] at hhad
    cases hhad
  obtain ⟨-, hcount, -, hhas⟩ := hcoherent.fills (by rwa [hfirst]) hlost
  have hget := @DecoderPacketWindow.getWindowElement_fills
    (fun e => DecoderPacketWindow.originalPacket (data (s.base + e))) (columns.map (·.element))
    s.window.toDecoderPacketWindow fun e he => by
      obtain ⟨x, hx, rfl⟩ := List.mem_map.mp he
      have hroom := hcoherent.room
      have hin := (hasks.lost x hx).2.1
      rw [DecoderPacketWindow.subwindowSize_eq] at hroom
      omega
  have hfill : (columns.map (·.element)).map
      (fun e => (e, DecoderPacketWindow.originalPacket (data (s.base + e)))) = packets := by
    rw [hpackets, List.map_map]
    rfl
  rw [hfill] at hget
  have hrepresents := h.represents.recovered hallowed
  have hrecover : (w.putBack columns packets nextCheckStart).toDecoderPacketWindow =
      s.window.toDecoderPacketWindow.recover packets nextCheckStart := by
    rw [SumWindow.putBack, hwindow]
  -- the columns of what was recovered are its numbers
  have hcolumns : columns.map (·.column) = columns.map fun x => s.base + x.element := by
    refine List.map_congr_left fun x hx => ?_
    obtain ⟨hcolumn, hin, -⟩ := hasks.lost x hx
    rw [hcolumn, Nat.mod_eq_of_lt (by unfold siamesePacketNumCount at *; omega)]
  have hrecovered : (w.putBack columns packets nextCheckStart).recoveredColumns =
      w.recoveredColumns ++ (columns.map fun x => s.base + x.element).reverse := by
    rw [SumWindow.putBack, hcolumns]
  have hnot : ∀ k ∈ columns.map (fun x => s.base + x.element), k ∉ s.got ∧ s.base ≤ k := by
    intro k hk
    obtain ⟨x, hx, rfl⟩ := List.mem_map.mp hk
    exact ⟨(hasks.lost x hx).2.2.1, Nat.le_add_right _ _⟩
  have hholes : (s.got ∪ (columns.map fun x => s.base + x.element).toFinset) \
      (w.putBack columns packets nextCheckStart).recoveredColumns.toFinset =
        s.got \ w.recoveredColumns.toFinset := by
    ext k
    rw [hrecovered]
    simp only [mem_sdiff, mem_union, List.mem_toFinset, List.mem_append, List.mem_reverse]
    have hk := hnot k
    tauto
  have hmem : ∀ k ∈ (w.putBack columns packets nextCheckStart).recoveredColumns,
      k ∈ w.recoveredColumns ∨ k ∈ columns.map fun x => s.base + x.element := by
    intro k hk
    rw [hrecovered] at hk
    exact (List.mem_append.mp hk).imp_right List.mem_reverse.mp
  rw [hnew]
  refine ⟨?_, fun e he => ?_, ?_, h.short, h.aligned, ⟨?_, fun k hk => ?_⟩, ?_⟩
  · rw [receipt]
    dsimp only
    rw [hrecover, ← hnew]
    exact hrepresents
  · dsimp only at he ⊢
    rw [hrecover, DecoderPacketWindow.recover] at he ⊢
    rw [DecoderPacketWindow.has_iterate] at he
    rw [DecoderPacketWindow.getWindowElement_iterate, hget e]
    by_cases hin : e ∈ columns.map (·.element)
    · obtain ⟨x, hx, rfl⟩ := List.mem_map.mp hin
      rw [if_pos hin]
      exact ⟨rfl, (hasks.lost x hx).2.2.2⟩
    · have hhad := (hhas e).symm.trans he
      rw [hfirst, decide_eq_false hin, Bool.or_false] at hhad
      rw [if_neg hin]
      exact h.contents e hhad
  · dsimp only
    rw [hrecover, DecoderPacketWindow.recover, DecoderPacketWindow.count_iterate, hcount]
    exact h.inside
  · dsimp only
    rw [hrecovered]
    refine hsound.pending.nodup.append
      (List.nodup_reverse.mpr (nodup_numbers s.base hnodup)) fun k hk hk' => ?_
    exact (hnot k (List.mem_reverse.mp hk')).1 (hsound.pending.got k hk)
  · rcases hmem k hk with hk | hk
    · exact mem_union_left _ (hsound.pending.got k hk)
    · exact mem_union_right _ (List.mem_toFinset.mpr hk)
  · rcases hsound.summing with ⟨top, hreaches⟩ | hstale
    · refine .inl ⟨top, ⟨?_, hreaches.running.upTo, fun k hk => ?_⟩, hreaches.base_le,
        hreaches.start_le, hreaches.le, hreaches.after⟩
      · dsimp only
        rw [hholes]
        exact hreaches.running.holds
      · rcases hmem k hk with hk | hk
        · exact hreaches.running.kept k hk
        · exact (hnot k hk).2
    · exact .inr ⟨hstale.idle, hstale.apart⟩

/-- A packet that is alone in a recovery packet takes its place. -/
theorem HoldsSent.single (h : s.HoldsSent data top) {r : RecoveryPacket} {n a q : Nat}
    (hstored : s.window.Stored (streamed data) s.got s.base n a q r)
    (hone : r.metadata.sumCount = 1) (hsendable : Sendable (data a)) :
    ∃ w, s.window.addSingleRecovery r = some w ∧
      s.window.columnToElement r.metadata.columnStart = a - s.base ∧ s.base ≤ a ∧
      HoldsSent data top { s with window := w, got := insert a s.got } := by
  have hnear := h.near
  have hbase := hstored.arrived.base_le
  have hle := hstored.arrived.combines.le
  have hlt := hstored.arrived.combines.lt
  have hinside := hstored.inside
  obtain ⟨hcolumn, hcount⟩ := hstored.columnStart h.shows
  rw [hcount] at hone
  obtain rfl : q = a := by omega
  obtain ⟨e, rfl⟩ : ∃ e, q = s.base + e := ⟨q - s.base, by omega⟩
  have helement : s.window.columnToElement r.metadata.columnStart = e := by
    rw [hcolumn, h.shows.columnToElement hbase (by unfold siamesePacketNumCount at *; omega),
      Nat.add_sub_cancel_left]
  have hwellFormed : s.window.toDecoderPacketWindow.WellFormed := h.represents.wellFormed
  by_cases hhas : s.window.has e = true
  · refine ⟨s.window, ?_, by rw [helement, Nat.add_sub_cancel_left],
      hbase, ?_⟩
    · unfold SumWindow.addSingleRecovery
      rw [helement]
      dsimp only
      have hvalid : ¬s.window.InvalidElement e := not_le.mpr (by omega)
      rw [if_neg hvalid, if_pos ((hwellFormed.stored e).mp hhas)]
    · rwa [insert_eq_of_mem ((h.has_iff e).mp hhas)]
  · have hlost := eq_false_of_ne_true hhas
    have hgot := mt (h.has_iff e).mpr hhas
    refine ⟨_, SumWindow.addSingleRecovery_framed hwellFormed helement (by omega) hlost
      (hstored.arrived.combines.alone hone).2 hsendable, by rw [helement, Nat.add_sub_cancel_left],
      hbase, ?_⟩
    have hasks : s.Asks data [⟨e, r.metadata.columnStart⟩] [] := by
      refine ⟨List.cons_ne_nil _ _, fun x hx => ?_, by simp, by simp⟩
      rw [List.mem_singleton.mp hx, hcolumn]
      dsimp only
      exact ⟨(Nat.mod_eq_of_lt (by unfold siamesePacketNumCount at *; omega)).symm, by omega, hgot,
        hsendable⟩
    have hexpected : s.window.nextExpectedElement ≤ e := by
      by_contra hgt
      exact hhas (hwellFormed.before e (by omega))
    have hall : ∀ e' < if e = s.window.nextExpectedElement then e + 1
        else s.window.nextExpectedElement, s.base + e' ∉ s.got →
          e' ∈ [(⟨e, r.metadata.columnStart⟩ : ColumnInfo)].map (·.element) := by
      intro e' he' hlost'
      have hge : s.window.nextExpectedElement ≤ e' := by
        by_contra hbefore
        exact hlost' ((h.has_iff e').mp (hwellFormed.before e' (not_le.mp hbefore)))
      split at he'
      · exact List.mem_singleton.mpr (show e' = e by omega)
      · omega
    have hput := h.putBack hasks (List.nodup_singleton e) (by omega) hall rfl rfl
      ⟨h.shows, h.pending, h.summing.mono subset_union_left⟩
    have hinsert : insert (s.base + e) s.got = s.got ∪ [s.base + e].toFinset := by
      rw [insert_eq, union_comm]
      simp
    rw [hinsert]
    exact hput

/-- The window is shortened with its sums. -/
theorem HoldsSent.removed (h : s.HoldsSent data top) {firstKeptSubwindow : Nat}
    (hpos : 0 < firstKeptSubwindow)
    (hexpected : firstKeptSubwindow * subwindowSize ≤ s.window.nextExpectedElement)
    {target : Option (RecoveryMetadata × Nat)}
    (htarget : ∀ x ∈ target, s.Targets (firstKeptSubwindow * subwindowSize) x.1)
    {w : SumWindow} (hdone : s.window.removeElements target firstKeptSubwindow = some w) :
    HoldsSent data top { s with
      window := w
      base := s.base + firstKeptSubwindow * subwindowSize } := by
  have hinside := h.inside
  have haligned := h.aligned
  have hle : s.window.nextExpectedElement ≤ s.window.count := h.represents.wellFormed.expected_le
  have hsize : firstKeptSubwindow * subwindowSize = firstKeptSubwindow * 64 := rfl
  obtain ⟨v, hv, rfl⟩ := Option.map_eq_some_iff.mp hdone
  have hmoved : v.toDecoderPacketWindow = s.window.toDecoderPacketWindow ∧ v.Pending s.got ∧
      v.Summing (streamed data) s.got s.got (s.base + firstKeptSubwindow * subwindowSize) := by
    rcases target with _ | ⟨metadata, recoveryBytes⟩
    · cases hv
      exact ⟨rfl, ⟨h.pending.nodup, h.pending.got⟩,
        .inr (SumWindow.stale_of_summing h.summing (by unfold columnLaneCount; omega))⟩
    · obtain ⟨hcount, hwithin, havailable, hgot⟩ := htarget _ rfl
      obtain ⟨sumCount, ldpcCount, columnStart⟩ := metadata
      obtain ⟨v', top, hv', hwindow, hrecovered, hreaches⟩ := SumWindow.moveSums_spec
        (fun k => framed_ne_nil (data k)) h.shows h.pending hcount hwithin h.summing
        (havailable.imp_right fun hgoes => ⟨fun hstale => hgoes.1 hstale.idle, hgoes.2⟩)
        (by unfold columnLaneCount; omega) (hexpected.trans hle) hgot ldpcCount recoveryBytes
      obtain rfl := Option.some.inj (hv'.symm.trans hv)
      exact ⟨hwindow, ⟨by simp [hrecovered], by simp [hrecovered]⟩, .inl ⟨top, hreaches⟩⟩
  obtain ⟨hwindow, hpending, hsumming⟩ := hmoved
  rw [hwindow]
  refine ⟨h.represents.removed (show _ ≤ s.window.nextExpectedElement from hexpected),
    fun e he => ?_, ?_, h.short, ?_, hpending.withWindow _, hsumming.withWindow _⟩
  · dsimp only at he ⊢
    rw [DecoderPacketWindow.has_shift] at he
    have hnumber : s.base + firstKeptSubwindow * subwindowSize + e =
        s.base + (e + firstKeptSubwindow * 64) := by omega
    rw [DecoderPacketWindow.getWindowElement_shift, hnumber]
    exact h.contents _ he
  · show s.base + firstKeptSubwindow * subwindowSize +
      (s.window.count - firstKeptSubwindow * subwindowSize) ≤ _
    omega
  · unfold columnLaneCount at *
    dsimp only
    omega

end Collector

end FecRelay
