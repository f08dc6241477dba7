import FecRelay.Base.Run
import FecRelay.Codec.DecoderWindow

/-!
# Runs of a decoder's window

A window starts at some packet and then is given packets in any order, grows to the end of
recovery packets, has packets recovered in it, and lets go of whole subwindows of packets
that are there. Numbers count packets without end; the window knows them modulo the period.
-/

namespace FecRelay

open FecRelay.Base

/-- A window, with the number of the packet at its first element and the numbers of the
packets that it was given or recovered. -/
structure Receipt where
  window : DecoderPacketWindow
  base : Nat
  known : Finset Nat

namespace Receipt

/-- The window of a decoder whose first packet decided where it starts. -/
def start (num : Nat) : Receipt where
  window := { columnStart := num % siamesePacketNumCount }
  base := num
  known := ∅

inductive Event
  | original (num : Nat) (data : Bytes)
  /-- A recovery packet makes the window grow to the packets that it protects. -/
  | covers (top : Nat)
  | recovered (packets : List (Nat × OriginalPacket)) (nextCheckStart : Nat)
  | removed (firstKeptSubwindow : Nat)

/-- Packets are less than half a period from the window. What is recovered was lost, and
nothing stays lost before the end of the region that was checked. What is removed is there. -/
def Allowed (s : Receipt) : Event → Prop
  | .original num data => data ≠ [] ∧ num < s.base + siamesePacketNumCount / 2 ∧
      s.base < num + siamesePacketNumCount / 2
  | .covers top => top ≤ s.base + siamesePacketNumCount / 2
  | .recovered packets nextCheckStart => s.window.nextExpectedElement < s.window.count ∧
      (packets.map Prod.fst).Nodup ∧
      (∀ x ∈ packets, x.1 < s.window.count ∧ s.window.has x.1 = false ∧ x.2.buffer ≠ []) ∧
      ∀ e < nextCheckStart, s.window.has e = false → e ∈ packets.map Prod.fst
  | .removed firstKeptSubwindow =>
      firstKeptSubwindow * subwindowSize ≤ s.window.nextExpectedElement

def next (s : Receipt) : Event → Receipt
  | .original num data => { s with
      window := (s.window.addOriginal (num % siamesePacketNumCount) data).2
      known := insert num s.known }
  | .covers top => { s with window := s.window.growWindow (top - s.base) }
  | .recovered packets nextCheckStart => { s with
      window := s.window.recover packets nextCheckStart
      known := s.known ∪ (packets.map fun x => s.base + x.1).toFinset }
  | .removed firstKeptSubwindow => { s with
      window := s.window.shift firstKeptSubwindow
      base := s.base + firstKeptSubwindow * subwindowSize }

def Step (s : Receipt) (event : Event) (t : Receipt) : Prop := s.Allowed event ∧ t = s.next event

/-- What the window says is so. -/
structure Represents (first : Nat) (s : Receipt) : Prop where
  wellFormed : s.window.WellFormed
  columnStart : s.window.columnStart = s.base % siamesePacketNumCount
  count_le : s.window.count ≤ siamesePacketNumCount / 2
  has_iff : ∀ e, s.window.has e = true ↔ s.base + e ∈ s.known
  first_le : first ≤ s.base
  before : ∀ num, first ≤ num → num < s.base → num ∈ s.known

variable {first : Nat} {s t : Receipt}

theorem represents_start (num : Nat) : (start num).Represents num where
  wellFormed := {
    DecoderPacketWindow.wellFormed_init with
    counts := DecoderPacketWindow.wellFormed_init.counts }
  columnStart := rfl
  count_le := Nat.zero_le _
  has_iff e := by simp [start, DecoderPacketWindow.has, DecoderPacketWindow.subwindow]
  first_le := le_rfl
  before num hle hlt := absurd hlt (by simpa [start] using hle)

theorem columnStart_addOriginal (w : DecoderPacketWindow) (packetNum : Nat) (data : Bytes) :
    (w.addOriginal packetNum data).2.columnStart = w.columnStart := by
  unfold DecoderPacketWindow.addOriginal DecoderPacketWindow.iterateNextExpectedElement
  dsimp only
  split
  · rfl
  split
  · rfl
  split
  · split <;> rfl
  · rfl

/-- The window is past a packet that is before it. -/
theorem Represents.addOriginal_old (h : s.Represents first) {num : Nat} {data : Bytes}
    (hallowed : s.Allowed (.original num data)) (hold : num < s.base) :
    s.window.addOriginal (num % siamesePacketNumCount) data = (.duplicateData, s.window) := by
  obtain ⟨-, hahead, hbehind⟩ := hallowed
  have hbackwards := Cyclic.backwards_iff (p := siamesePacketNumCount) ⟨2 ^ 21, rfl⟩ hahead hbehind
  unfold DecoderPacketWindow.addOriginal DecoderPacketWindow.columnToElement
  dsimp only
  rw [h.columnStart, if_pos (hbackwards.mpr hold)]

/-- Any other packet is at the element that it is named after. -/
theorem Represents.element_original (h : s.Represents first) {num : Nat} {data : Bytes}
    (hallowed : s.Allowed (.original num data)) (hnew : s.base ≤ num) :
    s.window.columnToElement (num % siamesePacketNumCount) = num - s.base ∧
      ¬Cyclic.backwards siamesePacketNumCount (num - s.base) = true := by
  obtain ⟨-, hahead, -⟩ := hallowed
  refine ⟨?_, ?_⟩
  · unfold DecoderPacketWindow.columnToElement
    rw [h.columnStart]
    exact Cyclic.distance_of_near hnew (by omega)
  · unfold Cyclic.backwards
    rw [decide_eq_true_iff]
    omega

/-- A packet makes the window grow to it at most. -/
theorem Represents.count_original (h : s.Represents first) {num : Nat} {data : Bytes}
    (hallowed : s.Allowed (.original num data)) :
    (s.next (.original num data)).window.count ≤ max s.window.count (num + 1 - s.base) := by
  simp only [next]
  rcases Nat.lt_or_ge num s.base with hold | hnew
  · rw [h.addOriginal_old hallowed hold]
    exact le_max_left _ _
  · obtain ⟨helement, hforward⟩ := h.element_original hallowed hnew
    obtain ⟨-, -, -, hcount⟩ := h.wellFormed.addOriginal_spec helement hforward data
    rw [hcount]
    omega

/-- A packet takes its place unless the window is past it. -/
theorem Represents.original (h : s.Represents first) {num : Nat} {data : Bytes}
    (hallowed : s.Allowed (.original num data)) :
    (s.next (.original num data)).Represents first where
  wellFormed := h.wellFormed.addOriginal hallowed.1
  columnStart := (columnStart_addOriginal _ _ _).trans h.columnStart
  count_le := by
    have hle := h.count_le
    have hcount := h.count_original hallowed
    obtain ⟨-, hahead, -⟩ := hallowed
    omega
  has_iff e := by
    simp only [next]
    rw [Finset.mem_insert]
    rcases Nat.lt_or_ge num s.base with hold | hnew
    · rw [h.addOriginal_old hallowed hold, h.has_iff]
      constructor
      · exact Or.inr
      · rintro (heq | hknown)
        · omega
        · exact hknown
    · obtain ⟨helement, hforward⟩ := h.element_original hallowed hnew
      obtain ⟨-, hhas, -⟩ := h.wellFormed.addOriginal_spec helement hforward data
      rw [hhas, Bool.or_eq_true_iff, decide_eq_true_iff, h.has_iff, or_comm]
      have hplace : e = num - s.base ↔ s.base + e = num := by omega
      rw [hplace]
  first_le := h.first_le
  before n hle hlt := Finset.mem_insert_of_mem (h.before n hle hlt)

theorem Represents.covers (h : s.Represents first) {top : Nat}
    (hallowed : s.Allowed (.covers top)) : (s.next (.covers top)).Represents first where
  wellFormed := h.wellFormed.growWindow _
  columnStart := h.columnStart
  count_le := by
    have hle := h.count_le
    have htop : top ≤ s.base + siamesePacketNumCount / 2 := hallowed
    simp only [next]
    rw [DecoderPacketWindow.count_growWindow]
    omega
  has_iff e := by simpa [next] using h.has_iff e
  first_le := h.first_le
  before := h.before

theorem Represents.recovered (h : s.Represents first) {packets : List (Nat × OriginalPacket)}
    {nextCheckStart : Nat} (hallowed : s.Allowed (.recovered packets nextCheckStart)) :
    (s.next (.recovered packets nextCheckStart)).Represents first := by
  obtain ⟨hlt, hnodup, hpackets, hall⟩ := hallowed
  obtain ⟨-, hcount, -, hhas⟩ := h.wellFormed.toCoherent.fills hnodup hpackets
  have hstart : ∀ (packets : List (Nat × OriginalPacket)) (w : DecoderPacketWindow),
      (packets.foldl (fun w x => w.fill x.1 x.2) w).columnStart = w.columnStart := by
    intro packets
    induction packets with
    | nil => exact fun _ => rfl
    | cons x xs ih => exact fun w => ih (w.fill x.1 x.2)
  refine ⟨h.wellFormed.recover hlt hnodup hpackets hall, ?_, ?_, fun e => ?_, h.first_le,
    fun n hle hlt => Finset.mem_union_left _ (h.before n hle hlt)⟩
  · simp only [next, DecoderPacketWindow.recover]
    unfold DecoderPacketWindow.iterateNextExpectedElement
    split
    · exact (hstart packets s.window).trans h.columnStart
    · exact (hstart packets s.window).trans h.columnStart
  · simp only [next, DecoderPacketWindow.recover]
    rw [DecoderPacketWindow.count_iterate, hcount]
    exact h.count_le
  · simp only [next, DecoderPacketWindow.recover]
    rw [DecoderPacketWindow.has_iterate, hhas, Bool.or_eq_true_iff, h.has_iff,
      decide_eq_true_iff, Finset.mem_union, List.mem_toFinset]
    simp [List.mem_map]

theorem Represents.removed (h : s.Represents first) {firstKeptSubwindow : Nat}
    (hallowed : s.Allowed (.removed firstKeptSubwindow)) :
    (s.next (.removed firstKeptSubwindow)).Represents first := by
  have hremoved : firstKeptSubwindow * 64 ≤ s.window.nextExpectedElement := hallowed
  refine ⟨h.wellFormed.shift hremoved, ?_, ?_, fun e => ?_, ?_, fun n hle hlt => ?_⟩
  · simp only [next, DecoderPacketWindow.shift, DecoderPacketWindow.elementToColumn]
    rw [h.columnStart, Nat.add_mod_mod, Nat.add_comm]
  · have hle := h.count_le
    simp only [next, DecoderPacketWindow.shift]
    omega
  · simp only [next]
    rw [DecoderPacketWindow.has_shift, h.has_iff, DecoderPacketWindow.subwindowSize_eq]
    have hsum : s.base + (e + firstKeptSubwindow * 64) = s.base + firstKeptSubwindow * 64 + e := by
      omega
    rw [hsum]
  · have hle := h.first_le
    simp only [next]
    omega
  · simp only [next, DecoderPacketWindow.subwindowSize_eq] at hlt
    rcases Nat.lt_or_ge n s.base with hold | hnew
    · exact h.before n hle hold
    · have hhas := h.wellFormed.before (n - s.base) (by omega)
      rw [h.has_iff, Nat.add_sub_cancel' hnew] at hhas
      exact hhas

theorem Represents.step (h : s.Represents first) {event : Event} (hstep : Step s event t) :
    t.Represents first := by
  obtain ⟨hallowed, rfl⟩ := hstep
  cases event with
  | original num data => exact h.original hallowed
  | covers top => exact h.covers hallowed
  | recovered packets nextCheckStart => exact h.recovered hallowed
  | removed firstKeptSubwindow => exact h.removed hallowed

/-- **A window is right about what it has**, after any run. -/
theorem represents {es : List Event} (h : Run Step (start first) es s) : s.Represents first :=
  h.invariant (fun _ _ _ hs hstep => hs.step hstep) (represents_start first)

/-- The numbers of the packets that the window misses. -/
def missing (s : Receipt) : List Nat :=
  (List.range' s.base s.window.count).filter (· ∉ s.known)

/-- The number of the packet that the window expects next. -/
def expected (s : Receipt) : Nat := s.base + s.window.nextExpectedElement

/-- Every packet before the expected one was received, and that one was not. -/
theorem Represents.expected_spec (h : s.Represents first) :
    first ≤ s.expected ∧ s.expected ∉ s.known ∧
      ∀ num, first ≤ num → num < s.expected → num ∈ s.known := by
  have hle := h.first_le
  unfold expected
  refine ⟨by omega, ?_, fun num hfirst hlt => ?_⟩
  · rw [← h.has_iff, h.wellFormed.expected]
    exact Bool.false_ne_true
  · rcases Nat.lt_or_ge num s.base with hold | hnew
    · exact h.before num hfirst hold
    · have hhas := h.wellFormed.before (num - s.base) (by omega)
      rw [h.has_iff, Nat.add_sub_cancel' hnew] at hhas
      exact hhas

end Receipt

end FecRelay
