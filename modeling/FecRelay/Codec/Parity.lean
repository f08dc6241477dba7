import FecRelay.Codec.Decoding
import FecRelay.Packet

/-!
# A stream codec with parity packets

Its recovery packet is the sum of all packets so far, so two recovery packets that
cover the same losses do not tell them apart: as in Siamese, a decoder that holds as
many of them as packets are lost is ready, and then fails to solve.
-/

namespace FecRelay

/-- The packets a decoder has seen, and its recovery packets with how many packets each
of them covers. -/
structure Parity where
  seen : List (Nat × Bytes) := []
  rows : List (Nat × Bytes) := []
  solveFailed : Bool := false

namespace Parity

/-- The sum of two packets, the shorter one padded with zeros. -/
def add : Bytes → Bytes → Bytes
  | [], ys => ys
  | xs, [] => xs
  | x :: xs, y :: ys => (x ^^^ y) :: add xs ys

/-- The sum of packets with their lengths in front. -/
def sum (packets : List Bytes) : Bytes :=
  packets.foldr (fun data rest => add (store32 (UInt32.ofNat data.length) ++ data) rest) []

def encode (added : List Bytes) : SiameseResult × Bytes × List Bytes :=
  if added = [] then (.needMoreData, [], added)
  else (.success, store32 (UInt32.ofNat added.length) ++ sum added, added)

def addOriginal (d : Parity) (num : Nat) (data : Bytes) : SiameseResult × Parity :=
  if num ∈ d.seen.map (·.1) then (.duplicateData, d)
  else (.success, { d with seen := d.seen ++ [(num, data)], solveFailed := false })

def addRecovery (d : Parity) (data : Bytes) : SiameseResult × Parity :=
  (.success, { d with
    rows := d.rows ++ [((load32 data).toNat, data.drop 4)]
    solveFailed := false })

/-- The packets among the first `count` that were not seen. -/
def lostBefore (d : Parity) (count : Nat) : List Nat :=
  (List.range (min count siamesePacketNumCount)).filter fun num => num ∉ d.seen.map (·.1)

/-- The recovery packets that cover a lost packet. -/
def useful (d : Parity) : List (Nat × Bytes) := d.rows.filter fun row => d.lostBefore row.1 ≠ []

/-- All that is lost and covered. -/
def lost (d : Parity) : List Nat := d.lostBefore (d.rows.foldl (fun count row => max count row.1) 0)

def isReady (d : Parity) : SiameseResult × Parity :=
  if d.lost ≠ [] ∧ d.lost.length ≤ d.useful.length ∧ d.solveFailed = false then (.success, d)
  else (.needMoreData, d)

/-- The packet that a recovery packet determines, if it covers just one that is lost. -/
def solve (d : Parity) (row : Nat × Bytes) : Option (Nat × Bytes) :=
  match d.lostBefore row.1 with
  | [num] =>
      let rest := (d.seen.filter fun packet => packet.1 < row.1).map (·.2)
      let framed := add row.2 (sum rest)
      some (num, (framed.drop 4).take (load32 framed).toNat)
  | _ => none

def decode (d : Parity) : SiameseResult × List (Nat × Bytes) × Parity :=
  match d.rows.findSome? d.solve with
  | none => (.needMoreData, [], { d with solveFailed := true })
  | some packet => (.success, [packet], { d with seen := d.seen ++ [packet] })

/-- The first packet not seen. -/
def expects (d : Parity) : Nat := ((d.lostBefore (d.seen.length + 1)).head?).getD d.seen.length

def ack (d : Parity) : SiameseResult × Bytes × Parity :=
  if d.seen = [] ∧ d.rows = [] then (.needMoreData, [], d)
  else (.success, store32 (UInt32.ofNat d.expects), d)

end Parity

@[reducible] def summing : Siamese where
  Encoder := List Bytes
  Decoder := Parity
  encoderCreate := []
  encoderAdd e data := (.success, e.length % siamesePacketNumCount, e ++ [data])
  encode := Parity.encode
  encoderAck e message := (.success, (load32 message).toNat, e)
  decoderCreate := {}
  decoderAddOriginal := Parity.addOriginal
  decoderAddRecovery := Parity.addRecovery
  decoderIsReady := Parity.isReady
  decode := Parity.decode
  decoderAck d _ := d.ack

namespace Parity

/-! ## The documented answers -/

theorem addOriginal_answers (d : Parity) (num : Nat) (data : Bytes) :
    (d.addOriginal num data).1 = .success ∨ (d.addOriginal num data).1 = .duplicateData := by
  unfold addOriginal
  split
  · exact Or.inr rfl
  · exact Or.inl rfl

theorem isReady_answers (d : Parity) :
    d.isReady.1 = .success ∨ d.isReady.1 = .needMoreData := by
  unfold isReady
  split
  · exact Or.inl rfl
  · exact Or.inr rfl

theorem isReady_same (d : Parity) : d.isReady.2 = d := by
  unfold isReady
  split <;> rfl

theorem decode_answers (d : Parity) : d.decode.1 = .success ∨ d.decode.1 = .needMoreData := by
  unfold decode
  split
  · exact Or.inr rfl
  · exact Or.inl rfl

theorem ack_answers (d : Parity) : d.ack.1 = .success ∨ d.ack.1 = .needMoreData := by
  unfold ack
  split
  · exact Or.inr rfl
  · exact Or.inl rfl

/-- A decode that succeeds recovers one packet, which was lost, and has seen it then. -/
theorem decode_success {d : Parity} (h : d.decode.1 = .success) :
    ∃ packet, d.decode.2.1 = [packet] ∧ packet.1 ∉ d.seen.map (·.1) ∧
      packet.1 < siamesePacketNumCount ∧ d.decode.2.2.seen = d.seen ++ [packet] := by
  unfold decode at h ⊢
  cases hsolve : d.rows.findSome? d.solve with
  | none =>
      rw [hsolve] at h
      cases h
  | some packet =>
      obtain ⟨row, -, hrow⟩ := List.exists_of_findSome?_eq_some hsolve
      refine ⟨packet, rfl, ?_⟩
      unfold solve at hrow
      split at hrow
      · next num hlost =>
          cases hrow
          have hmem : num ∈ d.lostBefore row.1 := by simp [hlost]
          obtain ⟨hrange, hunseen⟩ := List.mem_filter.mp hmem
          have hlt := List.mem_range.mp hrange
          exact ⟨of_decide_eq_true hunseen, by omega, rfl⟩
      · cases hrow

/-- What the passes of a decode loop recover was seen neither before nor by one another. -/
theorem drains_seen {d d' : summing.Decoder} {nums : List Nat} (h : summing.Drains d nums d') :
    nums.Nodup ∧ ∀ num ∈ nums, num < siamesePacketNumCount ∧ num ∈ (Parity.seen d').map (·.1) := by
  induction h with
  | start => exact ⟨.nil, fun num hnum => absurd hnum List.not_mem_nil⟩
  | @pass nums d' _ hsolves ih =>
      obtain ⟨-, hsuccess⟩ := hsolves
      unfold Siamese.solution Siamese.solved
      rw [show (summing.decoderIsReady d').2 = d' from isReady_same d'] at hsuccess ⊢
      obtain ⟨packet, hpacket, hunseen, hlt, hseen⟩ := decode_success hsuccess
      show (nums ++ (Parity.decode d').2.1.map _).Nodup ∧
        ∀ num ∈ nums ++ (Parity.decode d').2.1.map _, _ ∧
          num ∈ (Parity.decode d').2.2.seen.map _
      rw [hpacket, hseen]
      constructor
      · refine List.nodup_append.mpr ⟨ih.1, List.nodup_singleton _, ?_⟩
        rintro num hnum _ hlast rfl
        obtain rfl : num = packet.1 := by simpa using hlast
        exact hunseen (ih.2 _ hnum).2
      · intro num hnum
        rw [List.map_append, List.mem_append]
        rcases List.mem_append.mp hnum with hnum | hnum
        · exact ⟨(ih.2 num hnum).1, Or.inl (ih.2 num hnum).2⟩
        · obtain rfl : num = packet.1 := by simpa using hnum
          exact ⟨hlt, Or.inr (by simp)⟩

theorem progresses : summing.Progresses where
  recovers _ _ _ d _ _ hsuccess := by
    obtain ⟨packet, hpacket, -⟩ := decode_success hsuccess
    show d.decode.2.1 ≠ []
    simp [hpacket]
  firstSeen _ _ _ _ _ nums _ _ hdrains :=
    ⟨(drains_seen hdrains).1, fun num hnum => ((drains_seen hdrains).2 num hnum).1⟩

theorem interface : summing.Interface where
  toProgresses := progresses
  original _ _ _ d k data _ _ _ := addOriginal_answers d _ data
  recovery _ _ _ _ _ _ _ _ := rfl
  ready _ _ _ d _ _ := isReady_answers d
  decode _ _ _ d _ _ := decode_answers d
  ack _ _ _ d _ _ _ _ := ack_answers d

end Parity

end FecRelay
