import FecRelay.Codec.DecoderWindow
import FecRelay.Codec.Deserializers
import FecRelay.Codec.Solver

/-!
# From a solved matrix to packets

`MultiplyLowerTriangle` and `BackSubstitution`: the buffers of the rows go through the same
elimination as the matrix did, and the packets come out from the last column to the first.
Where the equations hold, what comes out are the lost packets, whatever their lengths.
-/

namespace FecRelay

open FecRelay.Base FecRelay.Base.Elimination Finset

/-- `kAlignmentBytes`, with AVX2. -/
def alignmentBytes : Nat := 32

namespace RecoveryMatrixState

/-- A row below `colI` in `MultiplyLowerTriangle`. -/
def multiplyInto (s : RecoveryMatrixState) (colI : Nat) (srcData : Bytes) (b : Nat → Bytes)
    (colJ : Nat) : Nat → Bytes :=
  let y := s.matrix (s.pivots colJ) colI
  if y = 0 then b
  else
    Function.update b (s.pivots colJ)
      (muladdMem (growZeroPadded (b (s.pivots colJ)) srcData.length) y.byte srcData)

/-- `MultiplyLowerTriangle`, on the buffers of the rows. -/
def multiplyLowerTriangle (s : RecoveryMatrixState) (b : Nat → Bytes) : Nat → Bytes :=
  (List.range (s.columns.length - 1)).foldl (fun b colI =>
    (List.range' (colI + 1) (s.columns.length - (colI + 1))).foldl
      (s.multiplyInto colI (b (s.pivots colI))) b) b

/-- A row above `colI` in `BackSubstitution`. -/
def substituteInto (s : RecoveryMatrixState) (colI : Nat) (buffer : Bytes) (b : Nat → Bytes)
    (colJ : Nat) : Nat → Bytes :=
  let x := s.matrix (s.pivots colJ) colI
  if x = 0 then b
  else Function.update b (s.pivots colJ) (muladdMem (b (s.pivots colJ)) x.byte buffer)

/-- What is revealed of a row: the packet, once its length was read from the first bytes. -/
def reveal (buffer : Bytes) (invY : UInt8) : Option OriginalPacket :=
  let lengthCheckBytes := min alignmentBytes buffer.length
  let front := mulMem (buffer.take lengthCheckBytes) invY
  match deserializeHeaderPacketLength front with
  | none => none
  | some (headerBytes, length) =>
      if length = 0 ∨ buffer.length < headerBytes + length then none
      else
        let bufferBytes := headerBytes + length
        some {
          buffer := front.take bufferBytes ++
            mulMem ((buffer.take bufferBytes).drop lengthCheckBytes) invY
          headerBytes := headerBytes }

/-- The loop of `BackSubstitution` over so many columns, from the last to the first. What is
recovered is listed in the order of the columns, with `iterateNextExpected`. -/
def substituteColumns (s : RecoveryMatrixState) (w : DecoderPacketWindow) :
    Nat → (Nat → Bytes) → Option (List (Nat × OriginalPacket) × Bool)
  | 0, _ => some ([], false)
  | colI + 1, b =>
      match s.columns[colI]? with
      | none => none
      | some column =>
          let y := s.matrix (s.pivots colI) colI
          match reveal (b (s.pivots colI)) (Gf256.inv y.byte), w.markGotColumn column.column with
          | some original, some nextExpected =>
              match substituteColumns s w colI
                ((List.range colI).foldl (s.substituteInto colI original.buffer) b) with
              | none => none
              | some (packets, iterateNextExpected) =>
                  some (packets ++ [(column.element, original)],
                    iterateNextExpected || nextExpected)
          | _, _ => none

/-- `BackSubstitution`, and `none` where it disables the decoder. The next expected packet has
to be among those that are recovered. -/
def backSubstitution (s : RecoveryMatrixState) (w : DecoderPacketWindow) (b : Nat → Bytes) :
    Option (List (Nat × OriginalPacket)) :=
  match s.substituteColumns w s.columns.length b with
  | none => none
  | some (packets, iterateNextExpected) => if iterateNextExpected then some packets else none

/-! ## Loops over buffers -/

/-- A loop over different buffers changes each of them once. -/
theorem foldl_update {ks : List Nat} (b : Nat → Bytes) {p : Nat → Nat}
    {step : (Nat → Bytes) → Nat → Nat → Bytes} (f : Nat → Bytes → Bytes) (hnodup : ks.Nodup)
    (hp : ∀ k ∈ ks, ∀ k' ∈ ks, p k = p k' → k = k')
    (hstep : ∀ b k, step b k = Function.update b (p k) (f k (b (p k)))) :
    (∀ k ∈ ks, ks.foldl step b (p k) = f k (b (p k))) ∧
      ∀ i, (∀ k ∈ ks, p k ≠ i) → ks.foldl step b i = b i := by
  induction ks generalizing b with
  | nil => simp
  | cons k ks ih =>
      obtain ⟨hk, hks⟩ := List.nodup_cons.mp hnodup
      have hother : ∀ k' ∈ ks, p k' ≠ p k := fun k' hk' heq =>
        hk (hp k' (List.mem_cons_of_mem _ hk') k (List.mem_cons_self ..) heq ▸ hk')
      obtain ⟨hin, hout⟩ := ih (step b k) hks fun x hx y hy =>
        hp x (List.mem_cons_of_mem _ hx) y (List.mem_cons_of_mem _ hy)
      rw [hstep] at hin hout
      rw [List.foldl_cons, hstep]
      constructor
      · intro k' hk'
        rcases List.mem_cons.mp hk' with rfl | hk'
        · rw [hout _ hother, Function.update_self]
        · rw [hin k' hk', Function.update_of_ne (hother k' hk')]
      · intro i hi
        rw [hout i fun k' hk' => hi k' (List.mem_cons_of_mem _ hk'),
          Function.update_of_ne (hi k (List.mem_cons_self ..)).symm]

/-- What `multiplyInto` makes of a buffer. -/
def multiplied (s : RecoveryMatrixState) (colI : Nat) (srcData : Bytes) (colJ : Nat)
    (buffer : Bytes) : Bytes :=
  if s.matrix (s.pivots colJ) colI = 0 then buffer
  else muladdMem (growZeroPadded buffer srcData.length) (s.matrix (s.pivots colJ) colI).byte srcData

/-- What `substituteInto` makes of a buffer. -/
def substituted (s : RecoveryMatrixState) (colI : Nat) (packet : Bytes) (colJ : Nat)
    (buffer : Bytes) : Bytes :=
  if s.matrix (s.pivots colJ) colI = 0 then buffer
  else muladdMem buffer (s.matrix (s.pivots colJ) colI).byte packet

theorem multiplyInto_eq (s : RecoveryMatrixState) (colI : Nat) (srcData : Bytes)
    (b : Nat → Bytes) (colJ : Nat) : s.multiplyInto colI srcData b colJ =
      Function.update b (s.pivots colJ) (s.multiplied colI srcData colJ (b (s.pivots colJ))) := by
  unfold multiplyInto multiplied
  dsimp only
  split
  · exact (Function.update_eq_self _ _).symm
  · rfl

theorem substituteInto_eq (s : RecoveryMatrixState) (colI : Nat) (buffer : Bytes)
    (b : Nat → Bytes) (colJ : Nat) : s.substituteInto colI buffer b colJ =
      Function.update b (s.pivots colJ) (s.substituted colI buffer colJ (b (s.pivots colJ))) := by
  unfold substituteInto substituted
  dsimp only
  split
  · exact (Function.update_eq_self _ _).symm
  · rfl

/-! ## What the buffers hold -/

section buffers

variable {s : RecoveryMatrixState} {A : Nat → Nat → Gf256} {cols n : Nat} {packet : Nat → Bytes}
  {b : Nat → Bytes}

/-- What the equations of a row say after `n` pivots, from the next pivot on. -/
def remainder (s : RecoveryMatrixState) (A : Nat → Nat → Gf256) (n k c : Nat) : Gf256 :=
  A (s.pivots k) c - ∑ p ∈ range (min n k), s.matrix (s.pivots k) p * upper s.matrix s.pivots p c

theorem remainder_of_le (h : Factors A s.matrix s.pivots cols cols cols) {k c : Nat}
    (hk : k < cols) (hc : c < cols) (hn : k ≤ n) :
    s.remainder A n k c = upper s.matrix s.pivots k c := by
  have hreduced := h.reduced k hk c hc
  rw [Nat.min_eq_left hk.le] at hreduced
  rw [remainder, Nat.min_eq_right hn, hreduced, add_sub_cancel_left]
  rfl

theorem remainder_succ (s : RecoveryMatrixState) (A : Nat → Nat → Gf256) {n k c : Nat}
    (hk : n < k) : s.remainder A (n + 1) k c =
      s.remainder A n k c - s.matrix (s.pivots k) n * upper s.matrix s.pivots n c := by
  rw [remainder, remainder, Nat.min_eq_left hk, Nat.min_eq_left hk.le, sum_range_succ, sub_sub]

/-- The buffers of the rows after `n` columns of the forward pass: their sums, and room for every
packet that is in them. -/
structure Forwarded (s : RecoveryMatrixState) (A : Nat → Nat → Gf256) (cols : Nat)
    (packet : Nat → Bytes) (n : Nat) (b : Nat → Bytes) : Prop where
  sums : ∀ k < cols, vec (b (s.pivots k)) =
    forward s.matrix s.pivots cols (fun c => vec (packet c)) n k
  room : ∀ k < cols, ∀ c < cols, s.remainder A n k c ≠ 0 →
    (packet c).length ≤ (b (s.pivots k)).length

theorem Forwarded.step (h : s.Forwarded A cols packet n b)
    (hfactors : Factors A s.matrix s.pivots cols cols cols) (hn : n < cols)
    (hinj : ∀ k < cols, ∀ k' < cols, s.pivots k = s.pivots k' → k = k') :
    s.Forwarded A cols packet (n + 1)
      ((List.range' (n + 1) (cols - (n + 1))).foldl (s.multiplyInto n (b (s.pivots n))) b) := by
  have hmem : ∀ k, k ∈ List.range' (n + 1) (cols - (n + 1)) ↔ n < k ∧ k < cols := by
    intro k
    rw [List.mem_range'_1]
    omega
  obtain ⟨hin, hout⟩ := foldl_update b (s.multiplied n (b (s.pivots n)))
    List.nodup_range' (fun k hk k' hk' => hinj k ((hmem k).mp hk).2 k' ((hmem k').mp hk').2)
    (s.multiplyInto_eq n (b (s.pivots n)))
  have hkeep : ∀ k < cols, k ≤ n → (List.range' (n + 1) (cols - (n + 1))).foldl
      (s.multiplyInto n (b (s.pivots n))) b (s.pivots k) = b (s.pivots k) := by
    intro k hk hle
    refine hout _ fun k' hk' heq => ?_
    have hk' := (hmem k').mp hk'
    have := hinj k' hk'.2 k hk heq
    omega
  have hother : ∀ k < cols, n < k → s.remainder A (n + 1) k = fun c =>
      s.remainder A n k c - s.matrix (s.pivots k) n * upper s.matrix s.pivots n c := by
    intro k _ hlt
    funext c
    exact s.remainder_succ A hlt
  constructor
  · intro k hk
    rcases Nat.lt_or_ge n k with hlt | hle
    · rw [hin k ((hmem k).mpr ⟨hlt, hk⟩), ← forward_step _ _ _ _ hlt, ← h.sums k hk,
        ← h.sums n hn, multiplied]
      split
      next hzero => rw [hzero, zero_smul, sub_zero]
      · rw [vec_muladdMem (by simp), vec_growZeroPadded]
        rfl
    · rw [hkeep k hk hle, h.sums k hk, forward_of_le _ _ _ _ hle,
        forward_of_le _ _ _ _ (by omega)]
  · intro k hk c hc hne
    rcases Nat.lt_or_ge n k with hlt | hle
    · rw [hother k hk hlt] at hne
      rw [hin k ((hmem k).mpr ⟨hlt, hk⟩)]
      by_cases hold : s.remainder A n k c = 0
      · -- the packet comes in with the row of the pivot
        have hboth : s.matrix (s.pivots k) n ≠ 0 ∧ upper s.matrix s.pivots n c ≠ 0 := by
          refine ⟨fun hzero => hne ?_, fun hzero => hne ?_⟩
          · simp [hold, hzero]
          · simp [hold, hzero]
        have hroom := h.room n hn c hc (by rw [remainder_of_le hfactors hn hc le_rfl]; exact hboth.2)
        rw [multiplied, if_neg hboth.1, length_muladdMem, length_growZeroPadded]
        exact hroom.trans (le_max_right _ _)
      · have hroom := h.room k hk c hc hold
        rw [multiplied]
        split
        · exact hroom
        · rw [length_muladdMem, length_growZeroPadded]
          exact hroom.trans (le_max_left _ _)
    · rw [remainder_of_le hfactors hk hc (by omega)] at hne
      rw [hkeep k hk hle]
      exact h.room k hk c hc (by rwa [remainder_of_le hfactors hk hc hle])

/-- The forward pass leaves the sums of the columns from the pivot of each row on. -/
theorem forwarded_multiplyLowerTriangle (packet : Nat → Bytes)
    (hfactors : Factors A s.matrix s.pivots cols cols cols)
    (hcols : s.columns.length = cols)
    (hinj : ∀ k < cols, ∀ k' < cols, s.pivots k = s.pivots k' → k = k')
    (hsums : ∀ k < cols, vec (b (s.pivots k)) =
      ∑ c ∈ range cols, A (s.pivots k) c • vec (packet c))
    (hroom : ∀ k < cols, ∀ c < cols, A (s.pivots k) c ≠ 0 →
      (packet c).length ≤ (b (s.pivots k)).length) :
    s.Forwarded A cols packet (cols - 1) (s.multiplyLowerTriangle b) := by
  have hloop : ∀ n ≤ cols - 1, s.Forwarded A cols packet n ((List.range n).foldl (fun b colI =>
      (List.range' (colI + 1) (s.columns.length - (colI + 1))).foldl
        (s.multiplyInto colI (b (s.pivots colI))) b) b) := by
    intro n hn
    induction n with
    | zero =>
        refine ⟨fun k hk => ?_, fun k hk c hc hne => hroom k hk c hc ?_⟩
        · rw [hfactors.forward_zero hk le_rfl]
          exact hsums k hk
        · simpa [remainder] using hne
    | succ n ih =>
        rw [List.range_succ, List.foldl_append, hcols]
        have hstep := (ih (by omega)).step hfactors (by omega) hinj
        rw [hcols] at hstep
        exact hstep
  unfold multiplyLowerTriangle
  have hdone := hloop (cols - 1) le_rfl
  rwa [← hcols] at hdone ⊢

/-- The buffers of the rows above column `n` when the columns from there on are known. -/
structure Substituting (s : RecoveryMatrixState) (cols : Nat) (packet : Nat → Bytes) (n : Nat)
    (b : Nat → Bytes) : Prop where
  sums : ∀ k < n, vec (b (s.pivots k)) =
    backward s.matrix s.pivots (fun c => vec (packet c)) n k
  room : ∀ k < n, ∀ c < cols, upper s.matrix s.pivots k c ≠ 0 →
    (packet c).length ≤ (b (s.pivots k)).length

theorem Forwarded.substituting (h : s.Forwarded A cols packet (cols - 1) b)
    (hfactors : Factors A s.matrix s.pivots cols cols cols) :
    s.Substituting cols packet cols b where
  sums k hk := by
    rw [h.sums k hk, forward_of_le _ _ _ _ (by omega), backward_cols _ _ _ hk.le]
  room k hk c hc hne := by
    refine h.room k hk c hc ?_
    rwa [remainder_of_le hfactors hk hc (by omega)]

theorem Substituting.step (h : s.Substituting cols packet (n + 1) b) (hn : n < cols)
    (hinj : ∀ k < cols, ∀ k' < cols, s.pivots k = s.pivots k' → k = k') :
    s.Substituting cols packet n ((List.range n).foldl (s.substituteInto n (packet n)) b) := by
  obtain ⟨hin, -⟩ := foldl_update b (s.substituted n (packet n)) List.nodup_range
    (fun k hk k' hk' => hinj k ((List.mem_range.mp hk).trans hn) k'
      ((List.mem_range.mp hk').trans hn))
    (s.substituteInto_eq n (packet n))
  constructor
  · intro k hk
    rw [hin k (List.mem_range.mpr hk), ← backward_step _ _ _ hk.le, ← h.sums k (by omega),
      substituted]
    split
    next hzero => rw [hzero, zero_smul, sub_zero]
    next hne =>
      have hroom := h.room k (by omega) n hn (by rwa [upper, if_pos hk.le])
      rw [vec_muladdMem hroom]
      rfl
  · intro k hk c hc hne
    have hroom := h.room k (by omega) c hc hne
    rw [hin k (List.mem_range.mpr hk), substituted]
    split
    · exact hroom
    · rwa [length_muladdMem]

end buffers

/-- **A row reveals its packet.** -/
theorem reveal_spec {buffer data : Bytes} {y : Gf256} (hdata : data ≠ [])
    (hlength : data.length ≤ 0x1fffffff)
    (hvec : y⁻¹ • vec buffer = vec (DecoderPacketWindow.originalPacket data).buffer)
    (hroom : (DecoderPacketWindow.originalPacket data).buffer.length ≤ buffer.length) :
    reveal buffer (Gf256.inv y.byte) = some (DecoderPacketWindow.originalPacket data) := by
  have hheader := serializeHeaderPacketLength_length data.length
  have hread := deserializeHeaderPacketLength_serialize hlength
  generalize hpacket : DecoderPacketWindow.originalPacket data = packet at hvec hroom
  have hbuffer : packet.buffer = serializeHeaderPacketLength data.length ++ data := by
    rw [← hpacket]
    rfl
  have hbytes : packet.headerBytes = (serializeHeaderPacketLength data.length).length := by
    rw [← hpacket]
    rfl
  generalize serializeHeaderPacketLength data.length = header at hheader hread hbuffer hbytes
  rw [hbuffer, List.length_append] at hroom
  have hpos := List.length_pos_iff.mpr hdata
  -- all bytes at once
  have hfull : (mulMem buffer (Gf256.inv y.byte)).take (header ++ data).length = header ++ data := by
    refine eq_take_of_vec (by simpa using hroom) ?_
    rw [vec_mulMem, ← hbuffer]
    exact hvec
  rw [List.length_append] at hfull
  generalize hm : mulMem buffer (Gf256.inv y.byte) = full at hfull
  have hfront : ∀ n, mulMem (buffer.take n) (Gf256.inv y.byte) = full.take n := by
    intro n
    rw [← hm, mulMem, mulMem, List.map_take]
  have hback : ∀ m n, mulMem ((buffer.take m).drop n) (Gf256.inv y.byte) =
      (full.take m).drop n := by
    intro m n
    rw [← hm, mulMem, mulMem, List.map_drop, List.map_take]
  have hsplit : full.take (min alignmentBytes buffer.length) =
      header ++ (data ++ full.drop (header.length + data.length)).take
        (min alignmentBytes buffer.length - header.length) := by
    have hall : full = header ++ (data ++ full.drop (header.length + data.length)) := by
      rw [← List.append_assoc]
      nth_rewrite 1 [← List.take_append_drop (header.length + data.length) full]
      rw [hfull]
    have hle : header.length ≤ min alignmentBytes buffer.length := by
      unfold alignmentBytes
      omega
    nth_rewrite 1 [hall]
    rw [List.take_append, List.take_of_length_le hle]
  unfold reveal
  dsimp only
  rw [hfront, hsplit, hread]
  dsimp only
  rw [if_neg (by omega), ← hsplit, hback, List.take_take, Nat.min_comm, ← List.take_take,
    List.take_append_drop, hfull]
  cases packet
  simp_all

end RecoveryMatrixState

end FecRelay
