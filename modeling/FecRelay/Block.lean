import FecRelay.Fec

/-!
# Blocks

A `Block` is on the sending side if it was made from data, and on the receiving
side if it was made from a size. It marks the symbols it was given, and once its
data is there its generator makes the symbols that were not marked.
-/

namespace FecRelay

open FecRelay.Base

structure Block (W : Wirehair) where
  blockSize : Nat
  decoded : Bytes := []
  symbolsSeen : List Bool := []
  fec : BlockFec W

namespace Block

variable {W : Wirehair}

/-! ## Marks -/

/-- `symbols_seen.resize(n)`. -/
def resize (seen : List Bool) (n : Nat) : List Bool :=
  seen.take n ++ List.replicate (n - seen.length) false

/-- The marks after symbol `ix` was marked. -/
def mark (seen : List Bool) (ix : Nat) : List Bool :=
  let seen := if ix ≥ seen.length then resize seen (max (ix + 1) (seen.length * 2)) else seen
  seen.set ix true

/-- `m_symbols_seen[ix]`, false where there is no mark yet. -/
def marked (seen : List Bool) (ix : Nat) : Bool := seen[ix]?.getD false

theorem resize_of_le {seen : List Bool} {n : Nat} (h : seen.length ≤ n) :
    resize seen n = seen ++ List.replicate (n - seen.length) false := by
  unfold resize
  rw [List.take_of_length_le h]

theorem marked_append_false (seen : List Bool) (n ix : Nat) :
    marked (seen ++ List.replicate n false) ix = marked seen ix := by
  unfold marked
  by_cases hix : ix < seen.length
  · rw [List.getElem?_append_left hix]
  · rw [List.getElem?_append_right (not_lt.mp hix), List.getElem?_eq_none (not_lt.mp hix),
      List.getElem?_replicate]
    split <;> rfl

@[simp] theorem marked_replicate_false (n ix : Nat) :
    marked (List.replicate n false) ix = false := by
  have h := marked_append_false [] n ix
  rw [List.nil_append] at h
  exact h

/-- The marks before `ix` is set, with room for it. -/
private def grown (seen : List Bool) (ix : Nat) : List Bool :=
  if ix ≥ seen.length then resize seen (max (ix + 1) (seen.length * 2)) else seen

private theorem grown_eq (seen : List Bool) (ix : Nat) :
    ∃ n, grown seen ix = seen ++ List.replicate n false ∧ ix < (grown seen ix).length := by
  unfold grown
  by_cases hix : ix ≥ seen.length
  · rw [if_pos hix, resize_of_le (by omega)]
    refine ⟨_, rfl, ?_⟩
    rw [List.length_append, List.length_replicate]
    omega
  · rw [if_neg hix]
    exact ⟨0, by simp, by omega⟩

/-- Marking a symbol marks that symbol and no other. -/
theorem marked_mark (seen : List Bool) (ix k : Nat) :
    marked (mark seen ix) k = (decide (k = ix) || marked seen k) := by
  obtain ⟨n, hgrown, hroom⟩ := grown_eq seen ix
  show marked ((grown seen ix).set ix true) k = _
  by_cases hk : k = ix
  · subst hk
    unfold marked
    rw [List.getElem?_set_self hroom]
    simp
  · have hother : marked ((grown seen ix).set ix true) k = marked (grown seen ix) k := by
      unfold marked
      rw [List.getElem?_set_ne (Ne.symm hk)]
    rw [hother, hgrown, marked_append_false]
    simp [hk]

/-- A mark adds at most one to the number of marks. -/
theorem count_mark_le (seen : List Bool) (ix : Nat) :
    (mark seen ix).count true ≤ seen.count true + 1 := by
  obtain ⟨n, hgrown, hroom⟩ := grown_eq seen ix
  show ((grown seen ix).set ix true).count true ≤ _
  have hcount : (grown seen ix).count true = seen.count true := by
    rw [hgrown, List.count_append, List.count_replicate]
    simp
  rw [List.count_set hroom, hcount]
  simp

/-! ## Construction -/

/-- `Block(std::string_view data)`. -/
def ofData (data : Bytes) : Checked (Block W) := do
  let fec ← BlockFec.ofBlock data
  pure { blockSize := u32 data.length, decoded := data, fec := fec }

/-- `Block(std::uint32_t block_size)`. -/
def ofSize (blockSize : Nat) : Checked (Block W) := do
  let fec ← BlockFec.ofSize blockSize
  -- some redundancy
  pure {
    blockSize := blockSize
    symbolsSeen := List.replicate (blockSize / maxBlockPacketSize * 2) false
    fec := fec }

theorem ofData_ok_iff {data : Bytes} {b : Block W} : ofData data = .ok b ↔
    ∃ codec, W.encoderCreate data maxBlockPacketSize = some codec ∧
      b = { blockSize := u32 data.length, decoded := data, fec := { wirehair := codec } } := by
  unfold ofData BlockFec.ofBlock
  cases hcodec : W.encoderCreate data maxBlockPacketSize with
  | none => simp
  | some codec =>
      show Except.ok _ = Except.ok b ↔ _
      simp [eq_comm]

theorem ofSize_ok_iff {size : Nat} {b : Block W} : ofSize size = .ok b ↔
    ∃ codec, W.decoderCreate size maxBlockPacketSize = some codec ∧
      b = {
        blockSize := size
        symbolsSeen := List.replicate (size / maxBlockPacketSize * 2) false
        fec := { blockSize := u32 size, wirehair := codec } } := by
  unfold ofSize BlockFec.ofSize
  cases hcodec : W.decoderCreate size maxBlockPacketSize with
  | none => simp
  | some codec =>
      show Except.ok _ = Except.ok b ↔ _
      simp [eq_comm]

/-- A block made from a size holds nothing and has seen nothing. -/
theorem ofSize_fresh {size : Nat} {b : Block W} (h : ofSize size = .ok b) :
    b.decoded = [] ∧ b.fec.decodeCalls = [] ∧ ∀ i, marked b.symbolsSeen i = false := by
  obtain ⟨codec, _, rfl⟩ := ofSize_ok_iff.mp h
  exact ⟨rfl, rfl, marked_replicate_false _⟩

def nOriginal (b : Block W) : Nat :=
  u32 (b.blockSize + maxBlockPacketSize - 1) / maxBlockPacketSize

/-! ## Symbols in -/

/-- A call on `m_fec`. -/
def onFec {α : Type} (m : Method Fault (BlockFec W) α) : Method Fault (Block W) α :=
  Method.zoom fec (fun f b => { b with fec := f }) m

/-- `process_symbol(payload, ix)`: whether the block was decoded by this symbol. -/
def processSymbol (payload : Bytes) (ix : Nat) : Method Fault (Block W) Bool := do
  let b ← get
  if !b.decoded.isEmpty then
    pure false
  else
    modify fun b => { b with symbolsSeen := mark b.symbolsSeen ix }
    let res ← onFec (BlockFec.processSymbol payload (u32 ix))
    if !res.isEmpty then
      modify fun b => { b with decoded := res }
      pure true
    else
      pure false

/-- A block that holds its data leaves a symbol alone. -/
theorem processSymbol_of_decoded {b : Block W} (h : b.decoded ≠ []) (payload : Bytes)
    (ix : Nat) : processSymbol payload ix b = .ok false b := by
  rw [processSymbol, Method.bind_of_ok (Method.get_apply b)]
  have hsome : b.decoded.isEmpty = false := by simpa using h
  rw [hsome]
  rfl

/-- The block once a symbol was marked and its codec is `fec`. -/
def received (b : Block W) (ix : Nat) (fec : BlockFec W) : Block W :=
  { b with symbolsSeen := mark b.symbolsSeen ix, fec := fec }

theorem processSymbol_of_undecoded {b : Block W} (h : b.decoded = []) (payload : Bytes)
    (ix : Nat) : processSymbol payload ix b =
      match BlockFec.processSymbol payload (u32 ix) b.fec with
      | .error e fec => .error e (b.received ix fec)
      | .ok res fec =>
        if res = [] then .ok false (b.received ix fec)
        else .ok true { b.received ix fec with decoded := res } := by
  have hnone : b.decoded.isEmpty = true := by simpa using h
  rw [processSymbol, Method.bind_of_ok (Method.get_apply b), hnone]
  show (modify _ >>= _ : Method Fault (Block W) Bool) b = _
  rw [Method.bind_of_ok (Method.modify_apply _ b), Method.bind_apply]
  unfold onFec Method.zoom
  cases BlockFec.processSymbol payload (u32 ix) b.fec with
  | error e fec => rfl
  | ok res fec => cases res <;> rfl

/-- What a `process_symbol` that returns did: the codec returned nothing yet, or the data. -/
theorem processSymbol_ok_iff {b b' : Block W} (h : b.decoded = []) {payload : Bytes} {ix : Nat}
    {decoded : Bool} : processSymbol payload ix b = .ok decoded b' ↔
      ∃ res fec, BlockFec.processSymbol payload (u32 ix) b.fec = .ok res fec ∧
        decoded = decide (res ≠ []) ∧ b' = { b.received ix fec with decoded := res } := by
  rw [processSymbol_of_undecoded h]
  cases BlockFec.processSymbol payload (u32 ix) b.fec with
  | error e fec => simp
  | ok res fec => by_cases hres : res = [] <;> simp [hres, received, h, eq_comm]

/-- A `process_symbol` that returns has marked the symbol, and the size stays. -/
theorem processSymbol_marks {b b' : Block W} (h : b.decoded = []) {payload : Bytes} {ix : Nat}
    {decoded : Bool} (hcall : processSymbol payload ix b = .ok decoded b') :
    b'.symbolsSeen = mark b.symbolsSeen ix ∧ b'.blockSize = b.blockSize := by
  obtain ⟨res, fec, -, -, rfl⟩ := (processSymbol_ok_iff h).mp hcall
  exact ⟨rfl, rfl⟩

/-- The codec was called with its index. -/
theorem processSymbol_calls {b b' : Block W} (h : b.decoded = []) {payload : Bytes} {ix : Nat}
    {decoded : Bool} (hcall : processSymbol payload ix b = .ok decoded b') :
    b'.fec.decodeCalls = b.fec.decodeCalls ++ [u32 ix] := by
  obtain ⟨res, fec, hfec, -, rfl⟩ := (processSymbol_ok_iff h).mp hcall
  rcases BlockFec.processSymbol_ok hfec with ⟨-, -, rfl⟩ | ⟨-, -, -, rfl⟩ <;> rfl

/-- A `process_symbol` that returns says whether the block has its data now. -/
theorem processSymbol_reports {b b' : Block W} (h : b.decoded = []) {payload : Bytes} {ix : Nat}
    {decoded : Bool} (hcall : processSymbol payload ix b = .ok decoded b') :
    decoded = true ↔ b'.decoded ≠ [] := by
  obtain ⟨res, fec, -, rfl, rfl⟩ := (processSymbol_ok_iff h).mp hcall
  exact decide_eq_true_iff

/-- A symbol that completes the block. -/
theorem processSymbol_of_recovered {b : Block W} (h : b.decoded = []) {payload block : Bytes}
    {ix : Nat} (hdecode : (W.decode b.fec.wirehair (u32 ix) payload).1 = .success)
    (hrecover : W.recover (W.decode b.fec.wirehair (u32 ix) payload).2 b.fec.blockSize =
      (.success, block))
    (hready : (W.becomesEncoder (W.decode b.fec.wirehair (u32 ix) payload).2).1 = .success)
    (hblock : block ≠ []) : ∃ b', processSymbol payload ix b = .ok true b' ∧ b'.decoded = block ∧
      b'.symbolsSeen = mark b.symbolsSeen ix := by
  have hwritten : W.recover (b.fec.decoded payload (u32 ix)).wirehair
      (b.fec.decoded payload (u32 ix)).blockSize = (.success, block) := hrecover
  rw [processSymbol_of_undecoded h, BlockFec.processSymbol_of_success hdecode,
    BlockFec.recovered_of_success (congrArg Prod.fst hwritten) hready, hwritten]
  exact ⟨_, if_neg hblock, rfl, rfl⟩

/-! ## Symbols out -/

/-- The bytes `[first, last)` of a vector. -/
def slice (data : Bytes) (first last : Nat) : Checked Bytes :=
  if first ≤ last ∧ last ≤ data.length then .ok ((data.take last).drop first)
  else .error .outOfBounds

/-- The data the generator has for symbol `index`. -/
def symbolData (b : Block W) (index : Nat) : Checked Bytes :=
  if index < b.nOriginal then
    let ixFirst := u32 (index * maxBlockPacketSize)
    let ixLast := min b.blockSize (u32 ((index + 1) * maxBlockPacketSize))
    slice b.decoded ixFirst ixLast
  else
    b.fec.getSymbolData index

/-- A block that counts any symbols at all counts its chunks. -/
theorem nOriginal_eq {b : Block W} (hsize : b.blockSize < 2 ^ 32) (hn : 1 ≤ b.nOriginal) :
    b.nOriginal = Chunks.count maxBlockPacketSize b.blockSize ∧
      b.blockSize + maxBlockPacketSize < 2 ^ 32 + 1 := by
  unfold nOriginal u32 maxBlockPacketSize maxPacketSize at *
  unfold Chunks.count
  have hwrap : b.blockSize + 1376 < 2 ^ 32 + 1 := by
    by_contra hwrap
    omega
  omega

/-- An original symbol is a chunk of the data. -/
theorem symbolData_of_lt {b : Block W} (hsize : b.blockSize < 2 ^ 32)
    (hdata : b.decoded.length = b.blockSize) {k : Nat} (hk : k < b.nOriginal) :
    b.symbolData k = .ok (Chunks.chunk maxBlockPacketSize b.decoded k) := by
  obtain ⟨hn, hwrap⟩ := nOriginal_eq hsize (by omega)
  have hstart : k * maxBlockPacketSize < b.blockSize :=
    Chunks.mul_lt_of_lt_count (by decide) (hn ▸ hk)
  have hend : (k + 1) * maxBlockPacketSize < 2 ^ 32 := by
    rw [Nat.add_mul, Nat.one_mul]
    omega
  unfold symbolData
  rw [if_pos hk]
  show slice b.decoded (u32 (k * maxBlockPacketSize))
    (min b.blockSize (u32 ((k + 1) * maxBlockPacketSize))) = _
  rw [u32_of_lt hend, u32_of_lt (by omega)]
  unfold slice Chunks.chunk
  have hlast : k * maxBlockPacketSize ≤ min b.blockSize ((k + 1) * maxBlockPacketSize) ∧
      min b.blockSize ((k + 1) * maxBlockPacketSize) ≤ b.decoded.length := by
    rw [Nat.add_mul, Nat.one_mul]
    omega
  rw [if_pos hlast]
  -- a chunk that reaches over the end stops there
  rw [← List.take_take, ← hdata, List.take_of_length_le (List.length_take_le' _ _)]

/-- The loop over marked symbols, from `index` on; it takes fewer `rounds` than there
are marks unless every index is marked. -/
def skipSeen (seen : List Bool) : Nat → Nat → Checked Nat
  | 0, _ => .error .diverges
  | rounds + 1, index =>
      if marked seen index then skipSeen seen rounds (u32 (index + 1)) else .ok index

/-- `BlockGenerator::operator()`, on the generator's `m_index`. -/
def generate (b : Block W) : Method Fault Nat (Bytes × Nat) := do
  let start ← get
  let index ← Method.lift (skipSeen b.symbolsSeen (b.symbolsSeen.length + 1) start)
  -- the incrementer runs on every way out
  set (u32 (index + 1))
  let data ← Method.lift (b.symbolData index)
  pure (data, index)

/-- Iterating over `unseen_range(n)`. -/
def unseenRange (b : Block W) : Nat → Method Fault Nat (List (Bytes × Nat))
  | 0 => pure []
  | n + 1 => do
      let symbol ← generate b
      let rest ← unseenRange b n
      pure (symbol :: rest)

theorem count_drop (seen : List Bool) (j : Nat) :
    (seen.drop j).count true =
      (if marked seen j then 1 else 0) + (seen.drop (j + 1)).count true := by
  unfold marked
  by_cases hj : j < seen.length
  · rw [List.drop_eq_getElem_cons hj, List.count_cons, List.getElem?_eq_getElem hj]
    cases seen[j] <;> simp [Nat.add_comm]
  · rw [List.drop_eq_nil_of_le (not_lt.mp hj), List.drop_eq_nil_of_le (by omega),
      List.getElem?_eq_none (not_lt.mp hj)]
    simp

theorem lt_length_of_marked {seen : List Bool} {j : Nat} (h : marked seen j = true) :
    j < seen.length := by
  by_contra hj
  unfold marked at h
  rw [List.getElem?_eq_none (not_lt.mp hj)] at h
  cases h

/-- Where some index from `j` on is left, the loop stops at the first one that is not
marked. -/
theorem skipSeen_spec {seen : List Bool} :
    ∀ (rounds j : Nat), seen.length - j < rounds → j + (seen.drop j).count true < 2 ^ 32 →
      ∃ i, skipSeen seen rounds j = .ok i ∧ j ≤ i ∧ marked seen i = false ∧
        (∀ k, j ≤ k → k < i → marked seen k = true) ∧
        i + (seen.drop i).count true = j + (seen.drop j).count true := by
  intro rounds
  induction rounds with
  | zero => intro j hrounds _; exact absurd hrounds (Nat.not_lt_zero _)
  | succ rounds ih =>
      intro j hrounds hroom
      have hcount := count_drop seen j
      rw [skipSeen]
      cases hmark : marked seen j with
      | false =>
          refine ⟨j, by simp, le_rfl, hmark, ?_, rfl⟩
          intro k hjk hkj
          omega
      | true =>
          have hlen := lt_length_of_marked hmark
          rw [hmark, if_pos rfl] at hcount
          have hnext : u32 (j + 1) = j + 1 := u32_of_lt (by omega)
          obtain ⟨i, hskip, hle, hunmarked, hbetween, hbudget⟩ :=
            ih (j + 1) (by omega) (by omega)
          refine ⟨i, by rw [if_pos rfl, hnext, hskip], by omega, hunmarked, ?_, by omega⟩
          intro k hjk hki
          rcases Nat.eq_or_lt_of_le hjk with rfl | hlt
          · exact hmark
          · exact hbetween k hlt hki

/-- The generator's next symbol is the first one that is not marked. -/
theorem generate_spec (b : Block W) {j : Nat}
    (hroom : j + (b.symbolsSeen.drop j).count true < 2 ^ 32) :
    ∃ i, j ≤ i ∧ marked b.symbolsSeen i = false ∧
      (∀ k, j ≤ k → k < i → marked b.symbolsSeen k = true) ∧
      (i + 1) + (b.symbolsSeen.drop (i + 1)).count true =
        j + (b.symbolsSeen.drop j).count true + 1 ∧
      generate b j = match b.symbolData i with
        | .ok data => .ok (data, i) (u32 (i + 1))
        | .error e => .error e (u32 (i + 1)) := by
  obtain ⟨i, hskip, hle, hunmarked, hbetween, hbudget⟩ :=
    skipSeen_spec (b.symbolsSeen.length + 1) j (by omega) hroom
  have hcount := count_drop b.symbolsSeen i
  rw [hunmarked] at hcount
  refine ⟨i, hle, hunmarked, hbetween, by simp at hcount; omega, ?_⟩
  rw [generate, Method.bind_of_ok (Method.get_apply j), hskip,
    Method.bind_of_ok (Method.lift_ok i j), Method.bind_of_ok (Method.set_apply j _)]
  cases b.symbolData i <;> rfl

/-- What `unseen_range(n)` yields from index `j` on, having stopped at `j'`: `n` symbols
in increasing order, which are all the unmarked ones below `j'`. -/
structure Yields (b : Block W) (n j : Nat) (symbols : List (Bytes × Nat)) (j' : Nat) : Prop where
  length : symbols.length = n
  reached : j + n ≤ j'
  ascending : (symbols.map (·.2)).Pairwise (· < ·)
  sound : ∀ symbol ∈ symbols, j ≤ symbol.2 ∧ symbol.2 < 2 ^ 32 ∧
    marked b.symbolsSeen symbol.2 = false ∧ b.symbolData symbol.2 = .ok symbol.1
  complete : ∀ k, j ≤ k → k < j' → marked b.symbolsSeen k = false →
    ∃ data, (data, k) ∈ symbols

theorem Yields.nil (b : Block W) (j : Nat) : Yields b 0 j [] j where
  length := rfl
  reached := le_rfl
  ascending := List.Pairwise.nil
  sound _ hsymbol := absurd hsymbol List.not_mem_nil
  complete k hjk hkj := by omega

/-- The first unmarked symbol, and what is yielded from the next index on. -/
theorem Yields.cons {b : Block W} {n i j j' : Nat} {data : Bytes} {rest : List (Bytes × Nat)}
    (h : Yields b n (i + 1) rest j') (hle : j ≤ i) (hlt : i < 2 ^ 32)
    (hunmarked : marked b.symbolsSeen i = false)
    (hbetween : ∀ k, j ≤ k → k < i → marked b.symbolsSeen k = true)
    (hdata : b.symbolData i = .ok data) : Yields b (n + 1) j ((data, i) :: rest) j' := by
  refine ⟨?_, ?_, ?_, ?_, ?_⟩
  · rw [List.length_cons, h.length]
  · have := h.reached
    omega
  · rw [List.map_cons, List.pairwise_cons]
    refine ⟨?_, h.ascending⟩
    intro k hk
    obtain ⟨x, hx, rfl⟩ := List.mem_map.mp hk
    exact (h.sound x hx).1
  · intro x hx
    rcases List.mem_cons.mp hx with rfl | hx
    · exact ⟨hle, hlt, hunmarked, hdata⟩
    · obtain ⟨hge, hsound⟩ := h.sound x hx
      exact ⟨by omega, hsound⟩
  · intro k hjk hkj hk
    rcases lt_trichotomy k i with hki | rfl | hik
    · rw [hbetween k hjk hki] at hk
      cases hk
    · exact ⟨data, List.mem_cons_self⟩
    · obtain ⟨d, hd⟩ := h.complete k hik hkj hk
      exact ⟨d, List.mem_cons_of_mem _ hd⟩

theorem unseenRange_yields (b : Block W) :
    ∀ (n j : Nat), j + n + (b.symbolsSeen.drop j).count true ≤ 2 ^ 32 →
      ∀ symbols next, unseenRange b n j = .ok symbols next →
        ∃ j', Yields b n j symbols j' := by
  intro n
  induction n with
  | zero =>
      intro j _ symbols next h
      obtain ⟨rfl, rfl⟩ := Method.pure_ok_iff.mp h
      exact ⟨j, .nil b j⟩
  | succ n ih =>
      intro j hroom symbols next h
      obtain ⟨i, hle, hunmarked, hbetween, hbudget, hgenerate⟩ :=
        generate_spec b (j := j) (by omega)
      rw [unseenRange] at h
      obtain ⟨symbol, mid, hfirst, h⟩ := Method.bind_ok_iff.mp h
      obtain ⟨rest, last, hrest, h⟩ := Method.bind_ok_iff.mp h
      obtain ⟨rfl, rfl⟩ := Method.pure_ok_iff.mp h
      rw [hgenerate] at hfirst
      cases hdata : b.symbolData i with
      | error e =>
          rw [hdata] at hfirst
          cases hfirst
      | ok data =>
          rw [hdata] at hfirst
          cases hfirst
          -- the rest comes from the next index on, which wraps only if there is no rest
          have hyields : ∃ j', Yields b n (i + 1) rest j' := by
            by_cases hn : n = 0
            · subst hn
              obtain ⟨rfl, rfl⟩ := Method.pure_ok_iff.mp hrest
              exact ⟨i + 1, .nil b (i + 1)⟩
            · have hnext : u32 (i + 1) = i + 1 := u32_of_lt (by omega)
              rw [hnext] at hrest
              exact ih (i + 1) (by omega) rest _ hrest
          obtain ⟨j', hyields⟩ := hyields
          exact ⟨j', hyields.cons hle (by omega) hunmarked hbetween hdata⟩

end Block

end FecRelay
