import FecRelay.Codec.Systematic
import FecRelay.Unseen

/-!
# The unseen symbols of a block

A block that was made, and given any symbols, holds its data once it is not empty, and its
codec then writes the same chunks as the generator cuts from the data. Iterating over
`unseen_range(n)` yields the `n` smallest indices that were never marked, as long as there
are more than `n` of them among the 32-bit indices.
-/

namespace FecRelay.Block

open FecRelay.Base

variable {W : Wirehair} {symbols : Nat → Bytes → Prop} {ids : List Nat} {b : Block W}

/-! ## Blocks that were made -/

/-- A block that was constructed and given symbols among `symbols`, of which it marked
those numbered `ids`, the latest first. -/
inductive Made (symbols : Nat → Bytes → Prop) : List Nat → Block W → Prop
  | sender {data : Bytes} {b : Block W} : ofData data = .ok b → Made symbols [] b
  | receiver {size : Nat} {b : Block W} : ofSize size = .ok b → Made symbols [] b
  | symbol {ids : List Nat} {b : Block W} (payload : Bytes) (ix : Nat) : Made symbols ids b →
      symbols (u32 ix) payload → Made symbols (if b.decoded = [] then ix :: ids else ids)
        (Method.after (processSymbol payload ix b))

/-- What holds of such a block: a decoder still collects, or the data is there and the
codec writes its chunks. -/
structure Sound (symbols : Nat → Bytes → Prop) (ids : List Nat) (b : Block W) : Prop where
  pos : 1 ≤ b.blockSize
  count_le : Chunks.count maxBlockPacketSize b.blockSize ≤ 64000
  marks : ∀ k, marked b.symbolsSeen k = true ↔ k ∈ ids
  codec : (b.decoded = [] ∧ b.fec.blockSize = b.blockSize ∧
      W.Decoding symbols b.blockSize maxBlockPacketSize b.fec.wirehair) ∨
    (b.decoded.length = b.blockSize ∧ W.Serves b.decoded maxBlockPacketSize b.fec.wirehair)

/-- The sizes that are accepted fit 32 bits, with a packet to spare. -/
theorem size_lt_of_count_le {size : Nat} (h : Chunks.count maxBlockPacketSize size ≤ 64000) :
    size + maxBlockPacketSize < 2 ^ 32 := by
  have hsize := Chunks.le_count_mul (show 0 < maxBlockPacketSize by decide) size
  have hmul := Nat.mul_le_mul_right maxBlockPacketSize h
  unfold maxBlockPacketSize maxPacketSize at *
  omega

theorem sound_ofData (hlimited : W.Limited) (hlaw : W.Systematic symbols) {data : Bytes}
    (h : ofData data = .ok b) : Sound symbols [] b := by
  obtain ⟨codec, hcreate, rfl⟩ := ofData_ok_iff.mp h
  obtain ⟨hpos, hcount⟩ := hlimited.encoder _ _ _ hcreate
  have hsize : u32 data.length = data.length :=
    u32_of_lt (by have := size_lt_of_count_le hcount; omega)
  refine ⟨?_, ?_, by simp [marked], Or.inr ⟨hsize.symm, hlaw.encoder _ _ _ hcreate⟩⟩
  · show 1 ≤ u32 data.length
    rwa [hsize]
  · show Chunks.count maxBlockPacketSize (u32 data.length) ≤ 64000
    rwa [hsize]

theorem sound_ofSize (hlimited : W.Limited) {size : Nat} (h : ofSize size = .ok b) :
    Sound symbols [] b := by
  obtain ⟨hempty, hunmarked⟩ := ofSize_fresh h
  obtain ⟨codec, hcreate, rfl⟩ := ofSize_ok_iff.mp h
  obtain ⟨hpos, hcount⟩ := hlimited.decoder _ _ _ hcreate
  have hsize : u32 size = size := u32_of_lt (by have := size_lt_of_count_le hcount; omega)
  exact ⟨hpos, hcount, by simp [hunmarked], Or.inl ⟨rfl, hsize, .create hcreate⟩⟩

/-- A block that marked one more symbol. -/
theorem Sound.marks_received (h : Sound symbols ids b) (ix k : Nat) :
    marked (mark b.symbolsSeen ix) k = true ↔ k ∈ ix :: ids := by
  rw [marked_mark, Bool.or_eq_true, decide_eq_true_eq, h.marks, List.mem_cons]

theorem Sound.symbol (hlaw : W.Systematic symbols) (h : Sound symbols ids b) {payload : Bytes}
    {ix : Nat} (hsymbol : symbols (u32 ix) payload) :
    Sound symbols (if b.decoded = [] then ix :: ids else ids)
      (Method.after (processSymbol payload ix b)) := by
  by_cases hundecoded : b.decoded = []
  · rw [if_pos hundecoded, processSymbol_of_undecoded hundecoded]
    rcases h.codec with ⟨-, hfecSize, hdecoding⟩ | ⟨hlength, -⟩
    · have hgiven := hdecoding.decode hsymbol
      cases hcall : BlockFec.processSymbol payload (u32 ix) b.fec with
      | error e fec =>
          obtain ⟨codec, rfl, hcodec⟩ := BlockFec.processSymbol_error hcall
          refine ⟨h.pos, h.count_le, h.marks_received ix, Or.inl ⟨hundecoded, hfecSize, ?_⟩⟩
          rcases hcodec with rfl | ⟨rfl, hfail⟩
          · exact hgiven
          · exact hgiven.becomesEncoder hfail
      | ok block fec =>
          rcases BlockFec.processSymbol_ok hcall with
            ⟨-, rfl, rfl⟩ | ⟨-, hrecover, hready, rfl⟩
          · exact ⟨h.pos, h.count_le, h.marks_received ix,
              Or.inl ⟨hundecoded, hfecSize, hgiven⟩⟩
          · rw [hfecSize] at hrecover
            obtain ⟨hlength, hserves⟩ := hlaw.decoder _ _ _ _ hgiven hrecover hready
            have hsome : block ≠ [] := by
              rintro rfl
              have := h.pos
              simp at hlength
              omega
            simp only [if_neg hsome]
            exact ⟨h.pos, h.count_le, h.marks_received ix, Or.inr ⟨hlength, hserves⟩⟩
    · have := h.pos
      simp [hundecoded] at hlength
      omega
  · rw [if_neg hundecoded, processSymbol_of_decoded hundecoded]
    exact h

theorem sound_of_made (hlimited : W.Limited) (hlaw : W.Systematic symbols)
    (h : Made symbols ids b) : Sound symbols ids b := by
  induction h with
  | sender hmade => exact sound_ofData hlimited hlaw hmade
  | receiver hmade => exact sound_ofSize hlimited hmade
  | symbol payload ix _ hsymbol ih => exact ih.symbol hlaw hsymbol

/-! ## The data of a symbol -/

/-- The original data of symbol `i`: from `i * 1376` up to the next multiple, or the end. -/
def originalData (b : Block W) (i : Nat) : Bytes :=
  (b.decoded.take (min b.blockSize ((i + 1) * maxBlockPacketSize))).drop (i * maxBlockPacketSize)

/-- What holds of a block that has its data. -/
structure Holding (b : Block W) : Prop where
  count_le : Chunks.count maxBlockPacketSize b.blockSize ≤ 64000
  length_eq : b.decoded.length = b.blockSize
  serves : W.Serves b.decoded maxBlockPacketSize b.fec.wirehair

theorem Sound.holding (h : Sound symbols ids b) (hdata : b.decoded ≠ []) : Holding b := by
  rcases h.codec with ⟨hempty, -⟩ | ⟨hlength, hserves⟩
  · exact absurd hempty hdata
  · exact ⟨h.count_le, hlength, hserves⟩

theorem Holding.originalData_eq (h : Holding b) (i : Nat) :
    b.originalData i = Chunks.chunk maxBlockPacketSize b.decoded i := by
  unfold originalData Chunks.chunk
  rw [← List.take_take, ← h.length_eq, List.take_of_length_le (List.length_take_le' _ _)]

theorem Holding.nOriginal_eq (h : Holding b) :
    b.nOriginal = Chunks.count maxBlockPacketSize b.decoded.length := by
  have hsize := size_lt_of_count_le h.count_le
  rw [h.length_eq, nOriginal, u32_of_lt (by omega), Chunks.count]

/-- The fast path cuts what the codec would write. -/
theorem Holding.getSymbolData_of_lt (h : Holding b) {i : Nat} (hi : i < b.nOriginal) :
    b.fec.getSymbolData i = .ok (b.originalData i) := by
  rw [h.nOriginal_eq] at hi
  rw [h.originalData_eq, BlockFec.getSymbolData, h.serves.systematic i hi]
  rfl

theorem Holding.originalData_ne_nil (h : Holding b) {i : Nat} (hi : i < b.nOriginal) :
    b.originalData i ≠ [] := by
  rw [h.nOriginal_eq] at hi
  rw [h.originalData_eq]
  exact Chunks.chunk_ne_nil (by decide) hi

theorem Holding.flatMap_originalData (h : Holding b) :
    (List.range b.nOriginal).flatMap b.originalData = b.decoded := by
  rw [h.nOriginal_eq, List.flatMap_congr fun i _ => h.originalData_eq i]
  exact Chunks.flatMap_chunk (by decide) b.decoded

theorem Holding.symbolData_of_lt (h : Holding b) {i : Nat} (hi : i < b.nOriginal) :
    b.symbolData i = .ok (b.originalData i) := by
  have hsize := size_lt_of_count_le h.count_le
  rw [Block.symbolData_of_lt (by omega) h.length_eq hi, h.originalData_eq]

/-- There is data for every index. -/
theorem Holding.symbolData_ok (h : Holding b) (i : Nat) : ∃ data, b.symbolData i = .ok data := by
  by_cases hi : i < b.nOriginal
  · exact ⟨_, h.symbolData_of_lt hi⟩
  · have hwritten := h.serves.total i
    refine ⟨(W.encode b.fec.wirehair i maxBlockPacketSize).2, ?_⟩
    unfold symbolData BlockFec.getSymbolData
    rw [if_neg hi]
    simp only [hwritten, decide_true, enforce_true]
    rfl

/-- The products and sums for an original symbol fit 32 bits. -/
theorem Holding.fits (h : Holding b) {i : Nat} (hi : i < b.nOriginal) :
    (i + 1) * maxBlockPacketSize < 2 ^ 32 := by
  have hsize := size_lt_of_count_le h.count_le
  rw [h.nOriginal_eq, h.length_eq] at hi
  have hstart := Chunks.mul_lt_of_lt_count (by decide) hi
  rw [Nat.add_mul, Nat.one_mul]
  omega

/-! ## Iterating over the unseen symbols -/

/-- The 32-bit indices that are not among `ids`, in increasing order. -/
def neverMarked (ids : List Nat) : List Nat := (List.range (2 ^ 32)).filter fun k => k ∉ ids

/-- There are as many as there are 32-bit indices, less those that were marked. -/
theorem le_length_neverMarked (ids : List Nat) :
    2 ^ 32 ≤ (neverMarked ids).length + ids.length := by
  have hsplit := List.length_eq_length_filter_add (l := List.range (2 ^ 32)) fun k => k ∉ ids
  rw [List.length_range] at hsplit
  have hnodup := (List.nodup_range (n := 2 ^ 32)).filter fun k => !decide (k ∉ ids)
  have hsubset : ((List.range (2 ^ 32)).filter fun k => !decide (k ∉ ids)) ⊆ ids := by
    intro k hk
    simpa using (List.mem_filter.mp hk).2
  have hmarked := (hnodup.subperm hsubset).length_le
  unfold neverMarked
  omega

theorem Sound.unmarkedFrom_eq (h : Sound symbols ids b) :
    unmarkedFrom b.symbolsSeen 0 = neverMarked ids := by
  unfold unmarkedFrom neverMarked
  rw [List.range_eq_range', Nat.sub_zero]
  refine List.filter_congr fun k _ => ?_
  have hk := h.marks k
  by_cases hmem : k ∈ ids
  · simp [hk.mpr hmem, hmem]
  · have hunmarked : marked b.symbolsSeen k = false := by
      rw [Bool.eq_false_iff]
      exact fun hmarked => hmem (hk.mp hmarked)
    simp [hunmarked, hmem]

/-- **The unseen symbols are exact.** While there are more than `n` indices that were never
marked, `unseen_range(n)` yields the `n` smallest of them in increasing order. The data of an
original symbol is its slice of the block, which is not empty and what the codec would write;
the slices make up the block; and no product or sum of the generator wraps. -/
theorem unseen_range_exact (hlimited : W.Limited) (hlaw : W.Systematic symbols)
    (hmade : Made symbols ids b) (hdata : b.decoded ≠ []) {n : Nat}
    (hn : n < (neverMarked ids).length) :
    (∃ yielded next, unseenRange b n 0 = .ok yielded next ∧ yielded.length = n ∧
      yielded.map Prod.snd = (neverMarked ids).take n ∧
      ∀ symbol ∈ yielded, symbol.2 + 1 < 2 ^ 32 ∧
        (symbol.2 < b.nOriginal → symbol.1 = b.originalData symbol.2) ∧
        b.fec.getSymbolData symbol.2 = .ok symbol.1) ∧
    (∀ i < b.nOriginal, b.originalData i ≠ [] ∧
      b.fec.getSymbolData i = .ok (b.originalData i) ∧ (i + 1) * maxBlockPacketSize < 2 ^ 32) ∧
    (List.range b.nOriginal).flatMap b.originalData = b.decoded ∧
    b.blockSize + maxBlockPacketSize < 2 ^ 32 := by
  have hsound := sound_of_made hlimited hlaw hmade
  have hholding := hsound.holding hdata
  refine ⟨?_, fun i hi => ⟨hholding.originalData_ne_nil hi, hholding.getSymbolData_of_lt hi,
    hholding.fits hi⟩, hholding.flatMap_originalData, size_lt_of_count_le hsound.count_le⟩
  rw [← hsound.unmarkedFrom_eq] at hn ⊢
  obtain ⟨yielded, next, hrange, hindices, hsymbols⟩ :=
    unseenRange_exact (fun k _ => hholding.symbolData_ok k) n 0 hn.le
  have hlength : yielded.length = n := by
    have hcount := congrArg List.length hindices
    rw [List.length_map, List.length_take] at hcount
    omega
  refine ⟨yielded, next, hrange, hlength, hindices, fun symbol hsymbol => ?_⟩
  have hmem : symbol.2 ∈ (unmarkedFrom b.symbolsSeen 0).take n :=
    hindices ▸ List.mem_map_of_mem hsymbol
  have hsymbolData := hsymbols symbol hsymbol
  refine ⟨lt_of_mem_take hn _ hmem, fun hi => ?_, ?_⟩
  · rw [hholding.symbolData_of_lt hi] at hsymbolData
    exact (Except.ok.inj hsymbolData).symm
  · by_cases hi : symbol.2 < b.nOriginal
    · rw [hholding.symbolData_of_lt hi] at hsymbolData
      rw [hholding.getSymbolData_of_lt hi, hsymbolData]
    · rw [symbolData, if_neg hi] at hsymbolData
      exact hsymbolData

/-! ## A block of two chunks -/

/-- A receiver of two chunks decodes when it has both. -/
theorem decodes_two {b : Block replicatingStrict} (hundecoded : b.decoded = [])
    (hn : Replica.n b.fec.wirehair = 2) (hparts : Replica.parts b.fec.wirehair 1 = none)
    {first second : Bytes} (hfirst : first.length = Replica.partSize b.fec.wirehair 0)
    (hsecond : second.length = Replica.partSize b.fec.wirehair 1) (hsome : second ≠ []) :
    ∃ half whole, processSymbol first 0 b = .ok false half ∧ half.decoded = [] ∧
      processSymbol second 1 half = .ok true whole ∧ whole.decoded = first ++ second := by
  let c : Replica := b.fec.wirehair
  have hhalf : replicatingStrict.decode c (u32 0) first = (.needMore, c.store 0 first) := by
    have haccepted : first.length = c.partSize (0 % c.n) := by rw [hn]; exact hfirst
    rw [show u32 0 = 0 from rfl, Replica.decode_of_accepted haccepted]
    refine Prod.ext ?_ (Replica.decode_snd c 0 first)
    rw [Replica.decode_fst, Replica.complete_first hn hparts]
    rfl
  have hwhole : replicatingStrict.decode (c.store 0 first) (u32 1) second =
      (.success, (c.store 0 first).store 1 second) := by
    have haccepted : second.length = (c.store 0 first).partSize (1 % (c.store 0 first).n) := by
      rw [Replica.n_store, hn]
      exact hsecond
    rw [show u32 1 = 1 from rfl, Replica.decode_of_accepted haccepted]
    refine Prod.ext ?_ (Replica.decode_snd _ 1 second)
    rw [Replica.decode_fst, Replica.complete_second hn]
    rfl
  have hrecover : ∀ size, replicatingStrict.recover ((c.store 0 first).store 1 second) size =
      (.success, first ++ second) := by
    intro size
    show (if Replica.complete _ then _ else _) = _
    rw [if_pos (Replica.complete_second hn first second), Replica.output_second hn]
  obtain ⟨half, hcall, hempty, hstored⟩ : ∃ half : Block replicatingStrict,
      processSymbol first 0 b = .ok false half ∧ half.decoded = [] ∧
        half.fec.wirehair = c.store 0 first := by
    refine ⟨b.received 0 (b.fec.decoded first (u32 0)), ?_, hundecoded, congrArg Prod.snd hhalf⟩
    rw [processSymbol_of_undecoded hundecoded,
      BlockFec.processSymbol_of_needMore (congrArg Prod.fst hhalf)]
    rfl
  have hdecode : (replicatingStrict.decode half.fec.wirehair (u32 1) second).1 = .success := by
    rw [hstored, hwhole]
  have hwritten : replicatingStrict.recover
      (replicatingStrict.decode half.fec.wirehair (u32 1) second).2 half.fec.blockSize =
      (.success, first ++ second) := by
    rw [hstored, hwhole]
    exact hrecover _
  have hsome : first ++ second ≠ [] := List.append_ne_nil_of_right_ne_nil first hsome
  obtain ⟨whole, hcall', hdecoded, -⟩ :=
    processSymbol_of_recovered hempty hdecode hwritten rfl hsome
  exact ⟨half, whole, hcall, hempty, hcall', hdecoded⟩

/-- A receiver of 1377 bytes, which are a chunk of 1376 and a chunk of 1. -/
def small : Block replicatingStrict :=
  { blockSize := 1377
    symbolsSeen := [false, false]
    fec := { blockSize := 1377, wirehair := { size := 1377, blockBytes := 1376 } } }

/-- Its chunks, all of zeros, with their indices. -/
def smallChunks : List (Bytes × Nat) := [(List.replicate 1376 0, 0), ([0], 1)]

/-- The block after some calls of `process_symbol`, whether they return or throw. -/
def feedAll (b : Block W) (feeds : List (Bytes × Nat)) : Block W :=
  feeds.foldl (fun b feed => Method.after (processSymbol feed.1 feed.2 b)) b

theorem made_small : Made (fun _ _ => True) [1, 0] (feedAll small smallChunks) ∧
    (feedAll small smallChunks).decoded ≠ [] := by
  have hsmall : Made (fun _ _ => True) [] small := .receiver (show ofSize 1377 = .ok small from rfl)
  have hfirst : (List.replicate 1376 (0 : UInt8)).length = Replica.partSize small.fec.wirehair 0 :=
    (List.length_replicate ..).trans (by decide)
  have hsecond : [(0 : UInt8)].length = Replica.partSize small.fec.wirehair 1 := by decide
  obtain ⟨half, whole, hhalf, hundecoded, hwhole, hdecoded⟩ :=
    decodes_two rfl (by decide) rfl hfirst hsecond (List.cons_ne_nil 0 [])
  have hfed : feedAll small smallChunks = whole := by
    simp only [feedAll, smallChunks, List.foldl_cons, List.foldl_nil]
    rw [hhalf, Method.after_ok, hwhole, Method.after_ok]
  have hgiven := hsmall.symbol (List.replicate 1376 0) 0 trivial
  rw [hhalf] at hgiven
  have hgiven := hgiven.symbol [0] 1 trivial
  rw [Method.after_ok, if_pos hundecoded, hwhole] at hgiven
  rw [hfed, hdecoded]
  exact ⟨hgiven, List.append_ne_nil_of_right_ne_nil _ (List.cons_ne_nil 0 [])⟩

/-- The decoded block yields its first three unseen symbols. -/
theorem unseen_range_exact_small : ∃ b : Block replicatingStrict, ∃ yielded next,
    Made (fun _ _ => True) [1, 0] b ∧ unseenRange b 3 0 = .ok yielded next ∧
      yielded.length = 3 := by
  obtain ⟨hmade, hdata⟩ := made_small
  have hleft := le_length_neverMarked [1, 0]
  obtain ⟨⟨yielded, next, hrange, hlength, -⟩, -⟩ := unseen_range_exact Replica.limited
    (Replica.systematic _) hmade hdata (show 3 < (neverMarked [1, 0]).length by
      rw [List.length_cons, List.length_singleton] at hleft
      omega)
  exact ⟨_, yielded, next, hmade, hrange, hlength⟩

/-- With two indices marked there are no `2 ^ 32 - 1` others among the 32-bit indices. -/
theorem unseen_range_runs_out : ∃ ids, ∃ b : Block replicatingStrict, ∃ n < 2 ^ 32,
    Made (fun _ _ => True) ids b ∧ b.decoded ≠ [] ∧
      ¬∃ yielded next, unseenRange b n 0 = .ok yielded next ∧ yielded.length = n ∧
        (yielded.map Prod.snd).Pairwise (· < ·) ∧
        ∀ symbol ∈ yielded, symbol.2 < 2 ^ 32 ∧ symbol.2 ∉ ids := by
  obtain ⟨hmade, hdata⟩ := made_small
  refine ⟨[1, 0], _, 2 ^ 32 - 1, by norm_num, hmade, hdata, ?_⟩
  rintro ⟨yielded, next, -, hlength, hascending, hnew⟩
  -- with the two that are marked there would be more indices than there are
  have hnodup : ([1, 0] ++ yielded.map Prod.snd).Nodup := by
    refine List.nodup_append.mpr ⟨by decide, hascending.imp fun h => h.ne, ?_⟩
    rintro k hk _ hk' rfl
    obtain ⟨symbol, hsymbol, rfl⟩ := List.mem_map.mp hk'
    exact (hnew symbol hsymbol).2 hk
  have hbelow : [1, 0] ++ yielded.map Prod.snd ⊆ List.range (2 ^ 32) := by
    intro k hk
    rw [List.mem_range]
    rcases List.mem_append.mp hk with hk | hk
    · have : k ≤ 1 := by simp at hk; omega
      omega
    · obtain ⟨symbol, hsymbol, rfl⟩ := List.mem_map.mp hk
      exact (hnew symbol hsymbol).1
  have hcount := (hnodup.subperm hbelow).length_le
  rw [List.length_append, List.length_map, hlength, List.length_range] at hcount
  simp at hcount

end FecRelay.Block
