import FecRelay.Theorems.Unseen

/-!
# Symbols that the codec rejects

`process_symbol` marks a symbol before it knows whether the codec takes it. A symbol that is
rejected stays marked, and the generator of the decoded block skips it, unless it was marked
before.
-/

namespace FecRelay

open FecRelay.Base

variable {W : Wirehair}

namespace BlockFec

/-- The calls that were made before make no difference. -/
theorem processSymbol_alike {fec fec' : BlockFec W} (hsize : fec'.blockSize = fec.blockSize)
    (hcodec : fec'.wirehair = fec.wirehair) (data : Bytes) (ix : Nat) :
    Method.returned (processSymbol data ix fec') = Method.returned (processSymbol data ix fec) ∧
      (Method.after (processSymbol data ix fec')).blockSize =
        (Method.after (processSymbol data ix fec)).blockSize ∧
      (Method.after (processSymbol data ix fec')).wirehair =
        (Method.after (processSymbol data ix fec)).wirehair := by
  unfold processSymbol recovered decoded
  simp only [Method.bind_apply, Method.get_apply, Method.set_apply, hcodec, hsize]
  cases (W.decode fec.wirehair ix data).1 with
  | success =>
      simp only [Method.bind_apply, Method.get_apply]
      by_cases hrecover :
          (W.recover (W.decode fec.wirehair ix data).2 fec.blockSize).1 = .success <;>
        by_cases hready : (W.becomesEncoder (W.decode fec.wirehair ix data).2).1 = .success <;>
        simp [hrecover, hready]
  | _ => simp

end BlockFec

namespace Block

variable {b b' c : Block W} {payload : Bytes} {ix : Nat}

/-! ## Marks -/

theorem mark_of_marked {seen : List Bool} (h : marked seen ix = true) : mark seen ix = seen := by
  have hlt := lt_length_of_marked h
  have hget : seen[ix] = true := by
    rw [marked, List.getElem?_eq_getElem hlt] at h
    exact h
  show (if ix ≥ seen.length then _ else seen).set ix true = seen
  rw [if_neg (not_le.mpr hlt), ← hget, List.set_getElem_self]

/-- Marking changes the marks exactly if there was no mark. -/
theorem mark_eq_iff {seen : List Bool} : mark seen ix = seen ↔ marked seen ix = true := by
  refine ⟨fun h => ?_, mark_of_marked⟩
  rw [← h, marked_mark]
  simp

/-! ## A rejected symbol -/

/-- The marks and the data. -/
def seenAndDecoded (b : Block W) : List Bool × Bytes := (b.symbolsSeen, b.decoded)

/-- The block looks for its data, and `wirehair_decode` answers neither success nor
need-more. -/
structure Rejected (b : Block W) (payload : Bytes) (ix : Nat) : Prop where
  undecoded : b.decoded = []
  not_success : (W.decode b.fec.wirehair (u32 ix) payload).1 ≠ .success
  not_needMore : (W.decode b.fec.wirehair (u32 ix) payload).1 ≠ .needMore

/-- A rejected symbol is thrown, and marked. -/
theorem Rejected.processSymbol (h : Rejected b payload ix) : ∃ e,
    processSymbol payload ix b = .error e (b.received ix (b.fec.decoded payload (u32 ix))) := by
  have hthrow : ∃ e, BlockFec.processSymbol payload (u32 ix) b.fec =
      .error e (b.fec.decoded payload (u32 ix)) := by
    rw [BlockFec.processSymbol, Method.bind_of_ok (Method.get_apply b.fec),
      Method.bind_of_ok (Method.set_apply b.fec _)]
    cases hres : (W.decode b.fec.wirehair (u32 ix) payload).1 with
    | success => exact absurd hres h.not_success
    | needMore => exact absurd hres h.not_needMore
    | _ => exact ⟨_, rfl⟩
  obtain ⟨e, hthrow⟩ := hthrow
  exact ⟨e, by rw [processSymbol_of_undecoded h.undecoded, hthrow]⟩

theorem Rejected.restores_iff (h : Rejected b payload ix) :
    Method.Restores seenAndDecoded (Block.processSymbol payload ix) b ↔
      marked b.symbolsSeen ix = true := by
  obtain ⟨e, hthrow⟩ := h.processSymbol
  rw [Method.restores_iff_of_error hthrow, ← mark_eq_iff]
  constructor
  · exact fun hsame => congrArg Prod.fst hsame
  · exact fun hsame => Prod.ext hsame rfl

/-! ## What comes after -/

/-- What a symbol leaves in a block that looks for its data. -/
theorem after_processSymbol (h : b.decoded = []) (payload : Bytes) (ix : Nat) :
    Method.after (Block.processSymbol payload ix b) =
      { b.received ix (Method.after (BlockFec.processSymbol payload (u32 ix) b.fec)) with
        decoded := (Method.returned
          (BlockFec.processSymbol payload (u32 ix) b.fec)).getD [] } := by
  rw [processSymbol_of_undecoded h]
  cases BlockFec.processSymbol payload (u32 ix) b.fec with
  | error e fec => simp [received, h]
  | ok res fec => by_cases hres : res = [] <;> simp [received, hres, h]

/-- Two blocks that differ in their marks, and in the calls that were made, only. -/
structure Alike (b b' : Block W) : Prop where
  blockSize_eq : b'.blockSize = b.blockSize
  decoded_eq : b'.decoded = b.decoded
  fecSize_eq : b'.fec.blockSize = b.fec.blockSize
  codec_eq : b'.fec.wirehair = b.fec.wirehair

/-- The marks make no difference to a symbol. -/
theorem Alike.symbol (h : Alike b b') (payload : Bytes) (ix : Nat) :
    Alike (Method.after (Block.processSymbol payload ix b))
      (Method.after (Block.processSymbol payload ix b')) := by
  by_cases hundecoded : b.decoded = []
  · have hundecoded' : b'.decoded = [] := h.decoded_eq.trans hundecoded
    obtain ⟨hreturned, hsize, hcodec⟩ :=
      BlockFec.processSymbol_alike h.fecSize_eq h.codec_eq payload (u32 ix)
    rw [after_processSymbol hundecoded, after_processSymbol hundecoded']
    exact ⟨h.blockSize_eq, congrArg (Option.getD · []) hreturned, hsize, hcodec⟩
  · have hdecoded' : b'.decoded ≠ [] := fun hnil => hundecoded (h.decoded_eq.symm.trans hnil)
    rw [processSymbol_of_decoded hundecoded, processSymbol_of_decoded hdecoded']
    exact h

theorem symbolsSeen_after (b : Block W) (payload : Bytes) (ix : Nat) :
    (Method.after (Block.processSymbol payload ix b)).symbolsSeen =
      if b.decoded = [] then mark b.symbolsSeen ix else b.symbolsSeen := by
  by_cases hundecoded : b.decoded = []
  · rw [after_processSymbol hundecoded, if_pos hundecoded]
    rfl
  · rw [processSymbol_of_decoded hundecoded, if_neg hundecoded]
    rfl

theorem Alike.feedAll (feeds : List (Bytes × Nat)) {b b' : Block W} (h : Alike b b') :
    Alike (feedAll b feeds) (Block.feedAll b' feeds) := by
  induction feeds generalizing b b' with
  | nil => exact h
  | cons feed feeds ih => exact ih (h.symbol feed.1 feed.2)

/-- Blocks with the same marks go on having the same marks. -/
theorem Alike.symbolsSeen_feedAll (feeds : List (Bytes × Nat)) {b b' : Block W} (h : Alike b b')
    (hseen : b'.symbolsSeen = b.symbolsSeen) :
    (Block.feedAll b' feeds).symbolsSeen = (Block.feedAll b feeds).symbolsSeen := by
  induction feeds generalizing b b' with
  | nil => exact hseen
  | cons feed feeds ih =>
      refine ih (h.symbol feed.1 feed.2) ?_
      rw [symbolsSeen_after, symbolsSeen_after, hseen, h.decoded_eq]

/-- A mark stays. -/
theorem marked_feedAll (feeds : List (Bytes × Nat)) {b : Block W}
    (h : marked b.symbolsSeen ix = true) : marked (feedAll b feeds).symbolsSeen ix = true := by
  induction feeds generalizing b with
  | nil => exact h
  | cons feed feeds ih =>
      refine ih ?_
      rw [symbolsSeen_after]
      split
      · rw [marked_mark, h, Bool.or_true]
      · exact h

/-- Other symbols do not mark an index. -/
theorem unmarked_feedAll {feeds : List (Bytes × Nat)} (hother : ∀ feed ∈ feeds, feed.2 ≠ ix)
    {b : Block W} (h : marked b.symbolsSeen ix = false) :
    marked (feedAll b feeds).symbolsSeen ix = false := by
  induction feeds generalizing b with
  | nil => exact h
  | cons feed feeds ih =>
      refine ih (fun x hx => hother x (List.mem_cons_of_mem _ hx)) ?_
      have hne := hother feed List.mem_cons_self
      rw [symbolsSeen_after]
      split
      · rw [marked_mark, h, decide_eq_false hne.symm, Bool.or_false]
      · exact h

/-! ## What is yielded -/

/-- Blocks that differ in the calls that were made only yield the same. -/
theorem Alike.unseenRange_eq (h : Alike b b') (hseen : b'.symbolsSeen = b.symbolsSeen) (n : Nat) :
    unseenRange b' n = unseenRange b n := by
  have hdata : ∀ i, b'.symbolData i = b.symbolData i := by
    intro i
    unfold symbolData nOriginal BlockFec.getSymbolData
    rw [h.blockSize_eq, h.decoded_eq, h.codec_eq]
  have hgenerate : generate b' = generate b := by
    unfold generate
    simp only [hseen, hdata]
  induction n with
  | zero => rfl
  | succ n ih => rw [unseenRange, unseenRange, hgenerate, ih]

/-- With a mark among them there are fewer than `2 ^ 32` indices left. -/
theorem length_unmarkedFrom_lt {seen : List Bool} {k : Nat} (hk : k < 2 ^ 32)
    (h : marked seen k = true) : (unmarkedFrom seen 0).length < 2 ^ 32 := by
  have hfewer : (unmarkedFrom seen 0).length < (List.range' 0 (2 ^ 32 - 0)).length :=
    List.length_filter_lt_length_iff_exists.mpr ⟨k, by simpa using hk, by simp [h]⟩
  rwa [List.length_range'] at hfewer

/-- A block that was decoded by some symbols has marked the first of them. -/
theorem exists_marked {feeds : List (Bytes × Nat)} (hundecoded : b.decoded = [])
    (hdecoded : (feedAll b feeds).decoded ≠ []) :
    ∃ feed ∈ feeds, marked (feedAll b feeds).symbolsSeen feed.2 = true := by
  cases feeds with
  | nil => exact absurd hundecoded hdecoded
  | cons feed feeds =>
      refine ⟨feed, List.mem_cons_self, marked_feedAll feeds ?_⟩
      rw [symbolsSeen_after, if_pos hundecoded, marked_mark]
      simp

/-- A block with a mark that another does not have does not yield the same. -/
theorem not_yields_same {k : Nat} (hdata : ∀ i < 2 ^ 32, ∃ data, b.symbolData i = .ok data)
    (hmarks : ∃ i < 2 ^ 32, marked b.symbolsSeen i = true) (hk : k < 2 ^ 32)
    (hunmarked : marked b.symbolsSeen k = false) (hmarked : marked b'.symbolsSeen k = true) :
    ¬∀ n < 2 ^ 32,
      Method.returned (unseenRange b' n 0) = Method.returned (unseenRange b n 0) := by
  intro hsame
  obtain ⟨i, hi, hmark⟩ := hmarks
  have hn := length_unmarkedFrom_lt hi hmark
  obtain ⟨yielded, next, hrange, hindices, -⟩ := unseenRange_exact hdata _ 0 le_rfl
  have hmem : k ∈ yielded.map Prod.snd := by
    rw [hindices, List.take_length]
    exact mem_unmarkedFrom.mpr ⟨Nat.zero_le k, hk, hunmarked⟩
  obtain ⟨symbol, hsymbol, rfl⟩ := List.mem_map.mp hmem
  -- the other block would yield it too
  have hother := hsame _ hn
  rw [hrange, Method.returned_ok] at hother
  have hnew := unmarked_of_unseenRange _ 0 (Method.eq_ok_of_returned hother) symbol hsymbol
  rw [hmarked] at hnew
  cases hnew

/-- Both blocks yield the same unseen symbols, however many are asked for. -/
def YieldsAs (b' b : Block W) : Prop :=
  ∀ n < 2 ^ 32, Method.returned (unseenRange b' n 0) = Method.returned (unseenRange b n 0)

/-- Symbols other than `ix` decode the block, and it has data for every index then. -/
structure DecodedBy (b : Block W) (ix : Nat) (others : List (Bytes × Nat)) : Prop where
  index : ∀ feed ∈ others, feed.2 < 2 ^ 32 ∧ feed.2 ≠ ix
  decoded : (feedAll b others).decoded ≠ []
  data : ∀ i < 2 ^ 32, ∃ data, (feedAll b others).symbolData i = .ok data

/-- Whatever the rejection left in the codec, a symbol that was not marked is missing later. -/
theorem DecodedBy.marked_of_yieldsAs {others : List (Bytes × Nat)} (h : b.DecodedBy ix others)
    (hundecoded : b.decoded = []) (hix : ix < 2 ^ 32)
    (hsame : YieldsAs (feedAll (Method.after (processSymbol payload ix b)) others)
      (feedAll b others)) : marked b.symbolsSeen ix = true := by
  by_contra hunmarked
  have hseen := symbolsSeen_after b payload ix
  rw [if_pos hundecoded] at hseen
  have hunmarked : marked (feedAll b others).symbolsSeen ix = false :=
    unmarked_feedAll (fun feed hfeed => (h.index feed hfeed).2) (Bool.eq_false_iff.mpr hunmarked)
  have hmarked : marked (feedAll (Method.after (processSymbol payload ix b))
      others).symbolsSeen ix = true :=
    marked_feedAll others (by rw [hseen, marked_mark]; simp)
  obtain ⟨feed, hfeed, hmark⟩ := exists_marked hundecoded h.decoded
  exact not_yields_same h.data ⟨feed.2, (h.index feed hfeed).1, hmark⟩ hix hunmarked hmarked hsame

/-- A rejected symbol that was marked leaves a block that goes on as before where the codec
is as before. -/
theorem Rejected.yieldsAs (h : Rejected b payload ix) (hmarked : marked b.symbolsSeen ix = true)
    (hcodec : (W.decode b.fec.wirehair (u32 ix) payload).2 = b.fec.wirehair)
    (others : List (Bytes × Nat)) :
    YieldsAs (feedAll (Method.after (Block.processSymbol payload ix b)) others)
      (feedAll b others) := by
  obtain ⟨e, hthrow⟩ := h.processSymbol
  have halike : Alike b (Method.after (Block.processSymbol payload ix b)) := by
    rw [hthrow]
    exact ⟨rfl, rfl, rfl, hcodec⟩
  have hseen := symbolsSeen_after b payload ix
  rw [if_pos h.undecoded, mark_of_marked hmarked] at hseen
  intro n _
  rw [(halike.feedAll others).unseenRange_eq (halike.symbolsSeen_feedAll others hseen)]

/-- **What a rejected symbol leaves.** The marks and the data are as before exactly if the
index was marked already. A block that is decoded from other symbols yields what it would
have without the symbol only in that case, and does so where the codec is as before too. -/
theorem rejected_leaves_no_trace_iff {W : Wirehair} {b : Block W} {payload : Bytes}
    {ix : UInt32} (h : Rejected b payload ix.toNat) :
    (Method.Restores seenAndDecoded (processSymbol payload ix.toNat) b ↔
      marked b.symbolsSeen ix.toNat = true) ∧
    ∀ others : List (Bytes × Nat), b.DecodedBy ix.toNat others →
      (YieldsAs (feedAll (Method.after (processSymbol payload ix.toNat b)) others)
        (feedAll b others) → marked b.symbolsSeen ix.toNat = true) ∧
      ((W.decode b.fec.wirehair (u32 ix.toNat) payload).2 = b.fec.wirehair →
        marked b.symbolsSeen ix.toNat = true →
        YieldsAs (feedAll (Method.after (processSymbol payload ix.toNat b)) others)
          (feedAll b others)) :=
  ⟨h.restores_iff, fun others hothers =>
    ⟨hothers.marked_of_yieldsAs h.undecoded ix.toNat_lt,
      fun hcodec hmarked => h.yieldsAs hmarked hcodec others⟩⟩

/-! ## A symbol of the wrong size -/

/-- The block of 1377 bytes is given an empty payload as symbol 5. -/
theorem rejected_small : Rejected small [] 5 := by
  have hsize : ([] : Bytes).length ≠
      Replica.partSize small.fec.wirehair (u32 5 % Replica.n small.fec.wirehair) := by decide
  have hdecode := Replica.decode_of_rejected hsize
  exact ⟨rfl, by rw [hdecode]; nofun, by rw [hdecode]; nofun⟩

theorem smallChunks_index : ∀ feed ∈ smallChunks, feed.2 < 2 ^ 32 ∧ feed.2 ≠ 5 :=
  List.forall_mem_cons.mpr ⟨show 0 < 2 ^ 32 ∧ 0 ≠ 5 by omega,
    List.forall_mem_singleton.mpr (show 1 < 2 ^ 32 ∧ 1 ≠ 5 by omega)⟩

/-- `small` once it was given its first chunk. -/
def started : Block replicatingStrict := feedAll small [(List.replicate 1376 0, 0)]

theorem feedAll_started : feedAll started [([0], 1)] = feedAll small smallChunks := by
  simp only [started, feedAll, smallChunks, List.foldl_cons, List.foldl_nil]

/-- A first chunk of the right size is stored and marked. -/
theorem feedAll_first {first : Bytes} (hfirst : first.length = 1376) :
    (feedAll small [(first, 0)]).decoded = [] ∧
      (feedAll small [(first, 0)]).symbolsSeen = [true, false] ∧
      (feedAll small [(first, 0)]).fec.wirehair = Replica.store small.fec.wirehair 0 first := by
  have hlength : first.length =
      Replica.partSize small.fec.wirehair (u32 0 % Replica.n small.fec.wirehair) :=
    hfirst.trans (by decide)
  have hdecode := Replica.decode_of_accepted hlength
  have hmore : (replicatingStrict.decode small.fec.wirehair (u32 0) first).1 = .needMore := by
    rw [hdecode, Replica.decode_fst]
    have hcomplete := Replica.complete_first (c := small.fec.wirehair) (by decide) rfl first
    exact if_neg (Bool.eq_false_iff.mp hcomplete)
  have hcall : feedAll small [(first, 0)] =
      small.received 0 (small.fec.decoded first (u32 0)) := by
    show Method.after (processSymbol first 0 small) = _
    rw [processSymbol_of_undecoded rfl, BlockFec.processSymbol_of_needMore hmore]
    rfl
  rw [hcall]
  exact ⟨rfl, rfl, (congrArg Prod.snd hdecode).trans (Replica.decode_snd ..)⟩

/-- Once its first chunk is stored it is given an empty payload as symbol 0. -/
theorem rejected_started : Rejected started [] 0 ∧ marked started.symbolsSeen 0 = true ∧
    (replicatingStrict.decode started.fec.wirehair (u32 0) []).2 = started.fec.wirehair := by
  obtain ⟨hundecoded, hseen, hcodec⟩ := feedAll_first (List.length_replicate (n := 1376) ..)
  have hsize : ([] : Bytes).length ≠
      Replica.partSize started.fec.wirehair (u32 0 % Replica.n started.fec.wirehair) := by
    rw [started, hcodec, Replica.n_store]
    decide
  have hdecode := Replica.decode_of_rejected hsize
  refine ⟨⟨hundecoded, by rw [hdecode]; nofun, by rw [hdecode]; nofun⟩, ?_, by rw [hdecode]⟩
  rw [started, hseen]
  rfl

/-- Its chunks decode it, and the second does once the first was stored. -/
theorem decodedBy_small : small.DecodedBy 5 smallChunks ∧ started.DecodedBy 0 [([0], 1)] := by
  obtain ⟨hmade, hdecoded⟩ := made_small
  have hholding := (sound_of_made Replica.limited (Replica.systematic _) hmade).holding hdecoded
  refine ⟨⟨smallChunks_index, hdecoded, fun i _ => hholding.symbolData_ok i⟩, ?_⟩
  have hsecond : ∀ feed ∈ [(([0] : Bytes), 1)], feed.2 < 2 ^ 32 ∧ feed.2 ≠ 0 :=
    List.forall_mem_singleton.mpr (show 1 < 2 ^ 32 ∧ 1 ≠ 0 by omega)
  refine ⟨hsecond, ?_, ?_⟩ <;> rw [feedAll_started]
  · exact hdecoded
  · exact fun i _ => hholding.symbolData_ok i

/-- A symbol that was not marked is missing later, and one that was marked is not missed. -/
theorem rejected_leaves_no_trace_iff_small :
    (Method.Restores seenAndDecoded (processSymbol [] 5) small ↔
      marked small.symbolsSeen 5 = true) ∧
    (YieldsAs (feedAll (Method.after (processSymbol [] 5 small)) smallChunks)
      (feedAll small smallChunks) → marked small.symbolsSeen 5 = true) ∧
    Method.Restores seenAndDecoded (processSymbol [] 0) started ∧
    YieldsAs (feedAll (Method.after (processSymbol [] 0 started)) [([0], 1)])
      (feedAll started [([0], 1)]) := by
  obtain ⟨hrejected, hmarked, hcodec⟩ := rejected_started
  have hfirst := @rejected_leaves_no_trace_iff _ small [] 5 rejected_small
  have hsecond := @rejected_leaves_no_trace_iff _ started [] 0
    (by rw [UInt32.toNat_zero]; exact hrejected)
  rw [UInt32.toNat_zero] at hsecond
  exact ⟨hfirst.1, (hfirst.2 smallChunks decodedBy_small.1).1, hsecond.1.mpr hmarked,
    (hsecond.2 _ decodedBy_small.2).2 hcodec hmarked⟩

/-- Symbol 5 is rejected, and never yielded once the block was decoded from its chunks. -/
theorem rejected_symbol_is_skipped : Rejected small [] 5 ∧
    ¬Method.Restores seenAndDecoded (processSymbol [] 5) small ∧
    (feedAll small smallChunks).decoded ≠ [] ∧
    ¬YieldsAs (feedAll (Method.after (processSymbol [] 5 small)) smallChunks)
      (feedAll small smallChunks) := by
  have hunmarked : marked small.symbolsSeen 5 = false := rfl
  refine ⟨rejected_small, ?_, decodedBy_small.1.decoded, ?_⟩
  · rw [rejected_small.restores_iff, hunmarked]
    nofun
  · intro hsame
    have hmarked := decodedBy_small.1.marked_of_yieldsAs rfl (by norm_num) hsame
    rw [hunmarked] at hmarked
    cases hmarked

end Block

end FecRelay
