import FecRelay.Base.Run
import FecRelay.Block

/-!
# Symbols reach the block codec once

`wirehair_decode` must not be given a symbol twice. A block marks the symbols it is
given, but the marks only serve its generator: a symbol that comes again while the
block is not decoded is passed on again. The precondition is respected exactly in
the runs where nothing of the kind happens.
-/

namespace FecRelay.Block

open FecRelay.Base

variable {W : Wirehair}

/-! ## Symbols fed to a block -/

/-- A call of `process_symbol` and what it returned, if it returned. -/
structure Feed where
  payload : Bytes
  index : UInt32
  result : Option Bool
  deriving DecidableEq, Repr

structure Feed.Step (b : Block W) (e : Feed) (b' : Block W) : Prop where
  result : e.result = Method.returned (processSymbol e.payload e.index.toNat b)
  next : b' = Method.after (processSymbol e.payload e.index.toNat b)

/-- The symbol is not one that was given before to a block still to be decoded. -/
def Fresh (b : Block W) (e : Feed) : Prop :=
  b.decoded ≠ [] ∨ marked b.symbolsSeen e.index.toNat = false

/-- A step with a fresh symbol. -/
def Feed.FreshStep (b : Block W) (e : Feed) (b' : Block W) : Prop :=
  Feed.Step b e b' ∧ Fresh b e

/-- The feeds without those whose index came before. -/
def withoutRepeats (es : List Feed) : List Feed :=
  es.foldl (fun kept e => if kept.any (fun k => k.index == e.index) then kept else kept ++ [e]) []

theorem withoutRepeats_snoc (es : List Feed) (e : Feed) :
    withoutRepeats (es ++ [e]) =
      if (withoutRepeats es).any (fun k => k.index == e.index) then withoutRepeats es
      else withoutRepeats es ++ [e] := by
  unfold withoutRepeats
  rw [List.foldl_append]
  rfl

/-- What is kept is one of the feeds. -/
theorem mem_of_mem_withoutRepeats {es : List Feed} :
    ∀ {e : Feed}, e ∈ withoutRepeats es → e ∈ es := by
  induction es using List.reverseRecOn with
  | nil => intro e he; exact he
  | append_singleton es x ih =>
      intro e he
      rw [withoutRepeats_snoc] at he
      split at he
      · exact List.mem_append_left _ (ih he)
      · rcases List.mem_append.mp he with he | he
        · exact List.mem_append_left _ (ih he)
        · exact List.mem_append_right _ he

/-! ## One step -/

theorem Feed.Step.of_decoded {b b' : Block W} {e : Feed} (h : Feed.Step b e b')
    (hdecoded : b.decoded ≠ []) : b' = b := by
  rw [h.next, processSymbol_of_decoded hdecoded]
  rfl

/-- A block that is not decoded marks the symbol and passes it to the codec. -/
theorem Feed.Step.of_undecoded {b b' : Block W} {e : Feed} (h : Feed.Step b e b')
    (hdecoded : b.decoded = []) :
    b'.symbolsSeen = mark b.symbolsSeen e.index.toNat ∧
      b'.fec.decodeCalls = b.fec.decodeCalls ++ [e.index.toNat] := by
  have hindex : u32 e.index.toNat = e.index.toNat := u32_of_lt e.index.toNat_lt
  rw [h.next, processSymbol_of_undecoded hdecoded, hindex]
  rcases BlockFec.processSymbol_cases b.fec e.payload e.index.toNat with
    ⟨err, codec, heq, _⟩ | heq | ⟨block, codec, _, _, heq⟩
  · rw [heq]
    exact ⟨rfl, rfl⟩
  · rw [heq]
    exact ⟨rfl, rfl⟩
  · rw [heq]
    cases block <;> exact ⟨rfl, rfl⟩

/-! ## The invariant of a run -/

/-- What holds of a block after the feeds `es`. -/
structure Heard (es : List Feed) (b : Block W) : Prop where
  /-- the symbols passed to the codec are the marked ones -/
  calls : ∀ k, k ∈ b.fec.decodeCalls ↔ marked b.symbolsSeen k = true
  /-- every symbol was marked, unless it came too late for that -/
  heard : ∀ e ∈ es, b.decoded ≠ [] ∨ marked b.symbolsSeen e.index.toNat = true

theorem heard_ofSize {size : Nat} {b : Block W} (h : ofSize size = .ok b) : Heard [] b := by
  obtain ⟨codec, _, rfl⟩ := ofSize_ok_iff.mp h
  refine ⟨?_, fun e he => absurd he List.not_mem_nil⟩
  intro k
  rw [marked_replicate_false]
  simp

theorem Heard.step {es : List Feed} {b b' : Block W} {e : Feed} (h : Heard es b)
    (hstep : Feed.Step b e b') : Heard (es ++ [e]) b' := by
  by_cases hdecoded : b.decoded = []
  · obtain ⟨hseen, hcalls⟩ := hstep.of_undecoded hdecoded
    refine ⟨?_, ?_⟩
    · intro k
      rw [hcalls, hseen, marked_mark, List.mem_append, List.mem_singleton, h.calls,
        Bool.or_eq_true, decide_eq_true_eq, or_comm]
    · intro x hx
      apply Or.inr
      rw [hseen, marked_mark]
      rcases List.mem_append.mp hx with hx | hx
      · rcases h.heard x hx with hx | hx
        · exact absurd hdecoded hx
        · rw [hx, Bool.or_true]
      · rw [List.mem_singleton.mp hx]
        simp
  · have hsame := hstep.of_decoded hdecoded
    subst hsame
    exact ⟨h.calls, fun x _ => Or.inl hdecoded⟩

theorem heard_run {size : Nat} {b₀ b : Block W} (h₀ : ofSize size = .ok b₀) {es : List Feed}
    (hrun : Run Feed.Step b₀ es b) : Heard es b := by
  induction hrun with
  | nil => exact heard_ofSize h₀
  | snoc _ hstep ih => exact ih.step hstep

/-! ## Fresh symbols and distinct calls -/

/-- A run that never passed a symbol twice fed fresh symbols only. -/
theorem fresh_of_nodup {size : Nat} {b₀ b : Block W} (h₀ : ofSize size = .ok b₀)
    {es : List Feed} (hrun : Run Feed.Step b₀ es b) (hnodup : b.fec.decodeCalls.Nodup) :
    Run Feed.FreshStep b₀ es b := by
  induction hrun with
  | nil => exact .nil _
  | @snoc b b' es e hrun hstep ih =>
      by_cases hdecoded : b.decoded = []
      · obtain ⟨_, hcalls⟩ := hstep.of_undecoded hdecoded
        rw [hcalls, List.nodup_append] at hnodup
        refine .snoc (ih hnodup.1) ⟨hstep, Or.inr ?_⟩
        -- a marked symbol would have been passed before
        rw [Bool.eq_false_iff]
        intro hmarked
        have hbefore := ((heard_run h₀ hrun).calls _).mpr hmarked
        exact hnodup.2.2 _ hbefore _ (List.mem_singleton_self _) rfl
      · have hsame := hstep.of_decoded hdecoded
        subst hsame
        exact .snoc (ih hnodup) ⟨hstep, Or.inl hdecoded⟩

/-- What fresh symbols do: none reaches the codec twice, and without the repeats the
run goes the same way. -/
theorem nodup_and_replay_of_fresh {size : Nat} {b₀ b : Block W} (h₀ : ofSize size = .ok b₀)
    {es : List Feed} (hrun : Run Feed.FreshStep b₀ es b) :
    b.fec.decodeCalls.Nodup ∧ Run Feed.Step b₀ (withoutRepeats es) b := by
  induction hrun with
  | nil =>
      refine ⟨?_, .nil _⟩
      obtain ⟨codec, _, rfl⟩ := ofSize_ok_iff.mp h₀
      exact List.nodup_nil
  | @snoc b b' es e hrun hstep ih =>
      obtain ⟨hnodup, hreplay⟩ := ih
      obtain ⟨hstep, hfresh⟩ := hstep
      have hplain : Run Feed.Step b₀ es b := by
        have hsteps := Run.simulate id id (fun s x t _ _ hx => ⟨trivial, hx.1⟩) hrun
          (fun _ _ => trivial) trivial
        simpa using hsteps.2
      have hheard := heard_run h₀ hplain
      rw [withoutRepeats_snoc]
      by_cases hdecoded : b.decoded = []
      · obtain ⟨_, hcalls⟩ := hstep.of_undecoded hdecoded
        have hunmarked : marked b.symbolsSeen e.index.toNat = false :=
          hfresh.resolve_left (fun h => h hdecoded)
        refine ⟨?_, ?_⟩
        · rw [hcalls, List.nodup_append]
          refine ⟨hnodup, List.nodup_singleton _, ?_⟩
          intro k hk k' hk'
          rw [List.mem_singleton.mp hk']
          intro heq
          rw [heq] at hk
          rw [(hheard.calls _).mp hk] at hunmarked
          cases hunmarked
        · -- the index is new, so the feed is kept
          have hnew : (withoutRepeats es).any (fun k => k.index == e.index) = false := by
            rw [List.any_eq_false]
            intro k hk heq
            have hkey : k.index = e.index := by simpa using heq
            rcases hheard.heard k (mem_of_mem_withoutRepeats hk) with hx | hx
            · exact hx hdecoded
            · rw [hkey, hunmarked] at hx
              cases hx
          rw [hnew]
          exact .snoc hreplay hstep
      · -- the block holds its data, so the feed changes nothing, kept or not
        have hsame := hstep.of_decoded hdecoded
        refine ⟨by rw [hsame]; exact hnodup, ?_⟩
        split
        · rw [hsame]
          exact hreplay
        · exact .snoc hreplay hstep

/-- **Wirehair's precondition.** In a run of `process_symbol` calls no symbol reaches
`wirehair_decode` twice, and leaving out the repeated symbols gives the same results
and the same block, exactly if every symbol fed to a block that was not decoded yet
had not been marked before. -/
theorem symbols_reach_codec_once_iff {size : Nat} {b₀ b : Block W} (h₀ : ofSize size = .ok b₀)
    {es : List Feed} (hrun : Run Feed.Step b₀ es b) :
    (b.fec.decodeCalls.Nodup ∧ Run Feed.Step b₀ (withoutRepeats es) b) ↔
      Run Feed.FreshStep b₀ es b := by
  refine ⟨?_, ?_⟩
  · intro h
    exact fresh_of_nodup h₀ hrun h.1
  · intro h
    exact nodup_and_replay_of_fresh h₀ h

/-- The first symbol of a block of two chunks comes twice, and is decoded twice. -/
theorem repeated_symbol_reaches_codec :
    let symbol : Feed := { payload := List.replicate 1376 7, index := 0, result := some false }
    ∃ b₀ b : Block replicating, ofSize 2000 = .ok b₀ ∧
      Run Feed.Step b₀ [symbol, symbol] b ∧ b.fec.decodeCalls = [0, 0] ∧
      ¬b.fec.decodeCalls.Nodup := by
  intro symbol
  exact ⟨_, _, rfl, Run.cons ⟨by decide, rfl⟩ (Run.single ⟨by decide, rfl⟩), by decide, by decide⟩

/-- Both symbols of a block of two chunks, and the first one again. -/
theorem symbols_reach_codec_once_iff_late_repeat :
    let first : Feed := { payload := List.replicate 1376 7, index := 0, result := some false }
    let second : Feed := { payload := List.replicate 624 7, index := 1, result := some true }
    let late : Feed := { payload := List.replicate 1376 7, index := 0, result := some false }
    ∃ b₀ b : Block replicating, ofSize 2000 = .ok b₀ ∧
      Run Feed.Step b₀ [first, second, late] b ∧
      ((b.fec.decodeCalls.Nodup ∧ Run Feed.Step b₀ (withoutRepeats [first, second, late]) b) ↔
        Run Feed.FreshStep b₀ [first, second, late] b) := by
  intro first second late
  obtain ⟨b₀, h₀⟩ : ∃ b₀ : Block replicating, ofSize 2000 = .ok b₀ := ⟨_, rfl⟩
  have hrun : ∃ b, Run Feed.Step b₀ [first, second, late] b := by
    cases h₀
    exact ⟨_, Run.cons ⟨by decide, rfl⟩ (Run.cons ⟨by decide, rfl⟩ (Run.single ⟨by decide, rfl⟩))⟩
  obtain ⟨b, hrun⟩ := hrun
  exact ⟨b₀, b, h₀, hrun, symbols_reach_codec_once_iff h₀ hrun⟩

end FecRelay.Block
