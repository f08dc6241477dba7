import FecRelay.Asio
import FecRelay.Base.LeakyBucket

/-!
# The shaper follows an ideal buffer

The level the shaper keeps is an integer that is brought up to date at every send,
with the elapsed time divided by a whole number of nanoseconds per byte. Compared
with an ideal buffer that leaks one byte in that time it never reads low, and its
lead stays below one byte a send.
-/

namespace FecRelay.BandwidthShaper

open FecRelay.Base
open FecRelay.Base.LeakyBucket (Bucket Fill Tracks)

/-! ## Calls of `did_send` -/

/-- One call of `did_send`. -/
structure DidSend where
  tp : Int
  bytes : Nat
  deriving DecidableEq, Repr

/-- A call as `maybe_send` makes it: `when_can_send` is due, and the packet is not
larger than the buffer. -/
structure DidSend.Step (s : BandwidthShaper) (x : DidSend) (s' : BandwidthShaper) : Prop where
  fits : x.bytes ≤ s.bufferSize
  admitted : ∃ t, s.whenCanSend x.bytes = .ok t ∧ t ≤ x.tp
  result : s' = Method.after (didSend x.tp x.bytes s)

/-- A rate whose `time_per_byte` is positive is one the shaper can divide by. -/
theorem rate_of_timePerByte {s : BandwidthShaper} {t : Int} (h : s.timePerByte = .ok t)
    (ht : 0 < t) : Rate s.kbps ∧ t = perByte s.kbps := by
  have hzero : (s.kbps : Int) ≠ 0 := by
    intro hzero
    unfold timePerByte divide at h
    rw [if_pos hzero] at h
    cases h
  have hkbps : 1 ≤ s.kbps := by omega
  have hquot : s.timePerByte = .ok (8000000 / (s.kbps : Int)) := divide_of_pos (by omega)
  rw [hquot] at h
  cases h
  have hpos : (0 : Int) < s.kbps := by omega
  have hle := (Int.le_ediv_iff_mul_le hpos).mp ht
  exact ⟨⟨hkbps, by omega⟩, rfl⟩

/-- What a call leaves, at a usable rate and a time not before the last one. -/
theorem DidSend.Step.charged {s s' : BandwidthShaper} {x : DidSend} (h : DidSend.Step s x s')
    (hrate : Rate s.kbps) (hnow : s.bufferUtilizationTp ≤ x.tp) :
    s' = s.charged (perByte s.kbps) x.tp x.bytes := by
  rw [h.result, didSend_of_rate hrate hnow]
  rfl

theorem DidSend.Step.le_bufferSize {s s' : BandwidthShaper} {x : DidSend}
    (h : DidSend.Step s x s') (hrate : Rate s.kbps) (hnow : s.bufferUtilizationTp ≤ x.tp) :
    s'.bufferUtilization ≤ s.bufferSize := by
  obtain ⟨t, hwhen, hdue⟩ := h.admitted
  rw [whenCanSend_of_rate hrate] at hwhen
  cases hwhen
  rw [h.charged hrate hnow]
  exact (charged_le_bufferSize_iff (perByte_pos hrate) h.fits).mpr hdue

/-! ## The ideal buffer -/

/-- A call as a lump put into the ideal buffer. -/
def DidSend.fill (x : DidSend) : Fill ℚ := { time := x.tp, amount := x.bytes }

/-- The ideal buffer that the calls fill and that drains one byte every `t`. -/
def idealBuffer (t : ℚ) (xs : List DidSend) : Bucket ℚ :=
  (xs.map DidSend.fill).foldl (LeakyBucket.fill t) { level := 0, time := 0 }

theorem idealBuffer_snoc (t : ℚ) (xs : List DidSend) (x : DidSend) :
    idealBuffer t (xs ++ [x]) = LeakyBucket.fill t (idealBuffer t xs) x.fill := by
  unfold idealBuffer
  rw [List.map_append, List.foldl_append]
  rfl

/-- The level as the shaper computes it is a leak of the whole units read. -/
theorem cast_drained (u r : Int) :
    ((drained u r : Int) : ℚ) = LeakyBucket.leak (u : ℚ) (r : ℚ) := by
  unfold drained LeakyBucket.leak
  split
  · next h =>
      have hneg : (u : ℚ) - r ≤ 0 := by
        have hlt : (u : ℚ) < r := by exact_mod_cast h
        linarith
      rw [max_eq_left hneg]
      norm_num
  · next h =>
      have hpos : (0 : ℚ) ≤ u - r := by
        have hle : (r : ℚ) ≤ u := by exact_mod_cast (not_lt.mp h)
        linarith
      rw [max_eq_right hpos]
      push_cast
      ring

/-! ## The invariant of a run -/

/-- What holds of a shaper after the calls `xs`. -/
structure Follows (kbps B : Nat) (xs : List DidSend) (s : BandwidthShaper) : Prop where
  rate_eq : s.kbps = kbps
  size_eq : s.bufferSize = B
  nonneg : 0 ≤ s.bufferUtilization
  le_bufferSize : s.bufferUtilization ≤ B
  time : ((s.bufferUtilizationTp : Int) : ℚ) = (idealBuffer (perByte kbps) xs).time
  past : ∀ now, (∀ tp ∈ 0 :: xs.map DidSend.tp, tp ≤ now) → s.bufferUtilizationTp ≤ now
  tracks : Tracks xs.length (s.bufferUtilization : ℚ) (idealBuffer (perByte kbps) xs).level

theorem follows_fresh (kbps B : Nat) : Follows kbps B [] { kbps := kbps, bufferSize := B } where
  rate_eq := rfl
  size_eq := rfl
  nonneg := le_rfl
  le_bufferSize := Int.natCast_nonneg B
  time := by simp [idealBuffer]
  past now hnow := hnow 0 (by simp)
  tracks := by
    have h := LeakyBucket.tracks_zero (0 : ℚ)
    simpa [idealBuffer] using h

/-- One call keeps the level within the buffer and adds less than a byte to its lead. -/
theorem Follows.step {kbps B : Nat} (hrate : Rate kbps) {xs : List DidSend} {x : DidSend}
    {s s' : BandwidthShaper} (h : Follows kbps B xs s)
    (hclock : NeverBackwards ((xs ++ [x]).map DidSend.tp)) (hstep : DidSend.Step s x s') :
    Follows kbps B (xs ++ [x]) s' := by
  rw [List.map_append] at hclock
  have hnow : s.bufferUtilizationTp ≤ x.tp := h.past x.tp hclock.le_last
  have hrate' : Rate s.kbps := h.rate_eq ▸ hrate
  have hcharged := hstep.charged hrate' hnow
  have hfull := hstep.le_bufferSize hrate' hnow
  rw [h.size_eq] at hfull
  rw [h.rate_eq] at hcharged
  subst hcharged
  have hlevel : ∀ r : Int, 0 ≤ drained s.bufferUtilization r + (x.bytes : Int) := by
    intro r
    have := drained_nonneg s.bufferUtilization r
    omega
  refine ⟨h.rate_eq, h.size_eq, hlevel _, hfull, ?_, ?_, ?_⟩
  · rw [idealBuffer_snoc]
    rfl
  · intro now hall
    exact hall x.tp (by simp)
  · -- both buffers leak over the same time, the shaper's in whole bytes
    obtain ⟨hlow, hhigh⟩ := @LeakyBucket.quotient_bounds ℚ _ _ _ _ (perByte_pos hrate)
      (x.tp - s.bufferUtilizationTp)
    have hmeter : ((drained s.bufferUtilization ((x.tp - s.bufferUtilizationTp) / perByte kbps) +
        (x.bytes : Int) : Int) : ℚ) = LeakyBucket.leak (s.bufferUtilization : ℚ)
          (((x.tp - s.bufferUtilizationTp) / perByte kbps : Int) : ℚ) + (x.bytes : ℚ) := by
      rw [Int.cast_add, cast_drained, Int.cast_natCast]
    have hideal : (idealBuffer (perByte kbps) (xs ++ [x])).level =
        LeakyBucket.leak (idealBuffer (perByte kbps) xs).level
          (((x.tp - s.bufferUtilizationTp : Int) : ℚ) / perByte kbps) + (x.bytes : ℚ) := by
      rw [idealBuffer_snoc, Int.cast_sub, h.time]
      rfl
    show Tracks (xs ++ [x]).length ((drained s.bufferUtilization _ + (x.bytes : Int) : Int) : ℚ) _
    rw [hmeter, hideal, List.length_append, List.length_singleton]
    exact h.tracks.step hlow hhigh (x.bytes : ℚ)

/-- The sum and the excess that `when_can_send` computes stay in the range of an `int` that
holds twice the size of the buffer. -/
theorem Follows.excess_bounds {kbps B : Nat} {xs : List DidSend} {s : BandwidthShaper}
    (h : Follows kbps B xs s) {bytes : Nat} (hfits : bytes ≤ B) :
    s.bufferUtilization + bytes ≤ 2 * B ∧ -B ≤ s.bufferUtilization + bytes - s.bufferSize ∧
      s.bufferUtilization + bytes - s.bufferSize ≤ B := by
  have hnonneg := h.nonneg
  have hle := h.le_bufferSize
  rw [h.size_eq]
  omega

theorem follows_run {kbps B : Nat} (hrate : Rate kbps) {xs : List DidSend}
    {s : BandwidthShaper} (hrun : Run DidSend.Step { kbps := kbps, bufferSize := B } xs s)
    (hclock : NeverBackwards (xs.map DidSend.tp)) : Follows kbps B xs s := by
  induction hrun with
  | nil => exact follows_fresh kbps B
  | @snoc s s' xs x hrun hstep ih =>
      have hbefore : NeverBackwards (xs.map DidSend.tp) := by
        rw [List.map_append] at hclock
        exact hclock.of_snoc
      exact (ih hbefore).step hrate hclock hstep

/-- After every call the level lies within the buffer, is not below that of the ideal
buffer, and exceeds it by fewer bytes than there were calls. -/
theorem tracks_ideal_buffer {kbps B : Nat} {t : Int}
    (ht : timePerByte { kbps := kbps, bufferSize := B } = .ok t) (hpos : 0 < t)
    {xs : List DidSend} {s : BandwidthShaper}
    (hrun : Run DidSend.Step { kbps := kbps, bufferSize := B } xs s)
    (hclock : NeverBackwards (xs.map DidSend.tp)) (hcalls : xs ≠ []) :
    (0 ≤ s.bufferUtilization ∧ s.bufferUtilization ≤ B) ∧
      (idealBuffer t xs).level ≤ s.bufferUtilization ∧
      s.bufferUtilization - (idealBuffer t xs).level < xs.length := by
  obtain ⟨hrate, htpb⟩ := rate_of_timePerByte ht hpos
  subst htpb
  have h := follows_run hrate hrun hclock
  exact ⟨⟨h.nonneg, h.le_bufferSize⟩, h.tracks.1, h.tracks.lt (List.length_pos_of_ne_nil hcalls)⟩

/-- The buffer is filled at once, and one more byte goes in after a byte and a half
had the time to leave it. -/
theorem tracks_ideal_buffer_two_sends :
    let xs : List DidSend := [⟨0, 5000⟩, ⟨1500, 1⟩]
    ∃ s, Run DidSend.Step { kbps := 8000, bufferSize := 5000 } xs s ∧
      (0 ≤ s.bufferUtilization ∧ s.bufferUtilization ≤ (5000 : Nat)) ∧
      (idealBuffer (1000 : Int) xs).level ≤ s.bufferUtilization ∧
      s.bufferUtilization - (idealBuffer (1000 : Int) xs).level < xs.length := by
  intro xs
  have hrun : Run DidSend.Step { kbps := 8000, bufferSize := (5000 : Nat) } xs _ :=
    Run.cons ⟨by decide, ⟨0, rfl, le_rfl⟩, rfl⟩
      (Run.single ⟨by decide, ⟨1000, rfl, by decide⟩, rfl⟩)
  have hclock : NeverBackwards (xs.map DidSend.tp) := by
    show [0, 0, 1500].Pairwise (· ≤ ·)
    decide
  exact ⟨_, hrun, tracks_ideal_buffer rfl (by decide) hrun hclock (List.cons_ne_nil _ _)⟩

end FecRelay.BandwidthShaper
