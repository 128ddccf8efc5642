import P99.Recording

namespace P99

open Portable Buckets

variable {L : Layout}

/-- `duration_cast` to nanoseconds: the count times the length of its unit, in 64 signed bits. -/
def durationCast (unit : TimeUnit) (count : Int64) : Int64 := count * .ofNat unit.inNs

def pushDuration (T : Toolchain) (unit : TimeUnit) (histogram : Histogram L) (count : Int64) :
    Histogram L × Bool :=
  if count < 0 then (histogram, false)
  else
    let ns := durationCast unit count
    if ns < 0 then (histogram, false)
    else histogramPushEventTimeNs T histogram ns.toUInt64

/-- Pushes of durations reach no state that the unit pushes do not. -/
theorem exists_run_pushDuration (T : Toolchain) (memory : Histogram L) (calls : List Call)
    (u : TimeUnit) (c : Int64) :
    ∃ calls', (run T memory calls').histogram =
      (pushDuration T u (run T memory calls).histogram c).1 := by
  rw [pushDuration]
  split
  · exact ⟨calls, rfl⟩
  · dsimp only
    split
    · exact ⟨calls, rfl⟩
    · refine ⟨calls ++ [.push .ns (durationCast u c).toUInt64], ?_⟩
      rw [run_append]
      rfl

theorem negative_iff (x : Int64) : x < 0 ↔ 2 ^ 63 ≤ x.toUInt64.toNat := by
  rw [Int64.lt_iff_toInt_lt]
  change x.toBitVec.toInt < 0 ↔ 2 ^ 63 ≤ x.toBitVec.toNat
  rw [BitVec.toInt_eq_toNat_cond]
  have hlt := x.toBitVec.isLt
  split <;> omega

theorem toNat_durationCast (u : TimeUnit) (c : Int64) :
    (durationCast u c).toUInt64.toNat = c.toUInt64.toNat * u.inNs % 2 ^ 64 := by
  rw [durationCast, Int64.toUInt64_mul, UInt64.toNat_mul]
  cases u <;> rfl

section Exact

variable (T : Toolchain) {h : Histogram L} {u : TimeUnit} {c : Int64}

theorem pushDuration_fits (hc : 0 ≤ c) (hfits : c.toUInt64.toNat * u.inNs % 2 ^ 64 < 2 ^ 63) :
    pushDuration T u h c =
      histogramPush T .ns h (.ofNat (c.toUInt64.toNat * u.inNs % 2 ^ 64)) := by
  rw [← toNat_durationCast] at hfits ⊢
  have hns : ¬ durationCast u c < 0 := fun hns ↦ not_le.mpr hfits ((negative_iff _).mp hns)
  rw [pushDuration, if_neg (Int64.not_lt.mpr hc), UInt64.ofNat_toNat]
  exact if_neg hns

theorem pushDuration_negative (hc : 0 ≤ c)
    (hbig : ¬ c.toUInt64.toNat * u.inNs % 2 ^ 64 < 2 ^ 63) : pushDuration T u h c = (h, false) := by
  rw [← toNat_durationCast, not_lt] at hbig
  rw [pushDuration, if_neg (Int64.not_lt.mpr hc)]
  exact if_pos ((negative_iff _).mpr hbig)

theorem histogramPush_accepted (hflag : h.hasOverflowed = 0 ∨ h.hasOverflowed = 1) {x : UInt64}
    (ha : Accepts h (x.toNat * u.inNs)) :
    histogramPush T u h x = (h.record (.ofNat (x.toNat * u.inNs)), true) := by
  rw [histogramPush_eq T hflag, if_pos ha]

theorem histogramPush_refused (hflag : h.hasOverflowed = 0 ∨ h.hasOverflowed = 1) {x : UInt64}
    (ha : ¬ Accepts h (x.toNat * u.inNs)) : histogramPush T u h x = (h.refuse, false) := by
  rw [histogramPush_eq T hflag, if_neg ha]

theorem Accepts.lt {n : ℕ} (ha : Accepts h n) : n < 2 ^ 64 :=
  (Nat.le_add_left _ _).trans_lt ha.total

theorem toNat_duration_ns {m : ℕ} (hm : m < 2 ^ 64) :
    (UInt64.ofNat m).toNat * TimeUnit.ns.inNs = m := by
  rw [UInt64.toNat_ofNat_of_lt' hm, TimeUnit.inNs, Nat.mul_one]

theorem pushDuration_exact (hflag : h.hasOverflowed = 0 ∨ h.hasOverflowed = 1) (hc : 0 ≤ c)
    (hn : c.toUInt64.toNat * u.inNs < 2 ^ 63) :
    pushDuration T u h c = histogramPush T u h c.toUInt64 := by
  have hlt : c.toUInt64.toNat * u.inNs < 2 ^ 64 := hn.trans (by decide)
  have hmod := Nat.mod_eq_of_lt hlt
  rw [pushDuration_fits T hc (hmod.symm ▸ hn), hmod, histogramPush_eq T hflag,
    histogramPush_eq T hflag, toNat_duration_ns hlt]

theorem pushDuration_wrapped (hflag : h.hasOverflowed = 0 ∨ h.hasOverflowed = 1) (hc : 0 ≤ c)
    (hn : ¬ c.toUInt64.toNat * u.inNs < 2 ^ 63)
    (hw : c.toUInt64.toNat * u.inNs % 2 ^ 64 < 2 ^ 63) :
    pushDuration T u h c = histogramPush T u h c.toUInt64 ↔
      ¬ Accepts h (c.toUInt64.toNat * u.inNs % 2 ^ 64) := by
  have hwrap : c.toUInt64.toNat * u.inNs % 2 ^ 64 < 2 ^ 64 := Nat.mod_lt _ (by decide)
  have hno : ¬ Accepts h (c.toUInt64.toNat * u.inNs) := by
    intro ha
    rw [Nat.mod_eq_of_lt ha.lt] at hw
    exact hn hw
  rw [pushDuration_fits T hc hw, histogramPush_refused T hflag hno]
  by_cases ha : Accepts h (c.toUInt64.toNat * u.inNs % 2 ^ 64)
  · rw [histogramPush_accepted T hflag ((toNat_duration_ns hwrap).symm ▸ ha)]
    refine iff_of_false (fun heq ↦ ?_) (not_not.mpr ha)
    exact Bool.false_ne_true (congrArg Prod.snd heq).symm
  · rw [histogramPush_refused T hflag ((toNat_duration_ns hwrap).symm ▸ ha)]
    exact iff_of_true rfl ha

theorem pushDuration_dropped (hflag : h.hasOverflowed = 0 ∨ h.hasOverflowed = 1) (hc : 0 ≤ c)
    (hw : ¬ c.toUInt64.toNat * u.inNs % 2 ^ 64 < 2 ^ 63) :
    pushDuration T u h c = histogramPush T u h c.toUInt64 ↔ h.hasOverflowed ≠ 0 := by
  rw [pushDuration_negative T hc hw]
  constructor
  · intro heq hzero
    by_cases ha : Accepts h (c.toUInt64.toNat * u.inNs)
    · rw [histogramPush_accepted T hflag ha] at heq
      exact Bool.false_ne_true (congrArg Prod.snd heq)
    · rw [histogramPush_refused T hflag ha] at heq
      have hset : h.hasOverflowed = 1 := congrArg (·.1.hasOverflowed) heq
      rw [hzero] at hset
      exact absurd hset (by decide)
  · intro hne
    rw [histogramPush_refused T hflag fun ha ↦ hne ha.running,
      refuse_of_overflowed (hflag.resolve_left hne)]

theorem pushDuration_eq_iff (hflag : h.hasOverflowed = 0 ∨ h.hasOverflowed = 1) (hc : 0 ≤ c) :
    pushDuration T u h c = histogramPush T u h c.toUInt64 ↔
      c.toUInt64.toNat * u.inNs < 2 ^ 63 ∨ h.hasOverflowed ≠ 0 ∨
        (c.toUInt64.toNat * u.inNs % 2 ^ 64 < 2 ^ 63 ∧
          ¬ Accepts h (c.toUInt64.toNat * u.inNs % 2 ^ 64)) := by
  by_cases hn : c.toUInt64.toNat * u.inNs < 2 ^ 63
  · exact iff_of_true (pushDuration_exact T hflag hc hn) (.inl hn)
  · by_cases hw : c.toUInt64.toNat * u.inNs % 2 ^ 64 < 2 ^ 63
    · rw [pushDuration_wrapped T hflag hc hn hw]
      simp only [hn, hw, false_or, true_and]
      exact (or_iff_right_of_imp fun hne ha ↦ hne ha.running).symm
    · rw [pushDuration_dropped T hflag hc hw]
      simp only [hn, hw, false_or, false_and, or_false]

/-- The push of a duration is that of its count in its unit, exactly when the nanoseconds fit in 63
bits, or nothing is accepted any more, or what the wrapped product leaves is refused as well. -/
theorem pushDuration_iff (memory : Histogram L) (calls : List Call) (u : TimeUnit) {c : Int64}
    (hc : 0 ≤ c) :
    let h := (run T memory calls).histogram
    let n := c.toInt.toNat * u.inNs
    (pushDuration T u h c = histogramPush T u h c.toUInt64 ∧
      (Accepts h n → pushDuration T u h c = (h.record (.ofNat n), true)) ∧
      (¬ Accepts h n → pushDuration T u h c = ({ h with hasOverflowed := 1 }, false))) ↔
    n < 2 ^ 63 ∨ h.hasOverflowed ≠ 0 ∨ (n % 2 ^ 64 < 2 ^ 63 ∧ ¬ Accepts h (n % 2 ^ 64)) := by
  have hflag := (Recording.run T memory calls).flag_cases
  intro h n
  have hcount : c.toUInt64.toNat = c.toInt.toNat := Int64.toNat_toUInt64_of_le hc
  have hiff : pushDuration T u h c = histogramPush T u h c.toUInt64 ↔ _ :=
    pushDuration_eq_iff T hflag hc
  rw [hcount] at hiff
  rw [← hiff]
  refine and_iff_left_of_imp fun heq ↦ ?_
  rw [heq]
  constructor
  · intro ha
    have hacc : Accepts h (c.toUInt64.toNat * u.inNs) := by rwa [hcount]
    rw [histogramPush_accepted T hflag hacc, hcount]
  · intro ha
    have hno : ¬ Accepts h (c.toUInt64.toNat * u.inNs) := by rwa [hcount]
    exact histogramPush_refused T hflag hno

theorem pushDuration_sample :
    pushDuration .gccX64 .ms sample.histogram 3 = histogramPush .gccX64 .ms sample.histogram 3 ∧
    pushDuration .gccX64 .ms sample.histogram 3 = (sample.histogram.record 3000000, true) ∧
    let full := (run .gccX64 (zeroed .standard) [.push .ns uint64Max]).histogram
    pushDuration .gccX64 .s full 18446744074 = histogramPush .gccX64 .s full 18446744074 ∧
      pushDuration .gccX64 .s full 18446744074 = ({ full with hasOverflowed := 1 }, false) := by
  have hfits := (pushDuration_iff .gccX64 (zeroed .standard)
    [.push .ns 1, .push .us 1, .push .ns 1000] .ms (c := 3) (by decide)).mpr (.inl (by decide))
  have hrefused := (pushDuration_iff .gccX64 (zeroed .standard) [.push .ns uint64Max] .s
    (c := 18446744074) (by decide)).mpr
      (.inr (.inr ⟨by decide, fun ha ↦ absurd ha.total (by decide)⟩))
  refine ⟨hfits.1, hfits.2.1 ⟨by decide, by decide, by simp⟩, hrefused.1, hrefused.2.2 fun ha ↦ ?_⟩
  exact absurd ha.total (by decide)

/-- A push of 9223372037 seconds to a fresh histogram: the product is read as negative. -/
theorem pushDuration_lost :
    ¬ ∀ (memory : Histogram .standard) (calls : List Call) (c : Int64), 0 ≤ c →
      pushDuration .gccX64 .s (run .gccX64 memory calls).histogram c =
        histogramPush .gccX64 .s (run .gccX64 memory calls).histogram c.toUInt64 := by
  intro hall
  have hlost := hall (zeroed .standard) [] 9223372037 (by decide)
  revert hlost
  decide +kernel

end Exact

end P99
