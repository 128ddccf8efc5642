import P99.Recording
import P99.PercentileQueries

namespace P99

open Portable Buckets Double RunningTotal

variable {L L' : Layout}

/-- Two histograms, of whatever layouts, that hold the same. -/
structure Agree (h : Histogram L) (h' : Histogram L') : Prop where
  hasOverflowed : h.hasOverflowed = h'.hasOverflowed
  eventCount : h.eventCount = h'.eventCount
  eventTimeTotal : h.eventTimeTotal = h'.eventTimeTotal
  minEventTime : h.minEventTime = h'.minEventTime
  maxEventTime : h.maxEventTime = h'.maxEventTime
  bucket : ∀ i, bucketAt h i = bucketAt h' i

/-- Two histograms that no statistic and no query can tell apart. -/
structure AnswersAlike (T : Toolchain) (D : Type) [LinearOrder D] [Add D] [Sub D] [Mul D] [Div D]
    [Double D] (h : Histogram L) (h' : Histogram L') : Prop where
  total : histogramEventTimeTotal h = histogramEventTimeTotal h'
  min : histogramMinEventTime h = histogramMinEventTime h'
  max : histogramMaxEventTime h = histogramMaxEventTime h'
  bucketValue : ∀ i, histogramBucketValue h i = histogramBucketValue h' i
  rank : ∀ r, valueAtTargetRank T h r = valueAtTargetRank T h' r
  named : ∀ k, namedQuery k T h = namedQuery k T h'
  fixed : ∀ results, histogramValuesAtFixedPercentiles T h results =
    histogramValuesAtFixedPercentiles T h' results
  percentile : ∀ p : D, histogramValueAtPercentile h p = histogramValueAtPercentile h' p
  percentiles : ∀ elements : List (FpResult D),
    histogramValuesAtPercentiles h elements = histogramValuesAtPercentiles h' elements

namespace Agree

variable {h : Histogram L} {h' : Histogram L'}

theorem bucketAt_eq (ha : Agree h h') : bucketAt h = bucketAt h' := funext ha.bucket

theorem clampToExtrema_eq (ha : Agree h h') : clampToExtrema h = clampToExtrema h' := by
  funext value
  rw [clampToExtrema, clampToExtrema, ha.minEventTime, ha.maxEventTime]

section Ranks

variable (T : Toolchain)

theorem rank_eq (ha : Agree h h') (r : UInt64) :
    valueAtTargetRank T h r = valueAtTargetRank T h' r := by
  simp only [valueAtTargetRank, valueAtTargetRankLoop_eq, valueAtTargetRankInBucket,
    ha.eventCount, ha.bucketAt_eq, ha.clampToExtrema_eq, ha.maxEventTime]

theorem named_eq (ha : Agree h h') (k : Fin 10) : namedQuery k T h = namedQuery k T h' := by
  rw [namedQuery_rank, namedQuery_rank, ha.eventCount, ha.rank_eq T]

end Ranks

section Percentiles

variable {D : Type} [LinearOrder D] [Double D]

theorem prelude_eq (ha : Agree h h') (es : List (FpResult D)) (last : LastResult D) :
    percentilePrelude h es last = percentilePrelude h' es last := by
  induction es generalizing last with
  | nil => rfl
  | cons e es ih => simp only [percentilePrelude, ha.minEventTime, ih]

variable [Mul D] [Div D]

theorem batchTargetRank_eq (ha : Agree h h') :
    batchTargetRank (D := D) h = batchTargetRank h' := by
  funext p
  rw [batchTargetRank, batchTargetRank, ha.eventCount]

theorem tail_eq (ha : Agree h h') (es : List (FpResult D)) (last : LastResult D) :
    percentileTail h es last = percentileTail h' es last := by
  induction es generalizing last with
  | nil => rfl
  | cons e es ih =>
    simp only [percentileTail, ha.batchTargetRank_eq, ha.minEventTime, ha.maxEventTime, ih]

variable [Add D] [Sub D]

theorem percentile_eq (ha : Agree h h') (p : D) :
    histogramValueAtPercentile h p = histogramValueAtPercentile h' p := by
  simp only [histogramValueAtPercentile, valueAtPercentileLoop_eq, valueAtPercentileInBucket,
    histogramMinEventTime, histogramMaxEventTime, ha.eventCount, ha.bucketAt_eq,
    ha.clampToExtrema_eq, ha.minEventTime, ha.maxEventTime]

theorem bucketLoop_eq (ha : Agree h h') (i : ℕ) (count prev acc : UInt64)
    (es : List (FpResult D)) (last : LastResult D) :
    percentileBucketLoop h i count prev acc es last =
      percentileBucketLoop h' i count prev acc es last := by
  induction es generalizing last with
  | nil => rfl
  | cons e es ih =>
    simp only [percentileBucketLoop, valueAtPercentileInBucket, ha.batchTargetRank_eq,
      ha.clampToExtrema_eq, ha.maxEventTime, ih]

theorem walk_eq (ha : Agree h h') (is : List (Fin bucketCount)) (acc : UInt64)
    (es : List (FpResult D)) (last : LastResult D) :
    percentileWalk h is acc es last = percentileWalk h' is acc es last := by
  induction is generalizing acc es last with
  | nil => cases es <;> rfl
  | cons i is ih =>
    cases es with
    | nil => rfl
    | cons e es => simp only [percentileWalk, ha.bucketAt_eq, ha.bucketLoop_eq, ih]

theorem percentiles_eq (ha : Agree h h') (elements : List (FpResult D)) :
    histogramValuesAtPercentiles h elements = histogramValuesAtPercentiles h' elements := by
  simp only [histogramValuesAtPercentiles, ha.eventCount, ha.minEventTime, ha.prelude_eq,
    ha.walk_eq, ha.tail_eq]

theorem answersAlike (T : Toolchain) (ha : Agree h h') : AnswersAlike T D h h' where
  total := by
    rw [histogramEventTimeTotal, histogramEventTimeTotal, ha.hasOverflowed, ha.eventTimeTotal]
  min := by rw [histogramMinEventTime, histogramMinEventTime, ha.eventCount, ha.minEventTime]
  max := by rw [histogramMaxEventTime, histogramMaxEventTime, ha.eventCount, ha.maxEventTime]
  bucketValue i := by rw [histogramBucketValue, histogramBucketValue, ha.bucketAt_eq]
  rank := ha.rank_eq T
  named := ha.named_eq T
  fixed := fixedPercentiles_congr ha.eventCount (ha.named_eq T)
  percentile := ha.percentile_eq
  percentiles := ha.percentiles_eq

end Percentiles

end Agree

theorem bucketAt_record {h : Histogram L} {t : UInt64} (ha : Accepts h t.toNat)
    (i : Fin bucketCount) :
    bucketAt (h.record t) i = if slotOf t = i then bucketAt h i + 1 else bucketAt h i := by
  apply UInt64.toNat_inj.mp
  rw [toNat_bucketAt]
  change ((h.buckets.set (slotOf t) (h.buckets[slotOf t] + 1))[(i : ℕ)]).toNat = _
  rw [Vector.getElem_set]
  by_cases hi : slotOf t = i
  · subst hi
    rw [if_pos rfl, if_pos rfl, UInt64.toNat_add, toNat_bucketAt, BitVec.toNat_add]
    cases L with
    | standard => rfl
    | compact =>
      have hroom := ha.bucket rfl (slotOf t) rfl
      generalize h.buckets[slotOf t].toNat = n at *
      change (n + 1) % 2 ^ 32 = (n + 1) % 2 ^ 64
      omega
  · have hne : ¬ (slotOf t : ℕ) = i := fun he ↦ hi (Fin.ext he)
    rw [if_neg hi, if_neg hne, toNat_bucketAt]
    rfl

namespace Agree

variable {h : Histogram L} {h' : Histogram L'}

theorem init (memory : Histogram L) (memory' : Histogram L') :
    Agree (histogramInit memory) (histogramInit memory') where
  hasOverflowed := rfl
  eventCount := rfl
  eventTimeTotal := rfl
  minEventTime := rfl
  maxEventTime := rfl
  bucket i := by
    apply UInt64.toNat_inj.mp
    simp [toNat_bucketAt, histogramInit]

theorem refuse (ha : Agree h h') : Agree h.refuse h'.refuse where
  hasOverflowed := rfl
  eventCount := ha.eventCount
  eventTimeTotal := ha.eventTimeTotal
  minEventTime := ha.minEventTime
  maxEventTime := ha.maxEventTime
  bucket := ha.bucket

theorem record (ha : Agree h h') {t : UInt64} (hacc : Accepts h t.toNat)
    (hacc' : Accepts h' t.toNat) : Agree (h.record t) (h'.record t) where
  hasOverflowed := ha.hasOverflowed
  eventCount := congrArg (· + 1) ha.eventCount
  eventTimeTotal := congrArg (· + t) ha.eventTimeTotal
  minEventTime := by simp only [Histogram.record, ha.eventCount, ha.minEventTime]
  maxEventTime := by simp only [Histogram.record, ha.eventCount, ha.maxEventTime]
  bucket i := by rw [bucketAt_record hacc, bucketAt_record hacc', ha.bucket]

end Agree

/-- The push of `n` nanoseconds would be accepted but for its bucket, which is full. -/
structure RefusedForBucket (T : Toolchain) (h : Histogram .compact) (n : ℕ) : Prop where
  running : h.hasOverflowed = 0
  total : h.eventTimeTotal.toNat + n < 2 ^ 64
  full : bucketAt h (bucketSlot T (.ofNat n)) ≥ uint32Max

theorem RefusedForBucket.not_accepts {T : Toolchain} {h : Histogram .compact} {n : ℕ}
    (hfull : RefusedForBucket T h n) : ¬ Accepts h n := by
  intro hacc
  have hlt : n < 2 ^ 64 := (Nat.le_add_left _ _).trans_lt hfull.total
  have hroom := hacc.bucket rfl (slotOf (.ofNat n))
    (congrArg bucketOf (UInt64.toNat_ofNat_of_lt' hlt))
  have hge := UInt64.le_iff_toNat_le.mp hfull.full
  rw [bucketSlot_eq, toNat_bucketAt] at hge
  exact not_lt.mpr hge hroom

section Accept

variable {T : Toolchain} {h : Histogram .standard} {h' : Histogram .compact} {n : ℕ}

theorem accepts_of_compact (ha : Agree h h') (hacc : Accepts h' n) : Accepts h n where
  running := ha.hasOverflowed ▸ hacc.running
  total := ha.eventTimeTotal ▸ hacc.total
  bucket hL := by cases hL

theorem compact_accepts (ha : Agree h h') (hroom : ¬ RefusedForBucket T h' n)
    (hacc : Accepts h n) : Accepts h' n := by
  have hrun : h'.hasOverflowed = 0 := ha.hasOverflowed ▸ hacc.running
  have htotal : h'.eventTimeTotal.toNat + n < 2 ^ 64 := ha.eventTimeTotal ▸ hacc.total
  refine ⟨hrun, htotal, fun _ i hi ↦ ?_⟩
  by_contra hfull
  apply hroom
  refine ⟨hrun, htotal, ?_⟩
  have hslot : bucketSlot T (.ofNat n) = i := by
    rw [bucketSlot_eq]
    apply Fin.ext
    rw [hi]
    exact congrArg bucketOf (UInt64.toNat_ofNat_of_lt' ((Nat.le_add_left _ _).trans_lt htotal))
  rw [hslot, ge_iff_le, UInt64.le_iff_toNat_le, toNat_bucketAt]
  exact not_lt.mp hfull

end Accept

section Runs

variable (T : Toolchain)

/-- How a compact session stands to the standard one that took the same calls: they are alike, or
the compact one has stopped at events that the other goes on from. -/
def Mirrors (s : Session .standard) (s' : Session .compact) : Prop :=
  (s'.log = s.log ∧ Agree s.histogram s'.histogram) ∨
    (s'.histogram.hasOverflowed = 1 ∧
      s'.log.filter (·.accepted) <+: s.log.filter (·.accepted))

theorem Mirrors.accepted {s : Session .standard} {s' : Session .compact} (hm : Mirrors s s') :
    s'.log.filter (·.accepted) <+: s.log.filter (·.accepted) := by
  rcases hm with ⟨hlog, -⟩ | ⟨-, hinitial⟩
  · rw [hlog]
  · exact hinitial

variable {s : Session .standard} {s' : Session .compact}

theorem alike_push (hs : Recording s) (hs' : Recording s')
    (hlog : s'.log = s.log) (ha : Agree s.histogram s'.histogram) {u : TimeUnit} {x : UInt64}
    (hroom : ¬ RefusedForBucket T s'.histogram (x.toNat * u.inNs)) :
    (s'.step T (.push u x)).log = (s.step T (.push u x)).log ∧
      Agree (s.step T (.push u x)).histogram (s'.step T (.push u x)).histogram := by
  simp only [Session.step, histogramPush_eq T hs.flag_cases, histogramPush_eq T hs'.flag_cases]
  by_cases hacc : Accepts s'.histogram (x.toNat * u.inNs)
  · have hacc' := accepts_of_compact ha hacc
    have hnat : (UInt64.ofNat (x.toNat * u.inNs)).toNat = x.toNat * u.inNs :=
      UInt64.toNat_ofNat_of_lt' ((Nat.le_add_left _ _).trans_lt hacc.total)
    rw [if_pos hacc, if_pos hacc', hlog]
    exact ⟨rfl, ha.record (hnat.symm ▸ hacc') (hnat.symm ▸ hacc)⟩
  · have hacc' : ¬ Accepts s.histogram (x.toNat * u.inNs) := fun hacc' ↦
      hacc (compact_accepts ha hroom hacc')
    rw [if_neg hacc, if_neg hacc', hlog]
    exact ⟨rfl, ha.refuse⟩

theorem falls_behind (hs' : Recording s') {u : TimeUnit} {x : UInt64}
    (hno : ¬ Accepts s'.histogram (x.toNat * u.inNs))
    (hinitial : s'.log.filter (·.accepted) <+: s.log.filter (·.accepted)) :
    Mirrors (s.step T (.push u x)) (s'.step T (.push u x)) := by
  have hstep : s'.step T (.push u x) = ⟨s'.histogram.refuse, s'.log ++ [⟨u, x, false⟩]⟩ := by
    simp only [Session.step, histogramPush_eq T hs'.flag_cases, if_neg hno]
  have hlog : (s.step T (.push u x)).log =
      s.log ++ [⟨u, x, (histogramPush T u s.histogram x).2⟩] := rfl
  have hrefused : ([⟨u, x, false⟩] : List PushRecord).filter (·.accepted) = [] := rfl
  rw [hstep]
  refine .inr ⟨rfl, ?_⟩
  simp only [hlog, List.filter_append, hrefused, List.append_nil]
  exact hinitial.trans (List.prefix_append _ _)

/-- Only a full bucket parts the two, and from then on the compact one accepts nothing. -/
theorem Mirrors.step (hs : Recording s) (hs' : Recording s') (hm : Mirrors s s') (c : Call) :
    Mirrors (s.step T c) (s'.step T c) := by
  cases c with
  | init => exact .inl ⟨rfl, Agree.init s.histogram s'.histogram⟩
  | clear => exact .inl ⟨rfl, Agree.init s.histogram s'.histogram⟩
  | push u x =>
    have hinitial := hm.accepted
    rcases hm with ⟨hlog, ha⟩ | ⟨hflag, -⟩
    · by_cases hfull : RefusedForBucket T s'.histogram (x.toNat * u.inNs)
      · exact falls_behind T hs' hfull.not_accepts hinitial
      · exact .inl (alike_push T hs hs' hlog ha hfull)
    · apply falls_behind T hs' ?_ hinitial
      intro hacc
      have hrun := hacc.running
      rw [hflag] at hrun
      exact absurd hrun (by decide)

theorem run_mirrors (memory : Histogram .standard) (memory' : Histogram .compact)
    (calls : List Call) : Mirrors (run T memory calls) (run T memory' calls) := by
  induction calls using List.reverseRecOn with
  | nil => exact .inl ⟨rfl, Agree.init memory memory'⟩
  | append_singleton calls c ih =>
    rw [run_append, run_append]
    exact ih.step T (Recording.run T memory calls) (Recording.run T memory' calls) c

/-- The pushes since the last `init` or `clear` of a compact run have all found room in their
buckets, or been refused for another reason. -/
def BucketsSuffice (memory : Histogram .compact) (calls : List Call) : Prop :=
  ∀ before u x (later : List (TimeUnit × UInt64)),
    calls = before ++ .push u x :: later.map (fun p ↦ .push p.1 p.2) →
      ¬ RefusedForBucket T (run T memory before).histogram (x.toNat * u.inNs)

theorem run_alike (memory : Histogram .standard) (memory' : Histogram .compact)
    {calls : List Call} (hroom : BucketsSuffice T memory' calls) :
    (run T memory' calls).log = (run T memory calls).log ∧
      Agree (run T memory calls).histogram (run T memory' calls).histogram := by
  induction calls using List.reverseRecOn with
  | nil => exact ⟨rfl, Agree.init memory memory'⟩
  | append_singleton calls c ih =>
    rw [run_append, run_append]
    cases c with
    | init => exact ⟨rfl, Agree.init memory memory'⟩
    | clear => exact ⟨rfl, Agree.init memory memory'⟩
    | push u x =>
      have hbefore : BucketsSuffice T memory' calls := by
        intro before v y later hcalls
        apply hroom before v y (later ++ [(u, x)])
        rw [hcalls, List.map_append, List.append_assoc]
        rfl
      obtain ⟨hlog, ha⟩ := ih hbefore
      exact alike_push T (Recording.run T memory calls) (Recording.run T memory' calls) hlog ha
        (hroom calls u x [] rfl)

theorem length_recorded_le {L : Layout} (memory : Histogram L) (calls : List Call) :
    (run T memory calls).recorded.length ≤ calls.length := by
  induction calls using List.reverseRecOn with
  | nil => exact Nat.zero_le _
  | append_singleton calls c ih =>
    rw [run_append, List.length_append, List.length_singleton]
    cases c with
    | init => exact Nat.zero_le _
    | clear => exact Nat.zero_le _
    | push u x =>
      rw [Session.step, Recording.recorded_push, List.length_append]
      split
      · exact Nat.succ_le_succ ih
      · exact Nat.le_succ_of_le ih

theorem bucketsSuffice_of_length_lt (memory : Histogram .compact) {calls : List Call}
    (hshort : calls.length < 2 ^ 32) : BucketsSuffice T memory calls := by
  intro before u x later hcalls hfull
  have hs := Recording.run T memory before
  have hlength := congrArg List.length hcalls
  rw [List.length_append, List.length_cons] at hlength
  have hfew := length_recorded_le T memory before
  have hge := UInt64.le_iff_toNat_le.mp hfull.full
  rw [toNat_bucketAt, hs.bucket, BitVec.toNat_ofNat] at hge
  have hheld := (hge.trans (Nat.mod_le _ _)).trans (OrderStatistics.countIn_le_length _ _ _)
  have hmax : uint32Max.toNat = 2 ^ 32 - 1 := rfl
  omega

/-- As long as the 32-bit buckets suffice, the compact histogram is the standard one to every
call; in any case it accepts an initial part of what the standard one accepts. -/
theorem compact_refines (D : Type) [LinearOrder D] [Add D] [Sub D] [Mul D] [Div D] [Double D]
    (memory : Histogram .standard) (memory' : Histogram .compact) (calls : List Call) :
    let s := run T memory calls
    let s' := run T memory' calls
    s'.log.filter (·.accepted) <+: s.log.filter (·.accepted) ∧
    (BucketsSuffice T memory' calls →
      s'.log = s.log ∧ Agree s.histogram s'.histogram ∧
        AnswersAlike T D s.histogram s'.histogram) := by
  refine ⟨(run_mirrors T memory memory' calls).accepted, fun hroom ↦ ?_⟩
  obtain ⟨hlog, ha⟩ := run_alike T memory memory' hroom
  exact ⟨hlog, ha, ha.answersAlike T⟩

theorem compact_refines_sample :
    let compact := run .gccX64 (zeroed .compact) [.push .ns 1, .push .us 1, .push .ns 1000]
    compact.log = sample.log ∧ Agree sample.histogram compact.histogram ∧
      AnswersAlike .gccX64 ℚ sample.histogram compact.histogram :=
  (compact_refines .gccX64 ℚ (zeroed .standard) (zeroed .compact)
    [.push .ns 1, .push .us 1, .push .ns 1000]).2
      (bucketsSuffice_of_length_lt .gccX64 (zeroed .compact) (by decide))

end Runs

end P99
