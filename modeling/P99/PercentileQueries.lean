import P99.RankQueries
import Mathlib.Data.Rat.Floor

namespace P99

open Portable Buckets Interpolation RunningTotal

variable {L : Layout}

/-- What the percentile queries need of the C type `double`, besides its order and its four
operations. No level is a NaN. -/
class Double (D : Type) where
  /-- The value of an integer, whether converted or written as a literal. -/
  ofInt : ℤ → D
  llround : D → ℤ

/-- Exact arithmetic, with `llround` rounding halves away from zero. -/
instance : Double ℚ where
  ofInt := Int.cast
  llround := roundHalfAway

open Double

section Code

variable {D : Type} [LinearOrder D] [Add D] [Sub D] [Mul D] [Div D] [Double D]

def ofU64 (value : UInt64) : D := ofInt value.toNat

def clampPercentile (percentile : D) : D :=
  if percentile < ofInt 0 then ofInt 0
  else if percentile > ofInt 100 then ofInt 100
  else percentile

def interpolateAtPercentile (bucketIndex : ℕ) (count prevAccumulated : UInt64) (targetRank : D) :
    D :=
  let (lower, upper) := (bucketRange bucketIndex).getD (0, uint64Max)
  let targetOffset := targetRank - ofU64 prevAccumulated
  let rangeWidth := ofU64 (bucketRangeWidth bucketIndex lower upper)
  let fraction := targetOffset / ofU64 count
  ofU64 lower + rangeWidth * fraction

def valueAtPercentileInBucket (histogram : Histogram L) (bucketIndex : ℕ)
    (count prevAccumulated : UInt64) (targetRank : D) : UInt64 :=
  let interpolated := interpolateAtPercentile bucketIndex count prevAccumulated targetRank
  clampToExtrema histogram (.ofInt (llround interpolated))

def valueAtPercentileLoop (histogram : Histogram L) (targetRank : D) :
    List (Fin bucketCount) → UInt64 → Option UInt64
  | [], _ => histogramMaxEventTime histogram
  | i :: is, accumulated =>
    let count := bucketAt histogram i
    if count > 0 then
      let prevAccumulated := accumulated
      let accumulated := accumulated + count
      if ofU64 accumulated ≥ targetRank then
        some (valueAtPercentileInBucket histogram i count prevAccumulated targetRank)
      else valueAtPercentileLoop histogram targetRank is accumulated
    else valueAtPercentileLoop histogram targetRank is accumulated

def histogramValueAtPercentile (histogram : Histogram L) (percentile : D) : Option UInt64 :=
  if 0 = histogram.eventCount then none
  else
    let p := clampPercentile percentile
    if p ≤ ofInt 0 then histogramMinEventTime histogram
    else if p ≥ ofInt 100 then histogramMaxEventTime histogram
    else
      let targetRank := ofU64 histogram.eventCount * (p / ofInt 100)
      valueAtPercentileLoop histogram targetRank (List.finRange bucketCount) 0

structure FpResult (D : Type) where
  level : D
  value : UInt64
  deriving DecidableEq

/-- The locals of the batch that remember the last element it resolved. -/
structure LastResult (D : Type) where
  hasLast : Bool
  lastTargetRank : D
  lastValue : UInt64

/-- How far a loop of the batch came: the elements it passed, those still to be resolved, and
the last result. -/
structure Progress (D : Type) where
  passed : List (FpResult D)
  rest : List (FpResult D)
  last : LastResult D

def Progress.pass (e : FpResult D) (r : Progress D) : Progress D :=
  { r with passed := e :: r.passed }

def batchTargetRank (histogram : Histogram L) (p : D) : D :=
  if p ≥ ofInt 100 then ofU64 histogram.eventCount
  else ofU64 histogram.eventCount * (p / ofInt 100)

def percentilePrelude (histogram : Histogram L) :
    List (FpResult D) → LastResult D → Progress D
  | [], last => ⟨[], [], last⟩
  | e :: es, last =>
    let p := clampPercentile e.level
    if p > ofInt 0 then ⟨[], e :: es, last⟩
    else
      let value := histogram.minEventTime
      (percentilePrelude histogram es ⟨true, ofInt 0, value⟩).pass { e with value := value }

def percentileBucketLoop (histogram : Histogram L) (bucketIndex : ℕ)
    (count prevAccumulated accumulated : UInt64) :
    List (FpResult D) → LastResult D → Progress D
  | [], last => ⟨[], [], last⟩
  | e :: es, last =>
    let p := clampPercentile e.level
    -- `continue`, without a value
    if p ≤ ofInt 0 then
      (percentileBucketLoop histogram bucketIndex count prevAccumulated accumulated es last).pass e
    else
      let targetRank := batchTargetRank histogram p
      if last.hasLast = true ∧ targetRank ≤ last.lastTargetRank then
        (percentileBucketLoop histogram bucketIndex count prevAccumulated accumulated es
          last).pass { e with value := last.lastValue }
      else if ofU64 accumulated < targetRank then ⟨[], e :: es, last⟩
      else
        let value :=
          if p ≥ ofInt 100 then histogram.maxEventTime
          else valueAtPercentileInBucket histogram bucketIndex count prevAccumulated targetRank
        (percentileBucketLoop histogram bucketIndex count prevAccumulated accumulated es
          ⟨true, targetRank, value⟩).pass { e with value := value }

def percentileWalk (histogram : Histogram L) :
    List (Fin bucketCount) → UInt64 → List (FpResult D) → LastResult D → Progress D
  | [], _, es, last => ⟨[], es, last⟩
  | _ :: _, _, [], last => ⟨[], [], last⟩
  | i :: is, accumulated, e :: es, last =>
    let count := bucketAt histogram i
    if count > 0 then
      let prevAccumulated := accumulated
      let accumulated := accumulated + count
      let r := percentileBucketLoop histogram i count prevAccumulated accumulated (e :: es) last
      let r' := percentileWalk histogram is accumulated r.rest r.last
      { r' with passed := r.passed ++ r'.passed }
    else percentileWalk histogram is accumulated (e :: es) last

def percentileTail (histogram : Histogram L) :
    List (FpResult D) → LastResult D → List (FpResult D)
  | [], _ => []
  | e :: es, last =>
    let p := clampPercentile e.level
    let value :=
      if p ≤ ofInt 0 then histogram.minEventTime
      else if last.hasLast then
        if batchTargetRank histogram p ≤ last.lastTargetRank then last.lastValue
        else histogram.maxEventTime
      else histogram.maxEventTime
    let lastTargetRank := if p ≤ ofInt 0 then ofInt 0 else batchTargetRank histogram p
    { e with value := value } :: percentileTail histogram es ⟨true, lastTargetRank, value⟩

def histogramValuesAtPercentiles (histogram : Histogram L) (elements : List (FpResult D)) :
    Bool × List (FpResult D) :=
  if 0 = histogram.eventCount then (false, elements)
  else if elements.length = 0 then (true, elements)
  else
    let r := percentilePrelude histogram elements ⟨false, ofInt (-1), histogram.minEventTime⟩
    let r' := percentileWalk histogram (List.finRange bucketCount) 0 r.rest r.last
    (true, r.passed ++ r'.passed ++ percentileTail histogram r'.rest r'.last)

end Code

section Loops

variable {D : Type} [LinearOrder D] [Double D] (h : Histogram L)

theorem prelude_stop {e : FpResult D} {es : List (FpResult D)} {last : LastResult D}
    (hp : clampPercentile e.level > ofInt 0) :
    percentilePrelude h (e :: es) last = ⟨[], e :: es, last⟩ := if_pos hp

theorem prelude_pass {e : FpResult D} {es : List (FpResult D)} {last : LastResult D}
    (hp : ¬ clampPercentile e.level > ofInt 0) :
    percentilePrelude h (e :: es) last =
      (percentilePrelude h es ⟨true, ofInt 0, h.minEventTime⟩).pass
        { e with value := h.minEventTime } := if_neg hp

variable [Add D] [Sub D] [Mul D] [Div D]

section Bucket

variable {i : ℕ} {count prev acc : UInt64} {e : FpResult D} {es : List (FpResult D)}
  {last : LastResult D}

theorem bucketLoop_skip (hp : clampPercentile e.level ≤ ofInt 0) :
    percentileBucketLoop h i count prev acc (e :: es) last =
      (percentileBucketLoop h i count prev acc es last).pass e := if_pos hp

theorem bucketLoop_copy (hp : ¬ clampPercentile e.level ≤ ofInt 0)
    (hc : last.hasLast = true ∧ batchTargetRank h (clampPercentile e.level) ≤ last.lastTargetRank) :
    percentileBucketLoop h i count prev acc (e :: es) last =
      (percentileBucketLoop h i count prev acc es last).pass { e with value := last.lastValue } :=
  (if_neg hp).trans (if_pos hc)

theorem bucketLoop_wait (hp : ¬ clampPercentile e.level ≤ ofInt 0)
    (hc : ¬ (last.hasLast = true ∧
      batchTargetRank h (clampPercentile e.level) ≤ last.lastTargetRank))
    (hw : ofU64 acc < batchTargetRank h (clampPercentile e.level)) :
    percentileBucketLoop h i count prev acc (e :: es) last = ⟨[], e :: es, last⟩ :=
  (if_neg hp).trans ((if_neg hc).trans (if_pos hw))

def batchValue (h : Histogram L) (i : ℕ) (count prev : UInt64) (p : D) : UInt64 :=
  if p ≥ ofInt 100 then h.maxEventTime
  else valueAtPercentileInBucket h i count prev (batchTargetRank h p)

theorem bucketLoop_found (hp : ¬ clampPercentile e.level ≤ ofInt 0)
    (hc : ¬ (last.hasLast = true ∧
      batchTargetRank h (clampPercentile e.level) ≤ last.lastTargetRank))
    (hw : ¬ ofU64 acc < batchTargetRank h (clampPercentile e.level)) :
    percentileBucketLoop h i count prev acc (e :: es) last =
      (percentileBucketLoop h i count prev acc es
        ⟨true, batchTargetRank h (clampPercentile e.level),
          batchValue h i count prev (clampPercentile e.level)⟩).pass
        { e with value := batchValue h i count prev (clampPercentile e.level) } :=
  (if_neg hp).trans ((if_neg hc).trans (if_neg hw))

/-- The induction over the elements of one bucket: each is skipped, copied, left to a later bucket
with all that follow it, or found. -/
theorem bucketLoop_induction
    {motive : List (FpResult D) → LastResult D → Progress D → Prop}
    (nil : ∀ last, motive [] last ⟨[], [], last⟩)
    (skip : ∀ e es last, clampPercentile e.level ≤ ofInt 0 →
      motive es last (percentileBucketLoop h i count prev acc es last) →
      motive (e :: es) last ((percentileBucketLoop h i count prev acc es last).pass e))
    (copy : ∀ e es last, ¬ clampPercentile e.level ≤ ofInt 0 →
      (last.hasLast = true ∧
        batchTargetRank h (clampPercentile e.level) ≤ last.lastTargetRank) →
      motive es last (percentileBucketLoop h i count prev acc es last) →
      motive (e :: es) last
        ((percentileBucketLoop h i count prev acc es last).pass { e with value := last.lastValue }))
    (wait : ∀ e es last, ¬ clampPercentile e.level ≤ ofInt 0 →
      ¬ (last.hasLast = true ∧
        batchTargetRank h (clampPercentile e.level) ≤ last.lastTargetRank) →
      ofU64 acc < batchTargetRank h (clampPercentile e.level) →
      motive (e :: es) last ⟨[], e :: es, last⟩)
    (found : ∀ e es last value, ¬ clampPercentile e.level ≤ ofInt 0 →
      ¬ (last.hasLast = true ∧
        batchTargetRank h (clampPercentile e.level) ≤ last.lastTargetRank) →
      ¬ ofU64 acc < batchTargetRank h (clampPercentile e.level) →
      value = batchValue h i count prev (clampPercentile e.level) →
      motive es ⟨true, batchTargetRank h (clampPercentile e.level), value⟩
        (percentileBucketLoop h i count prev acc es
          ⟨true, batchTargetRank h (clampPercentile e.level), value⟩) →
      motive (e :: es) last
        ((percentileBucketLoop h i count prev acc es
          ⟨true, batchTargetRank h (clampPercentile e.level), value⟩).pass
            { e with value := value }))
    (es : List (FpResult D)) (last : LastResult D) :
    motive es last (percentileBucketLoop h i count prev acc es last) := by
  induction es generalizing last with
  | nil => exact nil last
  | cons e es ih =>
    by_cases hp : clampPercentile e.level ≤ ofInt 0
    · rw [bucketLoop_skip h hp]
      exact skip e es last hp (ih last)
    · by_cases hc : last.hasLast = true ∧
          batchTargetRank h (clampPercentile e.level) ≤ last.lastTargetRank
      · rw [bucketLoop_copy h hp hc]
        exact copy e es last hp hc (ih last)
      · by_cases hw : ofU64 acc < batchTargetRank h (clampPercentile e.level)
        · rw [bucketLoop_wait h hp hc hw]
          exact wait e es last hp hc hw
        · rw [bucketLoop_found h hp hc hw]
          exact found e es last _ hp hc hw rfl (ih _)

end Bucket

section Walk

variable {i : Fin bucketCount} {is : List (Fin bucketCount)} {acc : UInt64}

theorem walk_nil (is : List (Fin bucketCount)) (acc : UInt64) (last : LastResult D) :
    percentileWalk h is acc [] last = ⟨[], [], last⟩ := by
  cases is <;> rfl

theorem walk_skip (hc : ¬ bucketAt h i > 0) (es : List (FpResult D)) (last : LastResult D) :
    percentileWalk h (i :: is) acc es last = percentileWalk h is acc es last := by
  cases es with
  | nil => rw [walk_nil, walk_nil]
  | cons e es => exact if_neg hc

theorem walk_bucket (hc : bucketAt h i > 0) (es : List (FpResult D)) (last : LastResult D) :
    let r := percentileBucketLoop h i (bucketAt h i) acc (acc + bucketAt h i) es last
    let r' := percentileWalk h is (acc + bucketAt h i) r.rest r.last
    percentileWalk h (i :: is) acc es last = { r' with passed := r.passed ++ r'.passed } := by
  cases es with
  | nil =>
    rw [walk_nil]
    simp only [percentileBucketLoop, walk_nil, List.append_nil]
  | cons e es => exact if_pos hc

end Walk

section Scan

variable {i : Fin bucketCount} {is : List (Fin bucketCount)} {acc : UInt64} {r : D}

theorem valueAtPercentileLoop_skip (hc : ¬ bucketAt h i > 0) :
    valueAtPercentileLoop h r (i :: is) acc = valueAtPercentileLoop h r is acc := if_neg hc

theorem valueAtPercentileLoop_miss (hc : bucketAt h i > 0) (hr : ofU64 (acc + bucketAt h i) < r) :
    valueAtPercentileLoop h r (i :: is) acc =
      valueAtPercentileLoop h r is (acc + bucketAt h i) :=
  (if_pos hc).trans (if_neg (not_le.mpr hr))

theorem valueAtPercentileLoop_found (hc : bucketAt h i > 0)
    (hr : ¬ ofU64 (acc + bucketAt h i) < r) :
    valueAtPercentileLoop h r (i :: is) acc =
      some (valueAtPercentileInBucket h i (bucketAt h i) acc r) :=
  (if_pos hc).trans (if_pos (not_lt.mp hr))

theorem valueAtPercentileLoop_eq (r : D) (is : List (Fin bucketCount)) (acc : UInt64) :
    valueAtPercentileLoop h r is acc =
      match firstHit (bucketAt h) (r ≤ ofU64 ·) is acc with
      | some (i, prev) => some (valueAtPercentileInBucket h i (bucketAt h i) prev r)
      | none => histogramMaxEventTime h := by
  induction is generalizing acc with
  | nil => rfl
  | cons i is ih =>
    by_cases hc : 0 < bucketAt h i
    · by_cases hr : r ≤ ofU64 (acc + bucketAt h i)
      · rw [valueAtPercentileLoop_found h hc (not_lt.mpr hr), firstHit_found hc hr]
      · rw [valueAtPercentileLoop_miss h hc (not_le.mp hr), firstHit_miss hc hr, ih]
    · rw [valueAtPercentileLoop_skip h hc, firstHit_skip hc, ih]

end Scan

end Loops

end P99
