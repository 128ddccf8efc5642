import P99.BucketCalls
import P99.PercentileBatch

namespace P99

open Portable Buckets Double RunningTotal

variable {L : Layout}

section Percentiles

variable {D : Type} [LinearOrder D] [Add D] [Sub D] [Mul D] [Div D] [Double D] (h : Histogram L)

def BucketCall.interpolated (c : BucketCall D) : D :=
  interpolateAtPercentile c.bucketIndex c.count c.prevAccumulated c.targetRank

/-- The condition under which the result of `llround` is in the range of its type. -/
def BucketCall.FitsLongLong (c : BucketCall D) : Prop :=
  -2 ^ 63 ≤ llround c.interpolated ∧ llround c.interpolated ≤ 2 ^ 63 - 1

instance (c : BucketCall D) : Decidable c.FitsLongLong := inferInstanceAs (Decidable (_ ∧ _))

def BucketCall.fpValue (c : BucketCall D) : UInt64 :=
  valueAtPercentileInBucket h c.bucketIndex c.count c.prevAccumulated c.targetRank

/-- The call that the query for a percentile makes, if its scan stops at a bucket. -/
def valueAtPercentileCall (percentile : D) : Option (BucketCall D) :=
  if 0 = h.eventCount then none
  else
    let p := clampPercentile percentile
    if p ≤ ofInt 0 then none
    else if p ≥ ofInt 100 then none
    else
      let targetRank := ofU64 h.eventCount * (p / ofInt 100)
      (firstHit (bucketAt h) (targetRank ≤ ofU64 ·) (List.finRange bucketCount) 0).map
        fun (i, prev) ↦ ⟨i, bucketAt h i, prev, targetRank⟩

theorem valueAtPercentile_call (hne : ¬ 0 = h.eventCount) (percentile : D) :
    histogramValueAtPercentile h percentile = some (
      match valueAtPercentileCall h percentile with
      | some c => c.fpValue h
      | none => if clampPercentile percentile ≤ ofInt 0 then h.minEventTime
        else h.maxEventTime) := by
  rw [histogramValueAtPercentile, valueAtPercentileCall, if_neg hne, if_neg hne]
  dsimp only
  split
  · exact if_neg hne
  · split
    · exact if_neg hne
    · rw [valueAtPercentileLoop_eq]
      cases firstHit (bucketAt h)
          (ofU64 h.eventCount * (clampPercentile percentile / ofInt 100) ≤ ofU64 ·)
          (List.finRange bucketCount) 0 with
      | none => exact if_neg hne
      | some found => rfl

/-- The calls that the percentile batch makes in one bucket, each with the level it is for. -/
def percentileBucketLoopCalls (bucketIndex : ℕ) (count prevAccumulated accumulated : UInt64) :
    List (FpResult D) → LastResult D → List (D × BucketCall D)
  | [], _ => []
  | e :: es, last =>
    let p := clampPercentile e.level
    if p ≤ ofInt 0 then
      percentileBucketLoopCalls bucketIndex count prevAccumulated accumulated es last
    else
      let targetRank := batchTargetRank h p
      if last.hasLast = true ∧ targetRank ≤ last.lastTargetRank then
        percentileBucketLoopCalls bucketIndex count prevAccumulated accumulated es last
      else if ofU64 accumulated < targetRank then []
      else if p ≥ ofInt 100 then
        percentileBucketLoopCalls bucketIndex count prevAccumulated accumulated es
          ⟨true, targetRank, h.maxEventTime⟩
      else
        let call := ⟨bucketIndex, count, prevAccumulated, targetRank⟩
        (e.level, call) ::
          percentileBucketLoopCalls bucketIndex count prevAccumulated accumulated es
            ⟨true, targetRank, call.fpValue h⟩

section Calls

variable {i : ℕ} {count prev acc : UInt64} {e : FpResult D} {es : List (FpResult D)}
  {last : LastResult D}

theorem calls_skip (hp : clampPercentile e.level ≤ ofInt 0) :
    percentileBucketLoopCalls h i count prev acc (e :: es) last =
      percentileBucketLoopCalls h i count prev acc es last := if_pos hp

theorem calls_copy (hp : ¬ clampPercentile e.level ≤ ofInt 0)
    (hc : last.hasLast = true ∧ batchTargetRank h (clampPercentile e.level) ≤ last.lastTargetRank) :
    percentileBucketLoopCalls h i count prev acc (e :: es) last =
      percentileBucketLoopCalls h i count prev acc es last := (if_neg hp).trans (if_pos hc)

theorem calls_wait (hp : ¬ clampPercentile e.level ≤ ofInt 0)
    (hc : ¬ (last.hasLast = true ∧
      batchTargetRank h (clampPercentile e.level) ≤ last.lastTargetRank))
    (hw : ofU64 acc < batchTargetRank h (clampPercentile e.level)) :
    percentileBucketLoopCalls h i count prev acc (e :: es) last = [] :=
  (if_neg hp).trans ((if_neg hc).trans (if_pos hw))

def foundCalls (h : Histogram L) (i : ℕ) (count prev : UInt64) (e : FpResult D) :
    List (D × BucketCall D) :=
  if clampPercentile e.level ≥ ofInt 100 then []
  else [(e.level, ⟨i, count, prev, batchTargetRank h (clampPercentile e.level)⟩)]

omit [Add D] [Sub D] in
theorem eq_of_mem_foundCalls {c : D × BucketCall D} (hc : c ∈ foundCalls h i count prev e) :
    c = (e.level, ⟨i, count, prev, batchTargetRank h (clampPercentile e.level)⟩) := by
  rw [foundCalls] at hc
  split at hc
  · cases hc
  · exact List.mem_singleton.mp hc

theorem calls_found (hp : ¬ clampPercentile e.level ≤ ofInt 0)
    (hc : ¬ (last.hasLast = true ∧
      batchTargetRank h (clampPercentile e.level) ≤ last.lastTargetRank))
    (hw : ¬ ofU64 acc < batchTargetRank h (clampPercentile e.level)) :
    percentileBucketLoopCalls h i count prev acc (e :: es) last =
      foundCalls h i count prev e ++ percentileBucketLoopCalls h i count prev acc es
        ⟨true, batchTargetRank h (clampPercentile e.level),
          batchValue h i count prev (clampPercentile e.level)⟩ := by
  rw [percentileBucketLoopCalls, if_neg hp, if_neg hc, if_neg hw, foundCalls, batchValue]
  split <;> rfl

end Calls

def percentileWalkCalls :
    List (Fin bucketCount) → UInt64 → List (FpResult D) → LastResult D → List (D × BucketCall D)
  | [], _, _, _ => []
  | i :: is, accumulated, es, last =>
    let count := bucketAt h i
    if count > 0 then
      let prevAccumulated := accumulated
      let accumulated := accumulated + count
      let r := percentileBucketLoop h i count prevAccumulated accumulated es last
      percentileBucketLoopCalls h i count prevAccumulated accumulated es last ++
        percentileWalkCalls is accumulated r.rest r.last
    else percentileWalkCalls is accumulated es last

def histogramValuesAtPercentilesCalls (elements : List (FpResult D)) : List (D × BucketCall D) :=
  if 0 = h.eventCount then []
  else
    let r := percentilePrelude h elements ⟨false, ofInt (-1), h.minEventTime⟩
    percentileWalkCalls h (List.finRange bucketCount) 0 r.rest r.last

/-- Resolves elements with the calls of a list, one after another: `none` if they run out, or if
some are left at the end. -/
def performPercentileCalls (h : Histogram L) :
    List (FpResult D) → LastResult D → List (D × BucketCall D) → Option (List (FpResult D))
  | [], _, calls => if calls.isEmpty then some [] else none
  | e :: es, last, calls =>
    let p := clampPercentile e.level
    if p ≤ ofInt 0 then (performPercentileCalls h es last calls).map (e :: ·)
    else
      let targetRank := batchTargetRank h p
      if last.hasLast = true ∧ targetRank ≤ last.lastTargetRank then
        (performPercentileCalls h es last calls).map ({ e with value := last.lastValue } :: ·)
      else if p ≥ ofInt 100 then
        (performPercentileCalls h es ⟨true, targetRank, h.maxEventTime⟩ calls).map
          ({ e with value := h.maxEventTime } :: ·)
      else
        match calls with
        | [] => none
        | (level, c) :: calls =>
          (performPercentileCalls h es ⟨true, c.targetRank, c.fpValue h⟩ calls).map
            (⟨level, c.fpValue h⟩ :: ·)

section Perform

variable {e : FpResult D} {es : List (FpResult D)} {last : LastResult D}
  {calls : List (D × BucketCall D)}

theorem perform_skip (hp : clampPercentile e.level ≤ ofInt 0) :
    performPercentileCalls h (e :: es) last calls =
      (performPercentileCalls h es last calls).map (e :: ·) := if_pos hp

theorem perform_copy (hp : ¬ clampPercentile e.level ≤ ofInt 0)
    (hc : last.hasLast = true ∧ batchTargetRank h (clampPercentile e.level) ≤ last.lastTargetRank) :
    performPercentileCalls h (e :: es) last calls =
      (performPercentileCalls h es last calls).map ({ e with value := last.lastValue } :: ·) :=
  (if_neg hp).trans (if_pos hc)

theorem perform_found (i : ℕ) (count prev : UInt64) (hp : ¬ clampPercentile e.level ≤ ofInt 0)
    (hc : ¬ (last.hasLast = true ∧
      batchTargetRank h (clampPercentile e.level) ≤ last.lastTargetRank)) :
    performPercentileCalls h (e :: es) last (foundCalls h i count prev e ++ calls) =
      (performPercentileCalls h es ⟨true, batchTargetRank h (clampPercentile e.level),
          batchValue h i count prev (clampPercentile e.level)⟩ calls).map
        ({ e with value := batchValue h i count prev (clampPercentile e.level) } :: ·) := by
  rw [foundCalls, batchValue]
  split
  · next hall => exact (if_neg hp).trans ((if_neg hc).trans (if_pos hall))
  · next hall => exact (if_neg hp).trans ((if_neg hc).trans (if_neg hall))

end Perform

/-- The elements that a bucket resolves use up its calls and no others. -/
theorem bucketLoop_perform (i : ℕ) (count prev acc : UInt64) (es : List (FpResult D))
    (last : LastResult D) (calls : List (D × BucketCall D)) :
    let r := percentileBucketLoop h i count prev acc es last
    performPercentileCalls h es last
        (percentileBucketLoopCalls h i count prev acc es last ++ calls) =
      (performPercentileCalls h r.rest r.last calls).map (r.passed ++ ·) := by
  refine bucketLoop_induction h (motive := fun es last r ↦
    performPercentileCalls h es last
        (percentileBucketLoopCalls h i count prev acc es last ++ calls) =
      (performPercentileCalls h r.rest r.last calls).map (r.passed ++ ·))
    ?nil ?skip ?copy ?wait ?found es last
  case nil => exact fun last ↦ Option.map_id'.symm
  case skip =>
    intro e es last hp ih
    rw [calls_skip h hp, perform_skip h hp, ih, Option.map_map]
    rfl
  case copy =>
    intro e es last hp hc ih
    rw [calls_copy h hp hc, perform_copy h hp hc, ih, Option.map_map]
    rfl
  case wait =>
    intro e es last hp hc hw
    rw [calls_wait h hp hc hw]
    exact Option.map_id'.symm
  case found =>
    intro e es last value hp hc hw hvalue ih
    subst hvalue
    rw [calls_found h hp hc hw, List.append_assoc, perform_found h i count prev hp hc, ih,
      Option.map_map]
    rfl

theorem walk_perform (is : List (Fin bucketCount)) (acc : UInt64) (es : List (FpResult D))
    (last : LastResult D) (calls : List (D × BucketCall D)) :
    let r := percentileWalk h is acc es last
    performPercentileCalls h es last (percentileWalkCalls h is acc es last ++ calls) =
      (performPercentileCalls h r.rest r.last calls).map (r.passed ++ ·) := by
  induction is generalizing acc es last with
  | nil => cases es <;> exact Option.map_id'.symm
  | cons i is ih =>
    rw [percentileWalkCalls]
    by_cases hc : bucketAt h i > 0
    · simp only [if_pos hc, walk_bucket h hc, List.append_assoc, bucketLoop_perform, ih,
        Option.map_map, Function.comp_def]
    · simp only [if_neg hc, walk_skip h hc, ih]

/-- On a histogram that a run has reached, the batch makes exactly these calls, in this order, and
its results are theirs. -/
theorem histogramValuesAtPercentiles_calls [LawfulDouble D] {R : List ℕ} (hR : Represents h R)
    (hne : R ≠ []) (es : List (FpResult D)) :
    let r := percentilePrelude h es ⟨false, ofInt (-1), h.minEventTime⟩
    ∃ resolved, performPercentileCalls h r.rest r.last (histogramValuesAtPercentilesCalls h es) =
        some resolved ∧
      histogramValuesAtPercentiles h es = (true, r.passed ++ resolved) := by
  intro r
  obtain ⟨hexhausts, hout⟩ : (percentileWalk h (List.finRange bucketCount) 0 r.rest r.last).rest =
      [] ∧ _ := percentiles_walked h hR hne es
  have hcalls : histogramValuesAtPercentilesCalls h es =
      percentileWalkCalls h (List.finRange bucketCount) 0 r.rest r.last :=
    if_neg (hR.eventCount_ne hne)
  have hwalk := walk_perform h (List.finRange bucketCount) 0 r.rest r.last []
  simp only [hexhausts, List.append_nil, ← hcalls] at hwalk
  exact ⟨_, hwalk.trans (congrArg some (List.append_nil _)), hout⟩

variable {h} {i : ℕ} {count prev acc : UInt64} {es : List (FpResult D)} {last : LastResult D}

theorem mem_bucketLoopCalls {c : D × BucketCall D}
    (hc : c ∈ percentileBucketLoopCalls h i count prev acc es last) :
    ¬ clampPercentile c.1 ≤ ofInt 0 ∧ ¬ clampPercentile c.1 ≥ ofInt 100 ∧
      c.2.targetRank ≤ ofU64 acc ∧
      c.2 = ⟨i, count, prev, batchTargetRank h (clampPercentile c.1)⟩ := by
  induction es generalizing last with
  | nil => cases hc
  | cons e es ih =>
    simp only [percentileBucketLoopCalls] at hc
    split at hc
    · exact ih hc
    · next hp =>
      split at hc
      · exact ih hc
      · split at hc
        · cases hc
        · next hw =>
          split at hc
          · exact ih hc
          · next hall =>
            rcases List.mem_cons.mp hc with rfl | hc
            · exact ⟨hp, hall, not_lt.mp hw, rfl⟩
            · exact ih hc

theorem bucketLoop_rest_waits :
    ∀ e ∈ (percentileBucketLoop h i count prev acc es last).rest.head?,
      ¬ clampPercentile e.level ≤ ofInt 0 ∧
        ofU64 acc < batchTargetRank h (clampPercentile e.level) := by
  refine bucketLoop_induction h (motive := fun _ _ r ↦ ∀ e ∈ r.rest.head?,
    ¬ clampPercentile e.level ≤ ofInt 0 ∧
      ofU64 acc < batchTargetRank h (clampPercentile e.level)) ?nil ?skip ?copy ?wait ?found es last
  case nil => simp
  case skip => exact fun e es last _ ih ↦ ih
  case copy => exact fun e es last _ _ ih ↦ ih
  case wait =>
    intro e es last hp _ hw e' he'
    obtain rfl : e = e' := Option.some.inj he'
    exact ⟨hp, hw⟩
  case found => exact fun e es last value _ _ _ _ ih ↦ ih

/-- Whatever is called next is for a rank beyond `b`: the last rank is, or the first element that
waits. -/
def Beyond (h : Histogram L) (b : D) (es : List (FpResult D)) (last : LastResult D) : Prop :=
  (last.hasLast = true ∧ b < last.lastTargetRank) ∨
    ∀ e ∈ es.head?, ¬ clampPercentile e.level ≤ ofInt 0 ∧
      b < batchTargetRank h (clampPercentile e.level)

variable (i count prev acc es last) in
theorem bucketLoop_beyond {b : D} :
    Beyond h b es last →
    (∀ c ∈ percentileBucketLoopCalls h i count prev acc es last, b < c.2.targetRank) ∧
      let r := percentileBucketLoop h i count prev acc es last
      Beyond h b r.rest r.last := by
  refine bucketLoop_induction h (motive := fun es last r ↦ Beyond h b es last →
    (∀ c ∈ percentileBucketLoopCalls h i count prev acc es last, b < c.2.targetRank) ∧
      Beyond h b r.rest r.last) ?nil ?skip ?copy ?wait ?found es last
  case nil =>
    intro last hb
    exact ⟨by simp [percentileBucketLoopCalls], hb⟩
  case skip =>
    intro e es last hp ih hb
    rw [calls_skip h hp]
    exact ih (.inl (hb.resolve_right fun hhead ↦ (hhead e rfl).1 hp))
  case copy =>
    intro e es last hp hc ih hb
    rw [calls_copy h hp hc]
    rcases hb with hlast | hhead
    · exact ih (.inl hlast)
    · exact ih (.inl ⟨hc.1, (hhead e rfl).2.trans_le hc.2⟩)
  case wait =>
    intro e es last hp hc hw hb
    rw [calls_wait h hp hc hw]
    exact ⟨by simp, hb⟩
  case found =>
    intro e es last value hp hc hw hvalue ih hb
    have hrank : b < batchTargetRank h (clampPercentile e.level) := by
      rcases hb with ⟨hhas, hlt⟩ | hhead
      · exact hlt.trans (not_le.mp fun hle ↦ hc ⟨hhas, hle⟩)
      · exact (hhead e rfl).2
    obtain ⟨hcalls, hrest⟩ := ih (.inl ⟨rfl, hrank⟩)
    rw [calls_found h hp hc hw, ← hvalue]
    refine ⟨?_, hrest⟩
    intro c hcall
    rcases List.mem_append.mp hcall with hcall | hcall
    · rwa [eq_of_mem_foundCalls h hcall]
    · exact hcalls c hcall

theorem walk_beyond {b : D} {is : List (Fin bucketCount)} (hb : Beyond h b es last) :
    ∀ c ∈ percentileWalkCalls h is acc es last, b < c.2.targetRank := by
  induction is generalizing acc es last with
  | nil => simp [percentileWalkCalls]
  | cons i is ih =>
    rw [percentileWalkCalls]
    by_cases hc : bucketAt h i > 0
    · rw [if_pos hc]
      obtain ⟨hcalls, hrest⟩ :=
        bucketLoop_beyond i (bucketAt h i) acc (acc + bucketAt h i) es last hb
      intro c hcall
      rcases List.mem_append.mp hcall with hcall | hcall
      · exact hcalls c hcall
      · exact ih hrest c hcall
    · rw [if_neg hc]
      exact ih hb

theorem walk_firstHit {is : List (Fin bucketCount)} {c : D × BucketCall D}
    (hcall : c ∈ percentileWalkCalls h is acc es last) :
    ¬ clampPercentile c.1 ≤ ofInt 0 ∧ ¬ clampPercentile c.1 ≥ ofInt 100 ∧
      ∃ i prev, firstHit (bucketAt h) (batchTargetRank h (clampPercentile c.1) ≤ ofU64 ·) is acc =
        some (i, prev) ∧
        c.2 = ⟨i, bucketAt h i, prev, batchTargetRank h (clampPercentile c.1)⟩ := by
  induction is generalizing acc es last with
  | nil => cases hcall
  | cons i is ih =>
    rw [percentileWalkCalls] at hcall
    by_cases hc : bucketAt h i > 0
    · rw [if_pos hc] at hcall
      rcases List.mem_append.mp hcall with hcall | hcall
      · obtain ⟨hp, hall, hrank, heq⟩ := mem_bucketLoopCalls hcall
        rw [heq] at hrank
        exact ⟨hp, hall, i, acc, firstHit_found hc hrank, heq⟩
      · have hbeyond := walk_beyond (.inr bucketLoop_rest_waits) c hcall
        obtain ⟨hp, hall, j, prev, hfound, heq⟩ := ih hcall
        rw [heq] at hbeyond
        have hmiss : ¬ batchTargetRank h (clampPercentile c.1) ≤ ofU64 (acc + bucketAt h i) :=
          not_le.mpr hbeyond
        refine ⟨hp, hall, j, prev, ?_, heq⟩
        rw [firstHit, if_pos hc, if_neg hmiss]
        exact hfound
    · rw [if_neg hc] at hcall
      obtain ⟨hp, hall, j, prev, hfound, heq⟩ := ih hcall
      refine ⟨hp, hall, j, prev, ?_, heq⟩
      rw [firstHit_skip hc]
      exact hfound

/-- Every call that the batch makes for a level is the one that the single query makes for it,
whatever the order of the levels and the arithmetic of the doubles. -/
theorem percentilesCalls_subset {c : D × BucketCall D}
    (hcall : c ∈ histogramValuesAtPercentilesCalls h es) :
    valueAtPercentileCall h c.1 = some c.2 := by
  rw [histogramValuesAtPercentilesCalls] at hcall
  rw [valueAtPercentileCall]
  by_cases hz : 0 = h.eventCount
  · rw [if_pos hz] at hcall
    cases hcall
  · rw [if_neg hz] at hcall
    obtain ⟨hp, hall, i, prev, hfound, heq⟩ := walk_firstHit hcall
    rw [batchTargetRank, if_neg hall] at hfound heq
    rw [if_neg hz, if_neg hp, if_neg hall, heq]
    dsimp only
    rw [hfound]
    rfl

end Percentiles

end P99
