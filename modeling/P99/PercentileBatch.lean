import P99.Recording
import P99.PercentileQueries

namespace P99

open Portable Buckets Double RunningTotal

variable {L : Layout} {D : Type}

def FpResult.erase (e : FpResult D) : FpResult D := { e with value := 0 }

def Progress.eraseRest (r : Progress D) : Progress D := { r with rest := r.rest.map .erase }

theorem erase_congr {es es' : List (FpResult D)} (hlevels : es.map (·.level) = es'.map (·.level)) :
    es.map FpResult.erase = es'.map .erase := by
  have herase : ∀ l : List (FpResult D), l.map .erase = (l.map (·.level)).map (FpResult.mk · 0) :=
    fun l ↦ by simp [FpResult.erase]
  rw [herase, herase, hlevels]

variable [LinearOrder D] [Double D]

/-- No level that is not positive comes after a positive one. -/
def Ordered (levels : List D) : Prop := levels.Pairwise fun p q ↦ ofInt 0 < p → ofInt 0 < q

instance (levels : List D) : Decidable (Ordered levels) :=
  inferInstanceAs (Decidable (List.Pairwise _ levels))

theorem ordered_append {front back : List D} (hfront : ∀ p ∈ front, ¬ ofInt 0 < p)
    (hback : ∀ p ∈ back, ofInt 0 < p) : Ordered (front ++ back) := by
  rw [Ordered, List.pairwise_append]
  refine ⟨?_, ?_, fun p hp _ _ hlt ↦ absurd hlt (hfront p hp)⟩
  · exact List.Pairwise.imp_of_mem (fun hp _ _ hlt ↦ absurd hlt (hfront _ hp))
      (List.pairwise_of_forall fun _ _ ↦ trivial)
  · exact List.Pairwise.imp_of_mem (fun _ hq _ _ ↦ hback _ hq)
      (List.pairwise_of_forall fun _ _ ↦ trivial)

theorem prelude_split (h : Histogram L) (es : List (FpResult D)) (last : LastResult D) :
    ∃ leading, es = leading ++ (percentilePrelude h es last).rest ∧
      (∀ e ∈ leading, ¬ clampPercentile e.level > ofInt 0) ∧
      (∀ e ∈ (percentilePrelude h es last).rest.head?, clampPercentile e.level > ofInt 0) ∧
      leading.length = (percentilePrelude h es last).passed.length := by
  induction es generalizing last with
  | nil => exact ⟨[], rfl, by simp, by simp [percentilePrelude], rfl⟩
  | cons e es ih =>
    by_cases hp : clampPercentile e.level > ofInt 0
    · rw [prelude_stop h hp]
      exact ⟨[], rfl, by simp, by simpa using hp, rfl⟩
    · obtain ⟨leading, hsplit, hleading, hhead, hlength⟩ := ih ⟨true, ofInt 0, h.minEventTime⟩
      rw [prelude_pass h hp]
      refine ⟨e :: leading, congrArg (e :: ·) hsplit, ?_, hhead, congrArg (· + 1) hlength⟩
      intro e' he'
      rcases List.mem_cons.mp he' with rfl | he'
      · exact hp
      · exact hleading e' he'

theorem prelude_erase (h : Histogram L) (es : List (FpResult D)) (last : LastResult D) :
    percentilePrelude h (es.map .erase) last = (percentilePrelude h es last).eraseRest := by
  induction es generalizing last with
  | nil => rfl
  | cons e es ih =>
    rw [List.map_cons]
    by_cases hp : clampPercentile e.level > ofInt 0
    · rw [prelude_stop h (e := e.erase) hp, prelude_stop h hp]
      rfl
    · rw [prelude_pass h (e := e.erase) hp, prelude_pass h hp, ih]
      rfl

/-- What the walk does to an element: its level stays, and so does its value where the level is
not positive. -/
def Passes (e e' : FpResult D) : Prop :=
  e'.level = e.level ∧ (clampPercentile e.level ≤ ofInt 0 → e' = e)

variable [Mul D] [Div D]

theorem tail_erase (h : Histogram L) (es : List (FpResult D)) (last : LastResult D) :
    percentileTail h (es.map .erase) last = percentileTail h es last := by
  induction es generalizing last with
  | nil => rfl
  | cons e es ih =>
    rw [List.map_cons, percentileTail, percentileTail]
    exact congrArg₂ List.cons rfl (ih _)

/-- What rounding to nearest keeps of the exact operations: a fraction of a count is not more
than the count. -/
class LawfulDouble (D : Type) [LinearOrder D] [Mul D] [Div D] [Double D] : Prop where
  zero_lt_hundred : (ofInt 0 : D) < ofInt 100
  fraction : ∀ p : D, ofInt 0 < p → p < ofInt 100 →
    ofInt 0 ≤ p / ofInt 100 ∧ p / ofInt 100 ≤ ofInt 1
  mul_le : ∀ (n : UInt64) (x : D), ofInt 0 ≤ x → x ≤ ofInt 1 → ofU64 n * x ≤ ofU64 n

instance : LawfulDouble ℚ where
  zero_lt_hundred := by simp [ofInt]
  fraction p h₀ h₁ := by
    simp only [ofInt, Int.cast_zero, Int.cast_ofNat, Int.cast_one] at *
    constructor
    · positivity
    · linarith
  mul_le n x h₀ h₁ := by
    simp only [ofU64, ofInt, Int.cast_zero, Int.cast_one, Int.cast_natCast] at *
    exact mul_le_of_le_one_right (Nat.cast_nonneg _) h₁

section Clamp

variable [LawfulDouble D]

theorem clampPercentile_pos_iff {p : D} : ofInt 0 < clampPercentile p ↔ ofInt 0 < p := by
  have h := LawfulDouble.zero_lt_hundred (D := D)
  rw [clampPercentile]
  split
  · next hp => simp [hp.le]
  · split
    · next hp => simp [h, h.trans hp]
    · rfl

theorem clampPercentile_le (p : D) : clampPercentile p ≤ ofInt 100 := by
  have h := LawfulDouble.zero_lt_hundred (D := D)
  rw [clampPercentile]
  split
  · exact h.le
  · split
    · exact le_rfl
    · next hp => exact not_lt.mp hp

theorem batchTargetRank_le (h : Histogram L) {p : D} (hp : ofInt 0 < p) :
    batchTargetRank h p ≤ ofU64 h.eventCount := by
  rw [batchTargetRank]
  split
  · exact le_rfl
  · next hlt =>
    obtain ⟨h₀, h₁⟩ := LawfulDouble.fraction p hp (not_le.mp hlt)
    exact LawfulDouble.mul_le _ _ h₀ h₁

theorem prelude_rest_pos (h : Histogram L) {es : List (FpResult D)}
    (hord : Ordered (es.map (·.level))) (last : LastResult D) :
    ∀ e ∈ (percentilePrelude h es last).rest, ofInt 0 < clampPercentile e.level := by
  obtain ⟨leading, hsplit, -, hhead, -⟩ := prelude_split h es last
  generalize (percentilePrelude h es last).rest = rest at *
  intro e he
  cases rest with
  | nil => cases he
  | cons e₀ rest =>
    have hfirst : ofInt 0 < clampPercentile e₀.level := hhead e₀ rfl
    rcases List.mem_cons.mp he with rfl | he
    · exact hfirst
    · rw [Ordered, hsplit, List.map_append, List.map_cons, List.pairwise_append,
        List.pairwise_cons] at hord
      have hnext := hord.2.1.1 e.level (List.mem_map_of_mem he)
      rw [clampPercentile_pos_iff] at hfirst ⊢
      exact hnext hfirst

theorem pos_of_passes {levels : List D} {out out' : List (FpResult D)}
    (hout : List.Forall₂ Passes (levels.map (FpResult.mk · 0)) out)
    (hout' : List.Forall₂ Passes (levels.map (FpResult.mk · 1)) out')
    (hsame : out.map (·.value) = out'.map (·.value)) : ∀ p ∈ levels, ofInt 0 < p := by
  induction levels generalizing out out' with
  | nil => simp
  | cons p levels ih =>
    cases hout with
    | cons hpass hout =>
      cases hout' with
      | cons hpass' hout' =>
        rw [List.map_cons, List.map_cons, List.cons.injEq] at hsame
        intro q hq
        rcases List.mem_cons.mp hq with rfl | hq
        · by_contra hp
          have hclamp : clampPercentile q ≤ ofInt 0 :=
            not_lt.mp fun hlt ↦ hp (clampPercentile_pos_iff.mp hlt)
          rw [hpass.2 hclamp, hpass'.2 hclamp] at hsame
          have hzero : (0 : UInt64) = 1 := hsame.1
          exact absurd hzero (by decide)
        · exact ih hout hout' hsame.2 q hq

end Clamp

variable [Add D] [Sub D] (h : Histogram L)

theorem bucketLoop_erase (i : ℕ) (count prev acc : UInt64) (es : List (FpResult D))
    (hpos : ∀ e ∈ es, ofInt 0 < clampPercentile e.level) (last : LastResult D) :
    percentileBucketLoop h i count prev acc (es.map .erase) last =
      (percentileBucketLoop h i count prev acc es last).eraseRest := by
  induction es generalizing last with
  | nil => rfl
  | cons e es ih =>
    have hp : ¬ clampPercentile e.level ≤ ofInt 0 := not_le.mpr (hpos e List.mem_cons_self)
    have ih := ih fun e he ↦ hpos e (List.mem_cons_of_mem _ he)
    rw [List.map_cons]
    by_cases hc : last.hasLast = true ∧
        batchTargetRank h (clampPercentile e.level) ≤ last.lastTargetRank
    · rw [bucketLoop_copy h (e := e.erase) hp hc, bucketLoop_copy h hp hc, ih]
      rfl
    · by_cases hw : ofU64 acc < batchTargetRank h (clampPercentile e.level)
      · rw [bucketLoop_wait h (e := e.erase) hp hc hw, bucketLoop_wait h hp hc hw]
        rfl
      · rw [bucketLoop_found h (e := e.erase) hp hc hw, bucketLoop_found h hp hc hw, ih]
        rfl

theorem bucketLoop_split (i : ℕ) (count prev acc : UInt64) (es : List (FpResult D))
    (last : LastResult D) :
    ∃ consumed, es = consumed ++ (percentileBucketLoop h i count prev acc es last).rest ∧
      List.Forall₂ Passes consumed (percentileBucketLoop h i count prev acc es last).passed := by
  refine bucketLoop_induction h (motive := fun es _ r ↦ ∃ consumed, es = consumed ++ r.rest ∧
    List.Forall₂ Passes consumed r.passed) ?nil ?skip ?copy ?wait ?found es last
  case nil => exact fun last ↦ ⟨[], rfl, .nil⟩
  case skip =>
    intro e es last _ ⟨consumed, hsplit, hpassed⟩
    exact ⟨e :: consumed, congrArg (e :: ·) hsplit, .cons ⟨rfl, fun _ ↦ rfl⟩ hpassed⟩
  case copy =>
    intro e es last hp _ ⟨consumed, hsplit, hpassed⟩
    exact ⟨e :: consumed, congrArg (e :: ·) hsplit, .cons ⟨rfl, fun hle ↦ absurd hle hp⟩ hpassed⟩
  case wait => exact fun e es last _ _ _ ↦ ⟨[], rfl, .nil⟩
  case found =>
    intro e es last value hp _ _ _ ⟨consumed, hsplit, hpassed⟩
    exact ⟨e :: consumed, congrArg (e :: ·) hsplit, .cons ⟨rfl, fun hle ↦ absurd hle hp⟩ hpassed⟩

theorem walk_split (is : List (Fin bucketCount)) (acc : UInt64) (es : List (FpResult D))
    (last : LastResult D) :
    ∃ consumed, es = consumed ++ (percentileWalk h is acc es last).rest ∧
      List.Forall₂ Passes consumed (percentileWalk h is acc es last).passed := by
  induction is generalizing acc es last with
  | nil => exact ⟨[], by cases es <;> rfl, by cases es <;> exact .nil⟩
  | cons i is ih =>
    by_cases hc : bucketAt h i > 0
    · obtain ⟨consumed, hsplit, hpassed⟩ :=
        bucketLoop_split h i (bucketAt h i) acc (acc + bucketAt h i) es last
      obtain ⟨consumed', hsplit', hpassed'⟩ := ih (acc + bucketAt h i)
        (percentileBucketLoop h i (bucketAt h i) acc (acc + bucketAt h i) es last).rest
        (percentileBucketLoop h i (bucketAt h i) acc (acc + bucketAt h i) es last).last
      rw [walk_bucket h hc]
      refine ⟨consumed ++ consumed', ?_, List.rel_append hpassed hpassed'⟩
      rw [List.append_assoc, ← hsplit', ← hsplit]
    · rw [walk_skip h hc]
      exact ih acc es last

theorem walk_erase (is : List (Fin bucketCount)) (acc : UInt64) (es : List (FpResult D))
    (hpos : ∀ e ∈ es, ofInt 0 < clampPercentile e.level) (last : LastResult D) :
    percentileWalk h is acc (es.map .erase) last = (percentileWalk h is acc es last).eraseRest := by
  induction is generalizing acc es last with
  | nil => rfl
  | cons i is ih =>
    by_cases hc : bucketAt h i > 0
    · have hloop := bucketLoop_erase h i (bucketAt h i) acc (acc + bucketAt h i) es hpos last
      obtain ⟨consumed, hsplit, -⟩ :=
        bucketLoop_split h i (bucketAt h i) acc (acc + bucketAt h i) es last
      have hrest := ih (acc + bucketAt h i) _ (fun e he ↦ hpos e (by
          rw [hsplit]
          exact List.mem_append_right consumed he))
        (percentileBucketLoop h i (bucketAt h i) acc (acc + bucketAt h i) es last).last
      rw [walk_bucket h hc, walk_bucket h hc, hloop]
      simp only [Progress.eraseRest] at hrest ⊢
      rw [hrest]
    · rw [walk_skip h hc, walk_skip h hc]
      exact ih acc es hpos last

section Exhaustion

variable [LawfulDouble D]

theorem bucketLoop_exhausts (i : ℕ) (count prev : UInt64) (es : List (FpResult D))
    (last : LastResult D) :
    (percentileBucketLoop h i count prev h.eventCount es last).rest = [] := by
  refine bucketLoop_induction h (motive := fun _ _ r ↦ r.rest = []) ?nil ?skip ?copy ?wait ?found
    es last
  case nil => exact fun last ↦ rfl
  case skip => exact fun e es last _ ih ↦ ih
  case copy => exact fun e es last _ _ ih ↦ ih
  case wait =>
    intro e es last hp _ hw
    exact absurd hw (not_lt.mpr (batchTargetRank_le h (not_le.mp hp)))
  case found => exact fun e es last value _ _ _ _ ih ↦ ih

/-- The walk resolves every element by the last bucket that holds an event, where the running
total is the event count. -/
theorem walk_exhausts (is : List (Fin bucketCount)) (acc : UInt64) (es : List (FpResult D))
    (last : LastResult D) (htotal : is.foldl (fun acc i ↦ acc + bucketAt h i) acc = h.eventCount)
    (hsome : ∃ i ∈ is, bucketAt h i > 0) : (percentileWalk h is acc es last).rest = [] := by
  induction is generalizing acc es last with
  | nil =>
    obtain ⟨i, hi, -⟩ := hsome
    cases hi
  | cons i is ih =>
    rw [List.foldl_cons] at htotal
    by_cases hlater : ∃ j ∈ is, bucketAt h j > 0
    · by_cases hc : bucketAt h i > 0
      · rw [walk_bucket h hc]
        exact ih _ _ _ htotal hlater
      · rw [walk_skip h hc]
        rw [bucketAt_eq_zero hc, UInt64.add_zero] at htotal
        exact ih acc es last htotal hlater
    · have hc : bucketAt h i > 0 := by
        obtain ⟨j, hj, hpos⟩ := hsome
        rcases List.mem_cons.mp hj with rfl | hj
        · exact hpos
        · exact absurd ⟨j, hj, hpos⟩ hlater
      have hflat : is.foldl (fun acc i ↦ acc + bucketAt h i) (acc + bucketAt h i) =
          acc + bucketAt h i := foldl_flat (fun j hj acc ↦ by
        rw [bucketAt_eq_zero fun hpos ↦ hlater ⟨j, hj, hpos⟩, UInt64.add_zero]) _
      simp only [walk_bucket h hc, hflat.symm.trans htotal, bucketLoop_exhausts, walk_nil]

end Exhaustion

section Written

variable [LawfulDouble D]

theorem percentiles_erase (hne : ¬ 0 = h.eventCount) {es : List (FpResult D)}
    (hord : Ordered (es.map (·.level))) (hes : ¬ es.length = 0) :
    histogramValuesAtPercentiles h (es.map .erase) = histogramValuesAtPercentiles h es := by
  have hpos := prelude_rest_pos h hord ⟨false, ofInt (-1), h.minEventTime⟩
  simp only [histogramValuesAtPercentiles, if_neg hne, List.length_map, if_neg hes, prelude_erase,
    Progress.eraseRest, walk_erase h _ _ _ hpos, tail_erase]

/-- On a histogram that a run has reached, the prelude and the walk pass all elements and leave
none to the last loop. -/
theorem percentiles_walked {R : List ℕ} (hR : Represents h R) (hne : R ≠ [])
    (es : List (FpResult D)) :
    let r := percentilePrelude h es ⟨false, ofInt (-1), h.minEventTime⟩
    let r' := percentileWalk h (List.finRange bucketCount) 0 r.rest r.last
    r'.rest = [] ∧ histogramValuesAtPercentiles h es = (true, r.passed ++ r'.passed) := by
  intro r r'
  have hcount : ¬ 0 = h.eventCount := hR.eventCount_ne hne
  obtain ⟨i, hi⟩ := hR.exists_bucket hne
  have hexhausts : r'.rest = [] := walk_exhausts h (List.finRange bucketCount) 0 r.rest r.last
    hR.accumulated_eq ⟨i, List.mem_finRange i, hi⟩
  refine ⟨hexhausts, ?_⟩
  by_cases hes : es.length = 0
  · rw [List.length_eq_zero_iff] at hes
    subst hes
    have hwalked : r' = ⟨[], [], r.last⟩ := walk_nil h _ _ _
    simp [histogramValuesAtPercentiles, hcount, hwalked, r, percentilePrelude]
  · simp only [histogramValuesAtPercentiles, if_neg hcount, if_neg hes]
    change (true, _ ++ percentileTail h r'.rest _) = _
    rw [hexhausts, percentileTail, List.append_nil]

theorem percentiles_passes {R : List ℕ} (hR : Represents h R) (hne : R ≠ [])
    (es : List (FpResult D)) :
    let r := percentilePrelude h es ⟨false, ofInt (-1), h.minEventTime⟩
    ∃ leading rest walked, es = leading ++ rest ∧
      (∀ e ∈ leading, ¬ clampPercentile e.level > ofInt 0) ∧ leading.length = r.passed.length ∧
      (histogramValuesAtPercentiles h es).2 = r.passed ++ walked ∧
      List.Forall₂ Passes rest walked := by
  intro r
  obtain ⟨hexhausts, hout⟩ := percentiles_walked h hR hne es
  obtain ⟨leading, hsplit, hleading, -, hlength⟩ :=
    prelude_split h es ⟨false, ofInt (-1), h.minEventTime⟩
  obtain ⟨consumed, hconsumed, hpassed⟩ :=
    walk_split h (List.finRange bucketCount) 0 r.rest r.last
  rw [hexhausts, List.append_nil] at hconsumed
  rw [← hconsumed] at hpassed
  exact ⟨leading, r.rest, _, hsplit, hleading, hlength, by rw [hout], hpassed⟩

theorem ordered_of_written {R : List ℕ} (hR : Represents h R) (hne : R ≠ []) (levels : List D)
    (hsame : (histogramValuesAtPercentiles h (levels.map (FpResult.mk · 0))).2.map (·.value) =
      (histogramValuesAtPercentiles h (levels.map (FpResult.mk · 1))).2.map (·.value)) :
    Ordered levels := by
  obtain ⟨leading, rest, walked, hsplit, hleading, hlength, hout, hpasses⟩ :=
    percentiles_passes h hR hne (levels.map (FpResult.mk · 0))
  obtain ⟨leading', rest', walked', hsplit', -, hlength', hout', hpasses'⟩ :=
    percentiles_passes h hR hne (levels.map (FpResult.mk · 1))
  have hlevels : (levels.map (FpResult.mk · 0)).map (·.level) =
      (levels.map (FpResult.mk · 1)).map (·.level) := by simp [Function.comp_def]
  have hpassed := congrArg Progress.passed (prelude_erase h (levels.map (FpResult.mk · 0))
    ⟨false, ofInt (-1), h.minEventTime⟩)
  rw [erase_congr hlevels, prelude_erase] at hpassed
  simp only [Progress.eraseRest] at hpassed
  rw [hout, hout', hpassed, List.map_append, List.map_append] at hsame
  have hwalked := List.append_cancel_left hsame
  obtain ⟨front, back, rfl, rfl, rfl⟩ := List.map_eq_append_iff.mp hsplit
  rw [List.map_append] at hsplit'
  obtain ⟨rfl, rfl⟩ := List.append_inj hsplit' (by
    rw [hlength', hpassed, ← hlength, List.length_map, List.length_map])
  have hback := pos_of_passes hpasses hpasses' hwalked
  have hfront : ∀ p ∈ front, ¬ ofInt 0 < p := fun p hp hlt ↦
    hleading ⟨p, 0⟩ (List.mem_map_of_mem hp) (clampPercentile_pos_iff.mpr hlt)
  exact ordered_append hfront hback

theorem written_of_ordered (hne : ¬ 0 = h.eventCount) {elements elements' : List (FpResult D)}
    (hord : Ordered (elements.map (·.level)))
    (hlevels : elements'.map (·.level) = elements.map (·.level)) :
    (histogramValuesAtPercentiles h elements).1 = true ∧
      (histogramValuesAtPercentiles h elements).2.map (·.value) =
        (histogramValuesAtPercentiles h elements').2.map (·.value) := by
  by_cases hes : elements.length = 0
  · rw [List.length_eq_zero_iff] at hes
    subst hes
    rw [List.map_nil, List.map_eq_nil_iff] at hlevels
    subst hlevels
    simp [histogramValuesAtPercentiles, hne]
  · have hlength : elements.length = elements'.length := by
      simpa using (congrArg List.length hlevels).symm
    have herase := percentiles_erase h hne hord hes
    have herase' := percentiles_erase h hne (hlevels ▸ hord) (hlength ▸ hes)
    rw [← herase, ← herase', erase_congr hlevels]
    exact ⟨by simp [histogramValuesAtPercentiles, hne, hes], rfl⟩

/-- The batch writes every element, whatever the arrays held before, exactly when no level that
is not positive comes after a positive one. -/
theorem percentiles_written_iff (T : Toolchain) {h : Histogram L} {R : List ℕ}
    (hR : Records T h R) (hne : R ≠ []) (levels : List D) :
    (∀ elements elements' : List (FpResult D), elements.map (·.level) = levels →
      elements'.map (·.level) = levels →
        (histogramValuesAtPercentiles h elements).1 = true ∧
        (histogramValuesAtPercentiles h elements).2.map (·.value) =
          (histogramValuesAtPercentiles h elements').2.map (·.value)) ↔
    Ordered levels := by
  have hrep := hR.represents
  have hcount : ¬ 0 = h.eventCount := hrep.eventCount_ne hne
  constructor
  · intro hlaw
    obtain ⟨-, hsame⟩ := hlaw (levels.map (FpResult.mk · 0)) (levels.map (FpResult.mk · 1))
      (by simp [Function.comp_def]) (by simp [Function.comp_def])
    exact ordered_of_written h hrep hne levels hsame
  · rintro hord elements elements' rfl hlevels
    exact written_of_ordered h hcount hord hlevels

end Written

theorem percentiles_written_sample :
    (histogramValuesAtPercentiles sample.histogram
        ([⟨0, 1⟩, ⟨50, 2⟩, ⟨20, 3⟩] : List (FpResult ℚ))).1 = true ∧
      (histogramValuesAtPercentiles sample.histogram
          ([⟨0, 1⟩, ⟨50, 2⟩, ⟨20, 3⟩] : List (FpResult ℚ))).2.map (·.value) =
        (histogramValuesAtPercentiles sample.histogram
          ([⟨0, 4⟩, ⟨50, 5⟩, ⟨20, 6⟩] : List (FpResult ℚ))).2.map (·.value) :=
  (percentiles_written_iff .gccX64 sample_records (by decide) [0, 50, 20]).mpr (by decide +kernel)
    _ _ rfl rfl

/-- The level zero after the level 50 is passed over without a value. -/
theorem percentiles_unwritten :
    ¬ ∀ (h : Histogram .standard) (R : List ℕ), Records .gccX64 h R → R ≠ [] →
      ∀ elements elements' : List (FpResult ℚ),
        elements.map (·.level) = elements'.map (·.level) →
        (histogramValuesAtPercentiles h elements).1 = true →
        (histogramValuesAtPercentiles h elements).2.map (·.value) =
          (histogramValuesAtPercentiles h elements').2.map (·.value) := by
  intro hlaw
  have hsame := hlaw sample.histogram sample.recorded sample_records (by decide)
    [⟨50, 7⟩, ⟨0, 7⟩] [⟨50, 7⟩, ⟨0, 8⟩] rfl (by decide +kernel)
  revert hsame
  decide +kernel

end P99
