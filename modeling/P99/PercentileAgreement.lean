import P99.PercentileBatch

namespace P99

open Portable Buckets Double Interpolation RunningTotal

variable {L : Layout} {D : Type} [LinearOrder D] [Mul D] [Div D] [Double D]

/-- What rounding to nearest keeps of the exact ranks: their order, and that a level below the
highest has a rank below the event count. -/
class MonotoneDouble (D : Type) [LinearOrder D] [Mul D] [Div D] [Double D] : Prop
    extends LawfulDouble D where
  rank_mono : ∀ (n : UInt64) (p q : D), p ≤ q →
    ofU64 n * (p / ofInt 100) ≤ ofU64 n * (q / ofInt 100)
  rank_lt : ∀ (n : UInt64) (p : D), 0 < n → p < ofInt 100 → ofU64 n * (p / ofInt 100) < ofU64 n
  rank_zero : ∀ n : UInt64, (ofU64 n * (ofInt 0 / ofInt 100) : D) = ofInt 0

instance : MonotoneDouble ℚ where
  rank_mono n p q hpq := by
    simp only [ofU64, ofInt, Int.cast_natCast, Int.cast_ofNat]
    gcongr
  rank_lt n p hn hp := by
    simp only [ofU64, ofInt, Int.cast_natCast, Int.cast_ofNat] at hp ⊢
    have hcast : (0 : ℚ) < n.toNat := Nat.cast_pos.mpr (UInt64.lt_iff_toNat_lt.mp hn)
    exact mul_lt_of_lt_one_right hcast ((div_lt_one (by norm_num)).mpr hp)
  rank_zero n := by simp [ofInt]

theorem ofInt_zero : (ofInt 0 : ℚ) = 0 := Int.cast_zero

theorem ofInt_hundred : (ofInt 100 : ℚ) = 100 := Int.cast_ofNat 100

section Clamp

variable [MonotoneDouble D] {p q : D}

theorem clampPercentile_nonneg (p : D) : ofInt 0 ≤ clampPercentile p := by
  have h := MonotoneDouble.toLawfulDouble.zero_lt_hundred (D := D)
  rw [clampPercentile]
  split
  · exact le_rfl
  · next hp =>
    split
    · exact h.le
    · exact not_lt.mp hp

theorem clampPercentile_mono (hpq : p ≤ q) : clampPercentile p ≤ clampPercentile q := by
  have hlow := clampPercentile_nonneg q
  have hhigh := clampPercentile_le p
  rw [clampPercentile] at hhigh ⊢
  split_ifs at hhigh ⊢ with hp hp'
  · exact hlow
  · rw [clampPercentile, if_neg (not_lt.mpr ((not_lt.mp hp).trans hpq)), if_pos (hp'.trans_le hpq)]
  · rw [clampPercentile, if_neg (not_lt.mpr ((not_lt.mp hp).trans hpq))]
    split
    · exact hhigh
    · exact hpq

end Clamp

variable (h : Histogram L)

def clampedRank (p : D) : D := batchTargetRank h (clampPercentile p)

section Rank

variable [MonotoneDouble D] (hne : ¬ 0 = h.eventCount)

include hne

theorem eventCount_pos : 0 < h.eventCount := by
  rw [UInt64.lt_iff_toNat_lt, UInt64.toNat_zero, Nat.pos_iff_ne_zero]
  intro hz
  exact hne (UInt64.toNat_inj.mp hz.symm)

theorem batchTargetRank_lt {p : D} (hp : p < ofInt 100) :
    batchTargetRank h p < ofU64 h.eventCount := by
  rw [batchTargetRank, if_neg (not_le.mpr hp)]
  exact MonotoneDouble.rank_lt _ _ (eventCount_pos h hne) hp

theorem clampedRank_mono {p q : D} (hpq : p ≤ q) : clampedRank h p ≤ clampedRank h q := by
  have hclamp := clampPercentile_mono hpq
  rcases le_or_gt (ofInt 100) (clampPercentile q) with hq | hq
  · have hlast : clampedRank h q = ofU64 h.eventCount := if_pos hq
    rw [hlast]
    rcases le_or_gt (ofInt 100) (clampPercentile p) with hp | hp
    · exact (if_pos hp).le
    · exact (batchTargetRank_lt h hne hp).le
  · rw [clampedRank, clampedRank, batchTargetRank, batchTargetRank,
      if_neg (not_le.mpr (hclamp.trans_lt hq)), if_neg (not_le.mpr hq)]
    exact MonotoneDouble.rank_mono _ _ _ hclamp

omit hne in
theorem clampedRank_of_nonpos {p : D} (hp : clampPercentile p ≤ ofInt 0) :
    clampedRank h p = ofInt 0 := by
  have hzero := hp.antisymm (clampPercentile_nonneg p)
  rw [clampedRank, hzero, batchTargetRank,
    if_neg (not_le.mpr (LawfulDouble.zero_lt_hundred (D := D)))]
  exact MonotoneDouble.rank_zero _

omit hne in
theorem clampedRank_of_hundred_le {p : D} (hp : ofInt 100 ≤ p) :
    clampedRank h p = ofU64 h.eventCount := by
  have hclamp : ofInt 100 ≤ clampPercentile p := by
    rw [clampPercentile, if_neg (not_lt.mpr ((LawfulDouble.zero_lt_hundred (D := D)).le.trans hp))]
    split
    · exact le_rfl
    · exact hp
  exact if_pos hclamp

theorem clampedRank_lt {p : D} (hp : p < ofInt 100) : clampedRank h p < ofU64 h.eventCount := by
  apply batchTargetRank_lt h hne
  rw [clampPercentile, if_neg (not_lt.mpr hp.le)]
  split
  · exact LawfulDouble.zero_lt_hundred
  · exact hp

theorem lt_of_clampedRank_lt {p q : D} (hpq : clampedRank h p < clampedRank h q) : p < q :=
  not_le.mp fun hle ↦ not_lt.mpr (clampedRank_mono h hne hle) hpq

end Rank

variable [Add D] [Sub D]

def scanAt (p : D) (is : List (Fin bucketCount)) (acc : UInt64) : Option UInt64 :=
  if p ≥ ofInt 100 then histogramMaxEventTime h
  else valueAtPercentileLoop h (batchTargetRank h p) is acc

theorem percentile_congr {p q : D} (hpq : clampPercentile p = clampPercentile q) :
    histogramValueAtPercentile h p = histogramValueAtPercentile h q := by
  simp only [histogramValueAtPercentile, hpq]

section

variable (hne : ¬ 0 = h.eventCount)

include hne

theorem percentile_pos {p : D} (hp : ofInt 0 < clampPercentile p) :
    histogramValueAtPercentile h p =
      scanAt h (clampPercentile p) (List.finRange bucketCount) 0 := by
  simp only [histogramValueAtPercentile, scanAt, if_neg hne, if_neg (not_le.mpr hp)]
  split
  · rfl
  · next hlt => rw [batchTargetRank, if_neg hlt]

theorem percentile_nonpos {p : D} (hp : clampPercentile p ≤ ofInt 0) :
    histogramValueAtPercentile h p = some h.minEventTime := by
  simp only [histogramValueAtPercentile, histogramMinEventTime, if_neg hne, if_pos hp]

theorem percentile_low [MonotoneDouble D] {p : D} (hp : p ≤ ofInt 0) :
    histogramValueAtPercentile h p = some h.minEventTime :=
  percentile_nonpos h hne (not_lt.mp fun hlt ↦ not_lt.mpr hp (clampPercentile_pos_iff.mp hlt))

theorem percentile_high [MonotoneDouble D] {p : D} (hp : ofInt 100 ≤ p) :
    histogramValueAtPercentile h p = some h.maxEventTime := by
  have hpos : ofInt 0 < p := (LawfulDouble.zero_lt_hundred (D := D)).trans_le hp
  have hclamp : clampPercentile p = ofInt 100 := by
    rw [clampPercentile, if_neg (not_lt.mpr hpos.le)]
    split
    · rfl
    · next hle => exact (not_lt.mp hle).antisymm hp
  rw [percentile_pos h hne (clampPercentile_pos_iff.mpr hpos), hclamp, scanAt, if_pos le_rfl]
  exact if_neg hne

theorem percentile_between {p : D} (hp : ofInt 0 < p) (hp' : p < ofInt 100) :
    histogramValueAtPercentile h p =
      valueAtPercentileLoop h (clampedRank h p) (List.finRange bucketCount) 0 := by
  have hclamp : clampPercentile p = p := by
    rw [clampPercentile, if_neg (not_lt.mpr hp.le), if_neg (not_lt.mpr hp'.le)]
  rw [percentile_pos h hne (hp.trans_eq hclamp.symm), clampedRank, hclamp, scanAt,
    if_neg (not_le.mpr hp')]

section Scan

variable {i : Fin bucketCount} {is : List (Fin bucketCount)} {acc : UInt64} {p : D}

omit hne in
theorem scanAt_skip (hc : ¬ bucketAt h i > 0) (p : D) :
    scanAt h p (i :: is) acc = scanAt h p is acc := by
  simp only [scanAt, valueAtPercentileLoop_skip h hc]

theorem scanAt_found (hc : bucketAt h i > 0)
    (hr : ¬ ofU64 (acc + bucketAt h i) < batchTargetRank h p) :
    scanAt h p (i :: is) acc = some (batchValue h i (bucketAt h i) acc p) := by
  rw [scanAt, batchValue]
  split
  · exact if_neg hne
  · exact valueAtPercentileLoop_found h hc hr

omit hne in
theorem scanAt_miss (hc : bucketAt h i > 0)
    (hr : ofU64 (acc + bucketAt h i) < batchTargetRank h p) :
    scanAt h p (i :: is) acc = scanAt h p is (acc + bucketAt h i) := by
  rw [scanAt, scanAt]
  split
  · rfl
  · exact valueAtPercentileLoop_miss h hc hr

end Scan

end

/-- Levels of one rank are answered alike. -/
def RankDetermines (D : Type) [LinearOrder D] [Add D] [Sub D] [Mul D] [Div D] [Double D] : Prop :=
  ∀ p q : D, clampedRank h p = clampedRank h q →
    histogramValueAtPercentile h p = histogramValueAtPercentile h q

/-- What the batch remembers, when the largest level so far is `m`. -/
def Recalls (last : LastResult D) : Option D → Prop
  | none => last.hasLast = false
  | some m => last.hasLast = true ∧ last.lastTargetRank = clampedRank h m ∧
    histogramValueAtPercentile h m = some last.lastValue

def answers (m : Option D) (es : List (FpResult D)) : List (Option UInt64) :=
  (runningMax m (es.map (·.level))).map (histogramValueAtPercentile h)

theorem answers_cons (m : Option D) (e : FpResult D) (es : List (FpResult D)) :
    answers h m (e :: es) =
      histogramValueAtPercentile h (raise m e.level) :: answers h (some (raise m e.level)) es := rfl

def Rises (m : Option D) (e : FpResult D) : Prop := ∀ x ∈ m, clampedRank h x < clampedRank h e.level

def someValue (e : FpResult D) : Option UInt64 := some e.value

theorem copies_iff {last : LastResult D} {m : Option D} (hlast : Recalls h last m)
    (e : FpResult D) :
    (last.hasLast = true ∧ batchTargetRank h (clampPercentile e.level) ≤ last.lastTargetRank) ↔
      ¬ Rises h m e := by
  cases m with
  | none =>
    have hno : last.hasLast = false := hlast
    simp [hno, Rises]
  | some x =>
    obtain ⟨hhas, hrank, -⟩ := hlast
    rw [hhas, hrank]
    simp [Rises, clampedRank]

theorem tail_beyond (es : List (FpResult D)) (hpos : ∀ e ∈ es, ofInt 0 < clampPercentile e.level)
    {last : LastResult D} (hhas : last.hasLast = true) (hvalue : last.lastValue = h.maxEventTime)
    {x : D} (hbeyond : ∀ q, x ≤ q → histogramValueAtPercentile h q = some h.maxEventTime) :
    (percentileTail h es last).map someValue = answers h (some x) es := by
  induction es generalizing last x with
  | nil => rfl
  | cons e es ih =>
    have hp := not_le.mpr (hpos e List.mem_cons_self)
    have hpos' : ∀ e' ∈ es, ofInt 0 < clampPercentile e'.level :=
      fun e' he' ↦ hpos e' (List.mem_cons_of_mem e he')
    rw [answers_cons, hbeyond _ (le_raise_of_mem rfl), percentileTail]
    simp only [if_neg hp, hhas, hvalue, ite_self, List.map_cons, someValue]
    exact congrArg (_ :: ·) (ih hpos' rfl rfl fun q hq ↦ hbeyond q ((le_raise_of_mem rfl).trans hq))

section Agreement

variable [MonotoneDouble D] (hne : ¬ 0 = h.eventCount)

include hne

omit [Add D] [Sub D] in
theorem Rises.raise_eq {m : Option D} {e : FpResult D} (he : Rises h m e) :
    raise m e.level = e.level :=
  RunningTotal.raise_eq fun x hx ↦ (lt_of_clampedRank_lt h hne (he x hx)).le

omit [Add D] [Sub D] in
theorem clampedRank_max {p q : D} (hpq : clampedRank h q ≤ clampedRank h p) :
    clampedRank h (max p q) = clampedRank h p := by
  rcases le_total p q with hle | hle
  · rw [max_eq_right hle]
    exact hpq.antisymm (clampedRank_mono h hne hle)
  · rw [max_eq_left hle]

theorem Recalls.copy (hcongr : RankDetermines h D) {last : LastResult D} {m : Option D}
    (hlast : Recalls h last m) {e : FpResult D} (he : ¬ Rises h m e) :
    ∃ x ∈ m, clampedRank h (raise m e.level) = clampedRank h x ∧
      Recalls h last (some (raise m e.level)) ∧
      histogramValueAtPercentile h (raise m e.level) = some last.lastValue := by
  cases m with
  | none => exact absurd (fun x hx ↦ by cases hx) he
  | some x =>
    obtain ⟨hhas, hrank, hvalue⟩ := hlast
    have hle : clampedRank h e.level ≤ clampedRank h x := by simpa [Rises] using he
    have hmax : clampedRank h (max x e.level) = clampedRank h x := clampedRank_max h hne hle
    have hanswer := (hcongr _ _ hmax).trans hvalue
    exact ⟨x, rfl, hmax, ⟨hhas, hmax ▸ hrank, hanswer⟩, hanswer⟩

section Steps

variable (hcongr : RankDetermines h D)

include hcongr

/-- The walk in one bucket, when `b` is a rank that the earlier buckets did not reach. -/
theorem bucketLoop_agrees {i : Fin bucketCount} {is : List (Fin bucketCount)} {prev : UInt64}
    {b : D} (hc : bucketAt h i > 0)
    (hresume : ∀ q, b ≤ batchTargetRank h q →
      scanAt h q (i :: is) prev = scanAt h q (List.finRange bucketCount) 0)
    (es : List (FpResult D)) (hpos : ∀ e ∈ es, ofInt 0 < clampPercentile e.level)
    {last : LastResult D} {m : Option D} (hlast : Recalls h last m)
    (hfront : ∀ e ∈ es.head?, b ≤ clampedRank h (raise m e.level)) :
    let r := percentileBucketLoop h i (bucketAt h i) prev (prev + bucketAt h i) es last
    ∃ m', Recalls h r.last m' ∧
      (∀ e ∈ r.rest.head?, Rises h m' e ∧ b ≤ clampedRank h e.level ∧
        ofU64 (prev + bucketAt h i) < clampedRank h e.level) ∧
      r.passed.map someValue ++ answers h m' r.rest = answers h m es := by
  induction es generalizing last m with
  | nil => exact ⟨m, hlast, by simp [percentileBucketLoop], rfl⟩
  | cons e es ih =>
    have hp : ofInt 0 < clampPercentile e.level := hpos e List.mem_cons_self
    have hpos' : ∀ e' ∈ es, ofInt 0 < clampPercentile e'.level :=
      fun e' he' ↦ hpos e' (List.mem_cons_of_mem e he')
    have hb : b ≤ clampedRank h (raise m e.level) := hfront e rfl
    have hfront' : ∀ e' ∈ es.head?,
        b ≤ clampedRank h (raise (some (raise m e.level)) e'.level) :=
      fun e' _ ↦ hb.trans (clampedRank_mono h hne (le_raise_of_mem rfl))
    by_cases he : Rises h m e
    · have hcopies : ¬ _ := fun hcopies ↦ (copies_iff h hlast e).mp hcopies he
      rw [he.raise_eq h hne] at hb hfront'
      by_cases hw : ofU64 (prev + bucketAt h i) < batchTargetRank h (clampPercentile e.level)
      · rw [bucketLoop_wait h (not_le.mpr hp) hcopies hw]
        refine ⟨m, hlast, ?_, rfl⟩
        intro e' he'
        cases he'
        exact ⟨he, hb, hw⟩
      · rw [bucketLoop_found h (not_le.mpr hp) hcopies hw]
        have hanswer : histogramValueAtPercentile h e.level =
            some (batchValue h i (bucketAt h i) prev (clampPercentile e.level)) := by
          rw [percentile_pos h hne hp, ← hresume _ hb, scanAt_found h hne hc hw]
        have hfound : Recalls h ⟨true, batchTargetRank h (clampPercentile e.level),
            batchValue h i (bucketAt h i) prev (clampPercentile e.level)⟩ (some e.level) :=
          ⟨rfl, rfl, hanswer⟩
        obtain ⟨m', hlast', hhead', hvalues⟩ := ih hpos' hfound hfront'
        refine ⟨m', hlast', hhead', ?_⟩
        rw [answers_cons, he.raise_eq h hne, hanswer]
        exact congrArg (_ :: ·) hvalues
    · obtain ⟨x, hx, hrank, hlast', hanswer⟩ := hlast.copy h hne hcongr he
      rw [bucketLoop_copy h (not_le.mpr hp) ((copies_iff h hlast e).mpr he)]
      obtain ⟨m', hlast', hhead', hvalues⟩ := ih hpos' hlast' hfront'
      refine ⟨m', hlast', hhead', ?_⟩
      rw [answers_cons, hanswer]
      exact congrArg (_ :: ·) hvalues

theorem walk_agrees (is : List (Fin bucketCount)) (acc : UInt64) (es : List (FpResult D))
    (hpos : ∀ e ∈ es, ofInt 0 < clampPercentile e.level) {last : LastResult D} {m : Option D}
    (hlast : Recalls h last m)
    (hhead : ∀ e ∈ es.head?, ∀ q, clampedRank h (raise m e.level) ≤ batchTargetRank h q →
      scanAt h q is acc = scanAt h q (List.finRange bucketCount) 0) :
    let r := percentileWalk h is acc es last
    ∃ m', Recalls h r.last m' ∧
      (∀ e ∈ r.rest.head?, ∀ q, clampedRank h (raise m' e.level) ≤ batchTargetRank h q →
        histogramMaxEventTime h = scanAt h q (List.finRange bucketCount) 0) ∧
      r.passed.map someValue ++ answers h m' r.rest = answers h m es := by
  induction is generalizing acc es last m with
  | nil =>
    refine ⟨m, by cases es <;> exact hlast, ?_, by cases es <;> rfl⟩
    have hrest : (percentileWalk h [] acc es last).rest = es := by cases es <;> rfl
    rw [hrest]
    intro e he q hq
    rw [← hhead e he q hq, scanAt]
    split <;> rfl
  | cons i is ih =>
    by_cases hc : bucketAt h i > 0
    · cases es with
      | nil => exact ⟨m, hlast, by simp [walk_nil], rfl⟩
      | cons e es =>
        have hresume := hhead e rfl
        obtain ⟨m₁, hlast₁, hhead₁, hvalues₁⟩ := bucketLoop_agrees h hne hcongr hc hresume
          (e :: es) hpos hlast fun e' he' ↦ by cases he'; exact le_rfl
        obtain ⟨consumed, hsplit, -⟩ :=
          bucketLoop_split h i (bucketAt h i) acc (acc + bucketAt h i) (e :: es) last
        rw [walk_bucket h hc]
        generalize percentileBucketLoop h i (bucketAt h i) acc (acc + bucketAt h i) (e :: es)
          last = r at *
        obtain ⟨m', hlast', hhead', hvalues'⟩ := ih (acc + bucketAt h i) r.rest
          (fun e' he' ↦ hpos e' (hsplit ▸ List.mem_append_right consumed he')) hlast₁
          fun e' he' q hq ↦ by
            obtain ⟨hrises, hb, hw⟩ := hhead₁ e' he'
            rw [hrises.raise_eq h hne] at hq
            rw [← scanAt_miss h hc (hw.trans_le hq)]
            exact hresume q (hb.trans hq)
        refine ⟨m', hlast', hhead', ?_⟩
        rw [List.map_append, List.append_assoc, hvalues', hvalues₁]
    · rw [walk_skip h hc]
      refine ih acc es hpos hlast fun e he q hq ↦ ?_
      rw [← scanAt_skip h hc]
      exact hhead e he q hq

theorem tail_agrees (es : List (FpResult D)) (hpos : ∀ e ∈ es, ofInt 0 < clampPercentile e.level)
    {last : LastResult D} {m : Option D} (hlast : Recalls h last m)
    (hhead : ∀ e ∈ es.head?, ∀ q, clampedRank h (raise m e.level) ≤ batchTargetRank h q →
      histogramMaxEventTime h = scanAt h q (List.finRange bucketCount) 0) :
    (percentileTail h es last).map someValue = answers h m es := by
  cases es with
  | nil => rfl
  | cons e es =>
    have hp : ofInt 0 < clampPercentile e.level := hpos e List.mem_cons_self
    have hpos' : ∀ e' ∈ es, ofInt 0 < clampPercentile e'.level :=
      fun e' he' ↦ hpos e' (List.mem_cons_of_mem e he')
    have hmax := hhead e rfl
    have hbeyond : ∀ q, raise m e.level ≤ q →
        histogramValueAtPercentile h q = some h.maxEventTime := by
      intro q hq
      have hlevel := (le_raise m e.level).trans hq
      rw [percentile_pos h hne (hp.trans_le (clampPercentile_mono hlevel)),
        ← hmax _ (clampedRank_mono h hne hq)]
      exact if_neg hne
    rw [answers_cons, hbeyond _ le_rfl, percentileTail]
    simp only [if_neg (not_le.mpr hp), List.map_cons, someValue]
    have hvalue : (if last.hasLast = true then
        if batchTargetRank h (clampPercentile e.level) ≤ last.lastTargetRank then last.lastValue
        else h.maxEventTime else h.maxEventTime) = h.maxEventTime := by
      split
      · next hhas =>
        split
        · next hle =>
          obtain ⟨_, _, _, _, hanswer⟩ :=
            hlast.copy h hne hcongr ((copies_iff h hlast e).mp ⟨hhas, hle⟩)
          rw [hbeyond _ le_rfl, Option.some.injEq] at hanswer
          exact hanswer.symm
        · rfl
      · rfl
    rw [hvalue]
    exact congrArg (_ :: ·) (tail_beyond h es hpos' rfl rfl hbeyond)

end Steps

theorem prelude_agrees (es : List (FpResult D)) {last : LastResult D} {m : Option D}
    (hlast : Recalls h last m) (hm : ∀ x ∈ m, clampPercentile x ≤ ofInt 0) :
    let r := percentilePrelude h es last
    ∃ m', Recalls h r.last m' ∧
      r.passed.map someValue ++ answers h m' r.rest = answers h m es := by
  induction es generalizing last m with
  | nil => exact ⟨m, hlast, rfl⟩
  | cons e es ih =>
    by_cases hp : clampPercentile e.level > ofInt 0
    · rw [prelude_stop h hp]
      exact ⟨m, hlast, rfl⟩
    · rw [prelude_pass h hp]
      have hlow : clampPercentile (raise m e.level) ≤ ofInt 0 := by
        rcases raise_mem m e.level with hmem | heq
        · exact hm _ hmem
        · rw [heq]
          exact not_lt.mp hp
      have hanswer := percentile_nonpos h hne hlow
      have hfirst : Recalls h ⟨true, ofInt 0, h.minEventTime⟩ (some (raise m e.level)) :=
        ⟨rfl, (clampedRank_of_nonpos h hlow).symm, hanswer⟩
      obtain ⟨m', hlast', hvalues⟩ := ih hfirst fun x hx ↦ by cases hx; exact hlow
      refine ⟨m', hlast', ?_⟩
      rw [answers_cons, hanswer]
      exact congrArg (_ :: ·) hvalues

/-- Where levels of one rank are answered alike, the batch answers every element with the single
query at the largest level so far. -/
theorem percentiles_eq_answers_of_rank (hcongr : RankDetermines h D)
    {elements : List (FpResult D)} (hord : Ordered (elements.map (·.level))) :
    (histogramValuesAtPercentiles h elements).1 = true ∧
      (histogramValuesAtPercentiles h elements).2.map someValue = answers h none elements := by
  by_cases hes : elements.length = 0
  · rw [List.length_eq_zero_iff] at hes
    subst hes
    simp [histogramValuesAtPercentiles, hne, answers, runningMax]
  · have hpos := prelude_rest_pos h hord ⟨false, ofInt (-1), h.minEventTime⟩
    obtain ⟨m, hlast, hvalues⟩ := prelude_agrees h hne elements (m := none)
      (show Recalls h ⟨false, ofInt (-1), h.minEventTime⟩ none from rfl) fun x hx ↦ by cases hx
    simp only [histogramValuesAtPercentiles, if_neg hne, if_neg hes, true_and]
    generalize percentilePrelude h elements ⟨false, ofInt (-1), h.minEventTime⟩ = r at *
    obtain ⟨m', hlast', hhead', hvalues'⟩ := walk_agrees h hne hcongr (List.finRange bucketCount) 0
      r.rest hpos hlast fun e _ q _ ↦ rfl
    obtain ⟨consumed, hsplit, -⟩ := walk_split h (List.finRange bucketCount) 0 r.rest r.last
    generalize percentileWalk h (List.finRange bucketCount) 0 r.rest r.last = r' at *
    have hpos' : ∀ e ∈ r'.rest, ofInt 0 < clampPercentile e.level := fun e he ↦
      hpos e (hsplit ▸ List.mem_append_right consumed he)
    rw [List.map_append, List.map_append, tail_agrees h hne hcongr r'.rest hpos' hlast' hhead',
      List.append_assoc, hvalues', hvalues]

end Agreement

section Values

variable {L' : Layout} {h' : Histogram L'} {es es' : List (FpResult D)} {m : Option D}
  {out out' : List (FpResult D)} {h}

theorem answer_of_isGreatest {k : ℕ} {p : D} (hout : out.map someValue = answers h none es)
    (hk : k < es.length) (hp : IsGreatest {q | q ∈ (es.map (·.level)).take (k + 1)} p) :
    ∃ e, out[k]? = some e ∧ histogramValueAtPercentile h p = some e.value := by
  have hlength : k < (es.map (·.level)).length := by rwa [List.length_map]
  obtain ⟨y, hget, hy⟩ := isGreatest_runningMax none hlength
  simp only [Option.not_mem_none, false_or] at hy
  obtain rfl := hp.unique hy
  have hentry := congrArg (·[k]?) hout
  rw [answers, List.getElem?_map, List.getElem?_map, hget, Option.map_some,
    Option.map_eq_some_iff] at hentry
  obtain ⟨e, he, hvalue⟩ := hentry
  exact ⟨e, he, hvalue.symm⟩

theorem values_pairwise (hout : out.map someValue = answers h m es)
    (hmono : ∀ p q : D, p ≤ q → ∃ v w, histogramValueAtPercentile h p = some v ∧
      histogramValueAtPercentile h q = some w ∧ v ≤ w) :
    out.Pairwise fun e e' ↦ e.value ≤ e'.value := by
  have hanswers : (answers h m es).Pairwise fun x y ↦ ∃ v w, x = some v ∧ y = some w ∧ v ≤ w :=
    List.pairwise_map.mpr ((runningMax_pairwise m _).imp fun hpq ↦ hmono _ _ hpq)
  rw [← hout, List.pairwise_map] at hanswers
  refine hanswers.imp fun ⟨v, w, hv, hw, hle⟩ ↦ ?_
  cases hv
  cases hw
  exact hle

theorem values_forall₂ (hout : out.map someValue = answers h m es)
    (hout' : out'.map someValue = answers h' m es') (hlevels : es.map (·.level) = es'.map (·.level))
    (hle : ∀ p : D, ∃ v v', histogramValueAtPercentile h p = some v ∧
      histogramValueAtPercentile h' p = some v' ∧ v ≤ v') :
    List.Forall₂ (fun e e' ↦ e.value ≤ e'.value) out out' := by
  have hanswers : List.Forall₂ (fun x y ↦ ∃ v w, x = some v ∧ y = some w ∧ v ≤ w)
      (answers h m es) (answers h' m es') := by
    rw [answers, answers, hlevels, List.forall₂_map_left_iff, List.forall₂_map_right_iff,
      List.forall₂_same]
    exact fun p _ ↦ hle p
  rw [← hout, ← hout', List.forall₂_map_left_iff, List.forall₂_map_right_iff] at hanswers
  refine hanswers.imp fun _ _ ⟨v, w, hv, hw, hle⟩ ↦ ?_
  cases hv
  cases hw
  exact hle

end Values

section Exact

theorem batchTargetRank_eq {p : ℚ} (hp : p ≤ 100) :
    batchTargetRank h p = h.eventCount.toNat * (p / 100) := by
  simp only [batchTargetRank, ofU64, ofInt, Int.cast_natCast, Int.cast_ofNat, ge_iff_le]
  split
  · next hge => rw [le_antisymm hp hge, div_self (by decide), mul_one]
  · rfl

variable (hne : ¬ 0 = h.eventCount)

include hne

theorem rankDetermines_exact : RankDetermines h ℚ := by
  intro p q hpq
  have hcount : (0 : ℚ) < h.eventCount.toNat :=
    Nat.cast_pos.mpr (UInt64.lt_iff_toNat_lt.mp (eventCount_pos h hne))
  rw [clampedRank, clampedRank, batchTargetRank_eq h (clampPercentile_le p),
    batchTargetRank_eq h (clampPercentile_le q)] at hpq
  apply percentile_congr
  have hquotient := mul_left_cancel₀ hcount.ne' hpq
  exact (div_left_inj' (by norm_num)).mp hquotient

theorem percentiles_eq_answers {elements : List (FpResult ℚ)}
    (hord : Ordered (elements.map (·.level))) :
    (histogramValuesAtPercentiles h elements).1 = true ∧
      (histogramValuesAtPercentiles h elements).2.map someValue = answers h none elements :=
  percentiles_eq_answers_of_rank h hne (rankDetermines_exact h hne) hord

end Exact

/-- The batch answers every element with the single query at the largest level up to it: in
ascending order at its own level, and below an earlier level with a copy. -/
theorem percentiles_agree (hne : ¬ 0 = h.eventCount) {elements : List (FpResult ℚ)}
    (hord : Ordered (elements.map (·.level))) :
    let levels := elements.map (·.level)
    let out := (histogramValuesAtPercentiles h elements).2
    (histogramValuesAtPercentiles h elements).1 = true ∧
    (∀ k p, k < elements.length → IsGreatest {q | q ∈ levels.take (k + 1)} p →
      ∃ e, out[k]? = some e ∧ histogramValueAtPercentile h p = some e.value) ∧
    (levels.Pairwise (· ≤ ·) → out.map (fun e ↦ some e.value) =
      levels.map (histogramValueAtPercentile h)) ∧
    ∀ k p q, IsGreatest {q | q ∈ levels.take (k + 1)} p → levels[k + 1]? = some q → q ≤ p →
      out[k + 1]?.map (·.value) = out[k]?.map (·.value) := by
  obtain ⟨htrue, hvalues⟩ := percentiles_eq_answers h hne hord
  intro levels out
  have hanswer : ∀ k p, k < elements.length → IsGreatest {q | q ∈ levels.take (k + 1)} p →
      ∃ e, out[k]? = some e ∧ histogramValueAtPercentile h p = some e.value :=
    fun k p ↦ answer_of_isGreatest hvalues
  refine ⟨htrue, hanswer, fun hsorted ↦ ?_, fun k p q hp hq hle ↦ ?_⟩
  · refine hvalues.trans ?_
    rw [answers, runningMax_of_sorted (fun y hy ↦ by cases hy) hsorted]
  · obtain ⟨hk, -⟩ := List.getElem?_eq_some_iff.mp hq
    rw [List.length_map] at hk
    have hnext : IsGreatest {q | q ∈ levels.take (k + 1 + 1)} p := by
      rw [List.take_add_one, hq]
      refine ⟨List.mem_append_left _ hp.1, fun x hx ↦ ?_⟩
      rcases List.mem_append.mp hx with hx | hx
      · exact hp.2 hx
      · rw [Option.toList_some, List.mem_singleton] at hx
        exact hx ▸ hle
    obtain ⟨e, he, hvalue⟩ := hanswer k p (Nat.lt_of_succ_lt hk) hp
    obtain ⟨e', he', hvalue'⟩ := hanswer (k + 1) p hk hnext
    rw [he, he', Option.map_some, Option.map_some, ← hvalue, ← hvalue']

def sampleElements : List (FpResult ℚ) := [⟨-5, 0⟩, ⟨50, 0⟩, ⟨20, 0⟩, ⟨120, 0⟩]

theorem percentiles_agree_sample :
    (histogramValuesAtPercentiles sample.histogram sampleElements).1 = true ∧
    (∃ e, (histogramValuesAtPercentiles sample.histogram sampleElements).2[2]? = some e ∧
      histogramValueAtPercentile sample.histogram (50 : ℚ) = some e.value) := by
  have hord : Ordered (sampleElements.map (·.level)) := by decide +kernel
  have hsample := percentiles_agree sample.histogram (by decide) hord
  have hmem : (50 : ℚ) ∈ (sampleElements.map (·.level)).take 3 := by decide +kernel
  have hmax : ∀ x ∈ (sampleElements.map (·.level)).take 3, x ≤ 50 := by decide +kernel
  exact ⟨hsample.1, hsample.2.1 2 50 (by decide) ⟨hmem, hmax⟩⟩

end P99
