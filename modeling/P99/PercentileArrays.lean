import P99.RoundedPercentiles

namespace P99

open Portable Buckets Double RunningTotal

variable {L : Layout} {D : Type} [LinearOrder D] [Double D]

def positives (es : List (FpResult D)) : List (FpResult D) :=
  es.filter fun e ↦ ofInt 0 < clampPercentile e.level

def Progress.positives (r : Progress D) : Progress D :=
  ⟨P99.positives r.passed, P99.positives r.rest, r.last⟩

theorem positives_nil : positives ([] : List (FpResult D)) = [] := rfl

section Elements

variable {e : FpResult D} {es : List (FpResult D)}

theorem positives_skip (he : clampPercentile e.level ≤ ofInt 0) :
    positives (e :: es) = positives es :=
  List.filter_cons_of_neg (by simpa using he)

theorem positives_keep (he : ofInt 0 < clampPercentile e.level) :
    positives (e :: es) = e :: positives es :=
  List.filter_cons_of_pos (by simpa using he)

theorem positives_append (es es' : List (FpResult D)) :
    positives (es ++ es') = positives es ++ positives es' :=
  List.filter_append _ _

theorem positives_pass_skip (r : Progress D) (he : clampPercentile e.level ≤ ofInt 0) :
    (r.pass e).positives = r.positives := by
  rw [Progress.positives, Progress.pass, positives_skip he, Progress.positives]

theorem positives_pass_keep (r : Progress D) (he : ofInt 0 < clampPercentile e.level) :
    (r.pass e).positives = r.positives.pass e := by
  rw [Progress.positives, Progress.pass, positives_keep he, Progress.positives, Progress.pass]

theorem prelude_positives (h : Histogram L) (es : List (FpResult D)) (last : LastResult D) :
    let r := percentilePrelude h es last
    ∃ leading, es = leading ++ r.rest ∧
      (∀ e ∈ leading, clampPercentile e.level ≤ ofInt 0) ∧
      (∀ e ∈ r.rest.head?, ofInt 0 < clampPercentile e.level) ∧
      r.passed = leading.map (fun e ↦ { e with value := h.minEventTime }) ∧
      percentilePrelude h (leading ++ positives r.rest) last =
        { r with rest := positives r.rest } := by
  induction es generalizing last with
  | nil => exact ⟨[], rfl, by simp, by simp [percentilePrelude], rfl, rfl⟩
  | cons e es ih =>
    by_cases hp : clampPercentile e.level > ofInt 0
    · rw [prelude_stop h hp]
      refine ⟨[], rfl, by simp, by simpa using hp, rfl, ?_⟩
      rw [List.nil_append, positives_keep hp, prelude_stop h hp]
    · obtain ⟨leading, hsplit, hleading, hhead, hpassed, hprelude⟩ :=
        ih ⟨true, ofInt 0, h.minEventTime⟩
      rw [prelude_pass h hp]
      refine ⟨e :: leading, congrArg (e :: ·) hsplit, ?_, hhead, congrArg (_ :: ·) hpassed, ?_⟩
      · exact List.forall_mem_cons.mpr ⟨not_lt.mp hp, hleading⟩
      · rw [List.cons_append, prelude_pass h hp]
        exact congrArg (Progress.pass _) hprelude

end Elements

variable [Add D] [Sub D] [Mul D] [Div D] (h : Histogram L)

theorem bucketLoop_positives (i : ℕ) (count prev acc : UInt64) (es : List (FpResult D))
    (last : LastResult D) :
    percentileBucketLoop h i count prev acc (positives es) last =
      (percentileBucketLoop h i count prev acc es last).positives := by
  refine bucketLoop_induction h (motive := fun es last r ↦
    percentileBucketLoop h i count prev acc (positives es) last = r.positives)
    ?nil ?skip ?copy ?wait ?found es last
  case nil => exact fun last ↦ rfl
  case skip =>
    intro e es last hp ih
    rw [positives_skip hp, positives_pass_skip _ hp, ih]
  case copy =>
    intro e es last hp hc ih
    have hkeep := not_le.mp hp
    rw [positives_keep hkeep, bucketLoop_copy h hp hc, ih, ← positives_pass_keep]
    exact hkeep
  case wait =>
    intro e es last hp hc hw
    rw [positives_keep (not_le.mp hp), bucketLoop_wait h hp hc hw, Progress.positives,
      positives_keep (not_le.mp hp)]
    rfl
  case found =>
    intro e es last value hp hc hw hvalue ih
    have hkeep := not_le.mp hp
    rw [positives_keep hkeep, bucketLoop_found h hp hc hw, ← hvalue, ih, ← positives_pass_keep]
    exact hkeep

theorem bucketLoop_head (i : ℕ) (count prev acc : UInt64) (es : List (FpResult D))
    (last : LastResult D) :
    ∀ e ∈ (percentileBucketLoop h i count prev acc es last).rest.head?,
      ofInt 0 < clampPercentile e.level := by
  refine bucketLoop_induction h (motive := fun _ _ r ↦ ∀ e ∈ r.rest.head?,
    ofInt 0 < clampPercentile e.level) ?nil ?skip ?copy ?wait ?found es last
  case nil => simp
  case skip => exact fun e es last _ ih ↦ ih
  case copy => exact fun e es last _ _ ih ↦ ih
  case wait =>
    intro e es last hp _ _ e' he'
    cases he'
    exact not_le.mp hp
  case found => exact fun e es last value _ _ _ _ ih ↦ ih

theorem walk_positives (is : List (Fin bucketCount)) (acc : UInt64) (es : List (FpResult D))
    (last : LastResult D) (hhead : ∀ e ∈ es.head?, ofInt 0 < clampPercentile e.level) :
    percentileWalk h is acc (positives es) last =
      (percentileWalk h is acc es last).positives := by
  induction is generalizing acc es last with
  | nil =>
    cases es with
    | nil => rfl
    | cons e es =>
      rw [positives_keep (hhead e rfl), percentileWalk, percentileWalk, Progress.positives,
        positives_keep (hhead e rfl)]
      rfl
  | cons i is ih =>
    by_cases hc : bucketAt h i > 0
    · rw [walk_bucket h hc, walk_bucket h hc, bucketLoop_positives]
      have hrest := bucketLoop_head h i (bucketAt h i) acc (acc + bucketAt h i) es last
      generalize percentileBucketLoop h i (bucketAt h i) acc (acc + bucketAt h i) es last = r at *
      have hwalk := ih (acc + bucketAt h i) r.rest r.last hrest
      simp only [Progress.positives] at hwalk ⊢
      simp only [hwalk, positives_append]
    · rw [walk_skip h hc, walk_skip h hc]
      exact ih acc es last hhead

/-- What an element gets when the largest level up to it is `m`: a level that is not positive after
a positive one is passed over. -/
def outcome (e : FpResult D) (m : D) : Option UInt64 :=
  if e.level ≤ ofInt 0 ∧ ofInt 0 < m then some e.value else histogramValueAtPercentile h m

def outcomes (m : Option D) (es : List (FpResult D)) : List (Option UInt64) :=
  List.zipWith (outcome h) es (runningMax m (es.map (·.level)))

theorem outcomes_cons (m : Option D) (e : FpResult D) (es : List (FpResult D)) :
    outcomes h m (e :: es) =
      outcome h e (raise m e.level) :: outcomes h (some (raise m e.level)) es := rfl

section Outcomes

variable [MonotoneDouble D]

theorem walked_outcomes {rest walked : List (FpResult D)}
    (hpasses : List.Forall₂ Passes rest walked) {m : Option D}
    (hpos : (∃ x ∈ m, ofInt 0 < x) ∨ ∀ e ∈ rest.head?, ofInt 0 < clampPercentile e.level)
    (hvalues : (positives walked).map someValue = answers h m (positives rest)) :
    walked.map someValue = outcomes h m rest := by
  induction hpasses generalizing m with
  | nil => rfl
  | @cons e e' rest walked hpass _ ih =>
    rw [outcomes_cons, List.map_cons]
    by_cases hp : ofInt 0 < clampPercentile e.level
    · have hlevel : ofInt 0 < e.level := clampPercentile_pos_iff.mp hp
      have hp' : ofInt 0 < clampPercentile e'.level := by rwa [hpass.1]
      rw [positives_keep hp, positives_keep hp', answers_cons, List.map_cons,
        List.cons.injEq] at hvalues
      rw [outcome, if_neg fun hlow ↦ not_lt.mpr hlow.1 hlevel, hvalues.1,
        ih (.inl ⟨_, rfl, hlevel.trans_le (le_raise m e.level)⟩) hvalues.2]
    · have hlow := not_lt.mp hp
      have hlevel : e.level ≤ ofInt 0 := not_lt.mp fun hlt ↦ hp (clampPercentile_pos_iff.mpr hlt)
      obtain rfl := hpass.2 hlow
      obtain ⟨x, hx, hxpos⟩ := hpos.resolve_right fun hhead ↦ hp (hhead _ rfl)
      have hraise : raise m e'.level = x := by
        cases hx
        exact max_eq_left (hlevel.trans hxpos.le)
      rw [positives_skip hlow, positives_skip hlow] at hvalues
      rw [hraise, outcome, if_pos ⟨hlevel, hxpos⟩, ih (.inl ⟨x, rfl, hxpos⟩) (hx ▸ hvalues)]
      rfl

theorem leading_outcomes {leading passed rest walked : List (FpResult D)}
    (hlength : passed.length = leading.length)
    (hleading : ∀ e ∈ leading, clampPercentile e.level ≤ ofInt 0)
    (hhead : ∀ e ∈ rest.head?, ofInt 0 < clampPercentile e.level)
    (hpasses : List.Forall₂ Passes rest walked) {m : Option D} (hm : ∀ x ∈ m, x ≤ ofInt 0)
    (hvalues : (passed ++ positives walked).map someValue =
      answers h m (leading ++ positives rest)) :
    (passed ++ walked).map someValue = outcomes h m (leading ++ rest) := by
  induction leading generalizing passed m with
  | nil =>
    obtain rfl := List.length_eq_zero_iff.mp hlength
    exact walked_outcomes h hpasses (.inr hhead) hvalues
  | cons e leading ih =>
    obtain ⟨e', passed, rfl⟩ := List.exists_cons_of_length_eq_add_one hlength
    have hlevel : e.level ≤ ofInt 0 := not_lt.mp fun hlt ↦
      not_lt.mpr (hleading e List.mem_cons_self) (clampPercentile_pos_iff.mpr hlt)
    have hraise : raise m e.level ≤ ofInt 0 := by
      rcases raise_mem m e.level with hmem | heq
      · exact hm _ hmem
      · exact heq.trans_le hlevel
    rw [List.cons_append, List.cons_append, answers_cons, List.map_cons, List.cons.injEq] at hvalues
    rw [List.cons_append, List.cons_append, outcomes_cons, List.map_cons, outcome,
      if_neg fun hlate ↦ not_lt.mpr hraise hlate.2, hvalues.1]
    exact congrArg (_ :: ·) (ih (Nat.succ.inj hlength)
      (fun e he ↦ hleading e (List.mem_cons_of_mem _ he)) (fun x hx ↦ by cases hx; exact hraise)
      hvalues.2)

omit [Add D] [Sub D] in
theorem ordered_positives {leading : List (FpResult D)}
    (hleading : ∀ e ∈ leading, clampPercentile e.level ≤ ofInt 0) (rest : List (FpResult D)) :
    Ordered ((leading ++ positives rest).map (·.level)) := by
  rw [List.map_append]
  refine ordered_append (List.forall_mem_map.mpr fun e he hlt ↦ ?_)
    (List.forall_mem_map.mpr fun e he ↦ ?_)
  · exact not_lt.mpr (hleading e he) (clampPercentile_pos_iff.mpr hlt)
  · exact clampPercentile_pos_iff.mp (of_decide_eq_true (List.mem_filter.mp he).2)

omit [Mul D] [Div D] [Add D] [Sub D] [MonotoneDouble D] in
theorem levels_of_passes {es out : List (FpResult D)} (hpasses : List.Forall₂ Passes es out) :
    out.map (·.level) = es.map (·.level) := by
  induction hpasses with
  | nil => rfl
  | cons hpass _ ih => exact congrArg₂ List.cons hpass.1 ih

omit [MonotoneDouble D] in
theorem percentiles_of_prelude (hne : ¬ 0 = h.eventCount) (es : List (FpResult D)) :
    let r := percentilePrelude h es ⟨false, ofInt (-1), h.minEventTime⟩
    let r' := percentileWalk h (List.finRange bucketCount) 0 r.rest r.last
    histogramValuesAtPercentiles h es =
      (true, r.passed ++ r'.passed ++ percentileTail h r'.rest r'.last) := by
  cases es with
  | nil => simp [histogramValuesAtPercentiles, hne, percentilePrelude, walk_nil, percentileTail]
  | cons e es => simp [histogramValuesAtPercentiles, hne]

theorem percentiles_outcomes {R : List ℕ} (hR : Represents h R) (hne : R ≠ [])
    (hcongr : RankDetermines h D) (es : List (FpResult D)) :
    (histogramValuesAtPercentiles h es).1 = true ∧
      (histogramValuesAtPercentiles h es).2.map (·.level) = es.map (·.level) ∧
      (histogramValuesAtPercentiles h es).2.map someValue = outcomes h none es := by
  have hcount : ¬ 0 = h.eventCount := hR.eventCount_ne hne
  obtain ⟨leading, hsplit, hleading, hhead, hpassed, hprelude⟩ :=
    prelude_positives h es ⟨false, ofInt (-1), h.minEventTime⟩
  have hbatch := percentiles_of_prelude h hcount es
  have hkept := percentiles_of_prelude h hcount
    (leading ++ positives (percentilePrelude h es ⟨false, ofInt (-1), h.minEventTime⟩).rest)
  dsimp only at hsplit hhead hpassed hprelude hbatch hkept
  rw [hprelude] at hkept
  generalize percentilePrelude h es ⟨false, ofInt (-1), h.minEventTime⟩ = r at *
  obtain ⟨i, hi⟩ := hR.exists_bucket hne
  have hexhausts := walk_exhausts h (List.finRange bucketCount) 0 r.rest r.last
    hR.accumulated_eq ⟨i, List.mem_finRange i, hi⟩
  obtain ⟨consumed, hconsumed, hpasses⟩ :=
    walk_split h (List.finRange bucketCount) 0 r.rest r.last
  simp only [walk_positives h _ _ _ _ hhead, Progress.positives] at hkept
  generalize percentileWalk h (List.finRange bucketCount) 0 r.rest r.last = r' at *
  rw [hexhausts, List.append_nil] at hconsumed
  rw [hexhausts, percentileTail, List.append_nil] at hbatch
  rw [hexhausts, positives_nil, percentileTail, List.append_nil] at hkept
  rw [← hconsumed] at hpasses
  have hlength : r.passed.length = leading.length := by rw [hpassed, List.length_map]
  have hvalues := (percentiles_eq_answers_of_rank h hcount hcongr
    (ordered_positives hleading r.rest)).2
  rw [hkept] at hvalues
  rw [hbatch]
  refine ⟨rfl, ?_, ?_⟩
  · conv_rhs => rw [hsplit]
    rw [List.map_append, List.map_append, hpassed, List.map_map]
    exact congrArg (_ ++ ·) (levels_of_passes hpasses)
  · conv_rhs => rw [hsplit]
    exact leading_outcomes h hlength hleading hhead hpasses (fun x hx ↦ by cases hx) hvalues

end Outcomes

variable {h}

theorem outcome_of_isGreatest {es out : List (FpResult D)}
    (hout : out.map someValue = outcomes h none es) {k : ℕ} {e : FpResult D} {p : D}
    (he : es[k]? = some e) (hp : IsGreatest {q | q ∈ (es.map (·.level)).take (k + 1)} p) :
    ∃ e', out[k]? = some e' ∧ outcome h e p = some e'.value := by
  have hk : k < (es.map (·.level)).length := by
    rw [List.length_map]
    exact (List.getElem?_eq_some_iff.mp he).1
  obtain ⟨y, hget, hy⟩ := isGreatest_runningMax none hk
  simp only [Option.not_mem_none, false_or] at hy
  obtain rfl := hp.unique hy
  have hentry := congrArg (·[k]?) hout
  rw [List.getElem?_map, outcomes, List.getElem?_zipWith, he, hget,
    Option.map_eq_some_iff] at hentry
  obtain ⟨e', he', hvalue⟩ := hentry
  exact ⟨e', he', hvalue.symm⟩

/-- What the batch does to every array, whatever the order of its levels, in the arithmetic of
`double`: a level that is not positive after a positive one keeps the value it came with, and every
other element gets the answer of the single query to the largest level up to it. -/
theorem rounded_percentiles_every_array (T : Toolchain) {R : List ℕ} (hR : Records T h R)
    (hne : R ≠ []) (elements : List (FpResult Binary64)) :
    let levels := elements.map (·.level)
    let out := (histogramValuesAtPercentiles h elements).2
    (histogramValuesAtPercentiles h elements).1 = true ∧
    out.map (·.level) = levels ∧
    ∀ k e p, elements[k]? = some e → IsGreatest {q | q ∈ levels.take (k + 1)} p →
      ∃ e', out[k]? = some e' ∧
        (e.level ≤ ofInt 0 → ofInt 0 < p → e'.value = e.value) ∧
        (ofInt 0 < e.level ∨ p ≤ ofInt 0 → histogramValueAtPercentile h p = some e'.value) := by
  have hrep := hR.represents
  obtain ⟨htrue, hlevels, hout⟩ :=
    percentiles_outcomes h hrep hne (rankDetermines_rounded hrep hne) elements
  refine ⟨htrue, hlevels, fun k e p he hp ↦ ?_⟩
  obtain ⟨e', he', hvalue⟩ := outcome_of_isGreatest hout he hp
  refine ⟨e', he', fun hlevel hpos ↦ ?_, fun hwritten ↦ ?_⟩
  · rw [outcome, if_pos ⟨hlevel, hpos⟩] at hvalue
    exact (Option.some.inj hvalue).symm
  · rwa [outcome, if_neg] at hvalue
    rintro ⟨hlevel, hpos⟩
    exact hwritten.elim (not_lt.mpr hlevel) (not_le.mpr hpos)

def lateElements : List (FpResult Binary64) :=
  [⟨.nearest (-5), 0⟩, ⟨.nearest 50, 0⟩, ⟨.nearest 0, 7⟩, ⟨.nearest 20, 0⟩]

theorem rounded_percentiles_every_array_sample :
    let out := (histogramValuesAtPercentiles sample.histogram lateElements).2
    (∃ e, out[2]? = some e ∧ e.value = 7) ∧
    ∃ e, out[3]? = some e ∧
      histogramValueAtPercentile sample.histogram (.nearest 50 : Binary64) = some e.value := by
  have hsample := (rounded_percentiles_every_array .gccX64 sample_records (by decide)
    lateElements).2.2
  have hmem : (.nearest 50 : Binary64) ∈ (lateElements.map (·.level)).take 3 := by decide +kernel
  have hmax : ∀ x ∈ (lateElements.map (·.level)).take 4, x ≤ (.nearest 50 : Binary64) := by
    decide +kernel
  obtain ⟨e, he, hkept, -⟩ := hsample 2 _ (.nearest 50) rfl
    ⟨hmem, fun x hx ↦ hmax x (List.take_subset_take_left _ (by decide) hx)⟩
  obtain ⟨e', he', -, hanswer⟩ := hsample 3 _ (.nearest 50) rfl
    ⟨List.take_subset_take_left _ (by decide) hmem, hmax⟩
  exact ⟨⟨e, he, hkept (by decide +kernel) (by decide +kernel)⟩,
    ⟨e', he', hanswer (.inl (by decide +kernel))⟩⟩

end P99
