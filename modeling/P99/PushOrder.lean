import P99.Recording

namespace P99

open Portable Buckets OrderStatistics

variable {L : Layout}

def pushAll (T : Toolchain) (memory : Histogram L) (pushes : List (TimeUnit × UInt64)) :
    Session L :=
  run T memory (pushes.map fun p ↦ .push p.1 p.2)

def durations (pushes : List (TimeUnit × UInt64)) : List ℕ :=
  pushes.map fun p ↦ p.2.toNat * p.1.inNs

/-- What a fresh histogram can hold, whatever the order in which it comes. -/
structure Fits (L : Layout) (R : List ℕ) : Prop where
  total : R.sum ≤ 2 ^ 64 - 1
  capacity : L = .compact → ∀ i, countIn bucketOf R i ≤ 2 ^ 32 - 1

namespace Fits

variable {R R' : List ℕ} {n : ℕ}

theorem perm (hR : Fits L R) (hperm : R.Perm R') : Fits L R' where
  total := hperm.sum_eq ▸ hR.total
  capacity hL i := by
    rw [countIn, ← hperm.countP_eq]
    exact hR.capacity hL i

theorem append_iff :
    Fits L (R ++ [n]) ↔ Fits L R ∧ R.sum + n ≤ 2 ^ 64 - 1 ∧
      (L = .compact → countIn bucketOf R (bucketOf n) < 2 ^ 32 - 1) := by
  constructor
  · intro ⟨htotal, hcapacity⟩
    rw [List.sum_append, List.sum_singleton] at htotal
    refine ⟨⟨by omega, fun hL i ↦ ?_⟩, htotal, fun hL ↦ ?_⟩
    · have hi := hcapacity hL i
      rw [Recording.countIn_append] at hi
      exact (Nat.le_add_right _ _).trans hi
    · have hi := hcapacity hL (bucketOf n)
      rwa [Recording.countIn_append, if_pos rfl] at hi
  · intro ⟨hR, htotal, hbucket⟩
    refine ⟨?_, fun hL i ↦ ?_⟩
    · rwa [List.sum_append, List.sum_singleton]
    · rw [Recording.countIn_append]
      split
      · next hi => exact hi ▸ hbucket hL
      · exact hR.capacity hL i

theorem not_iff (T : Toolchain) :
    ¬ Fits L R ↔ 2 ^ 64 - 1 < R.sum ∨ (L = .compact ∧ ∃ i, 2 ^ 32 - 1 <
      R.countP fun n ↦ n < 2 ^ 64 ∧ bucketIndex T (.ofNat n) = i) := by
  by_cases htotal : R.sum ≤ 2 ^ 64 - 1
  · have hcount : ∀ i, (R.countP fun n ↦ n < 2 ^ 64 ∧ bucketIndex T (.ofNat n) = i) =
        countIn bucketOf R i := by
      intro i
      refine List.countP_congr fun n hn ↦ ?_
      have hlt : n < 2 ^ 64 := by
        have hle := List.le_sum_of_mem hn
        omega
      simp only [hlt, true_and, bucketIndex_eq, UInt64.toNat_ofNat_of_lt' hlt]
    simp only [hcount, not_lt.mpr htotal, false_or]
    constructor
    · intro hnot
      by_contra hno
      apply hnot
      refine ⟨htotal, fun hL i ↦ ?_⟩
      by_contra hi
      exact hno ⟨hL, i, not_le.mp hi⟩
    · intro ⟨hL, i, hi⟩ hR
      exact not_lt.mpr (hR.capacity hL i) hi
  · exact iff_of_true (fun hR ↦ htotal hR.total) (.inl (not_le.mp htotal))

end Fits

section Runs

variable (T : Toolchain) (memory : Histogram L)

theorem pushAll_append (pushes : List (TimeUnit × UInt64)) (p : TimeUnit × UInt64) :
    pushAll T memory (pushes ++ [p]) = (pushAll T memory pushes).step T (.push p.1 p.2) := by
  rw [pushAll, List.map_append]
  exact run_append T memory _ _

theorem durations_append (pushes : List (TimeUnit × UInt64)) (p : TimeUnit × UInt64) :
    durations (pushes ++ [p]) = durations pushes ++ [p.2.toNat * p.1.inNs] := List.map_append

theorem pushAll_accepted (pushes : List (TimeUnit × UInt64)) :
    ((∀ e ∈ (pushAll T memory pushes).log, e.accepted = true) ↔ Fits L (durations pushes)) ∧
      (Fits L (durations pushes) → (pushAll T memory pushes).recorded = durations pushes) := by
  induction pushes using List.reverseRecOn with
  | nil =>
    refine ⟨iff_of_true (fun e he ↦ by cases he) ⟨Nat.zero_le _, fun _ i ↦ ?_⟩, fun _ ↦ rfl⟩
    exact Nat.zero_le _
  | append_singleton pushes p ih =>
    obtain ⟨hlog, hrecorded⟩ := ih
    have hs : Recording (pushAll T memory pushes) := Recording.run T memory _
    rw [pushAll_append, durations_append, Fits.append_iff]
    generalize pushAll T memory pushes = s at *
    have hacc := hs.accepts_iff (p.2.toNat * p.1.inNs)
    rw [hlog] at hacc
    have haccepts : Accepts s.histogram (p.2.toNat * p.1.inNs) ↔ Fits L (durations pushes) ∧
        (durations pushes).sum + p.2.toNat * p.1.inNs ≤ 2 ^ 64 - 1 ∧
        (L = .compact →
          countIn bucketOf (durations pushes) (bucketOf (p.2.toNat * p.1.inNs)) < 2 ^ 32 - 1) := by
      rw [hacc]
      refine and_congr_right fun hfits ↦ ?_
      rw [hrecorded hfits]
    rw [← haccepts]
    simp only [Session.step, histogramPush_eq T hs.flag_cases]
    by_cases ha : Accepts s.histogram (p.2.toNat * p.1.inNs)
    · have hfits := (haccepts.mp ha).1
      simp only [if_pos ha]
      refine ⟨iff_of_true ?_ ha, fun _ ↦ ?_⟩
      · intro e he
        rcases List.mem_append.mp he with he | he
        · exact hlog.mpr hfits e he
        · rw [List.mem_singleton.mp he]
      · rw [Recording.recorded_push, hrecorded hfits]
        rfl
    · simp only [if_neg ha]
      refine ⟨iff_of_false ?_ ha, fun ha' ↦ absurd ha' ha⟩
      intro hall
      have hlast := hall _ (List.mem_append_right _ List.mem_cons_self)
      cases hlast

end Runs

section Order

variable (T : Toolchain) {h h' : Histogram L} {R R' : List ℕ}

theorem Represents.eq_of_perm (hR : Represents h R) (hR' : Represents h' R') (hperm : R.Perm R')
    (hne : R ≠ []) (hflag : h.hasOverflowed = h'.hasOverflowed) : h = h' := by
  have hne' : R' ≠ [] := by
    rintro rfl
    exact hne hperm.eq_nil
  have hset : {t | t ∈ R'} = {t | t ∈ R} := Set.ext fun t ↦ hperm.mem_iff.symm
  have hleast := hR'.least hne'
  have hgreatest := hR'.greatest hne'
  rw [hset] at hleast hgreatest
  apply Histogram.ext hflag
  · apply UInt64.toNat_inj.mp
    rw [hR.count, hR'.count, hperm.length_eq]
  · apply UInt64.toNat_inj.mp
    rw [hR.total, hR'.total, hperm.sum_eq]
  · exact UInt64.toNat_inj.mp ((hR.least hne).unique hleast)
  · exact UInt64.toNat_inj.mp ((hR.greatest hne).unique hgreatest)
  · refine Vector.ext fun i hi ↦ BitVec.eq_of_toNat_eq ?_
    have hcount : (bucketAt h ⟨i, hi⟩).toNat = (bucketAt h' ⟨i, hi⟩).toNat := by
      rw [hR.bucket, hR'.bucket, countIn, countIn, hperm.countP_eq]
    rwa [toNat_bucketAt, toNat_bucketAt] at hcount

/-- The order of the pushes decides neither whether they overflow nor, if they do not, anything
else. -/
theorem pushes_in_any_order (memory memory' : Histogram L)
    {pushes pushes' : List (TimeUnit × UInt64)} (hperm : pushes.Perm pushes')
    (hlen : pushes.length < 2 ^ 64) :
    let h := (pushAll T memory pushes).histogram
    let h' := (pushAll T memory' pushes').histogram
    h.hasOverflowed = h'.hasOverflowed ∧
    (h.hasOverflowed ≠ 0 ↔ 2 ^ 64 - 1 < (durations pushes).sum ∨ (L = .compact ∧
      ∃ i, 2 ^ 32 - 1 < (durations pushes).countP fun n ↦
        n < 2 ^ 64 ∧ bucketIndex T (.ofNat n) = i)) ∧
    (h.hasOverflowed = 0 → h = h') := by
  have hs : Recording (pushAll T memory pushes) := Recording.run T memory _
  have hs' : Recording (pushAll T memory' pushes') := Recording.run T memory' _
  have hdurations : (durations pushes).Perm (durations pushes') := hperm.map _
  have hfits : Fits L (durations pushes) ↔ Fits L (durations pushes') :=
    ⟨fun hf ↦ hf.perm hdurations, fun hf ↦ hf.perm hdurations.symm⟩
  obtain ⟨hlog, hrecorded⟩ := pushAll_accepted T memory pushes
  obtain ⟨hlog', hrecorded'⟩ := pushAll_accepted T memory' pushes'
  rw [← hs.flag_eq_zero_iff] at hlog
  rw [← hs'.flag_eq_zero_iff] at hlog'
  have hflag : (pushAll T memory pushes).histogram.hasOverflowed =
      (pushAll T memory' pushes').histogram.hasOverflowed := by
    by_cases hf : Fits L (durations pushes)
    · rw [hlog.mpr hf, hlog'.mpr (hfits.mp hf)]
    · rw [hs.flag_cases.resolve_left fun hz ↦ hf (hlog.mp hz),
        hs'.flag_cases.resolve_left fun hz ↦ hf (hfits.mpr (hlog'.mp hz))]
  refine ⟨hflag, ?_, ?_⟩
  · rw [ne_eq, hlog, Fits.not_iff T]
  · intro hz
    have hf := hlog.mp hz
    by_cases hnil : pushes = []
    · subst hnil
      rw [hperm.nil_eq.symm]
      rfl
    · have hlength : (durations pushes).length < 2 ^ 64 := by rwa [durations, List.length_map]
      have hR := hs.represents (hrecorded hf ▸ hlength)
      have hR' := hs'.represents (hrecorded' (hfits.mp hf) ▸ hdurations.length_eq ▸ hlength)
      rw [hrecorded hf] at hR
      rw [hrecorded' (hfits.mp hf)] at hR'
      exact hR.eq_of_perm hR' hdurations (by simpa [durations] using hnil) hflag

theorem pushes_in_any_order_sample :
    (pushAll .gccX64 (zeroed .compact) [(.ns, 5), (.us, 1)]).histogram =
      (pushAll .gccX64 (zeroed .compact) [(.us, 1), (.ns, 5)]).histogram ∧
    (pushAll .gccX64 (zeroed .compact)
      [(.ns, uint64Max), (.us, 1)]).histogram.hasOverflowed ≠ 0 ∧
    (pushAll .gccX64 (zeroed .compact)
      [(.us, 1), (.ns, uint64Max)]).histogram.hasOverflowed ≠ 0 := by
  have hfit := pushes_in_any_order .gccX64 (zeroed .compact) (zeroed .compact)
    (List.Perm.swap (.us, 1) (.ns, 5) []) (by decide)
  obtain ⟨hflag, hiff, -⟩ := pushes_in_any_order .gccX64 (zeroed .compact) (zeroed .compact)
    (List.Perm.swap (.us, 1) (.ns, uint64Max) []) (by decide)
  have hset := hiff.mpr (.inl (by decide))
  exact ⟨hfit.2.2 (by decide), hset, hflag ▸ hset⟩

end Order

end P99
