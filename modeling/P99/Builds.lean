import P99.CompactRefinement
import P99.Facade

namespace P99

open Portable Buckets OrderStatistics Objects

variable {L L' : Layout} {T T' : Toolchain}

namespace Implements

variable {h : Histogram L} {h' : Histogram L'} {a : Recorder}

variable (hi : Implements T h a) (hi' : Implements T' h' a) (hlen : a.held.length < 2 ^ 64)

include hi hi' hlen

theorem rank_eq (r : UInt64) : valueAtTargetRank T h r = valueAtTargetRank T' h' r := by
  have hR := (hi.records hlen).represents
  have hR' := (hi'.records hlen).represents
  by_cases hne : a.held = []
  · rw [valueAtTargetRank, valueAtTargetRank, if_pos (hR.eventCount_eq_zero_iff.mpr hne),
      if_pos (hR'.eventCount_eq_zero_iff.mpr hne)]
  · obtain ⟨v, hv, hval⟩ := valueAtTargetRank_val T hR hne r
    obtain ⟨v', hv', hval'⟩ := valueAtTargetRank_val T' hR' hne r
    rw [hv, hv', UInt64.toNat_inj.mp (hval.trans hval'.symm)]

end Implements

namespace Recorder

variable (L L')

variable {ι : Type*} [DecidableEq ι]

end Recorder

section Program

variable {ι : Type*} [DecidableEq ι]

end Program

end P99
