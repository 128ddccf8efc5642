import P99.Library.Words
import Mathlib.Data.Nat.Bitwise

namespace P99.Portable

open WordArithmetic

/-- A step of the C code that has no result: a division by zero, or the trap that
`_udiv128` raises when its quotient does not fit in 64 bits. -/
inductive Fault
  | divideByZero
  | quotientOverflow
  deriving DecidableEq, Repr

abbrev Result := Except Fault

@[simp] theorem ok_bind {α β : Type} (a : α) (f : α → Result β) :
    (Except.ok a >>= f : Result β) = f a := rfl

def uint64Max : UInt64 := 0xFFFFFFFFFFFFFFFF

def uint32Max : UInt64 := 0xFFFFFFFF

@[simp] theorem toNat_uint64Max : uint64Max.toNat = 2 ^ 64 - 1 := rfl

theorem le_uint64Max (x : UInt64) : x ≤ uint64Max := by
  rw [UInt64.le_iff_toNat_le, toNat_uint64Max]
  have := x.toNat_lt
  omega

/-- The predefined macros of a compiler that the capability detection reads.
An undefined macro is `none`, or `false` where only its definedness matters. -/
structure Toolchain where
  declaresBuiltinClzll : Bool
  gnuc : Option (ℕ × ℕ)
  clangMajor : Option ℕ
  mscVer : Option ℕ
  mX64 : Bool
  mArm64 : Bool
  win64 : Bool
  sizeofInt128 : Bool
  /-- What the bit-scan intrinsics leave behind on a zero operand, where no compiler promises
  anything. -/
  scanOfZero : ℕ

namespace Toolchain

variable (T : Toolchain)

def hasBuiltinClzll : Bool :=
  T.declaresBuiltinClzll ||
    (match T.gnuc with
      | some (major, minor) => decide (major > 3 ∨ (major = 3 ∧ minor ≥ 4))
      | none => false) ||
    (match T.clangMajor with
      | some major => decide (major ≥ 4)
      | none => false)

def mscVerAtLeast (version : ℕ) : Bool :=
  match T.mscVer with
  | some v => decide (v ≥ version)
  | none => false

def hasBitScanReverse64 : Bool := T.mscVerAtLeast 1400 && (T.mX64 || T.mArm64 || T.win64)

def hasUmul128 : Bool := T.mscVerAtLeast 1400 && (T.mX64 || T.win64)

def hasUdiv128 : Bool := T.mscVerAtLeast 1920 && (T.mX64 || T.win64)

def hasInt128 : Bool := T.sizeofInt128

theorem hasUmul128_of_hasUdiv128 (h : T.hasUdiv128 = true) : T.hasUmul128 = true := by
  simp only [hasUdiv128, hasUmul128, mscVerAtLeast, Bool.and_eq_true] at h ⊢
  refine ⟨?_, h.2⟩
  cases hv : T.mscVer with
  | none => simp [hv] at h
  | some v =>
    have hge : 1920 ≤ v := by simpa [hv] using h.1
    exact decide_eq_true (by omega)

/-- `__builtin_clzll`: the number of zero bits above the highest set one. -/
def builtinClzll (value : UInt64) : ℕ :=
  if value = 0 then T.scanOfZero else value.toBitVec.clz.toNat

/-- `_BitScanReverse64`: the index of the highest set bit. -/
def bitScanReverse64 (value : UInt64) : ℕ :=
  if value = 0 then T.scanOfZero else value.toNat.log2

def gccX64 : Toolchain := ⟨true, some (13, 0), none, none, true, false, false, true, 0⟩

end Toolchain

def umul128 (multiplier multiplicand : UInt64) : UInt64 × UInt64 :=
  let product := multiplier.toNat * multiplicand.toNat
  (.ofNat (product / 2 ^ 64), .ofNat product)

/-- `_udiv128`: traps unless the quotient fits in 64 bits. -/
def udiv128 (high low divisor : UInt64) : Result UInt64 :=
  if divisor ≤ high then .error .quotientOverflow
  else .ok (.ofNat ((high.toNat * 2 ^ 64 + low.toNat) / divisor.toNat))

def divU64 (dividend divisor : UInt64) : Result UInt64 :=
  if divisor = 0 then .error .divideByZero else .ok (dividend / divisor)

def floorLog2Loop (index : ℕ) (v : UInt64) : ℕ :=
  if v > 1 then floorLog2Loop (index + 1) (v >>> 1) else index
termination_by v.toNat
decreasing_by
  rename_i h
  have hv : 1 < v.toNat := by simpa [UInt64.lt_iff_toNat_lt] using h
  simp only [UInt64.toNat_shiftRight, Nat.shiftRight_eq_div_pow]
  exact Nat.div_lt_self (by omega) (by decide)

def floorLog2U64 (T : Toolchain) (value : UInt64) : ℕ :=
  if T.hasBuiltinClzll then 63 - T.builtinClzll value
  else if T.hasBitScanReverse64 then T.bitScanReverse64 value
  else floorLog2Loop 0 value

def product128 (multiplicand multiplier : UInt64) : BitVec 128 :=
  multiplicand.toBitVec.setWidth 128 * multiplier.toBitVec.setWidth 128

def mulU64U64Int128 (multiplicand multiplier : UInt64) : UInt64 × UInt64 :=
  let product := product128 multiplicand multiplier
  (⟨(product >>> 64).setWidth 64⟩, ⟨product.setWidth 64⟩)

def mulU64U64Fallback (multiplicand multiplier : UInt64) : UInt64 × UInt64 :=
  let aLo := multiplicand &&& uint32Max
  let aHi := multiplicand >>> 32
  let bLo := multiplier &&& uint32Max
  let bHi := multiplier >>> 32
  let ll := aLo * bLo
  let lh := aLo * bHi
  let hl := aHi * bLo
  let hh := aHi * bHi
  let mid := lh + hl + (ll >>> 32)
  (hh + (mid >>> 32), (mid <<< 32) ||| (ll &&& uint32Max))

/-- `p99_mul_u64_u64_`, returning `(high, low)`. -/
def mulU64U64 (T : Toolchain) (multiplicand multiplier : UInt64) : UInt64 × UInt64 :=
  if T.hasInt128 then mulU64U64Int128 multiplicand multiplier
  else if T.hasUmul128 then umul128 multiplicand multiplier
  else mulU64U64Fallback multiplicand multiplier

/-- The dividend that the `__uint128_t` branch puts together again, and its quotient before it is
cut to 64 bits. -/
def dividend128 (high low : UInt64) : BitVec 128 :=
  high.toBitVec.setWidth 128 <<< 64 ||| low.toBitVec.setWidth 128

def quotient128 (high low divisor : UInt64) : BitVec 128 :=
  dividend128 high low / divisor.toBitVec.setWidth 128

def divU128U64Int128 (high low divisor : UInt64) : Result UInt64 :=
  if divisor = 0 then .error .divideByZero
  else .ok ⟨(quotient128 high low divisor).setWidth 64⟩

/-- The body of the fallback division for the bits `bit - 1`, ..., `0`. -/
def divU128U64Loop (low divisor : UInt64) : (bit : ℕ) → (remainder quotient : UInt64) → UInt64
  | 0, _, quotient => quotient
  | bit + 1, remainder, quotient =>
    let remainder := (remainder <<< 1) ||| ((low >>> .ofNat bit) &&& 1)
    let quotient := quotient <<< 1
    if remainder ≥ divisor then
      divU128U64Loop low divisor bit (remainder - divisor) (quotient ||| 1)
    else divU128U64Loop low divisor bit remainder quotient

def divU128U64Fallback (high low divisor : UInt64) : UInt64 :=
  divU128U64Loop low divisor 64 high 0

def divU128U64 (T : Toolchain) (high low divisor : UInt64) : Result UInt64 :=
  if high = 0 then divU64 low divisor
  else if T.hasInt128 then divU128U64Int128 high low divisor
  else if T.hasUdiv128 then udiv128 high low divisor
  else .ok (divU128U64Fallback high low divisor)

def u64MulDivU64 (T : Toolchain) (multiplicand multiplier divisor : UInt64) : Result UInt64 :=
  let (high, low) := mulU64U64 T multiplicand multiplier
  divU128U64 T high low divisor

def u64AddMulDivU64 (T : Toolchain) (addend multiplicand multiplier divisor : UInt64) :
    Result UInt64 := do
  let quotient ← u64MulDivU64 T multiplicand multiplier divisor
  return addend + quotient

section FloorLog2

variable (T : Toolchain)

theorem floorLog2Loop_eq (index : ℕ) (v : UInt64) :
    floorLog2Loop index v = index + Nat.log 2 v.toNat := by
  induction index, v using floorLog2Loop.induct with
  | case1 index v hv ih =>
    have hlt : 1 < v.toNat := by simpa [UInt64.lt_iff_toNat_lt] using hv
    have hhalf : (v >>> 1).toNat = v.toNat / 2 := by
      rw [UInt64.toNat_shiftRight, Nat.shiftRight_eq_div_pow]
      rfl
    have hlog : Nat.log 2 v.toNat = Nat.log 2 (v.toNat / 2) + 1 :=
      Nat.log_of_one_lt_of_le (by decide) hlt
    rw [floorLog2Loop, if_pos hv, ih, hhalf, hlog]
    omega
  | case2 index v hv =>
    have hle : v.toNat ≤ 1 := by simpa [UInt64.lt_iff_toNat_lt] using hv
    rw [floorLog2Loop, if_neg hv, Nat.log_of_lt (by omega), Nat.add_zero]

theorem builtinClzll_eq {value : UInt64} (hv : value ≠ 0) :
    63 - T.builtinClzll value = Nat.log 2 value.toNat := by
  have hne : value.toBitVec ≠ 0#64 := fun h ↦ hv (UInt64.toBitVec_inj.mp h)
  have hge := BitVec.two_pow_sub_clz_le_toNat_of_ne_zero (by decide) hne
  have hlt := BitVec.toNat_lt_two_pow_sub_clz (x := value.toBitVec)
  have hclz : value.toBitVec.clz.toNat < 64 := by
    have h := BitVec.lt_def.mp (BitVec.clz_lt_iff_ne_zero.mpr hne)
    simpa using h
  rw [Toolchain.builtinClzll, if_neg hv]
  refine (Nat.log_eq_of_pow_le_of_lt_pow ?_ ?_).symm
  · simpa using hge
  · rw [show 63 - value.toBitVec.clz.toNat + 1 = 64 - value.toBitVec.clz.toNat by omega]
    simpa using hlt

theorem floorLog2U64_eq {value : UInt64} (hv : value ≠ 0) :
    floorLog2U64 T value = Nat.log 2 value.toNat := by
  rw [floorLog2U64]
  split
  · exact builtinClzll_eq T hv
  · split
    · rw [Toolchain.bitScanReverse64, if_neg hv, Nat.log2_eq_log_two]
    · rw [floorLog2Loop_eq, Nat.zero_add]

end FloorLog2

section Multiply

theorem toNat_product128 (a b : UInt64) : (product128 a b).toNat = a.toNat * b.toNat := by
  have ha : a.toNat < 2 ^ 128 := a.toNat_lt.trans (by decide)
  have hb : b.toNat < 2 ^ 128 := b.toNat_lt.trans (by decide)
  have hprod : a.toNat * b.toNat < 2 ^ 128 :=
    (Nat.mul_lt_mul'' a.toNat_lt b.toNat_lt).trans_eq (by norm_num)
  rw [product128, BitVec.toNat_mul, BitVec.toNat_setWidth, BitVec.toNat_setWidth,
    UInt64.toNat_toBitVec, UInt64.toNat_toBitVec, Nat.mod_eq_of_lt ha, Nat.mod_eq_of_lt hb,
    Nat.mod_eq_of_lt hprod]

theorem mulU64U64Int128_exact (a b : UInt64) :
    (mulU64U64Int128 a b).1.toNat * 2 ^ 64 + (mulU64U64Int128 a b).2.toNat =
      a.toNat * b.toNat := by
  have hhigh : a.toNat * b.toNat / 2 ^ 64 < 2 ^ 64 :=
    Nat.div_lt_of_lt_mul (Nat.mul_lt_mul'' a.toNat_lt b.toNat_lt)
  simp only [mulU64U64Int128, UInt64.toNat_ofBitVec, BitVec.toNat_setWidth,
    BitVec.toNat_ushiftRight, toNat_product128, Nat.shiftRight_eq_div_pow, Nat.mod_eq_of_lt hhigh]
  exact Nat.div_add_mod' _ _

theorem umul128_exact (a b : UInt64) :
    (umul128 a b).1.toNat * 2 ^ 64 + (umul128 a b).2.toNat = a.toNat * b.toNat := by
  have hhigh : a.toNat * b.toNat / 2 ^ 64 < 2 ^ 64 :=
    Nat.div_lt_of_lt_mul (Nat.mul_lt_mul'' a.toNat_lt b.toNat_lt)
  simp only [umul128, UInt64.toNat_ofNat_of_lt' hhigh]
  exact Nat.div_add_mod' _ _

/-- The middle sum of the fallback product, before it is cut to 64 bits. -/
def middleSum (a b : ℕ) : ℕ :=
  a % 2 ^ 32 * (b / 2 ^ 32) + a / 2 ^ 32 * (b % 2 ^ 32) + a % 2 ^ 32 * (b % 2 ^ 32) / 2 ^ 32

theorem toNat_lowHalf (x : UInt64) : (x &&& uint32Max).toNat = x.toNat % 2 ^ 32 := by
  rw [UInt64.toNat_and]
  exact Nat.and_two_pow_sub_one_eq_mod x.toNat 32

theorem toNat_highHalf (x : UInt64) : (x >>> 32).toNat = x.toNat / 2 ^ 32 := by
  rw [UInt64.toNat_shiftRight, Nat.shiftRight_eq_div_pow]
  rfl

theorem toNat_joinHalves (x y : UInt64) :
    ((x <<< 32) ||| (y &&& uint32Max)).toNat = x.toNat % 2 ^ 32 * 2 ^ 32 + y.toNat % 2 ^ 32 := by
  have hshift : (x <<< 32).toNat = x.toNat % 2 ^ 32 * 2 ^ 32 := by
    rw [UInt64.toNat_shiftLeft, Nat.shiftLeft_eq]
    exact (Nat.mul_mod_mul_right (2 ^ 32) x.toNat (2 ^ 32))
  rw [UInt64.toNat_or, hshift, toNat_lowHalf, Nat.mul_comm,
    Nat.two_pow_add_eq_or_of_lt (Nat.mod_lt _ (by decide))]

theorem toNat_mul_halves {x y : UInt64} (hx : x.toNat < 2 ^ 32) (hy : y.toNat < 2 ^ 32) :
    (x * y).toNat = x.toNat * y.toNat := by
  rw [UInt64.toNat_mul]
  exact Nat.mod_eq_of_lt ((Nat.mul_lt_mul'' hx hy).trans_eq (by norm_num))

theorem mulU64U64Fallback_words (a b : UInt64) :
    (mulU64U64Fallback a b).1.toNat = (a.toNat / 2 ^ 32 * (b.toNat / 2 ^ 32) +
        middleSum a.toNat b.toNat % 2 ^ 64 / 2 ^ 32) % 2 ^ 64 ∧
      (mulU64U64Fallback a b).2.toNat = middleSum a.toNat b.toNat % 2 ^ 32 * 2 ^ 32 +
        a.toNat % 2 ^ 32 * (b.toNat % 2 ^ 32) % 2 ^ 32 := by
  have halo : (a &&& uint32Max).toNat < 2 ^ 32 := by
    rw [toNat_lowHalf]; exact Nat.mod_lt _ (by decide)
  have hblo : (b &&& uint32Max).toNat < 2 ^ 32 := by
    rw [toNat_lowHalf]; exact Nat.mod_lt _ (by decide)
  have hahi : (a >>> 32).toNat < 2 ^ 32 := by
    rw [toNat_highHalf]; exact Nat.div_lt_of_lt_mul a.toNat_lt
  have hbhi : (b >>> 32).toNat < 2 ^ 32 := by
    rw [toNat_highHalf]; exact Nat.div_lt_of_lt_mul b.toNat_lt
  have hmidv : ((a &&& uint32Max) * (b >>> 32) + (a >>> 32) * (b &&& uint32Max) +
      ((a &&& uint32Max) * (b &&& uint32Max)) >>> 32 : UInt64).toNat =
      middleSum a.toNat b.toNat % 2 ^ 64 := by
    rw [UInt64.toNat_add, UInt64.toNat_add, toNat_highHalf, toNat_mul_halves halo hbhi,
      toNat_mul_halves hahi hblo, toNat_mul_halves halo hblo, toNat_lowHalf, toNat_lowHalf,
      toNat_highHalf, toNat_highHalf, Nat.mod_add_mod]
    rfl
  simp only [mulU64U64Fallback]
  constructor
  · rw [UInt64.toNat_add, toNat_highHalf, hmidv, toNat_mul_halves hahi hbhi, toNat_highHalf,
      toNat_highHalf]
  · rw [toNat_joinHalves, hmidv, toNat_mul_halves halo hblo, toNat_lowHalf, toNat_lowHalf,
      Nat.mod_mod_of_dvd _ (Nat.pow_dvd_pow 2 (by decide : 32 ≤ 64))]

theorem product_words (a b : ℕ) :
    (a / 2 ^ 32 * (b / 2 ^ 32) + middleSum a b / 2 ^ 32) * 2 ^ 64 +
      (middleSum a b % 2 ^ 32 * 2 ^ 32 + a % 2 ^ 32 * (b % 2 ^ 32) % 2 ^ 32) = a * b := by
  have hschool := schoolbook_product (2 ^ 32) (a % 2 ^ 32) (a / 2 ^ 32) (b % 2 ^ 32) (b / 2 ^ 32)
  rwa [Nat.div_add_mod', Nat.div_add_mod'] at hschool

theorem mulU64U64Fallback_exact {a b : UInt64} (hmid : middleSum a.toNat b.toNat < 2 ^ 64) :
    (mulU64U64Fallback a b).1.toNat * 2 ^ 64 + (mulU64U64Fallback a b).2.toNat =
      a.toNat * b.toNat := by
  have hprod : a.toNat * b.toNat < 2 ^ 64 * 2 ^ 64 := Nat.mul_lt_mul'' a.toNat_lt b.toNat_lt
  obtain ⟨hhigh, hlow⟩ := mulU64U64Fallback_words a b
  have hwords := product_words a.toNat b.toNat
  rw [hhigh, hlow, Nat.mod_eq_of_lt hmid, Nat.mod_eq_of_lt (by omega)]
  exact hwords

theorem middleSum_lt_of_small {a b : ℕ} (ha : a < 2 ^ 64) (hb : b < 2 ^ 32) :
    middleSum a b < 2 ^ 64 := by
  have hb0 : b / 2 ^ 32 = 0 := Nat.div_eq_of_lt hb
  have hhi : a / 2 ^ 32 * (b % 2 ^ 32) ≤ (2 ^ 32 - 1) * (2 ^ 32 - 1) :=
    Nat.mul_le_mul (by omega) (by omega)
  have hlo : a % 2 ^ 32 * (b % 2 ^ 32) / 2 ^ 32 < 2 ^ 32 :=
    Nat.div_lt_of_lt_mul (Nat.mul_lt_mul'' (Nat.mod_lt _ (by decide)) (Nat.mod_lt _ (by decide)))
  rw [middleSum, hb0, Nat.mul_zero, Nat.zero_add]
  omega

variable (T : Toolchain)

theorem mulU64U64_exact {a b : UInt64}
    (h : T.hasInt128 = true ∨ T.hasUmul128 = true ∨ middleSum a.toNat b.toNat < 2 ^ 64) :
    (mulU64U64 T a b).1.toNat * 2 ^ 64 + (mulU64U64 T a b).2.toNat = a.toNat * b.toNat := by
  rw [mulU64U64]
  split
  · exact mulU64U64Int128_exact a b
  · next hint =>
    split
    · exact umul128_exact a b
    · next humul =>
      rcases h with h | h | h
      · exact absurd h hint
      · exact absurd h humul
      · exact mulU64U64Fallback_exact h

end Multiply

section Divide

theorem toNat_pushBit_mod {x b : UInt64} (hb : b.toNat < 2) :
    ((x <<< 1) ||| b).toNat = 2 * (x.toNat % 2 ^ 63) + b.toNat := by
  have hshift : (x <<< 1).toNat = 2 ^ 1 * (x.toNat % 2 ^ 63) := by
    rw [UInt64.toNat_shiftLeft, Nat.shiftLeft_eq, Nat.mul_comm]
    exact Nat.mul_mod_mul_left 2 x.toNat (2 ^ 63)
  rw [UInt64.toNat_or, hshift, ← Nat.two_pow_add_eq_or_of_lt (by omega), Nat.pow_one]

theorem toNat_pushBit {x b : UInt64} (hx : x.toNat < 2 ^ 63) (hb : b.toNat < 2) :
    ((x <<< 1) ||| b).toNat = 2 * x.toNat + b.toNat := by
  rw [toNat_pushBit_mod hb, Nat.mod_eq_of_lt hx]

theorem toNat_bit (low : UInt64) {k : ℕ} (hk : k < 64) :
    ((low >>> .ofNat k) &&& 1).toNat = low.toNat / 2 ^ k % 2 := by
  have hmod : (UInt64.ofNat k).toNat % 64 = k := by
    rw [UInt64.toNat_ofNat_of_lt' (show k < 2 ^ 64 by omega), Nat.mod_eq_of_lt hk]
  rw [UInt64.toNat_and, UInt64.toNat_shiftRight, hmod, Nat.shiftRight_eq_div_pow]
  exact Nat.and_one_is_mod _

theorem dividend_digit (high low : ℕ) {k : ℕ} (hk : k < 64) :
    (high * 2 ^ 64 + low) / 2 ^ k % 2 = low / 2 ^ k % 2 := by
  have hsplit : high * 2 ^ 64 = 2 ^ k * (2 * (high * 2 ^ (63 - k))) := by
    rw [show (2 : ℕ) ^ 64 = 2 ^ k * (2 * 2 ^ (63 - k)) by
      rw [← pow_succ', ← pow_add]; congr 1; omega]
    ring
  rw [hsplit, Nat.mul_add_div (Nat.two_pow_pos k)]
  omega

theorem quotient_lt {high low divisor : UInt64} (hlt : high < divisor) :
    (high.toNat * 2 ^ 64 + low.toNat) / divisor.toNat < 2 ^ 64 := by
  have hhigh : high.toNat < divisor.toNat := UInt64.lt_iff_toNat_lt.mp hlt
  have hlow := low.toNat_lt
  exact Nat.div_lt_of_lt_mul (by omega)

theorem toNat_digit (high low : UInt64) {k : ℕ} (hk : k < 64) :
    ((low >>> .ofNat k) &&& 1).toNat = (high.toNat * 2 ^ 64 + low.toNat) / 2 ^ k % 2 := by
  rw [toNat_bit low hk, dividend_digit _ _ hk]

theorem toNat_double {quotient : UInt64} (hq : quotient.toNat < 2 ^ 63) :
    (quotient <<< 1).toNat = 2 * quotient.toNat := by
  have hzero := toNat_pushBit (b := 0) hq (by decide)
  rwa [UInt64.or_zero] at hzero

section Loop

variable {high low divisor : UInt64} (hlt : high < divisor) {k : ℕ} (hk : k < 64)
  {remainder quotient : UInt64}
  (h : Restoring (high.toNat * 2 ^ 64 + low.toNat) divisor.toNat (k + 1) quotient.toNat
    remainder.toNat)

include hlt h in
theorem loop_quotient_lt : quotient.toNat < 2 ^ 63 := by
  have hle := h.quotient_mul_le.trans_lt (quotient_lt hlt)
  have hpow : 2 ≤ 2 ^ (k + 1) := Nat.le_self_pow (Nat.succ_ne_zero k) 2
  have hdouble := Nat.mul_le_mul_left quotient.toNat hpow
  omega

include hlt hk h in
/-- One pass of the fallback loop reads one more digit of the dividend, as long as the shifted
remainder keeps all its bits. -/
theorem divU128U64Loop_step
    (hfit : shiftedRemainder (high.toNat * 2 ^ 64 + low.toNat) divisor.toNat k < 2 ^ 64) :
    ∃ remainder' quotient', divU128U64Loop low divisor (k + 1) remainder quotient =
        divU128U64Loop low divisor k remainder' quotient' ∧
      Restoring (high.toNat * 2 ^ 64 + low.toNat) divisor.toNat k quotient'.toNat
        remainder'.toNat := by
  have hq := loop_quotient_lt hlt h
  have hbit := toNat_digit high low hk
  rw [h.shiftedRemainder_eq] at hfit
  have hrem := toNat_pushBit (x := remainder) (by omega)
    (hbit.trans_lt (Nat.mod_lt _ (by decide)))
  rw [hbit] at hrem
  rw [divU128U64Loop]
  split
  · next hge =>
    refine ⟨_, _, rfl, ?_⟩
    rw [toNat_pushBit hq (by decide), UInt64.toNat_sub_of_le _ _ hge, hrem]
    exact h.subtract (hrem ▸ UInt64.le_iff_toNat_le.mp hge)
  · next hlt' =>
    refine ⟨_, _, rfl, ?_⟩
    rw [hrem, toNat_double hq]
    exact h.restore (hrem ▸ not_le.mp fun hle ↦ hlt' (UInt64.le_iff_toNat_le.mpr hle))

end Loop

theorem divU128U64Loop_eq {high low divisor : UInt64} (hlt : high < divisor) {k : ℕ} (hk : k ≤ 64)
    (hfit : ∀ j < k, shiftedRemainder (high.toNat * 2 ^ 64 + low.toNat) divisor.toNat j < 2 ^ 64)
    {remainder quotient : UInt64} (h : Restoring (high.toNat * 2 ^ 64 + low.toNat) divisor.toNat k
      quotient.toNat remainder.toNat) :
    (divU128U64Loop low divisor k remainder quotient).toNat =
      (high.toNat * 2 ^ 64 + low.toNat) / divisor.toNat := by
  induction k generalizing remainder quotient with
  | zero => exact h.quotient_eq
  | succ k ih =>
    obtain ⟨remainder', quotient', hstep, h'⟩ :=
      divU128U64Loop_step hlt hk h (hfit k (Nat.lt_succ_self k))
    rw [hstep]
    exact ih (Nat.le_of_succ_le hk) (fun j hj ↦ hfit j (Nat.lt_succ_of_lt hj)) h'

theorem restoring_start {high low divisor : UInt64} (hlt : high < divisor) :
    Restoring (high.toNat * 2 ^ 64 + low.toNat) divisor.toNat 64 (0 : UInt64).toNat
      high.toNat := by
  refine ⟨?_, UInt64.lt_iff_toNat_lt.mp hlt⟩
  have hlow := low.toNat_lt
  simp only [UInt64.toNat_zero, Nat.zero_mul, Nat.zero_add]
  omega

theorem divU128U64Fallback_exact {high low divisor : UInt64} (hlt : high < divisor)
    (hd : divisor.toNat ≤ 2 ^ 63) :
    divU128U64Fallback high low divisor =
      .ofNat ((high.toNat * 2 ^ 64 + low.toNat) / divisor.toNat) := by
  have hpos := Nat.zero_lt_of_lt (UInt64.lt_iff_toNat_lt.mp hlt)
  apply UInt64.toNat_inj.mp
  rw [UInt64.toNat_ofNat_of_lt' (quotient_lt hlt)]
  refine divU128U64Loop_eq hlt le_rfl (fun j _ ↦ ?_) (restoring_start hlt)
  have hshift := shiftedRemainder_lt hpos (high.toNat * 2 ^ 64 + low.toNat) j
  omega

theorem toNat_dividend128 (high low : UInt64) :
    (dividend128 high low).toNat = high.toNat * 2 ^ 64 + low.toNat := by
  have hh := high.toNat_lt
  have hl := low.toNat_lt
  rw [dividend128, BitVec.toNat_or, BitVec.toNat_shiftLeft, BitVec.toNat_setWidth,
    BitVec.toNat_setWidth, UInt64.toNat_toBitVec, UInt64.toNat_toBitVec, Nat.shiftLeft_eq,
    Nat.mod_eq_of_lt (show high.toNat < 2 ^ 128 by omega),
    Nat.mod_eq_of_lt (show low.toNat < 2 ^ 128 by omega),
    Nat.mod_eq_of_lt (show high.toNat * 2 ^ 64 < 2 ^ 128 by omega), Nat.mul_comm,
    Nat.two_pow_add_eq_or_of_lt hl]

theorem toNat_quotient128 (high low divisor : UInt64) :
    (quotient128 high low divisor).toNat =
      (high.toNat * 2 ^ 64 + low.toNat) / divisor.toNat := by
  have hdiv := divisor.toNat_lt
  rw [quotient128, BitVec.toNat_udiv, toNat_dividend128, BitVec.toNat_setWidth,
    UInt64.toNat_toBitVec, Nat.mod_eq_of_lt (show divisor.toNat < 2 ^ 128 by omega)]

theorem divU128U64Int128_word {high low divisor : UInt64} (hd : divisor ≠ 0) :
    divU128U64Int128 high low divisor = .ok ⟨(quotient128 high low divisor).setWidth 64⟩ :=
  if_neg hd

theorem divU128U64Int128_eq {high low divisor : UInt64} (hd : divisor ≠ 0) :
    divU128U64Int128 high low divisor =
      .ok (.ofNat ((high.toNat * 2 ^ 64 + low.toNat) / divisor.toNat)) := by
  rw [divU128U64Int128_word hd]
  refine congrArg _ (UInt64.toNat_inj.mp ?_)
  rw [UInt64.toNat_ofBitVec, BitVec.toNat_setWidth, toNat_quotient128, UInt64.toNat_ofNat']

theorem le_max_div_iff {a b : UInt64} (hb : b ≠ 0) :
    a ≤ uint64Max / b ↔ a.toNat * b.toNat < 2 ^ 64 := by
  have hpos : 0 < b.toNat := UInt64.lt_iff_toNat_lt.mp (UInt64.pos_iff_ne_zero.mpr hb)
  rw [UInt64.le_iff_toNat_le, UInt64.toNat_div, toNat_uint64Max, Nat.le_div_iff_mul_le hpos]
  omega

variable (T : Toolchain)

theorem divU64_eq {dividend divisor : UInt64} (hd : divisor ≠ 0) :
    divU64 dividend divisor = .ok (dividend / divisor) := if_neg hd

/-- Where the quotient fits, every branch of the division finds it; the fallback is
promised only for divisors up to `2 ^ 63`. -/
theorem divU128U64_exact {high low divisor : UInt64} (hlt : high < divisor)
    (hd : T.hasInt128 = true ∨ T.hasUdiv128 = true ∨ divisor.toNat ≤ 2 ^ 63) :
    divU128U64 T high low divisor =
      .ok (.ofNat ((high.toNat * 2 ^ 64 + low.toNat) / divisor.toNat)) := by
  have hlt' : high.toNat < divisor.toNat := UInt64.lt_iff_toNat_lt.mp hlt
  have hne : divisor ≠ 0 := by
    rintro rfl
    exact Nat.not_lt_zero _ hlt'
  rw [divU128U64]
  split
  · next hz =>
    rw [divU64_eq hne, hz, UInt64.toNat_zero, Nat.zero_mul, Nat.zero_add]
    refine congrArg _ (UInt64.toNat_inj.mp ?_)
    rw [UInt64.toNat_div, UInt64.toNat_ofNat_of_lt' ((Nat.div_le_self _ _).trans_lt low.toNat_lt)]
  · split
    · exact divU128U64Int128_eq hne
    · next hint =>
      split
      · rw [udiv128, if_neg (UInt64.not_le.mpr hlt)]
      · next hudiv =>
        rcases hd with hd | hd | hd
        · exact absurd hd hint
        · exact absurd hd hudiv
        · rw [divU128U64Fallback_exact hlt hd]

theorem u64MulDivU64_exact {a b d : UInt64} (hq : a.toNat * b.toNat < 2 ^ 64 * d.toNat)
    (hmul : T.hasInt128 = true ∨ T.hasUmul128 = true ∨ middleSum a.toNat b.toNat < 2 ^ 64)
    (hdiv : T.hasInt128 = true ∨ T.hasUdiv128 = true ∨ d.toNat ≤ 2 ^ 63) :
    u64MulDivU64 T a b d = .ok (.ofNat (a.toNat * b.toNat / d.toNat)) := by
  have hwords := mulU64U64_exact T hmul
  have hhigh : (mulU64U64 T a b).1 < d := by
    rw [UInt64.lt_iff_toNat_lt]
    omega
  rw [u64MulDivU64, ← hwords]
  exact divU128U64_exact T hhigh hdiv

theorem u64MulDivU64_fraction (n : UInt64) {a b : UInt64} (hab : a < b)
    (hb : b.toNat < 2 ^ 32) :
    u64MulDivU64 T n a b = .ok (.ofNat (n.toNat * a.toNat / b.toNat)) := by
  have hab' : a.toNat < b.toNat := UInt64.lt_iff_toNat_lt.mp hab
  exact u64MulDivU64_exact T (Nat.mul_lt_mul'' n.toNat_lt hab')
    (.inr (.inr (middleSum_lt_of_small n.toNat_lt (by omega)))) (.inr (.inr (by omega)))

theorem u64MulDivU64_ok {a b d : UInt64} (hd : a.toNat * b.toNat < 2 ^ 64 * d.toNat) :
    ∃ q, u64MulDivU64 T a b d = .ok q := by
  have hne : d ≠ 0 := by
    rintro rfl
    simp at hd
  simp only [u64MulDivU64, divU128U64]
  split
  · exact ⟨_, divU64_eq hne⟩
  · split
    · exact ⟨_, divU128U64Int128_eq hne⟩
    · split
      · next hudiv =>
        have hmul := mulU64U64_exact T (a := a) (b := b)
          (.inr (.inl (T.hasUmul128_of_hasUdiv128 hudiv)))
        refine ⟨_, if_neg (UInt64.not_le.mpr ?_)⟩
        rw [UInt64.lt_iff_toNat_lt]
        omega
      · exact ⟨_, rfl⟩

end Divide

end P99.Portable
