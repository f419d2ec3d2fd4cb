import Atlantide.Lang.Costs
import Mathlib.Analysis.SpecialFunctions.Log.Base
import Mathlib.Data.Int.Bitwise

/-! # Integer results and their bound

The price of an operation on two integers is a bound on the bits of its result, worked out before
the operation is. For every operator but the power the bound holds whatever the signs. The bound of
a power is a product of floats: it is missing where the product is too large for a float, and it is
a bit short where a power of two lies just below the result and dividing its exponent by the power's
and multiplying again falls short. -/

namespace Atlantide.Lang

open Binary

variable {A X H N : Type}

/-- What an operation on integers gives, where that is an integer: a division is a float, as a power
is whose exponent is negative, and a division by zero and a negative shift raise. -/
def intResult (op : Operator) (left right : Int) : Option Int :=
  match op with
  | .add => some (left + right)
  | .sub => some (left - right)
  | .mult => some (left * right)
  | .floorDiv => if right = 0 then none else some (left.fdiv right)
  | .mod => if right = 0 then none else some (left.fmod right)
  | .pow => if right < 0 then none else some (left ^ right.toNat)
  | .lShift => if right < 0 then none else some (left * 2 ^ right.toNat)
  | .rShift => if right < 0 then none else some (left >>> right.toNat)
  | .bitOr => some (left.lor right)
  | .bitXor => some (left.xor right)
  | .bitAnd => some (left.land right)
  | .div | .matMult => none

/-- An operation on integers is priced or refused for want of fuel, and the result of one that is
priced stays within the bound. -/
structure WithinBound (runtime : Runtime A X H N) (op : Operator) (look : Value A → Shape A)
    (left right : Value A) (leftInt rightInt : Int) : Prop where
  bounded : ∀ cost result, binopCost runtime look op left right = .ok cost →
    intResult op leftInt rightInt = some result →
      ∃ bits, intResultBits runtime.log2 op leftInt rightInt = some bits ∧
        bitLength result ≤ bits ∧ bits ≤ maxIntBits
  priced : ∀ failure, binopCost runtime look op left right = .error failure → failure = .exhausted

/-! ## Bit lengths -/

theorem bitLength_le_iff {value : Int} {bits : Nat} :
    bitLength value ≤ bits ↔ value.natAbs < 2 ^ bits := by
  unfold bitLength
  split
  · rename_i hzero
    simp [hzero]
  · rename_i hzero
    rw [Nat.succ_le_iff, Nat.log2_lt (Int.natAbs_ne_zero.mpr hzero)]

theorem natAbs_lt_bitLength (value : Int) : value.natAbs < 2 ^ bitLength value :=
  bitLength_le_iff.mp le_rfl

theorem natAbs_lt_max (left right : Int) :
    left.natAbs < 2 ^ max (bitLength left) (bitLength right) ∧
      right.natAbs < 2 ^ max (bitLength left) (bitLength right) :=
  ⟨bitLength_le_iff.mp (le_max_left _ _), bitLength_le_iff.mp (le_max_right _ _)⟩

/-- What is written of an integer in two's complement, the sign aside. -/
def payload : Int → Nat
  | .ofNat magnitude => magnitude
  | .negSucc magnitude => magnitude

theorem payload_le (value : Int) : payload value ≤ value.natAbs := by
  cases value with
  | ofNat magnitude => exact le_rfl
  | negSucc magnitude => exact Nat.le_succ magnitude

theorem natAbs_le_payload (value : Int) : value.natAbs ≤ payload value + 1 := by
  cases value with
  | ofNat magnitude => exact Nat.le_succ magnitude
  | negSucc magnitude => exact le_rfl

section Bitwise

variable {left right : Int} {bits : Nat}

theorem ldiff_lt_two_pow {value : Nat} (other : Nat) (hvalue : value < 2 ^ bits) :
    Nat.ldiff value other < 2 ^ bits := by
  refine Nat.lt_pow_two_of_testBit _ fun place hplace => ?_
  have hbit : value.testBit place = false :=
    Nat.testBit_eq_false_of_lt (hvalue.trans_le (Nat.pow_le_pow_right two_pos hplace))
  rw [Nat.testBit_ldiff, hbit, Bool.false_and]

theorem payload_land (hleft : payload left < 2 ^ bits) (hright : payload right < 2 ^ bits) :
    payload (left.land right) < 2 ^ bits := by
  cases left <;> cases right <;> simp only [Int.land, payload] at hleft hright ⊢
  · exact Nat.and_lt_two_pow _ hright
  · exact ldiff_lt_two_pow _ hleft
  · exact ldiff_lt_two_pow _ hright
  · exact Nat.or_lt_two_pow hleft hright

theorem payload_lor (hleft : payload left < 2 ^ bits) (hright : payload right < 2 ^ bits) :
    payload (left.lor right) < 2 ^ bits := by
  cases left <;> cases right <;> simp only [Int.lor, payload] at hleft hright ⊢
  · exact Nat.or_lt_two_pow hleft hright
  · exact ldiff_lt_two_pow _ hright
  · exact ldiff_lt_two_pow _ hleft
  · exact Nat.and_lt_two_pow _ hright

theorem payload_xor (hleft : payload left < 2 ^ bits) (hright : payload right < 2 ^ bits) :
    payload (left.xor right) < 2 ^ bits := by
  cases left <;> cases right <;> simp only [Int.xor, payload] at hleft hright ⊢
  all_goals exact Nat.xor_lt_two_pow hleft hright

end Bitwise

theorem natAbs_fmod_lt (left : Int) {right : Int} (hzero : right ≠ 0) :
    (left.fmod right).natAbs < right.natAbs := by
  rcases lt_or_gt_of_ne hzero with hneg | hpos
  · have hnonneg := Int.fmod_nonneg_of_pos (-left) (neg_pos.mpr hneg)
    have hlt := Int.fmod_lt_of_pos (-left) (neg_pos.mpr hneg)
    rw [Int.neg_fmod_neg] at hnonneg hlt
    omega
  · have hnonneg := Int.fmod_nonneg_of_pos left hpos
    have hlt := Int.fmod_lt_of_pos left hpos
    omega

/-- **The bound of every operator but the power.** -/
theorem bitLength_intResult_le {log2 : Nat → Double} {op : Operator} {left right result : Int}
    {bits : Nat} (hop : op ≠ .pow) (hresult : intResult op left right = some result)
    (hbits : intResultBits log2 op left right = some bits) : bitLength result ≤ bits := by
  rw [bitLength_le_iff]
  obtain ⟨hleft, hright⟩ := natAbs_lt_max left right
  have hdouble : (2 : Nat) ^ (max (bitLength left) (bitLength right) + 1) =
      2 ^ max (bitLength left) (bitLength right) + 2 ^ max (bitLength left) (bitLength right) := by
    rw [pow_succ, mul_two]
  have hpayload {value : Int}
      (hvalue : payload value < 2 ^ max (bitLength left) (bitLength right)) :
      value.natAbs < 2 ^ (max (bitLength left) (bitLength right) + 1) := by
    have hnatAbs := natAbs_le_payload value
    omega
  have hpayloads :=
    And.intro ((payload_le left).trans_lt hleft) ((payload_le right).trans_lt hright)
  cases op with
  | add =>
    cases hresult
    cases hbits
    rw [hdouble]
    omega
  | sub =>
    cases hresult
    cases hbits
    rw [hdouble]
    omega
  | mult =>
    cases hresult
    cases hbits
    rw [Int.natAbs_mul, pow_add]
    exact Nat.mul_lt_mul'' (natAbs_lt_bitLength left) (natAbs_lt_bitLength right)
  | matMult => cases hresult
  | div => cases hresult
  | mod =>
    cases hbits
    simp only [intResult] at hresult
    split_ifs at hresult with hzero
    cases hresult
    exact (natAbs_fmod_lt left hzero).trans hright
  | pow => exact absurd rfl hop
  | lShift =>
    cases hbits
    simp only [intResult] at hresult
    split_ifs at hresult with hneg
    cases hresult
    rw [Int.natAbs_mul, pow_add, Int.natAbs_pow]
    exact Nat.mul_lt_mul_of_pos_right (natAbs_lt_bitLength left) (Nat.two_pow_pos _)
  | rShift =>
    cases hbits
    simp only [intResult] at hresult
    split_ifs at hresult with hneg
    cases hresult
    refine lt_of_le_of_lt ?_ hleft
    rw [Int.shiftRight_eq_div_pow]
    exact Int.natAbs_ediv_le_natAbs left _
  | bitOr =>
    cases hresult
    cases hbits
    exact hpayload (payload_lor hpayloads.1 hpayloads.2)
  | bitXor =>
    cases hresult
    cases hbits
    exact hpayload (payload_xor hpayloads.1 hpayloads.2)
  | bitAnd =>
    cases hresult
    cases hbits
    exact hpayload (payload_land hpayloads.1 hpayloads.2)
  | floorDiv =>
    cases hbits
    simp only [intResult] at hresult
    split_ifs at hresult with hzero
    cases hresult
    exact (Int.natAbs_fdiv_le_natAbs left right).trans_lt hleft

/-! ## Powers -/

/-- The exponent as a float times the logarithm is no larger than the largest float. -/
def InRange (log2 : Nat → Double) (base exponent : Nat) (hpos : 0 < exponent) : Prop :=
  (Normal.ofNat 52 exponent hpos).toReal * (log2 base).toReal <
    (2 ^ 1024 - 2 ^ 970 : Nat)

/-- `bits / exponent`, as a float. -/
def quotient (bits exponent : Nat) (hbits : 0 < bits) (hpos : 0 < exponent) : Double :=
  ofRat 52 (bits / exponent) (div_pos (Nat.cast_pos.mpr hbits) (Nat.cast_pos.mpr hpos))

/-- The power is `2 ** bits` at least, with a base whose logarithm is the float `bits / exponent`,
and this quotient times the exponent is less than `bits`. -/
def FallsShort (log2 : Nat → Double) (base exponent : Nat) (hpos : 0 < exponent) : Prop :=
  ∃ (bits : Nat) (hbits : 0 < bits), bits ≤ maxIntBits ∧ 2 ^ bits ≤ base ^ exponent ∧
    log2 base = quotient bits exponent hbits hpos ∧
    ((Normal.ofNat 52 exponent hpos).mul (quotient bits exponent hbits hpos)).toReal < bits

/-- `math.log2` is within half a unit in the last place. -/
def Log2Nearest (log2 : Nat → Double) : Prop :=
  ∀ base : Nat, 2 ≤ base → Nearest (Real.logb (2 : Nat) base) (log2 base)

section Power

variable {log2 : Nat → Double} {base exponent : Nat} {hpos : 0 < exponent}

theorem two_pow_le_pow_iff (hbase : 2 ≤ base) {bits : Nat} :
    2 ^ bits ≤ base ^ exponent ↔ (bits : ℝ) ≤ exponent * Real.logb 2 base := by
  have hcast : (0 : ℝ) < (base : ℝ) ^ exponent := by positivity
  rw [← Real.logb_pow, Real.le_logb_iff_rpow_le one_lt_two hcast, Real.rpow_natCast]
  exact_mod_cast Iff.rfl

theorem one_le_logb (hbase : 2 ≤ base) : 1 ≤ Real.logb 2 base := by
  rw [Real.le_logb_iff_rpow_le one_lt_two (by positivity), Real.rpow_one]
  exact_mod_cast hbase

theorem Log2Nearest.nearest (hlog : Log2Nearest log2) (hbase : 2 ≤ base) :
    Nearest (Real.logb 2 base) (log2 base) := by
  have hnearest := hlog base hbase
  rwa [Nat.cast_ofNat] at hnearest

theorem inRange_iff : InRange log2 base exponent hpos ↔
    (Normal.ofNat 52 exponent hpos).toReal * (log2 base).toReal < 2 ^ 1024 - 2 ^ 970 := by
  have hcast {low high : Nat} (hle : low ≤ high) :
      ((2 ^ high - 2 ^ low : Nat) : ℝ) = 2 ^ high - 2 ^ low := by
    rw [Nat.cast_sub (Nat.pow_le_pow_right two_pos hle), Nat.cast_pow, Nat.cast_pow,
      Nat.cast_ofNat]
  rw [InRange, hcast (by decide)]

theorem one_le_log2 (hlog : Log2Nearest log2) (hbase : 2 ≤ base) : 1 ≤ (log2 base).toReal := by
  obtain ⟨one, hone⟩ := exists_toReal_natCast 52 one_pos (by norm_num)
  rw [Nat.cast_one] at hone
  rw [← hone]
  exact (hlog.nearest hbase).le_of_le (hone.trans_le (one_le_logb hbase))

theorem exponent_le_maxExponent_iff {x : ℝ} {number : Double} (hrounds : Rounds x number) :
    number.exponent ≤ maxExponent ↔ x < 2 ^ 1024 - 2 ^ 970 := by
  have hend : (2 : ℝ) ^ (52 + 1) * 2 ^ maxExponent - 2 ^ maxExponent / 2 = 2 ^ 1024 - 2 ^ 970 := by
    have hcast : (2 : ℝ) ^ maxExponent = 2 ^ 971 := zpow_natCast 2 971
    rw [hcast, ← pow_add, pow_succ (2 : ℝ) 970, mul_div_assoc, div_self two_ne_zero, mul_one]
  rw [hrounds.exponent_le_iff, hend]

/-- The first power of two past the largest float. -/
theorem toReal_past_maxExponent : (Normal.past 52 maxExponent).toReal = 2 ^ 1024 := by
  have hcast : (2 : ℝ) ^ maxExponent = 2 ^ 971 := zpow_natCast 2 971
  rw [Normal.toReal_past, hcast, ← pow_add]

theorem not_inRange_of_two_pow_le (hlog : Log2Nearest log2) (hbase : 2 ≤ base)
    (hend : 2 ^ 1024 ≤ (Normal.ofNat 52 exponent hpos).toReal) :
    ¬ InRange log2 base exponent hpos := by
  intro hrange
  have hle := le_mul_of_one_le_right (Normal.ofNat 52 exponent hpos).toReal_pos.le
    (one_le_log2 hlog hbase)
  have hhalf : (0 : ℝ) < 2 ^ 970 := by positivity
  exact absurd (hend.trans hle) (not_le.mpr ((inRange_iff.mp hrange).trans (sub_lt_self _ hhalf)))

/-- An exponent this large is no float itself. -/
theorem not_inRange_of_le (hlog : Log2Nearest log2) (hbase : 2 ≤ base)
    (hend : 2 ^ 1024 ≤ exponent) : ¬ InRange log2 base exponent hpos := by
  have hcast : (2 : ℝ) ^ 1024 ≤ exponent := by exact_mod_cast hend
  have hnearest := (rounds_ofNat (by norm_num : 0 < 52) hpos).nearest
  refine not_inRange_of_two_pow_le hlog hbase ?_
  rw [← toReal_past_maxExponent]
  exact hnearest.le_of_le (toReal_past_maxExponent.trans_le hcast)

theorem powBits_eq_none_iff (hlog : Log2Nearest log2) (hbase : 2 ≤ base) :
    powBits log2 base exponent hpos = none ↔ ¬ InRange log2 base exponent hpos := by
  have hproduct := exponent_le_maxExponent_iff
    (rounds_mul (by norm_num) (Normal.ofNat 52 exponent hpos) (log2 base))
  rw [← inRange_iff] at hproduct
  have hfactor : InRange log2 base exponent hpos →
      (Normal.ofNat 52 exponent hpos).exponent ≤ maxExponent := by
    intro hrange
    by_contra! hlarge
    refine not_inRange_of_two_pow_le hlog hbase ?_ hrange
    exact toReal_past_maxExponent.ge.trans (Normal.toReal_past_le hlarge)
  unfold powBits
  dsimp only
  split_ifs with hwide hlong
  · simp only [true_iff]
    exact fun hrange => absurd (hfactor hrange) (not_le.mpr hwide)
  · simp only [true_iff]
    exact fun hrange => absurd (hproduct.mpr hrange) (not_le.mpr hlong)
  · simp only [false_iff, not_not]
    exact hproduct.mp (not_lt.mp hlong)

/-- Below the largest bound the exponent is small, and exact as a float. -/
theorem toReal_ofNat_of_lt (hlog : Log2Nearest log2) (hbase : 2 ≤ base) {bits : Nat}
    (hmax : bits ≤ maxIntBits)
    (hshort : ((Normal.ofNat 52 exponent hpos).mul (log2 base)).toReal < bits) :
    (Normal.ofNat 52 exponent hpos).toReal = exponent := by
  have hfactor := (rounds_ofNat (by norm_num : 0 < 52) hpos).nearest
  have hproduct := (rounds_mul (by norm_num) (Normal.ofNat 52 exponent hpos) (log2 base)).nearest
  have hsmall : exponent < maxIntBits := by
    by_contra! hlarge
    obtain ⟨largest, hlargest⟩ :=
      exists_toReal_natCast 52 (by decide : 0 < maxIntBits) (by decide)
    have hwhole : (maxIntBits : ℝ) ≤ (Normal.ofNat 52 exponent hpos).toReal := by
      rw [← hlargest]
      refine hfactor.le_of_le (hlargest.trans_le ?_)
      exact_mod_cast hlarge
    have hle := le_mul_of_one_le_right (Normal.ofNat 52 exponent hpos).toReal_pos.le
      (one_le_log2 hlog hbase)
    have hreached := hproduct.le_of_le (hlargest.trans_le (hwhole.trans hle))
    have hcast : (bits : ℝ) ≤ maxIntBits := by exact_mod_cast hmax
    linarith
  exact toReal_ofNat (by norm_num) hpos (hsmall.trans (by decide : maxIntBits < 2 ^ (52 + 1)))

/-- A base whose power is a power of two is one itself. -/
theorem exists_logb_eq (hbase : 2 ≤ base) (hpos : 0 < exponent) {bits : Nat}
    (hexact : exponent * Real.logb 2 base = bits) :
    ∃ whole : Nat, whole ≤ bits ∧ Real.logb 2 base = whole := by
  have hpower : base ^ exponent = 2 ^ bits := by
    have hreal : (base : ℝ) ^ exponent = 2 ^ bits := by
      rw [← Real.rpow_natCast 2 bits, ← hexact, ← Real.logb_pow,
        Real.rpow_logb two_pos (by norm_num) (by positivity)]
    exact_mod_cast hreal
  obtain ⟨whole, hle, hwhole⟩ := (Nat.dvd_prime_pow Nat.prime_two).mp
    (hpower ▸ dvd_pow_self base hpos.ne')
  refine ⟨whole, hle, ?_⟩
  rw [hwhole, Nat.cast_pow, Nat.cast_ofNat, Real.logb_pow, Real.logb_self_eq_one one_lt_two,
    mul_one]

theorem nearest_quotient {bits : Nat} (hbits : 0 < bits) :
    Nearest ((bits : ℝ) / exponent) (quotient bits exponent hbits hpos) := by
  have hrounds := rounds_ofRat (by norm_num : 0 < 52) ((bits : ℚ) / exponent)
    (div_pos (Nat.cast_pos.mpr hbits) (Nat.cast_pos.mpr hpos))
  have hcast := hrounds.nearest
  push_cast at hcast
  exact hcast

/-- Where the product falls short of a power of two below the result, the logarithm lies past the
quotient of the exponents and its float below, so that there is none between them. -/
theorem log2_eq_quotient (hlog : Log2Nearest log2) (hbase : 2 ≤ base) {bits : Nat}
    (hbits : 0 < bits) (hmax : bits ≤ maxIntBits) (hpower : 2 ^ bits ≤ base ^ exponent)
    (hshort : ((Normal.ofNat 52 exponent hpos).mul (log2 base)).toReal < bits) :
    log2 base = quotient bits exponent hbits hpos := by
  have hexponent : (0 : ℝ) < exponent := Nat.cast_pos.mpr hpos
  have hnearest := hlog.nearest hbase
  have hproduct := (rounds_mul (by norm_num) (Normal.ofNat 52 exponent hpos) (log2 base)).nearest
  have hexact := toReal_ofNat_of_lt hlog hbase hmax hshort
  have hrepresented {n : Nat} (hn : 0 < n) (hle : n ≤ bits) :
      ∃ number : Double, number.toReal = n :=
    exists_toReal_natCast 52 hn ((hle.trans hmax).trans_lt (by decide))
  have hbelow : (log2 base).toReal < bits / exponent := by
    obtain ⟨number, hnumber⟩ := hrepresented hbits le_rfl
    rw [lt_div_iff₀ hexponent, mul_comm]
    by_contra! hreached
    have hle := hproduct.le_of_le (hnumber.trans_le (hexact ▸ hreached))
    linarith
  have hlogb : (bits : ℝ) / exponent ≤ Real.logb 2 base := by
    rw [div_le_iff₀ hexponent, mul_comm]
    exact (two_pow_le_pow_iff hbase).mp hpower
  rcases hlogb.lt_or_eq with hlt | heq
  · exact (hnearest.eq_of_between hbelow hlt (nearest_quotient hbits)).symm
  · -- Then the logarithm is a whole number, and exact.
    have hwhole : (exponent : ℝ) * Real.logb 2 base = bits := by
      rw [← heq, mul_div_cancel₀ _ hexponent.ne']
    obtain ⟨whole, hle, hwhole⟩ := exists_logb_eq hbase hpos hwhole
    have hone := one_le_logb hbase
    rw [hwhole] at hone hnearest heq
    obtain ⟨number, hnumber⟩ := hrepresented (by exact_mod_cast hone) hle
    rw [← hnumber] at hnearest
    rw [hnearest.eq_of_toReal, hnumber] at hbelow
    linarith

theorem fallsShort_of_lt (hlog : Log2Nearest log2) (hbase : 2 ≤ base) {bits : Nat}
    (hbits : 0 < bits) (hmax : bits ≤ maxIntBits) (hpower : 2 ^ bits ≤ base ^ exponent)
    (hshort : ((Normal.ofNat 52 exponent hpos).mul (log2 base)).toReal < bits) :
    FallsShort log2 base exponent hpos := by
  have hquotient := log2_eq_quotient hlog hbase hbits hmax hpower hshort
  exact ⟨bits, hbits, hmax, hpower, hquotient, hquotient ▸ hshort⟩

theorem fallsShort_iff (hlog : Log2Nearest log2) (hbase : 2 ≤ base) {bits : Nat}
    (hbits : powBits log2 base exponent hpos = some bits) :
    FallsShort log2 base exponent hpos ↔ bits ≤ maxIntBits ∧ 2 ^ bits ≤ base ^ exponent := by
  have hfloor : bits = ((Normal.ofNat 52 exponent hpos).mul (log2 base)).floor + 1 := by
    unfold powBits at hbits
    dsimp only at hbits
    split_ifs at hbits
    exact (Option.some.inj hbits).symm
  constructor
  · rintro ⟨reached, hreached, hmax, hpower, hquotient, hshort⟩
    rw [← hquotient] at hshort
    have hless : bits ≤ reached := by
      by_contra! hmore
      have hle : reached ≤ ((Normal.ofNat 52 exponent hpos).mul (log2 base)).floor := by omega
      exact absurd hshort (not_lt.mpr (Normal.le_floor_iff.mp hle))
    exact ⟨hless.trans hmax, (Nat.pow_le_pow_right two_pos hless).trans hpower⟩
  · rintro ⟨hmax, hpower⟩
    have hshort : ((Normal.ofNat 52 exponent hpos).mul (log2 base)).toReal < bits := by
      by_contra! hmore
      have hle := Normal.le_floor_iff.mpr hmore
      omega
    exact fallsShort_of_lt hlog hbase (by omega) hmax hpower hshort

end Power

section Result

variable {runtime : Runtime A X H N} {look : Value A → Shape A} {left right : Value A}
  {leftInt rightInt : Int}

theorem binopCost_int (op : Operator) (hleft : look left = .int leftInt)
    (hright : look right = .int rightInt) :
    binopCost runtime look op left right =
      match intResultBits runtime.log2 op leftInt rightInt with
      | none => .error (.native runtime.overflow)
      | some bits => if maxIntBits < bits then .error .exhausted else .ok (bits / 64) := by
  cases hbits : intResultBits runtime.log2 op leftInt rightInt with
  | none => simp only [binopCost, hleft, hright, hbits]
  | some bits => simp only [binopCost, hleft, hright, hbits]

/-- A bound there is, and no result that it admits is past it. -/
theorem withinBound_iff (op : Operator) (hleft : look left = .int leftInt)
    (hright : look right = .int rightInt) :
    WithinBound runtime op look left right leftInt rightInt ↔
      ∃ bits, intResultBits runtime.log2 op leftInt rightInt = some bits ∧
        (bits ≤ maxIntBits → ∀ result, intResult op leftInt rightInt = some result →
          bitLength result ≤ bits) := by
  have hcost : binopCost runtime look op left right = _ := binopCost_int op hleft hright
  constructor
  · rintro ⟨hbounded, hpriced⟩
    cases hbits : intResultBits runtime.log2 op leftInt rightInt with
    | none =>
      rw [hbits] at hcost
      cases hpriced _ hcost
    | some bits =>
      refine ⟨bits, rfl, fun hmax result hresult => ?_⟩
      rw [hbits] at hcost
      dsimp only at hcost
      rw [if_neg (not_lt.mpr hmax)] at hcost
      obtain ⟨other, hother, hle, -⟩ := hbounded _ result hcost hresult
      rw [hbits] at hother
      cases hother
      exact hle
  · rintro ⟨bits, hbits, hle⟩
    rw [hbits] at hcost
    dsimp only at hcost
    constructor
    · intro cost result hpaid hresult
      have hmax : bits ≤ maxIntBits := by
        by_contra! hover
        rw [hcost, if_pos hover] at hpaid
        cases hpaid
      exact ⟨bits, hbits, hle hmax result hresult, hmax⟩
    · intro failure hfailed
      rw [hcost] at hfailed
      split_ifs at hfailed
      cases hfailed
      rfl

theorem bitLength_pow_le_one {result : Int} (hsmall : rightInt ≤ 0 ∨ leftInt.natAbs ≤ 1)
    (hresult : intResult .pow leftInt rightInt = some result) : bitLength result ≤ 1 := by
  rw [bitLength_le_iff]
  simp only [intResult] at hresult
  split_ifs at hresult with hneg
  cases hresult
  rw [Int.natAbs_pow]
  rcases hsmall with hright | hleft
  · have hzero : rightInt.toNat = 0 := by omega
    rw [hzero, pow_zero]
    decide
  · exact (pow_le_one₀ (Nat.zero_le _) hleft).trans_lt (by decide)

/-- A power has its bound unless its estimate is no float or falls short. -/
theorem pow_bounded_iff {log2 : Nat → Double} (hlog : Log2Nearest log2)
    (hbase : 2 ≤ leftInt.natAbs) {exponent : Nat} (hpos : 0 < exponent) :
    (∃ bits, intResultBits log2 .pow leftInt exponent = some bits ∧
      (bits ≤ maxIntBits → ∀ result, intResult .pow leftInt exponent = some result →
        bitLength result ≤ bits)) ↔
      InRange log2 leftInt.natAbs exponent hpos ∧
        ¬ FallsShort log2 leftInt.natAbs exponent hpos := by
  have hbits : intResultBits log2 .pow leftInt exponent =
      powBits log2 leftInt.natAbs exponent hpos := by
    simp only [intResultBits]
    rw [dif_neg (by omega)]
    simp only [Int.toNat_natCast]
  have hresult : intResult .pow leftInt exponent = some (leftInt ^ exponent) := by
    simp [intResult]
  have hlength {bits : Nat} : bitLength (leftInt ^ exponent) ≤ bits ↔
      ¬ 2 ^ bits ≤ leftInt.natAbs ^ exponent := by
    rw [bitLength_le_iff, Int.natAbs_pow, not_le]
  have hnone : powBits log2 leftInt.natAbs exponent hpos = none ↔ _ :=
    powBits_eq_none_iff hlog hbase
  rw [hbits]
  constructor
  · rintro ⟨bits, hsome, hle⟩
    refine ⟨?_, fun hshort => ?_⟩
    · by_contra hrange
      rw [hnone.mpr hrange] at hsome
      cases hsome
    · obtain ⟨hmax, hpower⟩ := (fallsShort_iff hlog hbase hsome).mp hshort
      exact hlength.mp (hle hmax _ hresult) hpower
  · rintro ⟨hrange, hshort⟩
    cases hsome : powBits log2 leftInt.natAbs exponent hpos with
    | none => exact absurd hrange (hnone.mp hsome)
    | some bits =>
      refine ⟨bits, rfl, fun hmax result hgiven => ?_⟩
      rw [hresult] at hgiven
      cases hgiven
      rw [hlength]
      exact fun hpower => hshort ((fallsShort_iff hlog hbase hsome).mpr ⟨hmax, hpower⟩)

/-- **Integer results stay within the bound** but for powers whose estimate is no float or falls
short. -/
theorem int_results_bounded (hlog : Log2Nearest runtime.log2) (op : Operator)
    (hleft : look left = .int leftInt) (hright : look right = .int rightInt) :
    WithinBound runtime op look left right leftInt rightInt ↔
      (op = .pow → 2 ≤ leftInt.natAbs → ∀ (exponent : Nat) (hpos : 0 < exponent),
        rightInt = exponent → InRange runtime.log2 leftInt.natAbs exponent hpos ∧
          ¬ FallsShort runtime.log2 leftInt.natAbs exponent hpos) := by
  rw [withinBound_iff op hleft hright]
  by_cases hop : op = .pow
  · subst hop
    by_cases hsmall : rightInt ≤ 0 ∨ leftInt.natAbs ≤ 1
    · have hbits : intResultBits runtime.log2 .pow leftInt rightInt = some 1 := dif_pos hsmall
      have hbound : ∃ bits, intResultBits runtime.log2 .pow leftInt rightInt = some bits ∧
          (bits ≤ maxIntBits → ∀ result, intResult .pow leftInt rightInt = some result →
            bitLength result ≤ bits) :=
        ⟨1, hbits, fun _ result hresult => bitLength_pow_le_one hsmall hresult⟩
      refine iff_of_true hbound fun _ hbase exponent hpos hexponent => ?_
      omega
    · push Not at hsmall
      obtain ⟨hpositive, hbase⟩ := hsmall
      obtain ⟨exponent, rfl⟩ := Int.eq_ofNat_of_zero_le hpositive.le
      rw [pow_bounded_iff hlog hbase (Int.natCast_pos.mp hpositive)]
      constructor
      · rintro hcondition - - other hother hexponent
        cases Int.ofNat_inj.mp hexponent
        exact hcondition
      · exact fun hcondition => hcondition rfl hbase exponent _ rfl
  · have hbound : ∃ bits, intResultBits runtime.log2 op leftInt rightInt = some bits ∧
        (bits ≤ maxIntBits → ∀ result, intResult op leftInt rightInt = some result →
          bitLength result ≤ bits) := by
      obtain ⟨bits, hbits⟩ :
          ∃ bits, intResultBits runtime.log2 op leftInt rightInt = some bits := by
        cases op <;> first | exact ⟨_, rfl⟩ | exact absurd rfl hop
      exact ⟨bits, hbits, fun _ result hresult => bitLength_intResult_le hop hresult hbits⟩
    exact iff_of_true hbound fun heq => absurd heq hop

end Result

/-! ## Three powers -/

namespace Nearly

theorem logb_pos {base : Nat} (hbase : 2 ≤ base) : 0 < Real.logb (2 : Nat) base := by
  rw [Nat.cast_ofNat]
  exact zero_lt_one.trans_le (one_le_logb hbase)

/-- The floats that are nearest to the logarithms. -/
noncomputable def log2 (base : Nat) : Double :=
  if hbase : 2 ≤ base then Classical.choose (exists_nearest 52 (logb_pos hbase)) else .one 52

theorem log2_nearest : Log2Nearest log2 := by
  intro base hbase
  rw [log2, dif_pos hbase]
  exact Classical.choose_spec (exists_nearest 52 (logb_pos hbase))

/-- Objects are integers. -/
noncomputable def python : Runtime Int Unit Unit Unit where
  literal _ := .obj 0
  shape _ value := match value with
    | .obj number => .int number
    | _ => .leaf .unsized
  callee _ _ := {}
  truth _ _ := .ok true
  item _ := none
  isNone _ := false
  attributeAllowed _ _ _ := false
  unreachable _ _ := false
  envSchema _ := false
  prim _ _ := ()
  exit _ _ := ()
  call _ _ _ := ()
  step _ heap := .done (.error (.native ())) heap
  importAllowed _ := false
  attributeRejected _ := false
  log2 := log2
  overflow := ()
  printfWidths _ _ := 0

section Seventh

/-- Its seventh power is a little more than `2 ** 453`. -/
def base : Nat := 30265032733776620455

theorem two_le_base : 2 ≤ base := by decide

theorem two_pow_le : 2 ^ 453 ≤ base ^ 7 := by decide +kernel

theorem logb_base_ge : 453 ≤ 7 * Real.logb 2 base := by
  exact_mod_cast (two_pow_le_pow_iff two_le_base).mp two_pow_le

theorem logb_one_add_le {x : ℝ} (hx : 0 ≤ x) : Real.logb 2 (1 + x) ≤ 2 * x := by
  have hlog : Real.log (1 + x) ≤ x := by
    have hle := Real.log_le_sub_one_of_pos (by linarith : 0 < 1 + x)
    linarith
  have htwo : 1 / 2 ≤ Real.log 2 := by
    have hle := Real.one_sub_inv_le_log_of_pos (two_pos : (0 : ℝ) < 2)
    linarith
  rw [Real.logb, div_le_iff₀ (by linarith)]
  calc Real.log (1 + x) ≤ x := hlog
    _ = 2 * x * (1 / 2) := by ring
    _ ≤ 2 * x * Real.log 2 := by gcongr

theorem logb_base_le : 7 * Real.logb 2 base ≤ 453 + 2 * (1 / 2 ^ 60) := by
  have hpower : (base : ℝ) ^ 7 ≤ 2 ^ 453 * (1 + 1 / 2 ^ 60) := by
    have hwhole : base ^ 7 * 2 ^ 60 ≤ 2 ^ 453 * (2 ^ 60 + 1) := by decide +kernel
    have hcast : (base : ℝ) ^ 7 * 2 ^ 60 ≤ 2 ^ 453 * (2 ^ 60 + 1) := by exact_mod_cast hwhole
    rw [← mul_le_mul_iff_left₀ (by positivity : (0 : ℝ) < 2 ^ 60)]
    calc (base : ℝ) ^ 7 * 2 ^ 60 ≤ 2 ^ 453 * (2 ^ 60 + 1) := hcast
      _ = 2 ^ 453 * (1 + 1 / 2 ^ 60) * 2 ^ 60 := by
        field_simp
  have hbase : (0 : ℝ) < base := by
    exact_mod_cast zero_lt_two.trans_le two_le_base
  have hone : (0 : ℝ) ≤ 1 / 2 ^ 60 := by positivity
  calc 7 * Real.logb 2 base = Real.logb 2 (base ^ 7) := by
        rw [Real.logb_pow]
        norm_num
    _ ≤ Real.logb 2 (2 ^ 453 * (1 + 1 / 2 ^ 60)) :=
        Real.logb_le_logb_of_le one_lt_two (by positivity) hpower
    _ = 453 + Real.logb 2 (1 + 1 / 2 ^ 60) := by
        rw [Real.logb_mul (by positivity) (by positivity), Real.logb_pow,
          Real.logb_self_eq_one one_lt_two, mul_one, Nat.cast_ofNat]
    _ ≤ 453 + 2 * (1 / 2 ^ 60) := by
        gcongr
        exact logb_one_add_le hone

/-- `453 / 7`, as a float. -/
def estimate : Double := ⟨4553863016068827, -46, by norm_num, by norm_num⟩

theorem toReal_estimate : estimate.toReal = (4553863016068827 : ℤ) * 2 ^ (-46 : ℤ) := by
  rw [Normal.toReal, estimate]
  norm_num

theorem log2_base : log2 base = estimate := by
  have hge := logb_base_ge
  have hle := logb_base_le
  have hscaled : Real.logb 2 base = Real.logb 2 base * 2 ^ 46 * 2 ^ (-46 : ℤ) := by
    rw [zpow_neg, mul_assoc]
    norm_num
  have hnearest := log2_nearest.nearest two_le_base
  rw [hscaled] at hnearest
  refine hnearest.eq_of_lt_half (-46) ?_ ?_ toReal_estimate
  · norm_num
    linarith
  · rw [abs_lt]
    norm_num at hle ⊢
    constructor <;> linarith

/-- The float product is the number before 453. -/
theorem product_lt : ((Normal.ofNat 52 7 (by decide)).mul (log2 base)).toReal < 453 := by
  have hfactor : (Normal.ofNat 52 7 (by decide)).toReal = 7 := by
    exact_mod_cast toReal_ofNat (by decide : 0 < 52) (by decide : 0 < 7) (by decide)
  have hnearest := (rounds_mul (by norm_num) (Normal.ofNat 52 7 (by decide)) (log2 base)).nearest
  let before : Double := ⟨7969260278120447, -44, by norm_num, by norm_num⟩
  have hbefore : before.toReal = 453 - 1 / 2 ^ 44 := by
    simp only [before, Normal.toReal]
    norm_num
  have hexact : 7 * estimate.toReal = 453 - 3 / 2 ^ 46 := by
    rw [toReal_estimate]
    norm_num
  rw [log2_base, hfactor, hexact] at hnearest
  rw [log2_base]
  by_contra! hreached
  have hfar := hnearest before
  rw [hbefore, abs_of_neg (by linarith), abs_of_pos (by norm_num)] at hfar
  norm_num at hfar
  linarith

theorem fallsShort_base : FallsShort log2 base 7 (by decide) :=
  fallsShort_of_lt log2_nearest two_le_base (by decide) (by decide) two_pow_le product_lt

end Seventh

section Tenth

theorem toReal_log2_two : (log2 2).toReal = 1 := by
  obtain ⟨one, hone⟩ := exists_toReal_natCast 52 one_pos (by norm_num)
  have hnearest := log2_nearest.nearest (le_refl 2)
  rw [Nat.cast_one] at hone
  rw [Nat.cast_ofNat, Real.logb_self_eq_one one_lt_two, ← hone] at hnearest
  rw [hnearest.eq_of_toReal, hone]

theorem toReal_ten : (Normal.ofNat 52 10 (by decide)).toReal = 10 := by
  exact_mod_cast toReal_ofNat (by decide : 0 < 52) (by decide : 0 < 10) (by decide)

theorem inRange_two : InRange log2 2 10 (by decide) := by
  rw [inRange_iff, toReal_ten, toReal_log2_two, mul_one, lt_sub_iff_add_lt]
  have hone : (1 : ℝ) ≤ 2 ^ 970 := one_le_pow₀ one_le_two
  have hfew {unit : ℝ} (hunit : 1 ≤ unit) : 10 + unit < unit * 2 ^ 54 := by
    norm_num only
    linarith
  calc (10 : ℝ) + 2 ^ 970 < 2 ^ 970 * 2 ^ 54 := hfew hone
    _ = 2 ^ 1024 := by rw [← pow_add]

/-- The logarithm is exact, and so is the product. -/
theorem not_fallsShort_two : ¬ FallsShort log2 2 10 (by decide) := by
  rintro ⟨bits, hbits, hmax, hpower, hquotient, hshort⟩
  have hle : bits ≤ 10 := (Nat.pow_le_pow_iff_right one_lt_two).mp hpower
  have hnearest := (rounds_mul (by norm_num) (Normal.ofNat 52 10 (by decide)) (log2 2)).nearest
  rw [toReal_log2_two, mul_one] at hnearest
  rw [← hquotient, hnearest.eq_of_toReal, toReal_ten] at hshort
  have hcast : (bits : ℝ) ≤ 10 := by exact_mod_cast hle
  linarith

theorem two_pow_ten_bounded :
    WithinBound python .pow (python.shape ()) (.obj 2) (.obj 10) 2 10 := by
  have hlog : Log2Nearest python.log2 := log2_nearest
  refine (int_results_bounded hlog .pow rfl rfl).mpr fun _ _ exponent hpos hexponent => ?_
  obtain rfl : 10 = exponent := Int.ofNat_inj.mp hexponent
  exact ⟨inRange_two, not_fallsShort_two⟩

end Tenth

/-- The estimate of the first power is no float, and that of the second is a bit short. -/
theorem powers_not_bounded :
    ¬ WithinBound python .pow (python.shape ()) (.obj 2) (.obj (10 ^ 400 : Nat)) 2
      (10 ^ 400 : Nat) ∧
    ¬ WithinBound python .pow (python.shape ()) (.obj base) (.obj (7 : Nat)) base (7 : Nat) := by
  constructor
  · intro hwithin
    have hbounded := (withinBound_iff .pow rfl rfl).mp hwithin
    have hrange := ((pow_bounded_iff log2_nearest (by decide) (by positivity)).mp hbounded).1
    exact not_inRange_of_le log2_nearest (by decide) (by decide +kernel) hrange
  · intro hwithin
    have hbounded := (withinBound_iff .pow rfl rfl).mp hwithin
    have hshort := ((pow_bounded_iff log2_nearest (by decide) (by decide)).mp hbounded).2
    exact hshort fallsShort_base

end Nearly

end Atlantide.Lang
