import Mathlib.Algebra.Order.Archimedean.Real.Basic
import Mathlib.Algebra.Order.Round
import Mathlib.Data.Int.Log
import Mathlib.Tactic.Linarith
import Mathlib.Tactic.Positivity

/-! # Binary floating point

Positive numbers with a leading bit and `bits` bits after it, of any exponent: where the exponents
of a format end is for its user to say. A number is nearest to a real when no other one is nearer,
and a real is rounded to a nearest number, of two to the one whose last bit is zero. -/

namespace Binary

structure Normal (bits : ℕ) where
  significand : ℕ
  exponent : ℤ
  lower : 2 ^ bits ≤ significand
  upper : significand < 2 ^ (bits + 1)
  deriving DecidableEq

variable {bits : ℕ}

namespace Normal

def one (bits : ℕ) : Normal bits where
  significand := 2 ^ bits
  exponent := -bits
  lower := le_rfl
  upper := Nat.pow_lt_pow_right one_lt_two (Nat.lt_succ_self bits)

def toRat (number : Normal bits) : ℚ := number.significand * 2 ^ number.exponent

noncomputable def toReal (number : Normal bits) : ℝ := number.significand * 2 ^ number.exponent

theorem cast_toRat (number : Normal bits) : (number.toRat : ℝ) = number.toReal := by
  simp [toRat, toReal]

theorem significand_pos (number : Normal bits) : 0 < number.significand :=
  Nat.lt_of_lt_of_le (Nat.two_pow_pos bits) number.lower

theorem toRat_pos (number : Normal bits) : 0 < number.toRat :=
  mul_pos (Nat.cast_pos.mpr number.significand_pos) (zpow_pos two_pos _)

theorem toReal_pos (number : Normal bits) : 0 < number.toReal :=
  mul_pos (Nat.cast_pos.mpr number.significand_pos) (zpow_pos two_pos _)

theorem lower_le_toReal (number : Normal bits) :
    (2 : ℝ) ^ bits * 2 ^ number.exponent ≤ number.toReal := by
  have hlower : ((2 ^ bits : ℕ) : ℝ) ≤ number.significand := Nat.cast_le.mpr number.lower
  rw [Nat.cast_pow, Nat.cast_ofNat] at hlower
  exact mul_le_mul_of_nonneg_right hlower (zpow_nonneg zero_le_two _)

theorem toReal_lt_upper (number : Normal bits) :
    number.toReal < (2 : ℝ) ^ (bits + 1) * 2 ^ number.exponent := by
  have hupper : (number.significand : ℝ) < ((2 ^ (bits + 1) : ℕ) : ℝ) :=
    Nat.cast_lt.mpr number.upper
  rw [Nat.cast_pow, Nat.cast_ofNat] at hupper
  exact mul_lt_mul_of_pos_right hupper (zpow_pos two_pos _)

/-- A number of a smaller exponent is below every binade above it. -/
theorem toReal_lt_of_exponent_lt {number : Normal bits} {exponent : ℤ}
    (hlt : number.exponent < exponent) : number.toReal < (2 : ℝ) ^ bits * 2 ^ exponent := by
  calc number.toReal < (2 : ℝ) ^ (bits + 1) * 2 ^ number.exponent := number.toReal_lt_upper
    _ = (2 : ℝ) ^ bits * 2 ^ (number.exponent + 1) := by
      rw [zpow_add_one₀ two_ne_zero, pow_succ]
      ring
    _ ≤ (2 : ℝ) ^ bits * 2 ^ exponent := by
      gcongr
      · exact one_le_two
      · omega

/-- A number of an exponent that is no smaller is a whole multiple of the power. -/
theorem exists_toReal_eq {number : Normal bits} {exponent : ℤ} (hle : exponent ≤ number.exponent) :
    ∃ whole : ℕ, number.toReal = whole * 2 ^ exponent := by
  obtain ⟨gap, hgap⟩ := Int.eq_ofNat_of_zero_le (Int.sub_nonneg.mpr hle)
  refine ⟨number.significand * 2 ^ gap, ?_⟩
  have hexponent : number.exponent = gap + exponent := by omega
  rw [toReal, hexponent, zpow_add₀ two_ne_zero, zpow_natCast]
  push_cast
  ring

theorem toReal_injective : Function.Injective (@toReal bits) := by
  intro left right hsame
  have hexponent : left.exponent = right.exponent := by
    rcases lt_trichotomy left.exponent right.exponent with hlt | heq | hlt
    · have hbelow := toReal_lt_of_exponent_lt hlt
      have habove := right.lower_le_toReal
      linarith
    · exact heq
    · have hbelow := toReal_lt_of_exponent_lt hlt
      have habove := left.lower_le_toReal
      linarith
  have hsignificand : left.significand = right.significand := by
    rw [toReal, toReal, hexponent] at hsame
    exact Nat.cast_injective (mul_right_cancel₀ (zpow_ne_zero _ two_ne_zero) hsame)
  obtain ⟨significand, exponent, lower, upper⟩ := left
  subst hexponent
  subst hsignificand
  rfl

end Normal

/-! ## Nearest numbers -/

/-- No other number is nearer to the real. -/
def Nearest (x : ℝ) (number : Normal bits) : Prop :=
  ∀ other : Normal bits, |x - number.toReal| ≤ |x - other.toReal|

/-- Nearest, and of two that are, the one whose last bit is zero. -/
structure Rounds (x : ℝ) (number : Normal bits) : Prop where
  nearest : Nearest x number
  even : ∀ other : Normal bits, other ≠ number → |x - other.toReal| = |x - number.toReal| →
    Even number.significand

namespace Nearest

variable {x y : ℝ} {number other : Normal bits}

/-- What is not above the real is not above the nearest number either. -/
theorem le_of_le (hnearest : Nearest x number) (hle : other.toReal ≤ x) :
    other.toReal ≤ number.toReal := by
  by_contra! hlt
  have hfar := hnearest other
  rw [abs_of_pos (by linarith), abs_of_nonneg (by linarith)] at hfar
  linarith

theorem ge_of_ge (hnearest : Nearest x number) (hge : x ≤ other.toReal) :
    number.toReal ≤ other.toReal := by
  by_contra! hlt
  have hfar := hnearest other
  rw [abs_of_neg (by linarith), abs_of_nonpos (by linarith)] at hfar
  linarith

theorem eq_of_toReal (hnearest : Nearest other.toReal number) : number = other :=
  Normal.toReal_injective (le_antisymm (hnearest.ge_of_ge le_rfl) (hnearest.le_of_le le_rfl))

/-- Between the real and the nearest number there is no other that is as near. -/
theorem eq_of_between (hnearest : Nearest x number) (hnumber : number.toReal < y) (hy : y < x)
    (hother : Nearest y other) : other = number := by
  have hnear := hother number
  have hfar := hnearest other
  have hbelow : |y - number.toReal| = y - number.toReal := abs_of_pos (by linarith)
  have hxbelow : |x - number.toReal| = x - number.toReal := abs_of_pos (by linarith)
  rw [hbelow] at hnear
  rw [hxbelow] at hfar
  have hle : number.toReal ≤ other.toReal := hother.le_of_le hnumber.le
  refine Normal.toReal_injective (le_antisymm ?_ hle)
  by_contra! hlt
  rcases le_or_gt x other.toReal with habove | hbelow
  · rw [abs_of_nonpos (by linarith)] at hfar hnear
    linarith
  · rw [abs_of_pos (by linarith)] at hfar
    linarith

end Nearest

/-! ## Rounding -/

/-- The nearest whole number, of two the even one. -/
def halfEven (x : ℚ) : ℤ :=
  if Int.fract x < 1 / 2 then ⌊x⌋
  else if 1 / 2 < Int.fract x then ⌊x⌋ + 1
  else if Even ⌊x⌋ then ⌊x⌋ else ⌊x⌋ + 1

theorem abs_sub_halfEven_le (x : ℚ) : |x - halfEven x| ≤ 1 / 2 := by
  have hfloor := Int.floor_add_fract x
  have hnonneg := Int.fract_nonneg x
  have hlt := Int.fract_lt_one x
  unfold halfEven
  split_ifs <;> push_cast <;> rw [abs_le] <;> constructor <;> linarith

theorem even_halfEven {x : ℚ} (htie : |x - halfEven x| = 1 / 2) : Even (halfEven x) := by
  have hfloor := Int.floor_add_fract x
  have hnonneg := Int.fract_nonneg x
  have hlt := Int.fract_lt_one x
  unfold halfEven at htie ⊢
  split_ifs at htie ⊢ with hbelow habove heven
  · rw [abs_of_nonneg (by linarith)] at htie
    linarith
  · push_cast at htie
    rw [abs_of_neg (by linarith)] at htie
    linarith
  · exact heven
  · exact (Int.not_even_iff_odd.mp heven).add_one

/-- A whole number that is no more than a half away is between the same whole numbers. -/
theorem whole_bounds {K : Type} [Field K] [LinearOrder K] [IsStrictOrderedRing K] {low high : ℕ}
    {x : K} {near : ℤ} (hhalf : |x - near| ≤ 1 / 2) (hlow : (low : K) ≤ x) (hhigh : x < high) :
    low ≤ near.toNat ∧ near.toNat ≤ high ∧ 0 ≤ near := by
  have hnear := abs_le.mp hhalf
  have hbelow : (low : ℤ) - 1 < near := by
    have hcast : (((low : ℤ) - 1 : ℤ) : K) < near := by
      push_cast
      linarith
    exact_mod_cast hcast
  have habove : near < (high : ℤ) + 1 := by
    have hcast : (near : K) < (((high : ℤ) + 1 : ℤ) : K) := by
      push_cast
      linarith
    exact_mod_cast hcast
  omega

section Scaled

variable {K : Type} [Field K] [LinearOrder K] [IsStrictOrderedRing K] [FloorSemiring K] {x : K}

/-- The exponent of the last place of numbers around this one. -/
def place (bits : ℕ) (x : K) : ℤ := Int.log 2 x - bits

/-- The number in units of its last place. -/
def scaled (bits : ℕ) (x : K) : K := x / 2 ^ place bits x

theorem scaled_mul (bits : ℕ) (x : K) : scaled bits x * 2 ^ place bits x = x :=
  div_mul_cancel₀ x (zpow_pos two_pos _).ne'

theorem le_scaled (bits : ℕ) (hx : 0 < x) : ((2 ^ bits : ℕ) : K) ≤ scaled bits x := by
  have hlog : (2 : K) ^ Int.log 2 x ≤ x := by
    exact_mod_cast Int.zpow_log_le_self one_lt_two hx
  rw [scaled, le_div_iff₀ (zpow_pos two_pos _)]
  calc ((2 ^ bits : ℕ) : K) * 2 ^ place bits x = 2 ^ Int.log 2 x := by
        rw [Nat.cast_pow, Nat.cast_ofNat, ← zpow_natCast, ← zpow_add₀ two_ne_zero, place]
        congr 1
        omega
    _ ≤ x := hlog

theorem scaled_lt (bits : ℕ) (x : K) : scaled bits x < ((2 ^ (bits + 1) : ℕ) : K) := by
  have hlog : x < (2 : K) ^ (Int.log 2 x + 1) := by
    exact_mod_cast Int.lt_zpow_succ_log_self one_lt_two x
  rw [scaled, div_lt_iff₀ (zpow_pos two_pos _)]
  calc x < 2 ^ (Int.log 2 x + 1) := hlog
    _ = ((2 ^ (bits + 1) : ℕ) : K) * 2 ^ place bits x := by
        rw [Nat.cast_pow, Nat.cast_ofNat, ← zpow_natCast, ← zpow_add₀ two_ne_zero, place]
        congr 1
        omega

end Scaled

/-- A whole multiple of the last place. One that is the next power of two is in the next binade. -/
def ofWhole (whole : ℕ) (exponent : ℤ) (hlower : 2 ^ bits ≤ whole) : Normal bits :=
  if hupper : whole < 2 ^ (bits + 1) then ⟨whole, exponent, hlower, hupper⟩
  else ⟨2 ^ bits, exponent + 1, le_rfl, Nat.pow_lt_pow_right one_lt_two (Nat.lt_succ_self _)⟩

theorem toReal_ofWhole {whole : ℕ} (exponent : ℤ) (hlower : 2 ^ bits ≤ whole)
    (hupper : whole ≤ 2 ^ (bits + 1)) :
    (ofWhole whole exponent hlower).toReal = whole * 2 ^ exponent := by
  unfold ofWhole
  split_ifs with hless
  · rfl
  · have hcarry : whole = 2 ^ (bits + 1) := le_antisymm hupper (not_lt.mp hless)
    rw [Normal.toReal, hcarry, zpow_add_one₀ two_ne_zero, pow_succ]
    push_cast
    ring

/-- The number that a positive one is rounded to. -/
def ofRat (bits : ℕ) (x : ℚ) (hx : 0 < x) : Normal bits :=
  ofWhole (halfEven (scaled bits x)).toNat (place bits x)
    (whole_bounds (abs_sub_halfEven_le _) (le_scaled bits hx) (scaled_lt bits x)).1

theorem toReal_ofRat (bits : ℕ) (x : ℚ) (hx : 0 < x) :
    (ofRat bits x hx).toReal = halfEven (scaled bits x) * 2 ^ place bits x := by
  obtain ⟨-, habove, hnonneg⟩ :=
    whole_bounds (abs_sub_halfEven_le _) (le_scaled bits hx) (scaled_lt bits x)
  have hwhole : ((halfEven (scaled bits x)).toNat : ℝ) = halfEven (scaled bits x) := by
    exact_mod_cast Int.toNat_of_nonneg hnonneg
  rw [ofRat, toReal_ofWhole _ _ habove, hwhole]

theorem even_significand_ofRat (hbits : 0 < bits) (x : ℚ) (hx : 0 < x)
    (heven : Even (halfEven (scaled bits x))) : Even (ofRat bits x hx).significand := by
  obtain ⟨-, -, hnonneg⟩ :=
    whole_bounds (abs_sub_halfEven_le _) (le_scaled bits hx) (scaled_lt bits x)
  unfold ofRat ofWhole
  split_ifs with hupper
  · have hwhole := Int.toNat_of_nonneg hnonneg
    rw [← hwhole] at heven
    exact_mod_cast heven
  · exact Nat.even_pow.mpr ⟨even_two, hbits.ne'⟩

/-- Two whole numbers cannot both be less than a half away. -/
theorem one_le_add_abs (y : ℝ) {near other : ℤ} (hne : other ≠ near) :
    1 ≤ |y - near| + |y - other| := by
  have hgap : (1 : ℝ) ≤ |((near - other : ℤ) : ℝ)| := by
    exact_mod_cast Int.one_le_abs (sub_ne_zero.mpr hne.symm)
  have htriangle : |((near - other : ℤ) : ℝ)| ≤ |y - near| + |y - other| := by
    rw [abs_sub_comm y (near : ℝ)]
    calc |((near - other : ℤ) : ℝ)| = |((near : ℝ) - y) + (y - other)| := by
          push_cast
          congr 1
          ring
      _ ≤ |(near : ℝ) - y| + |y - other| := abs_add_le _ _
  linarith

theorem abs_sub_le_of_half {y : ℝ} {near : ℤ} (hhalf : |y - near| ≤ 1 / 2) (other : ℤ) :
    |y - near| ≤ |y - other| := by
  by_cases hsame : other = near
  · rw [hsame]
  · have hgap := one_le_add_abs y hsame
    linarith

section Multiple

variable {y : ℝ} {near : ℤ} (exponent : ℤ)

/-- Every other number is farther away than the nearest multiple of the last place, but in a tie. -/
theorem eq_or_lt_or_tie (hfirst : 2 ^ bits ≤ y) (hhalf : |y - near| ≤ 1 / 2) (other : Normal bits) :
    other.toReal = near * 2 ^ exponent ∨
      |y * 2 ^ exponent - near * 2 ^ exponent| < |y * 2 ^ exponent - other.toReal| ∨
      |y * 2 ^ exponent - near * 2 ^ exponent| = |y * 2 ^ exponent - other.toReal| ∧
        |y - near| = 1 / 2 := by
  have hplace : (0 : ℝ) < 2 ^ exponent := zpow_pos two_pos _
  have hdistance (value : ℝ) :
      |y * 2 ^ exponent - value * 2 ^ exponent| = |y - value| * 2 ^ exponent := by
    rw [← sub_mul, abs_mul, abs_of_pos hplace]
  rw [hdistance]
  rcases le_or_gt exponent other.exponent with hle | hlt
  · obtain ⟨whole, hwhole⟩ := Normal.exists_toReal_eq hle
    by_cases hsame : (whole : ℤ) = near
    · refine Or.inl ?_
      rw [hwhole, ← hsame, Int.cast_natCast]
    · have hgap := one_le_add_abs y hsame
      rw [Int.cast_natCast] at hgap
      rw [hwhole, hdistance]
      rcases lt_or_ge |y - near| |y - whole| with hless | hmore
      · exact Or.inr (Or.inl (mul_lt_mul_of_pos_right hless hplace))
      · have htie : |y - near| = 1 / 2 := by linarith
        have hother : |y - whole| = 1 / 2 := by linarith
        exact Or.inr (Or.inr ⟨by rw [htie, hother], htie⟩)
  · -- A number of a smaller binade is below the first one of this binade.
    have hbelow := Normal.toReal_lt_of_exponent_lt hlt
    have hnear := abs_sub_le_of_half hhalf (2 ^ bits)
    rw [Int.cast_pow, Int.cast_ofNat, abs_of_nonneg (sub_nonneg.mpr hfirst)] at hnear
    refine Or.inr (Or.inl ?_)
    calc |y - near| * 2 ^ exponent ≤ (y - 2 ^ bits) * 2 ^ exponent := by gcongr
      _ = y * 2 ^ exponent - 2 ^ bits * 2 ^ exponent := by rw [sub_mul]
      _ < y * 2 ^ exponent - other.toReal := by linarith
      _ ≤ |y * 2 ^ exponent - other.toReal| := le_abs_self _

/-- A multiple less than half a last place away is the only nearest number. -/
theorem Nearest.eq_of_lt_half {number other : Normal bits} (hfirst : 2 ^ bits ≤ y)
    (hhalf : |y - near| < 1 / 2) (hnumber : number.toReal = near * 2 ^ exponent)
    (hnearest : Nearest (y * 2 ^ exponent) other) : other = number := by
  have hfar := hnearest number
  rw [hnumber] at hfar
  rcases eq_or_lt_or_tie exponent hfirst hhalf.le other with heq | hlt | ⟨-, htie⟩
  · exact Normal.toReal_injective (heq.trans hnumber.symm)
  · exact absurd hfar (not_le.mpr hlt)
  · exact absurd htie hhalf.ne

theorem nearest_of_half {number : Normal bits} (hfirst : 2 ^ bits ≤ y) (hhalf : |y - near| ≤ 1 / 2)
    (hnumber : number.toReal = near * 2 ^ exponent) : Nearest (y * 2 ^ exponent) number := by
  intro other
  rw [hnumber]
  rcases eq_or_lt_or_tie exponent hfirst hhalf other with heq | hlt | ⟨heq, -⟩
  · rw [heq]
  · exact hlt.le
  · exact heq.le

end Multiple

theorem exists_nearest (bits : ℕ) {x : ℝ} (hx : 0 < x) :
    ∃ number : Normal bits, Nearest x number := by
  have hhalf := abs_sub_round (scaled bits x)
  obtain ⟨hlower, hupper, hnonneg⟩ := whole_bounds hhalf (le_scaled bits hx) (scaled_lt bits x)
  have hfirst : (2 : ℝ) ^ bits ≤ scaled bits x := by
    exact_mod_cast le_scaled bits hx
  have hnumber : (ofWhole (round (scaled bits x)).toNat (place bits x) hlower).toReal =
      round (scaled bits x) * 2 ^ place bits x := by
    have hwhole : ((round (scaled bits x)).toNat : ℝ) = round (scaled bits x) := by
      exact_mod_cast Int.toNat_of_nonneg hnonneg
    rw [toReal_ofWhole _ _ hupper, hwhole]
  refine ⟨ofWhole (round (scaled bits x)).toNat (place bits x) hlower, ?_⟩
  conv_lhs => rw [← scaled_mul bits x]
  exact nearest_of_half _ hfirst hhalf hnumber

theorem rounds_ofRat (hbits : 0 < bits) (x : ℚ) (hx : 0 < x) :
    Rounds (x : ℝ) (ofRat bits x hx) := by
  have hscaled : ((scaled bits x : ℚ) : ℝ) * 2 ^ place bits x = x := by
    have hcast := congrArg (fun value : ℚ => (value : ℝ)) (scaled_mul bits x)
    push_cast at hcast
    exact hcast
  have hhalf : |((scaled bits x : ℚ) : ℝ) - halfEven (scaled bits x)| ≤ 1 / 2 := by
    have hcast : ((|scaled bits x - halfEven (scaled bits x)| : ℚ) : ℝ) ≤ ((1 / 2 : ℚ) : ℝ) :=
      Rat.cast_le.mpr (abs_sub_halfEven_le (scaled bits x))
    push_cast at hcast
    exact hcast
  have hfirst : (2 : ℝ) ^ bits ≤ ((scaled bits x : ℚ) : ℝ) := by
    exact_mod_cast le_scaled bits hx
  rw [← hscaled]
  refine ⟨nearest_of_half _ hfirst hhalf (toReal_ofRat bits x hx), fun other hne hsame => ?_⟩
  rw [toReal_ofRat] at hsame
  rcases eq_or_lt_or_tie (place bits x) hfirst hhalf other with heq | hlt | ⟨-, htie⟩
  · exact absurd (Normal.toReal_injective (heq.trans (toReal_ofRat bits x hx).symm)) hne
  · exact absurd hsame hlt.ne'
  · refine even_significand_ofRat hbits x hx (even_halfEven ?_)
    have hcast : ((|scaled bits x - halfEven (scaled bits x)| : ℚ) : ℝ) = ((1 / 2 : ℚ) : ℝ) := by
      push_cast
      exact htie
    exact Rat.cast_injective hcast

namespace Normal

def ofNat (bits n : ℕ) (hn : 0 < n) : Normal bits := ofRat bits n (Nat.cast_pos.mpr hn)

def mul (left right : Normal bits) : Normal bits :=
  ofRat bits (left.toRat * right.toRat) (mul_pos left.toRat_pos right.toRat_pos)

def floor (number : Normal bits) : ℕ := ⌊number.toRat⌋₊

theorem le_floor_iff {number : Normal bits} {n : ℕ} :
    n ≤ number.floor ↔ (n : ℝ) ≤ number.toReal := by
  rw [floor, Nat.le_floor_iff number.toRat_pos.le, ← cast_toRat]
  exact_mod_cast Iff.rfl

end Normal

theorem rounds_ofNat (hbits : 0 < bits) {n : ℕ} (hn : 0 < n) :
    Rounds (n : ℝ) (Normal.ofNat bits n hn) := by
  have hrounds := rounds_ofRat hbits n (Nat.cast_pos.mpr hn)
  rwa [Rat.cast_natCast] at hrounds

theorem rounds_mul (hbits : 0 < bits) (left right : Normal bits) :
    Rounds (left.toReal * right.toReal) (left.mul right) := by
  have hrounds := rounds_ofRat hbits _ (mul_pos left.toRat_pos right.toRat_pos)
  rwa [Rat.cast_mul, Normal.cast_toRat, Normal.cast_toRat] at hrounds

/-! ## Whole numbers and the end of a format -/

/-- Whole numbers of no more bits are numbers. -/
theorem exists_toReal_natCast (bits : ℕ) {n : ℕ} (hpos : 0 < n) (hlt : n < 2 ^ (bits + 1)) :
    ∃ number : Normal bits, number.toReal = n := by
  have hlog : Nat.log2 n ≤ bits := Nat.lt_succ_iff.mp ((Nat.log2_lt hpos.ne').mpr hlt)
  refine ⟨⟨n * 2 ^ (bits - Nat.log2 n), Nat.log2 n - bits, ?_, ?_⟩, ?_⟩
  · calc 2 ^ bits = 2 ^ Nat.log2 n * 2 ^ (bits - Nat.log2 n) := by
          rw [← pow_add]
          congr 1
          omega
      _ ≤ n * 2 ^ (bits - Nat.log2 n) := Nat.mul_le_mul_right _ (Nat.log2_self_le hpos.ne')
  · calc n * 2 ^ (bits - Nat.log2 n) < 2 ^ (Nat.log2 n + 1) * 2 ^ (bits - Nat.log2 n) :=
          Nat.mul_lt_mul_of_pos_right Nat.lt_log2_self (Nat.two_pow_pos _)
      _ = 2 ^ (bits + 1) := by
          rw [← pow_add]
          congr 1
          omega
  · have hexponent : (Nat.log2 n : ℤ) - bits = -((bits - Nat.log2 n : ℕ) : ℤ) := by omega
    simp only [Normal.toReal, hexponent]
    rw [zpow_neg, zpow_natCast]
    push_cast
    field_simp

theorem toReal_ofNat (hbits : 0 < bits) {n : ℕ} (hn : 0 < n) (hlt : n < 2 ^ (bits + 1)) :
    (Normal.ofNat bits n hn).toReal = n := by
  obtain ⟨number, hnumber⟩ := exists_toReal_natCast bits hn hlt
  have hnearest := (rounds_ofNat hbits hn).nearest
  rw [← hnumber] at hnearest
  rw [hnearest.eq_of_toReal, hnumber]

theorem Normal.toReal_le_of_exponent_le {number : Normal bits} {top : ℤ}
    (hle : number.exponent ≤ top) : number.toReal ≤ 2 ^ (bits + 1) * 2 ^ top - 2 ^ top := by
  have hsignificand : (number.significand : ℝ) ≤ 2 ^ (bits + 1) - 1 := by
    have hupper : number.significand + 1 ≤ 2 ^ (bits + 1) := number.upper
    have hcast : ((number.significand + 1 : ℕ) : ℝ) ≤ ((2 ^ (bits + 1) : ℕ) : ℝ) :=
      Nat.cast_le.mpr hupper
    push_cast at hcast
    linarith
  have hpower : (2 : ℝ) ^ number.exponent ≤ 2 ^ top := zpow_le_zpow_right₀ one_le_two hle
  have hnonneg : (0 : ℝ) ≤ 2 ^ (bits + 1) - 1 := sub_nonneg.mpr (one_le_pow₀ one_le_two)
  calc number.toReal ≤ (2 ^ (bits + 1) - 1) * 2 ^ top :=
        mul_le_mul hsignificand hpower (zpow_nonneg zero_le_two _) hnonneg
    _ = 2 ^ (bits + 1) * 2 ^ top - 2 ^ top := by ring

namespace Normal

/-- The last number of the exponents up to `top`. -/
def largest (bits : ℕ) (top : ℤ) : Normal bits where
  significand := 2 ^ (bits + 1) - 1
  exponent := top
  lower := by
    have hpow : 2 ^ (bits + 1) = 2 ^ bits + 2 ^ bits := by rw [pow_succ, mul_two]
    have hone := Nat.two_pow_pos bits
    omega
  upper := Nat.sub_lt (Nat.two_pow_pos _) one_pos

/-- The first number of a larger exponent. -/
def past (bits : ℕ) (top : ℤ) : Normal bits where
  significand := 2 ^ bits
  exponent := top + 1
  lower := le_rfl
  upper := Nat.pow_lt_pow_right one_lt_two (Nat.lt_succ_self bits)

theorem toReal_largest (bits : ℕ) (top : ℤ) :
    (largest bits top).toReal = 2 ^ (bits + 1) * 2 ^ top - 2 ^ top := by
  rw [toReal, largest, Nat.cast_sub Nat.one_le_two_pow]
  push_cast
  ring

theorem toReal_past (bits : ℕ) (top : ℤ) :
    (past bits top).toReal = 2 ^ (bits + 1) * 2 ^ top := by
  rw [toReal, past, zpow_add_one₀ two_ne_zero, pow_succ]
  push_cast
  ring

theorem not_even_largest (bits : ℕ) (top : ℤ) : ¬ Even (largest bits top).significand := by
  rintro ⟨half, hhalf⟩
  have hpow : 2 ^ (bits + 1) = 2 * 2 ^ bits := by rw [pow_succ, mul_comm]
  have hone := Nat.two_pow_pos bits
  change 2 ^ (bits + 1) - 1 = half + half at hhalf
  omega

theorem toReal_past_le {number : Normal bits} {top : ℤ} (hlt : top < number.exponent) :
    (past bits top).toReal ≤ number.toReal := by
  calc (past bits top).toReal = 2 ^ bits * 2 ^ (top + 1) := by
        rw [toReal_past, zpow_add_one₀ two_ne_zero, pow_succ]
        ring
    _ ≤ 2 ^ bits * 2 ^ number.exponent := by
        gcongr
        · exact one_le_two
        · omega
    _ ≤ number.toReal := number.lower_le_toReal

end Normal

/-- A real is rounded past the end of a format's exponents from half a unit below it. -/
theorem Rounds.exponent_le_iff {x : ℝ} {number : Normal bits} {top : ℤ}
    (hrounds : Rounds x number) :
    number.exponent ≤ top ↔ x < 2 ^ (bits + 1) * 2 ^ top - 2 ^ top / 2 := by
  have hunit : (0 : ℝ) < 2 ^ top := zpow_pos two_pos _
  have hpast := Normal.toReal_past bits top
  have hlargest := Normal.toReal_largest bits top
  constructor
  · intro hle
    by_contra! hge
    have hbelow := Normal.toReal_le_of_exponent_le hle
    have hnear := hrounds.nearest (.past bits top)
    rw [hpast, abs_of_nonneg (by linarith)] at hnear
    rcases le_or_gt (2 ^ (bits + 1) * 2 ^ top) x with hpastx | hbefore
    · rw [abs_of_nonneg (by linarith)] at hnear
      linarith
    · -- A tie with the number past the end, whose last bit is zero.
      rw [abs_of_neg (by linarith)] at hnear
      have hvalue : number.toReal = 2 ^ (bits + 1) * 2 ^ top - 2 ^ top := by linarith
      have hnumber : number = .largest bits top :=
        Normal.toReal_injective (hvalue.trans hlargest.symm)
      have hne : .past bits top ≠ number := by
        rintro rfl
        linarith
      have heven := hrounds.even _ hne (by
        rw [hpast, abs_of_neg (by linarith), abs_of_nonneg (by linarith)]
        linarith)
      rw [hnumber] at heven
      exact Normal.not_even_largest bits top heven
  · intro hlt
    by_contra! hgt
    have habove := Normal.toReal_past_le hgt
    have hother := hrounds.nearest (.largest bits top)
    rw [hpast] at habove
    rw [hlargest, abs_of_neg (by linarith)] at hother
    rcases le_or_gt (2 ^ (bits + 1) * 2 ^ top - 2 ^ top) x with hge | hless
    · rw [abs_of_nonneg (by linarith)] at hother
      linarith
    · rw [abs_of_neg (by linarith)] at hother
      linarith

end Binary
