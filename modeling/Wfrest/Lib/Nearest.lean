import Mathlib.Algebra.Order.Field.Power
import Mathlib.Data.Int.Log
import Mathlib.Data.Rat.Floor
import Mathlib.Tactic.FieldSimp
import Mathlib.Tactic.Linarith
import Mathlib.Tactic.NormNum
import Mathlib.Tactic.Positivity
import Mathlib.Tactic.Push
import Mathlib.Tactic.Ring

/-!
# Rounding to the nearest number of a format

`roundEven` is the nearest integer, and the even one of two. On a grid it gives the nearest
multiple of a step (`roundTo`), and with a step that depends on the size of the number the
nearest number of a binary floating-point format (`float`): `t` bits behind the leading one,
and no finer steps below `2 ^ emin`.

* `float` keeps the order with the integers that the format has (`int_le_float`,
  `float_le_int`);
* `float_eq_of_abs_sub_le`: a decimal (or any) approximation of a number of the format is
  rounded to that number, when it is close enough. One with `d` digits behind the first is
  (`abs_sub_roundTo_log_le`) as soon as `2 ^ (t + 1) < 10 ^ d`.
-/

namespace Wfrest.Nearest

/-! ### Integers -/

/-- The nearest integer, the even one of two. -/
def roundEven (x : ℚ) : ℤ :=
  if 2 * Int.fract x < 1 ∨ 2 * Int.fract x = 1 ∧ ⌊x⌋ % 2 = 0 then ⌊x⌋ else ⌊x⌋ + 1

theorem abs_sub_roundEven_le (x : ℚ) : |x - roundEven x| ≤ 1 / 2 := by
  have hnonneg := Int.fract_nonneg x
  have hlt := Int.fract_lt_one x
  have hfloor := Int.self_sub_floor x
  unfold roundEven
  split_ifs with h
  · rw [hfloor, abs_of_nonneg hnonneg]
    rcases h with h | ⟨h, -⟩ <;> linarith
  · have hhalf : 1 ≤ 2 * Int.fract x := not_lt.mp fun hlow => h (Or.inl hlow)
    rw [abs_le]
    push_cast
    constructor <;> linarith

/-- The integer that is less than a half away. -/
theorem roundEven_eq {x : ℚ} {n : ℤ} (h : |x - n| < 1 / 2) : roundEven x = n := by
  have hround := abs_sub_roundEven_le x
  -- two integers that are less than one apart are the same
  have hlt : |((roundEven x - n : ℤ) : ℚ)| < 1 := by
    push_cast
    calc |(roundEven x : ℚ) - n| = |(x - n) - (x - roundEven x)| := by rw [sub_sub_sub_cancel_left]
      _ ≤ |x - n| + |x - roundEven x| := abs_sub _ _
      _ < 1 := by linarith
  have hint : |roundEven x - n| < 1 := by exact_mod_cast hlt
  have hzero := Int.abs_lt_one_iff.mp hint
  omega

theorem le_roundEven {x : ℚ} {n : ℤ} (h : (n : ℚ) ≤ x) : n ≤ roundEven x := by
  have hfloor : n ≤ ⌊x⌋ := Int.le_floor.mpr h
  unfold roundEven
  split_ifs <;> omega

theorem roundEven_le {x : ℚ} {n : ℤ} (h : x ≤ n) : roundEven x ≤ n := by
  unfold roundEven
  split_ifs with hlow
  · have hle := Int.floor_le x
    exact_mod_cast hle.trans h
  · -- the fraction is not zero, so that the integer above is needed
    have hhalf : 1 ≤ 2 * Int.fract x := not_lt.mp fun hlt => hlow (Or.inl hlt)
    have hfloor := Int.self_sub_floor x
    have hlt : (⌊x⌋ : ℚ) < n := by linarith
    exact Int.cast_lt.mp hlt

/-! ### Multiples of a step -/

/-- The nearest multiple of `u`. -/
def roundTo (u x : ℚ) : ℚ := roundEven (x / u) * u

section

variable {u x : ℚ}

theorem abs_sub_roundTo_le (hu : 0 < u) : |x - roundTo u x| ≤ u / 2 := by
  have hx : x = x / u * u := (div_mul_cancel₀ x hu.ne').symm
  calc |x - roundTo u x| = |x / u - roundEven (x / u)| * u := by
        conv_lhs => rw [hx]
        rw [roundTo, mul_div_cancel_right₀ _ hu.ne', ← sub_mul, abs_mul, abs_of_pos hu]
      _ ≤ 1 / 2 * u := mul_le_mul_of_nonneg_right (abs_sub_roundEven_le _) hu.le
      _ = u / 2 := by ring

theorem roundTo_eq (hu : 0 < u) {n : ℤ} (h : |x - n * u| < u / 2) : roundTo u x = n * u := by
  have hround : roundEven (x / u) = n := by
    refine roundEven_eq ?_
    have hdiff : x / u - n = (x - n * u) / u := by field_simp
    rw [hdiff, abs_div, abs_of_pos hu, div_lt_iff₀ hu]
    linarith
  rw [roundTo, hround]

theorem le_roundTo (hu : 0 < u) {n : ℤ} (h : n * u ≤ x) : n * u ≤ roundTo u x := by
  have hle : n ≤ roundEven (x / u) := le_roundEven ((le_div_iff₀ hu).mpr h)
  exact mul_le_mul_of_nonneg_right (Int.cast_le.mpr hle) hu.le

theorem roundTo_le (hu : 0 < u) {n : ℤ} (h : x ≤ n * u) : roundTo u x ≤ n * u := by
  have hle : roundEven (x / u) ≤ n := roundEven_le ((div_le_iff₀ hu).mpr h)
  exact mul_le_mul_of_nonneg_right (Int.cast_le.mpr hle) hu.le

end

/-- With `d` digits behind the first one, a number is kept up to half a unit of the last. -/
theorem abs_sub_roundTo_log_le {b : ℕ} (hb : 1 < b) (d : ℕ) {x : ℚ} (hx : 0 < x) :
    |x - roundTo ((b : ℚ) ^ (Int.log b x - d)) x| ≤ x / (2 * (b : ℚ) ^ d) := by
  have hpos : (0 : ℚ) < b := by exact_mod_cast Nat.zero_lt_of_lt hb
  have hstep : (b : ℚ) ^ (Int.log b x - d) = (b : ℚ) ^ Int.log b x / (b : ℚ) ^ d := by
    rw [zpow_sub₀ hpos.ne', zpow_natCast]
  have hlog := Int.zpow_log_le_self hb hx
  calc |x - roundTo ((b : ℚ) ^ (Int.log b x - d)) x|
      ≤ (b : ℚ) ^ (Int.log b x - d) / 2 := abs_sub_roundTo_le (zpow_pos hpos _)
    _ = (b : ℚ) ^ Int.log b x / (2 * (b : ℚ) ^ d) := by rw [hstep]; field_simp
    _ ≤ x / (2 * (b : ℚ) ^ d) := by gcongr

/-! ### Floating-point numbers -/

section

variable (t : ℕ) (emin : ℤ)

/-- The exponent of the leading bit. There are no leading bits below `emin`. -/
def binade (x : ℚ) : ℤ := max (Int.log 2 |x|) emin

/-- The step between the numbers of the size of `x`. -/
def ulp (x : ℚ) : ℚ := 2 ^ (binade emin x - t)

/-- The nearest number of the format, whatever its size. -/
def float (x : ℚ) : ℚ := roundTo (ulp t emin x) x

/-- The numbers of the format. -/
def Representable (x : ℚ) : Prop :=
  ∃ m e : ℤ, |m| ≤ 2 ^ (t + 1) ∧ emin - t ≤ e ∧ x = m * 2 ^ e

theorem ulp_pos (x : ℚ) : 0 < ulp t emin x := zpow_pos two_pos _

theorem abs_lt_two_zpow (x : ℚ) : |x| < 2 ^ (binade emin x + 1) := by
  have hlog := Int.lt_zpow_succ_log_self (b := 2) one_lt_two |x|
  have hle : Int.log 2 |x| + 1 ≤ binade emin x + 1 := by
    have := le_max_left (Int.log 2 |x|) emin
    unfold binade
    omega
  push_cast at hlog
  exact hlog.trans_le (zpow_le_zpow_right₀ one_le_two hle)

theorem two_zpow_eq (x : ℚ) (n : ℕ) :
    (2 : ℚ) ^ (binade emin x - t + n) = 2 ^ n * ulp t emin x := by
  rw [zpow_add₀ two_ne_zero, zpow_natCast, mul_comm]
  rfl

theorem abs_lt_ulp (x : ℚ) : |x| < 2 ^ (t + 1) * ulp t emin x := by
  rw [← two_zpow_eq]
  have h := abs_lt_two_zpow emin x
  have hexp : binade emin x - t + ((t + 1 : ℕ) : ℤ) = binade emin x + 1 := by
    push_cast
    ring
  rwa [hexp]

variable {t emin}

/-- The smallest number of the format. -/
theorem Representable.le_abs {x : ℚ} (hx : Representable t emin x) (hne : x ≠ 0) :
    (2 : ℚ) ^ (emin - t) ≤ |x| := by
  obtain ⟨m, e, -, he, rfl⟩ := hx
  have hm : m ≠ 0 := by
    rintro rfl
    simp at hne
  have hone : (1 : ℚ) ≤ |(m : ℚ)| := by exact_mod_cast Int.one_le_abs hm
  have hT : (0 : ℚ) < 2 ^ e := zpow_pos two_pos _
  rw [abs_mul, abs_of_pos hT]
  calc (2 : ℚ) ^ (emin - t) ≤ 2 ^ e := zpow_le_zpow_right₀ one_le_two he
    _ ≤ |(m : ℚ)| * 2 ^ e := le_mul_of_one_le_left hT.le hone

theorem representable_float (x : ℚ) : Representable t emin (float t emin x) := by
  refine ⟨roundEven (x / ulp t emin x), binade emin x - t, ?_, ?_, rfl⟩
  · have hu := ulp_pos t emin x
    have habs := abs_le.mp (abs_lt_ulp t emin x).le
    rw [abs_le]
    constructor
    · refine le_roundEven ?_
      rw [le_div_iff₀ hu]
      push_cast
      linarith
    · refine roundEven_le ?_
      rw [div_le_iff₀ hu]
      push_cast
      linarith
  · have hmin := le_max_right (Int.log 2 |x|) emin
    unfold binade
    omega

/-- A number that has its leading bit above `emin`. -/
theorem two_zpow_le_abs {x : ℚ} (hx : x ≠ 0) (h : emin < binade emin x) :
    (2 : ℚ) ^ binade emin x ≤ |x| := by
  have hlog : binade emin x = Int.log 2 |x| := by
    unfold binade at h ⊢
    omega
  rw [hlog]
  exact_mod_cast Int.zpow_log_le_self (b := 2) one_lt_two (abs_pos.mpr hx)

theorem ulp_neg (x : ℚ) : ulp t emin (-x) = ulp t emin x := by
  rw [ulp, ulp, binade, binade, abs_neg]

/-- Between an integer of the format and a number that is not less lies a multiple of the
step. -/
theorem exists_mul_ulp {n : ℤ} {x : ℚ} (hemin : emin ≤ t) (hn : |n| ≤ 2 ^ (t + 1)) (h : n ≤ x) :
    ∃ k : ℤ, (n : ℚ) ≤ k * ulp t emin x ∧ k * ulp t emin x ≤ x := by
  rcases le_or_gt (binade emin x) t with hsmall | hlarge
  · -- the step divides one
    obtain ⟨j, hj⟩ := Int.eq_ofNat_of_zero_le (sub_nonneg.mpr hsmall)
    have hn' : ((n * 2 ^ j : ℤ) : ℚ) * ulp t emin x = n := by
      have hexp : binade emin x - t = -(j : ℤ) := by omega
      push_cast
      rw [ulp, hexp, zpow_neg, zpow_natCast, mul_assoc, mul_inv_cancel₀ (by positivity), mul_one]
    exact ⟨n * 2 ^ j, hn'.ge, hn'.trans_le h⟩
  · -- the integer is below the binade of the number, which begins at a multiple of the step
    have hx : x ≠ 0 := by
      rintro rfl
      have hzero : binade emin 0 ≤ t := by
        simp only [binade, abs_zero, Int.log_zero_right]
        omega
      omega
    have hlow := two_zpow_le_abs hx (hemin.trans_lt hlarge)
    have hstep : (2 : ℚ) ^ binade emin x = 2 ^ t * ulp t emin x := by
      rw [← two_zpow_eq, sub_add_cancel]
    have hn' : |(n : ℚ)| ≤ 2 ^ binade emin x := by
      have hint : |(n : ℚ)| ≤ 2 ^ (t + 1) := by exact_mod_cast hn
      refine hint.trans ?_
      rw [← zpow_natCast]
      refine zpow_le_zpow_right₀ one_le_two ?_
      push_cast
      omega
    rw [abs_le] at hn'
    rcases le_abs.mp hlow with hpos | hneg
    · refine ⟨2 ^ t, ?_, ?_⟩
      · push_cast
        linarith
      · push_cast
        linarith
    · -- the integer is the number itself
      refine ⟨-2 ^ t, ?_, ?_⟩
      · push_cast
        linarith
      · push_cast
        linarith

/-- An integer of the format is not passed. -/
theorem int_le_float {n : ℤ} {x : ℚ} (hemin : emin ≤ t) (hn : |n| ≤ 2 ^ (t + 1)) (h : n ≤ x) :
    n ≤ float t emin x := by
  obtain ⟨k, hle, hk⟩ := exists_mul_ulp hemin hn h
  exact hle.trans (le_roundTo (ulp_pos t emin x) hk)

theorem float_le_int {n : ℤ} {x : ℚ} (hemin : emin ≤ t) (hn : |n| ≤ 2 ^ (t + 1)) (h : x ≤ n) :
    float t emin x ≤ n := by
  -- the steps around a number and around its negative are the same
  have hneg : ((-n : ℤ) : ℚ) ≤ -x := by
    push_cast
    linarith
  obtain ⟨k, hle, hk⟩ := exists_mul_ulp hemin (by rwa [abs_neg]) hneg
  rw [ulp_neg] at hle hk
  have hx : x ≤ ((-k : ℤ) : ℚ) * ulp t emin x := by
    push_cast
    linarith
  refine (roundTo_le (ulp_pos t emin x) hx).trans ?_
  push_cast at hle ⊢
  linarith

/-- A part of `2 * N` of a number that is not much larger than `M` steps is less than half a
step. -/
theorem lt_of_mul_le {M N : ℕ} {a d s : ℚ} (hN : M < N) (hs : 0 < s) (hd : d ≤ a / (2 * N))
    (ha : a < M * s + d) : d < s / 2 := by
  have hN' : (M : ℚ) + 1 ≤ N := by exact_mod_cast hN
  have hpos : (0 : ℚ) < N := by exact_mod_cast (Nat.zero_le M).trans_lt hN
  by_contra hle
  rw [not_lt] at hle
  rw [le_div_iff₀ (by positivity)] at hd
  have hM : (M : ℚ) * s ≤ M * (2 * d) := by gcongr; linarith
  have hd0 : 0 < d := by linarith
  have hN2 : d * (2 * (M + 1)) ≤ d * (2 * N) := by gcongr
  linarith

/-- A number of the format is a multiple of the steps around it. -/
theorem Representable.exists_mul {x y : ℚ} (hy : Representable t emin y) {N : ℕ}
    (hN : 2 ^ (t + 1) < N) (h : |x - y| ≤ |y| / (2 * N)) : ∃ k : ℤ, y = k * ulp t emin x := by
  obtain ⟨m, e, hm, he, rfl⟩ := hy
  rcases le_or_gt (binade emin x - t) e with hfine | hcoarse
  · -- the steps around the number are parts of its own
    obtain ⟨j, hj⟩ := Int.eq_ofNat_of_zero_le (sub_nonneg.mpr hfine)
    refine ⟨m * 2 ^ j, ?_⟩
    push_cast
    rw [ulp, mul_assoc, ← zpow_natCast, ← zpow_add₀ two_ne_zero, ← hj, sub_add_cancel]
  rcases eq_or_ne x 0 with rfl | hx
  · -- only zero is close to zero
    refine ⟨0, ?_⟩
    rw [zero_sub, abs_neg] at h
    by_contra hne
    have hpos : 0 < |(m : ℚ) * 2 ^ e| := abs_pos.mpr (by simpa using hne)
    have hone : 1 < N := (Nat.one_lt_two_pow (Nat.succ_ne_zero t)).trans hN
    have hhalf := lt_of_mul_le hone hpos h (by simpa using hpos)
    linarith
  have hT : (0 : ℚ) < 2 ^ e := zpow_pos two_pos _
  have hlow := two_zpow_le_abs hx (show emin < binade emin x by omega)
  obtain ⟨j, hj⟩ := Int.eq_ofNat_of_zero_le (show 0 ≤ binade emin x - e by omega)
  have hbinade : (2 : ℚ) ^ binade emin x = 2 ^ j * 2 ^ e := by
    rw [← zpow_natCast, ← zpow_add₀ two_ne_zero, ← hj, sub_add_cancel]
  have hj' : t + 1 ≤ j := by omega
  rcases lt_or_ge |m| (2 ^ j) with hlt | hge
  · -- below the binade of `x` there is a step of the number at least between them
    exfalso
    have hm' : |(m : ℚ)| ≤ ((2 ^ (t + 1) : ℕ) : ℚ) := by exact_mod_cast hm
    have hstep : |(m : ℚ)| + 1 ≤ 2 ^ j := by exact_mod_cast hlt
    rw [abs_mul, abs_of_pos hT] at h
    have hA : |(m : ℚ)| * 2 ^ e ≤ ((2 ^ (t + 1) : ℕ) : ℚ) * 2 ^ e := by gcongr
    have hP : (|(m : ℚ)| + 1) * 2 ^ e ≤ 2 ^ j * 2 ^ e := by gcongr
    have hsub := abs_sub_abs_le_abs_sub x ((m : ℚ) * 2 ^ e)
    rw [abs_mul, abs_of_pos hT] at hsub
    have hhalf := lt_of_mul_le hN hT h (by linarith)
    linarith
  · -- the number is the first of the binade of `x`
    have hjt : j = t + 1 := by
      have hpow : (2 : ℤ) ^ j ≤ 2 ^ (t + 1) := hge.trans hm
      exact le_antisymm ((pow_le_pow_iff_right₀ one_lt_two).mp hpow) hj'
    subst hjt
    have hulp : ulp t emin x = 2 * 2 ^ e := by
      have hexp : binade emin x - t = 1 + e := by omega
      rw [ulp, hexp, zpow_add₀ two_ne_zero, zpow_one]
    rcases (abs_eq (by positivity)).mp (le_antisymm hm hge) with rfl | rfl
    · refine ⟨2 ^ t, ?_⟩
      rw [hulp]
      push_cast
      ring
    · refine ⟨-2 ^ t, ?_⟩
      rw [hulp]
      push_cast
      ring

/-- **What is close to a number of the format is rounded to it.** -/
theorem float_eq_of_abs_sub_le {x y : ℚ} (hy : Representable t emin y) {N : ℕ}
    (hN : 2 ^ (t + 1) < N) (h : |x - y| ≤ |y| / (2 * N)) : float t emin x = y := by
  -- both are within half a step of one multiple of the step
  obtain ⟨k, hk⟩ := hy.exists_mul hN h
  have hu := ulp_pos t emin x
  have hx := abs_lt_ulp t emin x
  have hsub : |y| ≤ |x| + |x - y| := by
    rw [abs_sub_comm]
    linarith [abs_sub_abs_le_abs_sub y x]
  rw [hk]
  refine roundTo_eq hu ?_
  rw [← hk]
  refine lt_of_mul_le hN hu h ?_
  push_cast
  linarith

end

end Wfrest.Nearest
