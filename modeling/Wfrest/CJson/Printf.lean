import Wfrest.CJson.Strtod
import Wfrest.Lib.Nearest
import Mathlib.Data.List.DropRight
import Mathlib.Data.Nat.Digits.Lemmas
import Mathlib.Tactic.Qify

/-!
# The texts of numbers

What `sprintf` writes for the conversions of `print_number`: an `int` with `%d`, a `double`
with `%g` and a number of significant digits. `%g` rounds to so many digits (`toDecimal`) and
leaves the zeros at the end out; whether there is an exponent depends on its size
(`decimalText`).

Both write numbers of the JSON grammar, which `strtod` takes to their end
(`numText_intText`, `exists_numText_sprintfG`), and fit into the buffer of `print_number`.

`Rounding.binary64` is the rounding of an IEEE `double`, to the nearest one and to the even one
of two. 17 digits are enough for it: what `%.17g` writes is read back
(`binary64_of_numText`).
-/

namespace Wfrest

open Nearest

/-! ### `%d` -/

/-- The digits of a number. -/
def natText (n : Nat) : Bytes :=
  if n = 0 then [48] else (Nat.digits 10 n).reverse.map fun d => (48 + d).toUInt8

/-- `%d` -/
def intText (n : ℤ) : Bytes := if n < 0 then hyphen :: natText n.natAbs else natText n.natAbs

theorem isDigit_of_lt {d : Nat} (h : d < 10) : isDigit (48 + d).toUInt8 = true := by
  have hall : ∀ d < 10, isDigit (48 + d).toUInt8 = true := by decide
  exact hall d h

theorem digits_natText (n : Nat) : Digits (natText n) := by
  unfold natText
  split_ifs with hzero
  · exact ⟨List.cons_ne_nil _ _, fun d hd => by rw [List.mem_singleton.mp hd]; rfl⟩
  · refine ⟨fun hnil => hzero ?_, fun b hb => ?_⟩
    · rw [List.map_eq_nil_iff, List.reverse_eq_nil_iff] at hnil
      exact Nat.digits_eq_nil_iff_eq_zero.mp hnil
    · obtain ⟨d, hd, rfl⟩ := List.mem_map.mp hb
      exact isDigit_of_lt (Nat.digits_lt_base (by decide) (List.mem_reverse.mp hd))

/-- Reading the digits gives the number. -/
theorem digitsVal_natText (n : Nat) : digitsVal (natText n) = n := by
  unfold natText
  split_ifs with hzero
  · exact hzero ▸ rfl
  -- the digits stand the other way round, the first one is the last that is added
  have hfold : ∀ ds : List Nat, (∀ d ∈ ds, d < 10) →
      digitsVal (ds.reverse.map fun d => (48 + d).toUInt8) = Nat.ofDigits 10 ds := by
    intro ds hds
    induction ds with
    | nil => rfl
    | cons d ds ih =>
      obtain ⟨hd, hds⟩ := List.forall_mem_cons.mp hds
      have hval : (48 + d).toUInt8.toNat - 48 = d := by
        rw [Nat.toUInt8_eq, UInt8.toNat_ofNat']
        omega
      rw [List.reverse_cons, List.map_append, digitsVal, List.foldl_append]
      show 10 * digitsVal _ + ((48 + d).toUInt8.toNat - 48) = _
      rw [ih hds, hval, Nat.ofDigits_cons, Nat.add_comm]
  rw [hfold _ fun d hd => Nat.digits_lt_base (by decide) hd, Nat.ofDigits_digits]

/-- Only the number zero begins with a zero. -/
theorem length_natText_of_head {n : Nat} (h : (natText n).head? = some 48) :
    (natText n).length = 1 := by
  unfold natText at h ⊢
  split_ifs at h ⊢ with hzero
  · rfl
  have hne : Nat.digits 10 n ≠ [] := Nat.digits_ne_nil_iff_ne_zero.mpr hzero
  rw [List.head?_map, List.head?_reverse, List.getLast?_eq_some_getLast hne] at h
  have hlast := Nat.getLast_digit_ne_zero 10 hzero
  have hlt : (Nat.digits 10 n).getLast hne < 10 :=
    Nat.digits_lt_base (by decide) (List.getLast_mem hne)
  have hall : ∀ d < 10, (48 + d).toUInt8 = 48 → d = 0 := by decide
  exact absurd (hall _ hlt (Option.some.inj h)) hlast

theorem length_natText_le {n k : Nat} (hk : 0 < k) (h : n < 10 ^ k) : (natText n).length ≤ k := by
  unfold natText
  split_ifs
  · exact hk
  · rw [List.length_map, List.length_reverse]
    exact (Nat.digits_length_le_iff (by decide) _).mpr h

/-- A number has as many digits as its size says. -/
theorem length_natText {n d : Nat} (h : 10 ^ d ≤ n) (h' : n < 10 ^ (d + 1)) :
    (natText n).length = d + 1 := by
  refine le_antisymm (length_natText_le (Nat.succ_pos d) h') ?_
  have hpos : n ≠ 0 := (Nat.pow_pos (by decide)).trans_le h |>.ne'
  unfold natText
  rw [if_neg hpos, List.length_map, List.length_reverse]
  exact (Nat.lt_digits_length_iff (by decide) _).mpr h

theorem unsignedText_natText (n : Nat) : UnsignedText (natText n) (n : ℚ) := by
  have h := UnsignedText.mk (digits_natText n) length_natText_of_head .absent .absent
  rw [List.append_nil, List.append_nil, digitsVal_natText] at h
  simpa using h

theorem numText_intText (n : ℤ) : NumText (intText n) (n : ℚ) := by
  unfold intText
  split_ifs with hneg
  · have h := NumText.negative (unsignedText_natText n.natAbs)
    have hn : -(n.natAbs : ℚ) = (n : ℚ) := by
      rw [← Int.cast_natCast, Int.ofNat_natAbs_of_nonpos hneg.le, Int.cast_neg, neg_neg]
    rwa [hn] at h
  · have h := NumText.unsigned (unsignedText_natText n.natAbs)
    have hn : (n.natAbs : ℚ) = (n : ℚ) := by
      rw [← Int.cast_natCast, Int.natAbs_of_nonneg (not_lt.mp hneg)]
    rwa [hn] at h

theorem length_intText_le {n : ℤ} (hmin : Double.intMin ≤ n) (hmax : n ≤ Double.intMax) :
    (intText n).length ≤ 11 := by
  unfold Double.intMin at hmin
  unfold Double.intMax at hmax
  have hlen : (natText n.natAbs).length ≤ 10 := length_natText_le (by decide) (by omega)
  unfold intText
  split_ifs
  · rw [List.length_cons]
    omega
  · omega

/-! ### Decimal fractions -/

theorem digitsVal_append_zeros (ds : Bytes) (k : Nat) :
    digitsVal (ds ++ List.replicate k 48) = digitsVal ds * 10 ^ k := by
  induction k with
  | zero => rw [List.replicate_zero, List.append_nil, pow_zero, Nat.mul_one]
  | succ k ih =>
    rw [List.replicate_succ', ← List.append_assoc, digitsVal, List.foldl_append]
    show 10 * digitsVal _ + 0 = _
    rw [ih]
    ring

theorem digitsVal_zeros_append (k : Nat) (ds : Bytes) :
    digitsVal (List.replicate k 48 ++ ds) = digitsVal ds := by
  induction k with
  | zero => rfl
  | succ k ih => exact ih

/-- A decimal fraction, without the zeros at its end, and without its point where nothing is
left behind it. -/
def pointText (ip fs : Bytes) : Bytes :=
  match fs.rdropWhile fun b => b = 48 with
  | [] => ip
  | f :: fraction => ip ++ dot :: f :: fraction

theorem length_pointText_le (ip fs : Bytes) :
    (pointText ip fs).length ≤ ip.length + 1 + fs.length := by
  have hle := (List.rdropWhile_prefix (fun b : UInt8 => decide (b = 48)) fs).length_le
  unfold pointText
  split
  · omega
  · next f fraction heq =>
    rw [heq] at hle
    rw [List.length_append, List.length_cons]
    omega

/-- What is left out does not change the value. -/
theorem unsignedText_pointText {ip fs e : Bytes} {x : ℤ} (hip : Digits ip)
    (hzero : ip.head? = some 48 → ip.length = 1) (hfs : ∀ b ∈ fs, isDigit b = true)
    (he : ExpText e x) :
    UnsignedText (pointText ip fs ++ e) (digitsVal (ip ++ fs) * 10 ^ (x - fs.length)) := by
  obtain ⟨k, hk⟩ : ∃ k, fs = (fs.rdropWhile fun b => b = 48) ++ List.replicate k 48 := by
    have hrep : (fs.rtakeWhile fun b => b = 48) = List.replicate _ 48 :=
      List.eq_replicate_of_mem fun b hb => of_decide_eq_true
        (List.mem_rtakeWhile_imp (p := fun b : UInt8 => decide (b = 48)) hb)
    refine ⟨(fs.rtakeWhile fun b => b = 48).length, ?_⟩
    rw [← hrep, List.rdropWhile_append_rtakeWhile]
  -- a zero more is a factor of ten, and a digit more behind the point
  have hval : ∀ ds : Bytes, fs = ds ++ List.replicate k 48 →
      (digitsVal (ip ++ fs) : ℚ) * 10 ^ (x - fs.length) =
        digitsVal (ip ++ ds) * 10 ^ (x - ds.length) := by
    rintro ds rfl
    rw [← List.append_assoc, digitsVal_append_zeros, List.length_append, List.length_replicate]
    push_cast
    rw [mul_assoc, ← zpow_natCast, ← zpow_add₀ (by norm_num)]
    congr 2
    ring
  rw [hval _ hk]
  unfold pointText
  split
  · next heq =>
    rw [heq]
    exact .mk hip hzero .absent he
  · next f fraction heq =>
    rw [heq, List.append_assoc]
    refine .mk hip hzero (.digits ⟨List.cons_ne_nil _ _, fun b hb => hfs b ?_⟩) he
    rw [hk, heq]
    exact List.mem_append_left _ hb

/-! ### `%g` -/

/-- The digits of a positive number, `d` of them behind the first one, and the exponent of the
first. -/
def toDecimal (d : Nat) (q : ℚ) : Nat × ℤ :=
  let x := Int.log 10 q
  let m := (roundEven (q / 10 ^ (x - d))).toNat
  -- rounding up can bring one more digit
  if m = 10 ^ (d + 1) then (10 ^ d, x + 1) else (m, x)

/-- An exponent with its sign and two digits at least. -/
def exponentText (x : ℤ) : Bytes :=
  let ds := natText x.natAbs
  101 :: (if x < 0 then hyphen else plusSign) :: (if ds.length < 2 then 48 :: ds else ds)

/-- The digits `m`, `d` of them behind the first one, which has the exponent `x`: with an
exponent where that is below -4 or not below the precision. -/
def decimalText (d m : Nat) (x : ℤ) : Bytes :=
  let ds := natText m
  if -4 ≤ x ∧ x ≤ d then
    if 0 ≤ x then pointText (ds.take (x.toNat + 1)) (ds.drop (x.toNat + 1))
    else pointText [48] (List.replicate (-x - 1).toNat 48 ++ ds)
  else pointText (ds.take 1) (ds.drop 1) ++ exponentText x

/-- `%g`, with a precision that is not zero. -/
def sprintfG (precision : Nat) (q : ℚ) : Bytes :=
  let d := precision - 1
  if q = 0 then [48]
  else
    let text := decimalText d (toDecimal d |q|).1 (toDecimal d |q|).2
    if q < 0 then hyphen :: text else text

section

variable {d : Nat} {q : ℚ}

theorem toDecimal_bounds (hq : 0 < q) :
    10 ^ d ≤ (toDecimal d q).1 ∧ (toDecimal d q).1 < 10 ^ (d + 1) := by
  have hstep : (0 : ℚ) < 10 ^ (Int.log 10 q - d) := by positivity
  have hlow : ((10 ^ d : Nat) : ℤ) ≤ roundEven (q / 10 ^ (Int.log 10 q - d)) := by
    refine le_roundEven ?_
    rw [le_div_iff₀ hstep]
    push_cast
    rw [← zpow_natCast, ← zpow_add₀ (by norm_num), add_sub_cancel]
    exact_mod_cast Int.zpow_log_le_self (b := 10) (by decide) hq
  have hhigh : roundEven (q / 10 ^ (Int.log 10 q - d)) ≤ ((10 ^ (d + 1) : Nat) : ℤ) := by
    refine roundEven_le ?_
    rw [div_le_iff₀ hstep]
    push_cast
    rw [← zpow_natCast, ← zpow_add₀ (by norm_num)]
    have hexp : ((d + 1 : Nat) : ℤ) + (Int.log 10 q - d) = Int.log 10 q + 1 := by
      push_cast
      ring
    rw [hexp]
    exact_mod_cast (Int.lt_zpow_succ_log_self (b := 10) (by decide) q).le
  have hpow : 10 ^ d < 10 ^ (d + 1) := Nat.pow_lt_pow_succ (by decide)
  unfold toDecimal
  dsimp only
  split_ifs with heq
  · exact ⟨le_rfl, hpow⟩
  · omega

/-- The digits are those of the nearest number with so many. -/
theorem toDecimal_val (hq : 0 < q) :
    ((toDecimal d q).1 : ℚ) * 10 ^ ((toDecimal d q).2 - d) =
      roundTo ((10 : ℕ) ^ (Int.log 10 q - d)) q := by
  have hnonneg : 0 ≤ roundEven (q / 10 ^ (Int.log 10 q - d)) := by
    refine le_roundEven ?_
    push_cast
    positivity
  have hround : roundTo ((10 : ℕ) ^ (Int.log 10 q - d)) q =
      ((roundEven (q / 10 ^ (Int.log 10 q - d))).toNat : ℚ) * 10 ^ (Int.log 10 q - d) := by
    have hcast : ((roundEven (q / 10 ^ (Int.log 10 q - d))).toNat : ℚ) =
        (roundEven (q / 10 ^ (Int.log 10 q - d)) : ℤ) := by
      exact_mod_cast congrArg (Int.cast : ℤ → ℚ) (Int.toNat_of_nonneg hnonneg)
    rw [hcast, roundTo, Nat.cast_ofNat]
  rw [hround]
  unfold toDecimal
  dsimp only
  split_ifs with heq
  · -- the digits have become one more
    rw [heq]
    push_cast
    rw [← zpow_natCast, ← zpow_natCast, ← zpow_add₀ (by norm_num), ← zpow_add₀ (by norm_num)]
    congr 1
    push_cast
    ring
  · rfl

theorem toDecimal_exponent (q : ℚ) :
    Int.log 10 q ≤ (toDecimal d q).2 ∧ (toDecimal d q).2 ≤ Int.log 10 q + 1 := by
  unfold toDecimal
  dsimp only
  split_ifs
  · exact ⟨by omega, le_rfl⟩
  · exact ⟨le_rfl, by omega⟩

end

theorem expText_exponentText (x : ℤ) : ExpText (exponentText x) x := by
  have hds := digits_natText x.natAbs
  have hval := digitsVal_natText x.natAbs
  -- a zero in front of a single digit
  have htwo : ∀ ds : Bytes, Digits ds →
      Digits (if ds.length < 2 then 48 :: ds else ds) ∧
        digitsVal (if ds.length < 2 then 48 :: ds else ds) = digitsVal ds := by
    intro ds hds
    split_ifs
    · exact ⟨⟨List.cons_ne_nil _ _, List.forall_mem_cons.mpr ⟨rfl, hds.2⟩⟩, rfl⟩
    · exact ⟨hds, rfl⟩
  obtain ⟨hdigits, hsame⟩ := htwo _ hds
  rw [hval] at hsame
  unfold exponentText
  dsimp only
  by_cases hneg : x < 0
  · have htext := ExpText.minus (b := 101) rfl hdigits
    rw [hsame, Int.ofNat_natAbs_of_nonpos hneg.le, neg_neg] at htext
    rw [if_pos hneg]
    exact htext
  · have htext := ExpText.plus (b := 101) rfl hdigits
    rw [hsame, Int.natAbs_of_nonneg (not_lt.mp hneg)] at htext
    rw [if_neg hneg]
    exact htext

theorem length_exponentText_le {x : ℤ} (h : x.natAbs < 1000) : (exponentText x).length ≤ 5 := by
  have hlen := length_natText_le (k := 3) (by decide) h
  unfold exponentText
  dsimp only
  split_ifs
  all_goals
    simp only [List.length_cons]
    omega

/-- The first digits do not begin with a zero unless the number is zero. -/
theorem length_take_natText_of_head {m k : Nat} (h : ((natText m).take (k + 1)).head? = some 48) :
    ((natText m).take (k + 1)).length = 1 := by
  have hhead : (natText m).head? = some 48 := by
    rw [← h, List.head?_take, if_neg (Nat.succ_ne_zero k)]
  rw [List.length_take, length_natText_of_head hhead]
  omega

theorem digits_take_natText (m k : Nat) : Digits ((natText m).take (k + 1)) := by
  obtain ⟨hne, hall⟩ := digits_natText m
  refine ⟨fun hnil => ?_, fun b hb => hall b (List.mem_of_mem_take hb)⟩
  rcases List.take_eq_nil_iff.mp hnil with hk | hnil
  · cases hk
  · exact hne hnil

section

variable {d m : Nat} {x : ℤ}

/-- **The digits are written** with their value. -/
theorem unsignedText_decimalText (hm : 10 ^ d ≤ m) (hm' : m < 10 ^ (d + 1)) :
    UnsignedText (decimalText d m x) (m * 10 ^ (x - d)) := by
  have hlen := length_natText hm hm'
  obtain ⟨-, hall⟩ := digits_natText m
  have hdrop : ∀ k, ∀ b ∈ (natText m).drop k, isDigit b = true :=
    fun k b hb => hall b (List.mem_of_mem_drop hb)
  have hval : ∀ k, digitsVal ((natText m).take k ++ (natText m).drop k) = m := by
    intro k
    rw [List.take_append_drop, digitsVal_natText]
  unfold decimalText
  dsimp only
  split_ifs with hsmall hnonneg
  · -- the point stands among the digits
    have htext := unsignedText_pointText (digits_take_natText m x.toNat)
      length_take_natText_of_head (hdrop (x.toNat + 1)) .absent
    rw [List.append_nil, hval, List.length_drop, hlen] at htext
    have hexp : (0 : ℤ) - ((d + 1 - (x.toNat + 1) : Nat) : ℤ) = x - d := by omega
    rwa [hexp] at htext
  · -- the number is less than one
    have hzeros : ∀ b ∈ List.replicate (-x - 1).toNat (48 : UInt8) ++ natText m,
        isDigit b = true := by
      intro b hb
      rcases List.mem_append.mp hb with hb | hb
      · rw [List.eq_of_mem_replicate hb]
        rfl
      · exact hall b hb
    have hone : Digits [48] := by
      refine ⟨List.cons_ne_nil _ _, fun b hb => ?_⟩
      rw [List.mem_singleton.mp hb]
      rfl
    have htext := unsignedText_pointText hone (fun _ => rfl) hzeros .absent
    have hsame : digitsVal ([48] ++ (List.replicate (-x - 1).toNat 48 ++ natText m)) = m := by
      have h := digitsVal_zeros_append ((-x - 1).toNat + 1) (natText m)
      rwa [List.replicate_succ, List.cons_append, digitsVal_natText] at h
    rw [List.append_nil, hsame, List.length_append, List.length_replicate, hlen] at htext
    have hexp : (0 : ℤ) - (((-x - 1).toNat + (d + 1) : Nat) : ℤ) = x - d := by omega
    rwa [hexp] at htext
  · -- one digit, the point, the others and the exponent
    have htext := unsignedText_pointText (digits_take_natText m 0) length_take_natText_of_head
      (hdrop 1) (expText_exponentText x)
    rw [hval, List.length_drop, hlen, Nat.add_sub_cancel] at htext
    exact htext

theorem length_decimalText_le (hm : 10 ^ d ≤ m) (hm' : m < 10 ^ (d + 1)) (hx : x.natAbs < 1000) :
    (decimalText d m x).length ≤ d + 7 := by
  have hlen := length_natText hm hm'
  unfold decimalText
  dsimp only
  split_ifs with hsmall hnonneg
  · have hpoint := length_pointText_le ((natText m).take (x.toNat + 1))
      ((natText m).drop (x.toNat + 1))
    rw [List.length_take, List.length_drop] at hpoint
    omega
  · have hpoint := length_pointText_le [48] (List.replicate (-x - 1).toNat 48 ++ natText m)
    rw [List.length_append, List.length_replicate, List.length_singleton] at hpoint
    omega
  · have hpoint := length_pointText_le ((natText m).take 1) ((natText m).drop 1)
    have hexp := length_exponentText_le hx
    rw [List.length_take, List.length_drop] at hpoint
    rw [List.length_append]
    omega

end

/-- **What `%g` writes** is a number that is as close as its digits allow. -/
theorem exists_numText_sprintfG (precision : Nat) (q : ℚ) :
    ∃ q', NumText (sprintfG precision q) q' ∧
      |q' - q| ≤ |q| / (2 * (10 : ℕ) ^ (precision - 1)) := by
  unfold sprintfG
  dsimp only
  generalize precision - 1 = d
  split_ifs with hzero hneg
  -- zero, and the two signs, for which the digits are those of the absolute value
  · refine ⟨0, ?_, by simp [hzero]⟩
    simpa [natText] using NumText.unsigned (unsignedText_natText 0)
  all_goals
    have habs : 0 < |q| := abs_pos.mpr hzero
    obtain ⟨hm, hm'⟩ := toDecimal_bounds (d := d) habs
    have htext := unsignedText_decimalText (x := (toDecimal d |q|).2) hm hm'
    have hclose := abs_sub_roundTo_log_le (b := 10) (by decide) d habs
    rw [toDecimal_val habs] at htext
  · refine ⟨_, .negative htext, ?_⟩
    rw [abs_of_neg hneg] at hclose ⊢
    rwa [neg_sub_comm, ← neg_sub, abs_neg, abs_sub_comm]
  · refine ⟨_, .unsigned htext, ?_⟩
    rw [abs_of_nonneg (not_lt.mp hneg)] at hclose ⊢
    rwa [abs_sub_comm]

theorem length_sprintfG_le (precision : Nat) {q : ℚ}
    (hlow : -998 ≤ Int.log 10 |q|) (hhigh : Int.log 10 |q| ≤ 998) :
    (sprintfG precision q).length ≤ precision - 1 + 8 := by
  unfold sprintfG
  dsimp only
  generalize precision - 1 = d
  split_ifs with hzero hneg
  · simp
  all_goals
    have habs : 0 < |q| := abs_pos.mpr hzero
    obtain ⟨hm, hm'⟩ := toDecimal_bounds (d := d) habs
    obtain ⟨hle, hle'⟩ := toDecimal_exponent (d := d) |q|
    have hlen := length_decimalText_le (x := (toDecimal d |q|).2) hm hm' (by omega)
  · rw [List.length_cons]
    omega
  · omega

/-! ### `double` -/

namespace Rounding

theorem lt_two_pow_of_abs_le {x : ℚ} {n : ℤ} (hn : |n| ≤ 2 ^ 53) (h : |x| ≤ |(n : ℚ)|) :
    |x| < 2 ^ 1024 := by
  have hn' : |(n : ℚ)| ≤ 2 ^ 53 := by exact_mod_cast hn
  exact (h.trans hn').trans_lt (pow_lt_pow_right₀ one_lt_two (by decide))

/-- The rounding of a `double`, which has 53 bits, and none below `2 ^ -1074`. What reaches
`2 ^ 1024` is infinite. -/
def binary64 : Rounding where
  round p :=
    if |float 52 (-1022) p| < 2 ^ 1024 then .fin (float 52 (-1022) p) else .inf (p < 0)
  geInt {p n} hn h := by
    have hle : (n : ℚ) ≤ float 52 (-1022) p := int_le_float (by decide) hn h
    split_ifs with hfin
    · exact hle
    · -- a number that is not below an `int` cannot round to minus infinity
      refine decide_eq_false fun hneg => hfin (lt_two_pow_of_abs_le hn ?_)
      have hzero : float 52 (-1022) p ≤ 0 := by
        exact_mod_cast float_le_int (n := 0) (by decide) (by decide) (by exact_mod_cast hneg.le)
      rw [abs_of_nonpos hzero, abs_of_nonpos (hle.trans hzero)]
      exact neg_le_neg hle
  leInt {p n} hn h := by
    have hle : float 52 (-1022) p ≤ n := float_le_int (by decide) hn h
    split_ifs with hfin
    · exact hle
    · refine decide_eq_true (not_le.mp fun hpos => hfin (lt_two_pow_of_abs_le hn ?_))
      have hzero : 0 ≤ float 52 (-1022) p := by
        exact_mod_cast int_le_float (n := 0) (by decide) (by decide) (by exact_mod_cast hpos)
      rw [abs_of_nonneg hzero, abs_of_nonneg (hzero.trans hle)]
      exact hle

theorem binary64_eq_fin {p q : ℚ} :
    binary64.round p = .fin q ↔ float 52 (-1022) p = q ∧ |q| < 2 ^ 1024 := by
  show (if |float 52 (-1022) p| < 2 ^ 1024 then Double.fin (float 52 (-1022) p)
    else .inf (p < 0)) = .fin q ↔ _
  split_ifs with hfin
  · rw [Double.fin.injEq]
    exact ⟨fun h => ⟨h, h ▸ hfin⟩, And.left⟩
  · exact iff_of_false nofun fun ⟨h, hlt⟩ => hfin (h ▸ hlt)

theorem two_pow_le (k : ℕ) : (2 : ℚ) ^ (3 * k) ≤ 10 ^ k := by
  rw [pow_mul]
  gcongr
  norm_num

/-- The exponent of a `double` has three digits at most. -/
theorem log_binary64 {p q : ℚ} (h : binary64.round p = .fin q) (hq : q ≠ 0) :
    -998 ≤ Int.log 10 |q| ∧ Int.log 10 |q| ≤ 998 := by
  obtain ⟨hfloat, hlt⟩ := binary64_eq_fin.mp h
  have habs : 0 < |q| := abs_pos.mpr hq
  have hle : (2 : ℚ) ^ (-1022 - (52 : ℕ) : ℤ) ≤ |q| :=
    Representable.le_abs (hfloat ▸ representable_float p) hq
  have hlow : ((10 : ℕ) : ℚ) ^ (-998 : ℤ) ≤ |q| := by
    refine le_trans ?_ hle
    -- a rough bound is enough: `2 ^ 3 ≤ 10`
    have hpow : (2 : ℚ) ^ 1074 ≤ 10 ^ 998 :=
      (pow_le_pow_right₀ one_le_two (by decide)).trans (two_pow_le 998)
    rw [Nat.cast_ofNat, show (-1022 - (52 : ℕ) : ℤ) = -((1074 : ℕ) : ℤ) by norm_num,
      show (-998 : ℤ) = -((998 : ℕ) : ℤ) by norm_num, zpow_neg, zpow_neg, zpow_natCast,
      zpow_natCast]
    exact inv_anti₀ (by positivity) hpow
  have hhigh : |q| < ((10 : ℕ) : ℚ) ^ (999 : ℤ) := by
    refine hlt.trans_le ?_
    have hpow : (2 : ℚ) ^ 1024 ≤ 10 ^ 999 :=
      (pow_le_pow_right₀ one_le_two (by decide)).trans (two_pow_le 999)
    rw [Nat.cast_ofNat, show (999 : ℤ) = ((999 : ℕ) : ℤ) by norm_num, zpow_natCast]
    exact hpow
  have hlog := (Int.zpow_le_iff_le_log (b := 10) (by decide) habs).mp hlow
  have hlog' := (Int.lt_zpow_iff_log_lt (b := 10) (by decide) habs).mp hhigh
  exact ⟨hlog, by omega⟩

/-- **17 digits are enough** for a `double`. -/
theorem binary64_of_abs_sub_le {p q q' : ℚ} (h : binary64.round p = .fin q)
    (hclose : |q' - q| ≤ |q| / (2 * ((10 : ℕ) : ℚ) ^ 16)) : binary64.round q' = .fin q := by
  obtain ⟨hfloat, hlt⟩ := binary64_eq_fin.mp h
  refine binary64_eq_fin.mpr ⟨?_, hlt⟩
  refine float_eq_of_abs_sub_le (N := 10 ^ 16) (hfloat ▸ representable_float p) (by decide) ?_
  rwa [Nat.cast_pow]

end Rounding

end Wfrest
