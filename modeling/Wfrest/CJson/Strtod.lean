import Wfrest.Base.Bytes
import Mathlib.Data.Rat.Floor
import Mathlib.Tactic.Linarith

/-!
# `strtod`

`parse_number` leaves a number to `strtod`. What `strtod` recognises and where it stops is
written out here (`strtod`, for the bytes that `parse_number` hands over); how it rounds is
a parameter (`Rounding`), of which only two facts are needed to read a document: rounding
keeps the order, and it keeps the integers up to `2 ^ 53`. The rounding of a real `double` is
in `Wfrest.CJson.Printf`.

`NumText` is the number of the JSON grammar with the value it writes. `strtod` takes all of
such a text (`strtod_numText`). The readers of a request look at `valueint` only, which for
an integer is that integer held in the range of an `int` (`valueint_round_int`).
-/

namespace Wfrest

/-- A `double` that `strtod` returns: a number, or an infinity where the number is too
large. The two zeros are equal and not told apart. -/
inductive Double where
  | fin (q : ℚ)
  | inf (negative : Bool)

namespace Double

/-- `n ≤ d` -/
def GeInt (d : Double) (n : ℤ) : Prop :=
  match d with
  | fin q => (n : ℚ) ≤ q
  | inf negative => negative = false

/-- `d ≤ n` -/
def LeInt (d : Double) (n : ℤ) : Prop :=
  match d with
  | fin q => q ≤ (n : ℚ)
  | inf negative => negative = true

instance (d : Double) (n : ℤ) : Decidable (d.GeInt n) := by
  unfold GeInt
  cases d <;> infer_instance

instance (d : Double) (n : ℤ) : Decidable (d.LeInt n) := by
  unfold LeInt
  cases d <;> infer_instance

theorem not_geInt_of_leInt {d : Double} {m n : ℤ} (h : d.LeInt m) (hlt : m < n) :
    ¬ d.GeInt n := by
  cases d with
  | fin q =>
    have hq : q ≤ (m : ℚ) := h
    have hmn : (m : ℚ) < n := Int.cast_lt.mpr hlt
    exact not_le.mpr (hq.trans_lt hmn)
  | inf negative =>
    have hneg : negative = true := h
    rw [hneg]
    exact Bool.true_eq_false_eq_False

theorem eq_fin_of_leInt_of_geInt {d : Double} {n : ℤ} (hle : d.LeInt n) (hge : d.GeInt n) :
    d = fin n := by
  cases d with
  | fin q => exact congrArg fin (le_antisymm hle hge)
  | inf negative => exact absurd (hle.symm.trans hge) Bool.true_eq_false_eq_False

/-- `INT_MAX` -/
def intMax : ℤ := 2147483647

/-- `INT_MIN` -/
def intMin : ℤ := -2147483648

/-- The conversion `(int)number` of a number in range. It cuts off the fraction. -/
def trunc : Double → ℤ
  | fin q => q.num.tdiv q.den
  | inf _ => 0

/-- `valueint`, with saturation in case of overflow. -/
def valueint (number : Double) : ℤ :=
  if number.GeInt intMax then intMax
  else if number.LeInt intMin then intMin
  else number.trunc

/-- A number is held in the range of an `int`. -/
theorem valueint_mem (number : Double) : intMin ≤ number.valueint ∧ number.valueint ≤ intMax := by
  unfold valueint
  split_ifs with hmax hmin
  · exact ⟨by decide, le_rfl⟩
  · exact ⟨le_rfl, by decide⟩
  cases number with
  | inf negative =>
    show intMin ≤ 0 ∧ 0 ≤ intMax
    decide
  | fin q =>
    -- the fraction is cut off towards zero
    have hden : (0 : ℤ) < q.den := Int.natCast_pos.mpr q.den_pos
    have hupper : q.num < intMax * q.den := by
      have hlt : q < (intMax : ℚ) := not_le.mp hmax
      rw [← Rat.num_div_den q, div_lt_iff₀ (by exact_mod_cast hden)] at hlt
      exact_mod_cast hlt
    have hlower : intMin * q.den < q.num := by
      have hlt : (intMin : ℚ) < q := not_le.mp hmin
      rw [← Rat.num_div_den q, lt_div_iff₀ (by exact_mod_cast hden)] at hlt
      exact_mod_cast hlt
    show intMin ≤ q.num.tdiv q.den ∧ q.num.tdiv q.den ≤ intMax
    rcases le_total 0 q.num with hpos | hneg
    · rw [Int.tdiv_eq_ediv_of_nonneg hpos]
      have hquot := Int.ediv_nonneg hpos hden.le
      have hlt := Int.ediv_lt_of_lt_mul hden hupper
      unfold intMin
      omega
    · have hquot : q.num.tdiv q.den = -(-q.num / q.den) := by
        rw [← Int.tdiv_eq_ediv_of_nonneg (by omega), Int.neg_tdiv, neg_neg]
      have hnonneg := Int.ediv_nonneg (a := -q.num) (by omega) hden.le
      have hlt := Int.ediv_lt_of_lt_mul (a := -q.num) (b := -intMin) hden (by linarith)
      rw [hquot]
      unfold intMax
      omega
end Double

/-- How a decimal number becomes a `double`. -/
structure Rounding where
  round : ℚ → Double
  geInt {p : ℚ} {n : ℤ} : |n| ≤ 2 ^ 53 → (n : ℚ) ≤ p → (round p).GeInt n
  leInt {p : ℚ} {n : ℤ} : |n| ≤ 2 ^ 53 → p ≤ (n : ℚ) → (round p).LeInt n

namespace Rounding

/-- Arithmetic that need not round. -/
def exact : Rounding where
  round := .fin
  geInt _ h := h
  leInt _ h := h

/-- Integers up to `2 ^ 53` are not rounded. -/
theorem round_eq_fin (R : Rounding) {n : ℤ} (h : |n| ≤ 2 ^ 53) : R.round n = .fin n :=
  Double.eq_fin_of_leInt_of_geInt (R.leInt h le_rfl) (R.geInt h le_rfl)

theorem round_int (R : Rounding) {n : ℤ} (hmin : Double.intMin ≤ n) (hmax : n ≤ Double.intMax) :
    R.round n = .fin n := by
  refine R.round_eq_fin ?_
  unfold Double.intMin at hmin
  unfold Double.intMax at hmax
  rw [abs_le]
  constructor <;> linarith

/-- An integer of the text is held in the range of an `int`. -/
theorem valueint_round_int (R : Rounding) (n : ℤ) :
    (R.round n).valueint = max Double.intMin (min n Double.intMax) := by
  unfold Double.valueint
  by_cases hmax : Double.intMax ≤ n
  · have hge : (R.round n).GeInt Double.intMax := R.geInt (by decide) (Int.cast_le.mpr hmax)
    rw [if_pos hge, min_eq_right hmax, max_eq_right (by decide)]
  · have hlt : n < Double.intMax := not_le.mp hmax
    rw [min_eq_left hlt.le]
    by_cases hmin : n ≤ Double.intMin
    · have hle : (R.round n).LeInt Double.intMin := R.leInt (by decide) (Int.cast_le.mpr hmin)
      have hnot := Double.not_geInt_of_leInt (n := Double.intMax) hle (by decide)
      rw [if_neg hnot, if_pos hle, max_eq_left hmin]
    · -- in range nothing is rounded
      have hgt : Double.intMin < n := not_le.mp hmin
      have hnmax : ¬ (Double.fin n).GeInt Double.intMax := fun h => hmax (Int.cast_le.mp h)
      have hnmin : ¬ (Double.fin n).LeInt Double.intMin := fun h => hmin (Int.cast_le.mp h)
      rw [R.round_int hgt.le hlt.le, if_neg hnmax, if_neg hnmin, max_eq_right hgt.le]
      show (n : ℚ).num.tdiv (n : ℚ).den = n
      rw [Rat.num_intCast, Rat.den_intCast, Nat.cast_one, Int.tdiv_one]

end Rounding

/-! ### Reading a number -/

/-- A decimal digit. -/
def isDigit (b : UInt8) : Bool := 48 ≤ b ∧ b ≤ 57

/-- The number that a run of digits writes. -/
def digitsVal (ds : Bytes) : Nat := ds.foldl (fun n d => 10 * n + (d.toNat - 48)) 0

/-- `+` -/
def plusSign : UInt8 := 43

/-- An optional sign, and what follows. -/
def readSign : Bytes → Bool × Bytes
  | [] => (false, [])
  | b :: s => if b = hyphen then (true, s) else if b = plusSign then (false, s) else (false, b :: s)

/-- `x`, or `-x` behind a minus sign. -/
def signed {α : Type} [Neg α] (negative : Bool) (x : α) : α := if negative then -x else x

/-- `e` or `E` -/
def isExpMark (b : UInt8) : Bool := b = 101 ∨ b = 69

/-- An optional exponent, and what follows. Without a digit there is no exponent. -/
def readExponent : Bytes → ℤ × Bytes
  | [] => (0, [])
  | b :: s =>
    let ds := (readSign s).2.takeWhile isDigit
    if isExpMark b ∧ ds ≠ [] then
      (signed (readSign s).1 (digitsVal ds), (readSign s).2.drop ds.length)
    else (0, b :: s)

/-- An optional fraction: its digits, and what follows. The point belongs to the number
even when no digit follows it. -/
def readFraction : Bytes → Bytes × Bytes
  | [] => ([], [])
  | b :: s =>
    if b = dot then (s.takeWhile isDigit, s.drop (s.takeWhile isDigit).length)
    else ([], b :: s)

/-- `strtod` on a text of digits, signs, points, `e` and `E`: the number and what the text
holds behind it, `none` when there is no number in front. -/
def strtod (R : Rounding) (s : Bytes) : Option (Double × Bytes) :=
  let ds := (readSign s).2.takeWhile isDigit
  let f := readFraction ((readSign s).2.drop ds.length)
  if ds = [] ∧ f.1 = [] then none
  else
    let e := readExponent f.2
    some (R.round (signed (readSign s).1 (digitsVal (ds ++ f.1) * 10 ^ (e.1 - f.1.length))), e.2)

theorem length_readSign_le (s : Bytes) : (readSign s).2.length ≤ s.length := by
  obtain _ | ⟨b, s⟩ := s
  · exact le_rfl
  rw [readSign]
  split_ifs
  · exact Nat.le_succ _
  · exact Nat.le_succ _
  · exact le_rfl

theorem length_readExponent_le (s : Bytes) : (readExponent s).2.length ≤ s.length := by
  obtain _ | ⟨b, s⟩ := s
  · exact le_rfl
  unfold readExponent
  dsimp only
  split_ifs
  · have hsign := length_readSign_le s
    rw [List.length_drop, List.length_cons]
    omega
  · exact le_rfl

theorem length_readFraction_le (s : Bytes) :
    (readFraction s).1.length + (readFraction s).2.length ≤ s.length := by
  obtain _ | ⟨b, s⟩ := s
  · exact le_rfl
  rw [readFraction]
  split_ifs
  · have htake := (List.takeWhile_prefix isDigit (l := s)).length_le
    show (s.takeWhile isDigit).length + (s.drop _).length ≤ s.length + 1
    rw [List.length_drop]
    omega
  · exact (Nat.zero_add _).le

/-- What is read as a number has a digit at least. -/
theorem length_lt_of_strtod {R : Rounding} {s left : Bytes} {d : Double}
    (h : strtod R s = some (d, left)) : left.length < s.length := by
  unfold strtod at h
  dsimp only at h
  split_ifs at h with hnone
  cases h
  have hsign := length_readSign_le s
  have htake := (List.takeWhile_prefix isDigit (l := (readSign s).2)).length_le
  have hfraction := length_readFraction_le
    ((readSign s).2.drop ((readSign s).2.takeWhile isDigit).length)
  have hexponent := length_readExponent_le
    (readFraction ((readSign s).2.drop ((readSign s).2.takeWhile isDigit).length)).2
  rw [List.length_drop] at hfraction
  rw [not_and_or, ← ne_eq, ← ne_eq, ← List.length_pos_iff, ← List.length_pos_iff] at hnone
  show (readExponent _).2.length < s.length
  omega

/-- What is read has been rounded. -/
theorem exists_round_of_strtod {R : Rounding} {s left : Bytes} {d : Double}
    (h : strtod R s = some (d, left)) : ∃ q, d = R.round q := by
  unfold strtod at h
  dsimp only at h
  split_ifs at h
  cases h
  exact ⟨_, rfl⟩

/-! ### The numbers of the grammar -/

/-- A non-empty run of digits. -/
def Digits (ds : Bytes) : Prop := ds ≠ [] ∧ ∀ d ∈ ds, isDigit d = true

/-- A fraction with its digits. -/
inductive FracText : Bytes → Bytes → Prop
  | absent : FracText [] []
  | digits {ds : Bytes} (h : Digits ds) : FracText (dot :: ds) ds

/-- An exponent with its value. -/
inductive ExpText : Bytes → ℤ → Prop
  | absent : ExpText [] 0
  | plain {b : UInt8} {ds : Bytes} (hb : isExpMark b = true) (h : Digits ds) :
      ExpText (b :: ds) (digitsVal ds)
  | plus {b : UInt8} {ds : Bytes} (hb : isExpMark b = true) (h : Digits ds) :
      ExpText (b :: plusSign :: ds) (digitsVal ds)
  | minus {b : UInt8} {ds : Bytes} (hb : isExpMark b = true) (h : Digits ds) :
      ExpText (b :: hyphen :: ds) (-digitsVal ds)

/-- A number without a sign, and its value. An integer part of several digits does not
begin with a zero. -/
inductive UnsignedText : Bytes → ℚ → Prop
  | mk {ds f fs e : Bytes} {x : ℤ} (hds : Digits ds)
      (hzero : ds.head? = some 48 → ds.length = 1) (hf : FracText f fs) (he : ExpText e x) :
      UnsignedText (ds ++ (f ++ e)) (digitsVal (ds ++ fs) * 10 ^ (x - fs.length))

/-- A number of a JSON text, and its value. -/
inductive NumText : Bytes → ℚ → Prop
  | unsigned {t : Bytes} {q : ℚ} (h : UnsignedText t q) : NumText t q
  | negative {t : Bytes} {q : ℚ} (h : UnsignedText t q) : NumText (hyphen :: t) (-q)

/-! ### All of a number is read -/

/-- A run of digits ends where no digit stands. -/
theorem takeWhile_isDigit {ds r : Bytes} (hds : ∀ d ∈ ds, isDigit d = true)
    (hr : ∀ b ∈ r.head?, isDigit b = false) : (ds ++ r).takeWhile isDigit = ds := by
  rw [List.takeWhile_append_of_pos hds]
  cases r with
  | nil => exact List.append_nil ds
  | cons b r =>
    rw [List.takeWhile_cons_of_neg (by simp [hr b rfl]), List.append_nil]

theorem Digits.exists_cons {ds : Bytes} (h : Digits ds) :
    ∃ d ds', ds = d :: ds' ∧ isDigit d = true := by
  obtain ⟨d, ds', rfl⟩ := List.exists_cons_of_ne_nil h.1
  exact ⟨d, ds', rfl, h.2 d List.mem_cons_self⟩

theorem readSign_of_ne {b : UInt8} {s : Bytes} (hyph : b ≠ hyphen) (hplus : b ≠ plusSign) :
    readSign (b :: s) = (false, b :: s) := by
  rw [readSign, if_neg hyph, if_neg hplus]

theorem readSign_of_isDigit {b : UInt8} {s : Bytes} (h : isDigit b = true) :
    readSign (b :: s) = (false, b :: s) := by
  refine readSign_of_ne ?_ ?_
  · intro hb
    rw [hb] at h
    cases h
  · intro hb
    rw [hb] at h
    cases h

/-- A sign and digits behind the mark of an exponent are read. -/
theorem readExponent_mark {b : UInt8} {s ds : Bytes} {negative : Bool} (hb : isExpMark b = true)
    (hds : Digits ds) (hsign : readSign s = (negative, ds)) :
    readExponent (b :: s) = (signed negative (digitsVal ds : ℤ), []) := by
  have htake : ds.takeWhile isDigit = ds := List.takeWhile_eq_self_iff.mpr hds.2
  simp only [readExponent, hsign, htake]
  rw [if_pos ⟨hb, hds.1⟩, List.drop_length]

theorem readExponent_expText {e : Bytes} {x : ℤ} (h : ExpText e x) : readExponent e = (x, []) := by
  cases h with
  | absent => rfl
  | plain hb hds =>
    obtain ⟨d, ds, rfl, hd⟩ := hds.exists_cons
    exact readExponent_mark hb hds (readSign_of_isDigit hd)
  | @plus b ds hb hds => exact readExponent_mark (s := plusSign :: ds) hb hds rfl
  | @minus b ds hb hds => exact readExponent_mark (s := hyphen :: ds) hb hds rfl

/-- An exponent does not continue the digits in front of it. -/
theorem head?_expText {e : Bytes} {x : ℤ} (h : ExpText e x) :
    ∀ b ∈ e.head?, isDigit b = false ∧ b ≠ dot := by
  have hmark : ∀ b : UInt8, isExpMark b = true → isDigit b = false ∧ b ≠ dot := by
    intro b hb
    rcases of_decide_eq_true hb with rfl | rfl <;> decide
  intro b hb
  cases h with
  | absent => cases hb
  | plain h => exact Option.some.inj hb ▸ hmark _ h
  | plus h => exact Option.some.inj hb ▸ hmark _ h
  | minus h => exact Option.some.inj hb ▸ hmark _ h

theorem readFraction_fracText {f fs e : Bytes} {x : ℤ} (hf : FracText f fs) (he : ExpText e x) :
    readFraction (f ++ e) = (fs, e) := by
  cases hf with
  | absent =>
    cases e with
    | nil => rfl
    | cons b e =>
      show readFraction (b :: e) = _
      rw [readFraction, if_neg (head?_expText he b rfl).2]
  | digits hds =>
    have htake := takeWhile_isDigit hds.2 fun b hb => (head?_expText he b hb).1
    show readFraction (dot :: (fs ++ e)) = _
    rw [readFraction, if_pos rfl, htake, List.drop_left]

theorem head?_fracText_append {f fs e : Bytes} {x : ℤ} (hf : FracText f fs) (he : ExpText e x) :
    ∀ b ∈ (f ++ e).head?, isDigit b = false := by
  cases hf with
  | absent => exact fun b hb => (head?_expText he b hb).1
  | digits hds =>
    intro b hb
    rw [← Option.some.inj hb]
    rfl

theorem UnsignedText.exists_cons {t : Bytes} {q : ℚ} (h : UnsignedText t q) :
    ∃ d t', t = d :: t' ∧ isDigit d = true := by
  cases h with
  | mk hds _ _ _ =>
    obtain ⟨d, ds, rfl, hd⟩ := hds.exists_cons
    exact ⟨d, _, rfl, hd⟩

/-- Behind the sign everything is taken. -/
theorem strtod_of_readSign {R : Rounding} {s t : Bytes} {q : ℚ} {negative : Bool}
    (hsign : readSign s = (negative, t)) (h : UnsignedText t q) :
    strtod R s = some (R.round (signed negative q), []) := by
  cases h with
  | @mk ds f fs e x hds hzero hf he =>
    have htake := takeWhile_isDigit hds.2 (head?_fracText_append hf he)
    unfold strtod
    rw [hsign]
    dsimp only
    rw [htake, List.drop_left, readFraction_fracText hf he, readExponent_expText he,
      if_neg fun hnil => hds.1 hnil.1]

/-- **A number of the grammar is read to its end.** -/
theorem strtod_numText (R : Rounding) {t : Bytes} {q : ℚ} (h : NumText t q) :
    strtod R t = some (R.round q, []) := by
  cases h with
  | unsigned h =>
    obtain ⟨d, t', rfl, hd⟩ := h.exists_cons
    exact strtod_of_readSign (readSign_of_isDigit hd) h
  | negative h => exact strtod_of_readSign rfl h

end Wfrest
