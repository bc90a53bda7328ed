import Mathlib.Algebra.Ring.Int.Defs
import Mathlib.Algebra.Ring.Nat
import Mathlib.Data.List.Lex
import Mathlib.Data.List.TakeWhile

/-!
# Byte strings

`std::string` and the memory behind a `const char *` are lists of bytes. A C
string is the part of such a list before its first NUL (`cStr`); a byte past the
end of a `std::string` buffer reads as NUL.

Bytes are ordered as unsigned numbers and strings lexicographically, a proper
prefix being smaller. That is the order of `memcmp` followed by the length, and
hence of `std::string` and of `StringPiece` as map keys.
-/

namespace Wfrest

instance instLinearOrderUInt8 : LinearOrder UInt8 where
  le_refl := UInt8.le_refl
  le_trans _ _ _ := UInt8.le_trans
  le_antisymm _ _ := UInt8.le_antisymm
  le_total := UInt8.le_total
  lt_iff_le_not_ge a b := by
    simp only [UInt8.lt_iff_toNat_lt, UInt8.le_iff_toNat_le]; omega
  toDecidableLE := inferInstance
  toDecidableEq := inferInstance
  toDecidableLT := inferInstance

/-- A byte string. -/
abbrev Bytes := List UInt8

/-- The bytes of an ASCII literal. -/
def ascii (s : String) : Bytes := s.toList.map fun c => c.toNat.toUInt8

theorem ascii_append (s t : String) : ascii (s ++ t) = ascii s ++ ascii t := by
  unfold ascii
  rw [String.toList_append, List.map_append]

/-- `/` -/
def slash : UInt8 := 47

/-- `*` -/
def star : UInt8 := 42

/-- `{` -/
def lbrace : UInt8 := 123

/-- `}` -/
def rbrace : UInt8 := 125

/-- The space character. -/
def space : UInt8 := 32

/-- `.` -/
def dot : UInt8 := 46

/-- CR -/
def cr : UInt8 := 13

/-- LF -/
def lf : UInt8 := 10

/-- `-` -/
def hyphen : UInt8 := 45

/-- `:` -/
def colon : UInt8 := 58

/-- `,` -/
def comma : UInt8 := 44

/-- `;` -/
def semicolon : UInt8 := 59

/-- `=` -/
def equals : UInt8 := 61

/-- `"` -/
def dquote : UInt8 := 34

/-- CR LF -/
def crlf : Bytes := [cr, lf]

/-- A property of all bytes can be checked on the numbers below 256. -/
theorem forall_byte {p : UInt8 → Prop} (h : ∀ n : Fin 256, p (UInt8.ofNat n)) (c : UInt8) :
    p c := by
  have hc := h ⟨c.toNat, c.toNat_lt⟩
  rwa [UInt8.ofNat_toNat] at hc

/-- A property of the bytes of a given string can be checked on each of them. -/
theorem forall_mem_of_all {p : UInt8 → Prop} [DecidablePred p] {s : Bytes}
    (h : s.all (fun c => p c) = true) : ∀ c ∈ s, p c :=
  fun c hc => of_decide_eq_true (List.all_eq_true.mp h c hc)

theorem shiftRight_four_lt (chr : UInt8) : chr.toNat >>> 4 < 16 := by
  rw [Nat.shiftRight_eq_div_pow]
  have := chr.toNat_lt
  omega

theorem and_fifteen_lt (chr : UInt8) : chr.toNat &&& 15 < 16 :=
  lt_of_le_of_lt Nat.and_le_right (by decide)

/-- The two halves of a byte determine it. -/
theorem eq_of_nibbles {c d : UInt8} (hhi : c.toNat >>> 4 = d.toNat >>> 4)
    (hlo : c.toNat &&& 15 = d.toNat &&& 15) : c = d := by
  have hmask : (15 : Nat) = 2 ^ 4 - 1 := rfl
  rw [hmask, Nat.and_two_pow_sub_one_eq_mod, Nat.and_two_pow_sub_one_eq_mod] at hlo
  rw [Nat.shiftRight_eq_div_pow, Nat.shiftRight_eq_div_pow] at hhi
  refine UInt8.toNat_inj.mp ?_
  omega

/-- `tolower` in the C locale. -/
def tolower (b : UInt8) : UInt8 := if 65 ≤ b ∧ b ≤ 90 then b + 32 else b

/-- `std::string::c_str()` handed to a parameter of type `const char *`: the
callee sees the bytes before the first NUL. -/
def cStr (s : Bytes) : Bytes := s.takeWhile (· ≠ 0)

theorem cStr_eq_self {s : Bytes} (h : 0 ∉ s) : cStr s = s := by
  refine List.takeWhile_eq_self_iff.mpr fun b hb => ?_
  have hne : b ≠ 0 := fun h0 => h (h0 ▸ hb)
  simpa using hne

theorem zero_notMem_cStr (s : Bytes) : 0 ∉ cStr s := by
  intro h
  have := List.mem_takeWhile_imp h
  simp at this

@[simp] theorem cStr_cStr (s : Bytes) : cStr (cStr s) = cStr s :=
  cStr_eq_self (zero_notMem_cStr s)

/-- `strstr`: the text from the first occurrence on, `none` for a null pointer. -/
def strstr (needle : Bytes) : Bytes → Option Bytes
  | [] => if needle = [] then some [] else none
  | b :: s => if needle.isPrefixOf (b :: s) then some (b :: s) else strstr needle s

/-- What `strstr` finds is a tail of the text. -/
theorem strstr_suffix {needle s t : Bytes} (h : strstr needle s = some t) : t <:+ s := by
  induction s with
  | nil =>
    rw [strstr] at h
    split at h
    · exact Option.some.inj h ▸ List.suffix_refl _
    · cases h
  | cons b s ih =>
    rw [strstr] at h
    split at h
    · exact Option.some.inj h ▸ List.suffix_refl _
    · exact (ih h).trans (List.suffix_cons b s)

/-- Where the needle stands in the text, the longest tail that begins with it is found. -/
theorem exists_strstr {needle s : Bytes} (h : needle <:+: s) :
    ∃ t, strstr needle s = some t ∧ t <:+ s ∧ needle <+: t ∧
      ∀ t', t' <:+ s → needle <+: t' → t'.length ≤ t.length := by
  induction s with
  | nil =>
    obtain rfl := List.infix_nil.mp h
    exact ⟨[], rfl, List.suffix_refl _, List.prefix_refl _, fun t' ht' _ => ht'.length_le⟩
  | cons b s ih =>
    rw [strstr]
    by_cases hpre : needle <+: b :: s
    · rw [if_pos (List.isPrefixOf_iff_prefix.mpr hpre)]
      exact ⟨b :: s, rfl, List.suffix_refl _, hpre, fun t' ht' _ => ht'.length_le⟩
    · rw [if_neg fun htest => hpre (List.isPrefixOf_iff_prefix.mp htest)]
      obtain ⟨t, hfind, ht, hbegins, hmax⟩ :=
        ih ((List.infix_cons_iff.mp h).resolve_left hpre)
      refine ⟨t, hfind, ht.trans (List.suffix_cons b s), hbegins, fun t' ht' hpre' => ?_⟩
      -- the whole text does not begin with the needle
      rcases List.suffix_cons_iff.mp ht' with rfl | ht'
      · exact absurd hpre' hpre
      · exact hmax t' ht' hpre'

/-- A negative or too large size given to `std::string`. -/
inductive StdException where
  | length_error
  deriving DecidableEq, Repr

/-- Subtraction of two `size_t`, which wraps. -/
def sizeSub (a b : Nat) : Nat := if b ≤ a then a - b else a + 2 ^ 64 - b

theorem sizeSub_of_le {a b : Nat} (h : b ≤ a) : sizeSub a b = a - b := if_pos h

/-! ### `int` -/

/-- A number stored in an `int`. -/
def toInt (n : Int) : Int := n.bmod (2 ^ 32)

theorem toInt_of_lt {n : Nat} (h : n < 2 ^ 31) : toInt n = n := by
  unfold toInt
  rw [Int.bmod_eq_of_le] <;> omega

/-- What is stored differs from the number by a multiple of `2 ^ 32`. -/
theorem toInt_spec (n : Int) :
    ∃ q, toInt n = n - 2 ^ 32 * q ∧ -2 ^ 31 ≤ toInt n ∧ toInt n < 2 ^ 31 := by
  have hlow := Int.le_bmod (x := n) (m := 2 ^ 32) (by decide)
  have hhigh := Int.bmod_lt (x := n) (m := 2 ^ 32) (by decide)
  refine ⟨n.bdiv (2 ^ 32), ?_, ?_, ?_⟩
  · exact Int.bmod_eq_self_sub_mul_bdiv n (2 ^ 32)
  · unfold toInt
    omega
  · unfold toInt
    omega

/-- Of the numbers that differ by multiples of `2 ^ 32`, one is an `int`. -/
theorem toInt_eq_of {m n q : Int} (h : n = m - 2 ^ 32 * q) (hlow : -2 ^ 31 ≤ n)
    (hhigh : n < 2 ^ 31) : toInt m = n := by
  obtain ⟨q', hq', hlow', hhigh'⟩ := toInt_spec m
  omega

/-- The conversion of an `int` to a `size_t`. -/
def toSize (n : Int) : Nat := (n % 2 ^ 64).toNat

theorem toSize_of_nonneg {n : Int} (h : 0 ≤ n) (hlt : n < 2 ^ 64) : (toSize n : Int) = n := by
  unfold toSize
  omega

/-- A negative `int` becomes a large `size_t`. -/
theorem toSize_of_neg {n : Int} (h : n < 0) (hle : -2 ^ 31 ≤ n) :
    (toSize n : Int) = n + 2 ^ 64 := by
  unfold toSize
  omega

end Wfrest
