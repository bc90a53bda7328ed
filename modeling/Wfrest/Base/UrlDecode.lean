import Wfrest.Base.CodeUtil
import Wfrest.Base.StrUtil

/-!
# `CodeUtil::url_decode`

`url_decode` reads `%` and the two characters behind it with `strtol`, so it takes more than
`url_encode` writes: lower-case digits, a blank or a sign in front of one digit. It also
turns `+` into a blank, and `url_encode` never writes a `+`. So decoding undoes encoding
(`urlDecode_urlEncode`), and not the other way round.
-/

namespace Wfrest

/-- `+` -/
def plus : UInt8 := 43

/-- `strtol(s, nullptr, 16)` of at most two characters: there is no digit behind a prefix
`0x`, and no overflow. -/
def strtol16 (s : Bytes) : Int :=
  let s := (cStr s).dropWhile isspace
  let neg := s.head? = some hyphen
  let s := if neg ∨ s.head? = some plus then s.tail else s
  let digits := s.takeWhile fun c => (hexDigit? c).isSome
  let n := digits.foldl (fun n c => 16 * n + (hexDigit? c).getD 0) 0
  if neg then -n else n
where
  /-- A digit of the base 16. -/
  hexDigit? (c : UInt8) : Option Nat :=
    if 48 ≤ c ∧ c ≤ 57 then some (c.toNat - 48)
    else if 65 ≤ c ∧ c ≤ 70 then some (c.toNat - 55)
    else if 97 ≤ c ∧ c ≤ 102 then some (c.toNat - 87)
    else none

namespace CodeUtil

/-- `static_cast<char>(std::strtol(hex.c_str(), nullptr, 16))` -/
def decodedChr (hex : Bytes) : UInt8 := UInt8.ofNat (strtol16 hex % 256).toNat

/-- A character that is not the `%` of a code. -/
def plainChr (chr : UInt8) : UInt8 := if chr = plus then space else chr

/-- `CodeUtil::url_decode` -/
def urlDecode : Bytes → Bytes
  | [] => []
  | chr :: a :: b :: rest =>
    if chr = percent then decodedChr [a, b] :: urlDecode rest
    else plainChr chr :: urlDecode (a :: b :: rest)
  -- `i + 2 < value.size()` fails
  | chr :: rest => plainChr chr :: urlDecode rest

/-- `CodeUtil::is_url_encode` -/
def isUrlEncode (str : Bytes) : Bool := str.contains percent || str.contains plus

theorem urlDecode_cons_of_ne {chr : UInt8} (hpercent : chr ≠ percent) (hplus : chr ≠ plus)
    (rest : Bytes) : urlDecode (chr :: rest) = chr :: urlDecode rest := by
  have hplain : plainChr chr = chr := if_neg hplus
  match rest with
  | [] => simp [urlDecode, hplain]
  | [_] => simp [urlDecode, hplain]
  | _ :: _ :: _ => rw [urlDecode, if_neg hpercent, hplain]

private theorem decodedChr_hexChars : ∀ i < 16, ∀ j < 16,
    decodedChr [hexChars.getD i 0, hexChars.getD j 0] = UInt8.ofNat (16 * i + j) := by decide

theorem decodedChr_escape (chr : UInt8) :
    decodedChr [hexChars.getD (chr.toNat >>> 4) 0, hexChars.getD (chr.toNat &&& 15) 0] = chr := by
  have hmask : (15 : Nat) = 2 ^ 4 - 1 := rfl
  have hnibbles : 16 * (chr.toNat >>> 4) + (chr.toNat &&& 15) = chr.toNat := by
    rw [Nat.shiftRight_eq_div_pow, hmask, Nat.and_two_pow_sub_one_eq_mod]
    omega
  rw [decodedChr_hexChars _ (shiftRight_four_lt chr) _ (and_fifteen_lt chr), hnibbles,
    UInt8.ofNat_toNat]

/-- The code of a character is read back, whatever stands behind it. -/
theorem urlDecode_encodeChar_append (chr : UInt8) (rest : Bytes) :
    urlDecode (encodeChar chr ++ rest) = chr :: urlDecode rest := by
  unfold encodeChar
  split
  next hkeeps =>
    have hpercent : keeps percent = false := by decide
    have hplus : keeps plus = false := by decide
    refine urlDecode_cons_of_ne ?_ ?_ rest
    · rintro rfl
      rw [hpercent] at hkeeps
      cases hkeeps
    · rintro rfl
      rw [hplus] at hkeeps
      cases hkeeps
  next =>
    rw [escape, List.cons_append, List.cons_append, List.cons_append, List.nil_append, urlDecode,
      if_pos rfl, decodedChr_escape]

/-- **Decoding undoes encoding.** -/
theorem urlDecode_urlEncode (value : Bytes) : urlDecode (urlEncode value) = value := by
  induction value with
  | nil => rfl
  | cons chr value ih => rw [urlEncode_cons, urlDecode_encodeChar_append, ih]

/-- The form of an encoded string: bytes that are kept, and `%` with two upper-case digits. -/
inductive Encoded : Bytes → Prop
  | nil : Encoded []
  | keep {chr : UInt8} {rest : Bytes} : keeps chr = true → Encoded rest → Encoded (chr :: rest)
  | code {hi lo : UInt8} {rest : Bytes} : hi ∈ hexChars → lo ∈ hexChars → Encoded rest →
      Encoded (percent :: hi :: lo :: rest)

private theorem hexChars_mem : ∀ i < 16, hexChars.getD i 0 ∈ hexChars := by decide

theorem encoded_urlEncode (value : Bytes) : Encoded (urlEncode value) := by
  induction value with
  | nil => exact .nil
  | cons chr value ih =>
    rw [urlEncode_cons]
    unfold encodeChar
    split
    next hkeeps => exact .keep hkeeps ih
    next =>
      exact .code (hexChars_mem _ (shiftRight_four_lt chr)) (hexChars_mem _ (and_fifteen_lt chr)) ih

/-- An encoded string that does not look so is the string itself. -/
theorem urlEncode_eq_self_of_not_isUrlEncode {value : Bytes}
    (h : isUrlEncode (urlEncode value) = false) : urlEncode value = value := by
  refine urlEncode_eq_self_iff.mpr fun chr hchr => ?_
  by_contra hkeeps
  have hmem : percent ∈ urlEncode value := by
    refine List.mem_flatMap.mpr ⟨chr, hchr, ?_⟩
    rw [encodeChar, if_neg hkeeps]
    exact List.mem_cons_self
  rw [isUrlEncode, Bool.or_eq_false_iff] at h
  exact absurd (List.contains_iff_mem.mpr hmem) (by rw [h.1]; exact Bool.false_ne_true)

end CodeUtil

end Wfrest
