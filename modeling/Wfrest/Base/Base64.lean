import Wfrest.Base.Bytes
import Mathlib.Data.List.GetD

/-!
# Base64

`Base64::encode` and `Base64::decode` stream over their text with a group of three bytes or
four characters, and treat an incomplete last group on its own. The decoder fills such a
group with zero bytes, which are in no alphabet, so `find` gives `npos` for them; the bytes
that it keeps do not depend on it.

`encode` takes its length as an `unsigned int` and `decode` counts in an `int`. For less than
`2 ^ 30` bytes both are exact, and there the two are inverse to each other
(`decode_encode`).
-/

namespace Wfrest

namespace Base64

/-- `base64_chars` -/
def base64Chars : Bytes := ascii "ABCDEFGHIJKLMNOPQRSTUVWXYZabcdefghijklmnopqrstuvwxyz0123456789+/"

/-- `is_base64` -/
def isBase64 (c : UInt8) : Bool :=
  (48 ≤ c && c ≤ 57) || (65 ≤ c && c ≤ 90) || (97 ≤ c && c ≤ 122) || c = 43 || c = 47

/-- `base64_chars[i]` -/
def charAt (i : UInt8) : UInt8 := base64Chars.getD i.toNat 0

/-- `base64_chars.find(c)`, narrowed to `unsigned char`; `npos` becomes 255. -/
def find (c : UInt8) : UInt8 :=
  if base64Chars.contains c then UInt8.ofNat (base64Chars.idxOf c) else 255

/-! ### `Base64::encode` -/

def sextet₀ (a : UInt8) : UInt8 := (a &&& 0xfc) >>> 2

def sextet₁ (a b : UInt8) : UInt8 := ((a &&& 0x03) <<< 4) + ((b &&& 0xf0) >>> 4)

def sextet₂ (b c : UInt8) : UInt8 := ((b &&& 0x0f) <<< 2) + ((c &&& 0xc0) >>> 6)

def sextet₃ (c : UInt8) : UInt8 := c &&& 0x3f

/-- `char_array_4` of `char_array_3` -/
def sextets (a b c : UInt8) : Bytes := [sextet₀ a, sextet₁ a b, sextet₂ b c, sextet₃ c]

/-- One round of the loop: the bytes in `char_array_3`, and `ret`. -/
def encodeStep (st : Bytes × Bytes) (byte : UInt8) : Bytes × Bytes :=
  match st.1 ++ [byte] with
  | [a, b, c] => ([], st.2 ++ (sextets a b c).map charAt)
  | group => (group, st.2)

/-- The code behind the loop. -/
def encodeTail (group ret : Bytes) : Bytes :=
  if group = [] then ret
  else
    ret ++ ((sextets (group.getD 0 0) (group.getD 1 0) (group.getD 2 0)).take
      (group.length + 1)).map charAt ++ List.replicate (3 - group.length) equals

/-- `Base64::encode` on a text and its size, which becomes an `unsigned int`. -/
def encode (bytes : Bytes) : Bytes :=
  let r := (bytes.take (bytes.length % 2 ^ 32)).foldl encodeStep ([], [])
  encodeTail r.1 r.2

/-! ### `Base64::decode` -/

def byte₀ (a b : UInt8) : UInt8 := (a <<< 2) + ((b &&& 0x30) >>> 4)

def byte₁ (b c : UInt8) : UInt8 := ((b &&& 0xf) <<< 4) + ((c &&& 0x3c) >>> 2)

def byte₂ (c d : UInt8) : UInt8 := ((c &&& 0x3) <<< 6) + d

/-- `char_array_3` of `char_array_4` -/
def triple (a b c d : UInt8) : Bytes := [byte₀ a b, byte₁ b c, byte₂ c d]

/-- The loop: the characters in `char_array_4`, and `ret`. At the end of the string it reads
a zero byte, which is no base64 character. -/
def decodeLoop (inLen : Int) (group ret : Bytes) : Bytes → Bytes × Bytes
  | [] => (group, ret)
  | ch :: rest =>
    if inLen ≠ 0 ∧ ch ≠ equals ∧ isBase64 ch then
      match group ++ [ch] with
      | [a, b, c, d] =>
        decodeLoop (inLen - 1) [] (ret ++ triple (find a) (find b) (find c) (find d)) rest
      | group => decodeLoop (inLen - 1) group ret rest
    else (group, ret)

/-- The code behind the loop. -/
def decodeTail (group ret : Bytes) : Bytes :=
  if group = [] then ret
  else
    ret ++ (triple (find (group.getD 0 0)) (find (group.getD 1 0)) (find (group.getD 2 0))
      (find (group.getD 3 0))).take (group.length - 1)

/-- `Base64::decode` -/
def decode (encodedString : Bytes) : Bytes :=
  let r := decodeLoop (toInt encodedString.length) [] [] encodedString
  decodeTail r.1 r.2

/-! ### A group there and back -/

theorem charAt_mem {i : UInt8} (h : i < 64) : charAt i ∈ base64Chars := by
  have hlt : i.toNat < base64Chars.length := UInt8.lt_iff_toNat_lt.mp h
  rw [charAt, List.getD_eq_getElem _ _ hlt]
  exact List.getElem_mem hlt

/-- The alphabet has every character once. -/
theorem nodup_base64Chars : base64Chars.Nodup := by
  unfold List.Nodup
  decide +kernel

theorem find_charAt {i : UInt8} (h : i < 64) : find (charAt i) = i := by
  have hlt : i.toNat < base64Chars.length := UInt8.lt_iff_toNat_lt.mp h
  rw [find, if_pos (List.contains_iff_mem.mpr (charAt_mem h)), charAt,
    List.getD_eq_getElem _ _ hlt, nodup_base64Chars.idxOf_getElem, UInt8.ofNat_toNat]

theorem isBase64_charAt {i : UInt8} (h : i < 64) :
    charAt i ≠ equals ∧ isBase64 (charAt i) = true := by
  have hall : ∀ c ∈ base64Chars, c ≠ equals ∧ isBase64 c = true := forall_mem_of_all (by decide)
  exact hall _ (charAt_mem h)

/-- Bits of a byte that are masked and shifted down. -/
theorem toNat_and_shiftRight (x : UInt8) {mask shift : UInt8} (i w : Nat)
    (hshift : shift.toNat % 8 = i) (hmask : mask.toNat >>> i = 2 ^ w - 1) :
    ((x &&& mask) >>> shift).toNat = x.toNat / 2 ^ i % 2 ^ w := by
  rw [UInt8.toNat_shiftRight, UInt8.toNat_and, hshift, Nat.shiftRight_and_distrib, hmask,
    Nat.and_two_pow_sub_one_eq_mod, Nat.shiftRight_eq_div_pow]

/-- Bits of a byte that are masked and shifted up. -/
theorem toNat_and_shiftLeft (x : UInt8) {mask shift : UInt8} (i w : Nat)
    (hshift : shift.toNat % 8 = i) (hmask : mask.toNat = 2 ^ w - 1) (hfits : w + i ≤ 8) :
    ((x &&& mask) <<< shift).toNat = x.toNat % 2 ^ w * 2 ^ i := by
  rw [UInt8.toNat_shiftLeft, UInt8.toNat_and, hshift, hmask, Nat.and_two_pow_sub_one_eq_mod,
    Nat.shiftLeft_eq]
  refine Nat.mod_eq_of_lt ?_
  have hlt : x.toNat % 2 ^ w < 2 ^ w := Nat.mod_lt _ (Nat.two_pow_pos w)
  calc x.toNat % 2 ^ w * 2 ^ i
    _ < 2 ^ w * 2 ^ i := Nat.mul_lt_mul_of_pos_right hlt (Nat.two_pow_pos i)
    _ = 2 ^ (w + i) := (Nat.pow_add 2 w i).symm
    _ ≤ 2 ^ 8 := Nat.pow_le_pow_right (by decide) hfits

theorem toNat_sextet₀ (a : UInt8) : (sextet₀ a).toNat = a.toNat / 4 := by
  have ha : (sextet₀ a).toNat = a.toNat / 4 % 64 := toNat_and_shiftRight a 2 6 rfl rfl
  have hlt := a.toNat_lt
  rw [ha]
  omega

theorem toNat_sextet₁ (a b : UInt8) :
    (sextet₁ a b).toNat = a.toNat % 4 * 16 + b.toNat / 16 := by
  have ha : ((a &&& 0x03) <<< 4).toNat = a.toNat % 4 * 16 :=
    toNat_and_shiftLeft a 4 2 rfl rfl (by decide)
  have hb : ((b &&& 0xf0) >>> 4).toNat = b.toNat / 16 % 16 := toNat_and_shiftRight b 4 4 rfl rfl
  have hlt := b.toNat_lt
  rw [sextet₁, UInt8.toNat_add, ha, hb]
  omega

theorem toNat_sextet₂ (b c : UInt8) :
    (sextet₂ b c).toNat = b.toNat % 16 * 4 + c.toNat / 64 := by
  have hb : ((b &&& 0x0f) <<< 2).toNat = b.toNat % 16 * 4 :=
    toNat_and_shiftLeft b 2 4 rfl rfl (by decide)
  have hc : ((c &&& 0xc0) >>> 6).toNat = c.toNat / 64 % 4 := toNat_and_shiftRight c 6 2 rfl rfl
  have hlt := c.toNat_lt
  rw [sextet₂, UInt8.toNat_add, hb, hc]
  omega

theorem toNat_sextet₃ (c : UInt8) : (sextet₃ c).toNat = c.toNat % 64 := by
  rw [sextet₃, UInt8.toNat_and]
  exact Nat.and_two_pow_sub_one_eq_mod c.toNat 6

/-- A sextet is an index into `base64_chars`. -/
theorem lt_of_mem_sextets {a b c i : UInt8} (h : i ∈ sextets a b c) : i < 64 := by
  have ha := a.toNat_lt
  have hb := b.toNat_lt
  have hc := c.toNat_lt
  rw [UInt8.lt_iff_toNat_lt]
  change _ < 64
  simp only [sextets, List.mem_cons, List.not_mem_nil, or_false] at h
  rcases h with rfl | rfl | rfl | rfl
  · rw [toNat_sextet₀]
    exact Nat.div_lt_of_lt_mul ha
  · rw [toNat_sextet₁]
    omega
  · rw [toNat_sextet₂]
    omega
  · rw [toNat_sextet₃]
    exact Nat.mod_lt _ (by decide)

theorem sextets_lt (a b c : UInt8) :
    sextet₀ a < 64 ∧ sextet₁ a b < 64 ∧ sextet₂ b c < 64 ∧ sextet₃ c < 64 := by
  have hlt : ∀ i ∈ sextets a b c, i < 64 := fun i hi => lt_of_mem_sextets hi
  simp only [sextets, List.forall_mem_cons] at hlt
  obtain ⟨h₀, h₁, h₂, h₃, -⟩ := hlt
  exact ⟨h₀, h₁, h₂, h₃⟩

/-- A byte is in the first two sextets. -/
theorem byte₀_sextets (a b : UInt8) : byte₀ (sextet₀ a) (sextet₁ a b) = a := by
  have hx : (sextet₀ a <<< 2).toNat = (sextet₀ a).toNat <<< 2 % 256 := UInt8.toNat_shiftLeft ..
  have hy : ((sextet₁ a b &&& 0x30) >>> 4).toNat = (sextet₁ a b).toNat / 16 % 4 :=
    toNat_and_shiftRight _ 4 2 rfl rfl
  have ha := a.toNat_lt
  have hb := b.toNat_lt
  refine UInt8.toNat_inj.mp ?_
  rw [byte₀, UInt8.toNat_add, hx, hy, toNat_sextet₀, toNat_sextet₁, Nat.shiftLeft_eq]
  omega

/-- A byte is in the middle sextets. -/
theorem byte₁_sextets (a b c : UInt8) : byte₁ (sextet₁ a b) (sextet₂ b c) = b := by
  have hy : ((sextet₁ a b &&& 0xf) <<< 4).toNat = (sextet₁ a b).toNat % 16 * 16 :=
    toNat_and_shiftLeft _ 4 4 rfl rfl (by decide)
  have hz : ((sextet₂ b c &&& 0x3c) >>> 2).toNat = (sextet₂ b c).toNat / 4 % 16 :=
    toNat_and_shiftRight _ 2 4 rfl rfl
  have hb := b.toNat_lt
  have hc := c.toNat_lt
  refine UInt8.toNat_inj.mp ?_
  rw [byte₁, UInt8.toNat_add, hy, hz, toNat_sextet₁, toNat_sextet₂]
  omega

/-- A byte is in the last two sextets. -/
theorem byte₂_sextets (b c : UInt8) : byte₂ (sextet₂ b c) (sextet₃ c) = c := by
  have hz : ((sextet₂ b c &&& 0x3) <<< 6).toNat = (sextet₂ b c).toNat % 4 * 64 :=
    toNat_and_shiftLeft _ 6 2 rfl rfl (by decide)
  have hb := b.toNat_lt
  have hc := c.toNat_lt
  refine UInt8.toNat_inj.mp ?_
  rw [byte₂, UInt8.toNat_add, hz, toNat_sextet₂, toNat_sextet₃]
  omega

/-! ### Group by group -/

/-- An encoded text, by groups of three bytes. -/
def groups : Bytes → Bytes
  | [] => []
  | [a] => [charAt (sextet₀ a), charAt (sextet₁ a 0), equals, equals]
  | [a, b] => [charAt (sextet₀ a), charAt (sextet₁ a b), charAt (sextet₂ b 0), equals]
  | a :: b :: c :: rest => (sextets a b c).map charAt ++ groups rest

private theorem encode_eq (bytes ret : Bytes) :
    encodeTail (bytes.foldl encodeStep ([], ret)).1 (bytes.foldl encodeStep ([], ret)).2 =
      ret ++ groups bytes := by
  induction bytes using groups.induct generalizing ret with
  | case1 => simp [encodeTail, groups]
  | case2 a => simp [encodeTail, encodeStep, groups, sextets, List.replicate]
  | case3 a b => simp [encodeTail, encodeStep, groups, sextets]
  | case4 a b c rest ih =>
    rw [List.foldl_cons, List.foldl_cons, List.foldl_cons]
    refine (ih (ret ++ (sextets a b c).map charAt)).trans ?_
    rw [groups, List.append_assoc]

theorem encode_eq_groups {bytes : Bytes} (h : bytes.length < 2 ^ 32) :
    encode bytes = groups bytes := by
  rw [encode, Nat.mod_eq_of_lt h, List.take_length]
  exact encode_eq bytes []

theorem length_groups (bytes : Bytes) : (groups bytes).length = 4 * ((bytes.length + 2) / 3) := by
  induction bytes using groups.induct with
  | case1 => simp [groups]
  | case2 a => simp [groups]
  | case3 a b => simp [groups]
  | case4 a b c rest ih =>
    rw [groups, List.length_append, ih]
    simp only [sextets, List.length_map, List.length_cons, List.length_nil]
    omega

/-- Characters of the alphabet, and then at most two `=`. -/
def Padded (s : Bytes) : Prop :=
  ∃ body k, k ≤ 2 ∧ s = body ++ List.replicate k equals ∧ ∀ c ∈ body, c ∈ base64Chars

theorem mem_of_mem_map_sextets {a b c ch : UInt8} {is : Bytes} (his : is ⊆ sextets a b c)
    (h : ch ∈ is.map charAt) : ch ∈ base64Chars := by
  obtain ⟨i, hi, rfl⟩ := List.mem_map.mp h
  exact charAt_mem (lt_of_mem_sextets (his hi))

theorem padded_groups (bytes : Bytes) : Padded (groups bytes) := by
  induction bytes using groups.induct with
  | case1 => exact ⟨[], 0, by decide, rfl, nofun⟩
  | case2 a =>
    refine ⟨((sextets a 0 0).take 2).map charAt, 2, le_rfl, ?_, fun ch hch => ?_⟩
    · rw [groups]
      rfl
    · exact mem_of_mem_map_sextets (List.take_subset 2 _) hch
  | case3 a b =>
    refine ⟨((sextets a b 0).take 3).map charAt, 1, by decide, ?_, fun ch hch => ?_⟩
    · rw [groups]
      rfl
    · exact mem_of_mem_map_sextets (List.take_subset 3 _) hch
  | case4 a b c rest ih =>
    obtain ⟨body, k, hk, heq, hbody⟩ := ih
    refine ⟨(sextets a b c).map charAt ++ body, k, hk, ?_, fun ch hch => ?_⟩
    · rw [groups, heq, List.append_assoc]
    · rcases List.mem_append.mp hch with hch | hch
      · exact mem_of_mem_map_sextets (List.Subset.refl _) hch
      · exact hbody ch hch

/-! ### The decoder on encoded groups -/

/-- A character of a sextet joins the group. -/
private theorem decodeLoop_join {inLen : Int} (hlen : inLen ≠ 0) {i : UInt8} (hi : i < 64)
    {group : Bytes} (hgroup : group.length < 3) (ret rest : Bytes) :
    decodeLoop inLen group ret (charAt i :: rest) =
      decodeLoop (inLen - 1) (group ++ [charAt i]) ret rest := by
  obtain ⟨hne, hbase⟩ := isBase64_charAt hi
  rw [decodeLoop, if_pos ⟨hlen, hne, hbase⟩]
  match group with
  | [] => rfl
  | [_] => rfl
  | [_, _] => rfl
  | _ :: _ :: _ :: _ =>
    simp only [List.length_cons] at hgroup
    omega

/-- The fourth character of a group gives its three bytes. -/
private theorem decodeLoop_full {inLen : Int} (hlen : inLen ≠ 0) (a b c : UInt8)
    (ret rest : Bytes) :
    decodeLoop inLen [charAt (sextet₀ a), charAt (sextet₁ a b), charAt (sextet₂ b c)] ret
        (charAt (sextet₃ c) :: rest) =
      decodeLoop (inLen - 1) [] (ret ++ [a, b, c]) rest := by
  obtain ⟨h₀, h₁, h₂, h₃⟩ := sextets_lt a b c
  obtain ⟨hne, hbase⟩ := isBase64_charAt h₃
  rw [decodeLoop, if_pos ⟨hlen, hne, hbase⟩]
  simp only [List.cons_append, List.nil_append, find_charAt h₀, find_charAt h₁,
    find_charAt h₂, find_charAt h₃, triple, byte₀_sextets, byte₁_sextets, byte₂_sextets]

private theorem decodeLoop_sextets {inLen : Int} (hlen : 4 ≤ inLen) (a b c : UInt8)
    (ret rest : Bytes) :
    decodeLoop inLen [] ret ((sextets a b c).map charAt ++ rest) =
      decodeLoop (inLen - 1 - 1 - 1 - 1) [] (ret ++ [a, b, c]) rest := by
  obtain ⟨h₀, h₁, h₂, -⟩ := sextets_lt a b c
  simp only [sextets, List.map_cons, List.map_nil, List.cons_append, List.nil_append]
  rw [decodeLoop_join (by omega) h₀ (by simp), decodeLoop_join (by omega) h₁ (by simp),
    decodeLoop_join (by omega) h₂ (by simp)]
  exact decodeLoop_full (by omega) a b c ret rest

/-- `=` ends the loop. -/
private theorem decodeLoop_equals (inLen : Int) (group ret rest : Bytes) :
    decodeLoop inLen group ret (equals :: rest) = (group, ret) := by
  rw [decodeLoop, if_neg]
  rintro ⟨-, hne, -⟩
  exact hne rfl

/-- What the decoder makes of the groups of a text. -/
private theorem decode_groups {bytes : Bytes} {inLen : Int}
    (hlen : (groups bytes).length ≤ inLen) (ret : Bytes) :
    decodeTail (decodeLoop inLen [] ret (groups bytes)).1
        (decodeLoop inLen [] ret (groups bytes)).2 =
      ret ++ bytes := by
  induction bytes using groups.induct generalizing inLen ret with
  | case1 => simp [groups, decodeLoop, decodeTail]
  | case2 a =>
    -- the loop leaves two characters, and the tail fills the group
    obtain ⟨h₀, h₁, -⟩ := sextets_lt a 0 0
    have hlen' : 4 ≤ inLen := by simpa [groups] using hlen
    rw [groups, decodeLoop_join (by omega) h₀ (by simp),
      decodeLoop_join (by omega) h₁ (by simp), decodeLoop_equals]
    simp [decodeTail, triple, find_charAt h₀, find_charAt h₁, byte₀_sextets]
  | case3 a b =>
    obtain ⟨h₀, h₁, h₂, -⟩ := sextets_lt a b 0
    have hlen' : 4 ≤ inLen := by simpa [groups] using hlen
    rw [groups, decodeLoop_join (by omega) h₀ (by simp),
      decodeLoop_join (by omega) h₁ (by simp), decodeLoop_join (by omega) h₂ (by simp),
      decodeLoop_equals]
    simp [decodeTail, triple, find_charAt h₀, find_charAt h₁, find_charAt h₂,
      byte₀_sextets, byte₁_sextets]
  | case4 a b c rest ih =>
    have hlen' : (4 : Int) + (groups rest).length ≤ inLen := by
      rw [groups, List.length_append] at hlen
      simp only [sextets, List.length_map, List.length_cons, List.length_nil] at hlen
      omega
    rw [groups, decodeLoop_sextets (by omega), ih (by omega), List.append_assoc]
    rfl

/-- **Base64 there and back**, for a text of less than `2 ^ 30` bytes. -/
theorem decode_encode {bytes : Bytes} (h : bytes.length < 2 ^ 30) :
    (encode bytes).length = 4 * ((bytes.length + 2) / 3) ∧ Padded (encode bytes) ∧
      decode (encode bytes) = bytes := by
  rw [encode_eq_groups (lt_trans h (by decide))]
  refine ⟨length_groups bytes, padded_groups bytes, ?_⟩
  have hlen : (groups bytes).length < 2 ^ 31 := by
    rw [length_groups]
    omega
  rw [decode, toInt_of_lt hlen]
  exact decode_groups (Int.le_refl _) []

/-- The text of the unit test. -/
theorem decode_encode_short :
    (encode (ascii "wfrest http framework")).length = 28 ∧
      decode (encode (ascii "wfrest http framework")) = ascii "wfrest http framework" := by
  have h := @decode_encode (ascii "wfrest http framework") (by decide)
  exact ⟨h.1, h.2.2⟩

example : encode (ascii "wfrest http framework") = ascii "d2ZyZXN0IGh0dHAgZnJhbWV3b3Jr" := by
  decide +kernel

end Base64

end Wfrest
