import Wfrest.CJson.Parser
import Wfrest.Compare.Task
import Mathlib.Data.List.DropRight

/-!
# The texts that `cJSON_Parse` accepts

The grammar of JSON over the tree that the parser builds: `ValueText R levels v t` says that
the text `t` writes the value `v` with at most `levels` arrays and objects around a value.
It says what a text is, not how it is read: white space may stand between any two tokens, a
character of a string may be written as itself, by a short escape or by the UTF-16 code
units of `\u` escapes.

Every text of the grammar is accepted with the value it writes (`cJSONParse_text`). The
parser accepts more (control characters in a string, a number like `1.`, anything behind
the value), and three things of a JSON text do not get through: the tree holds C strings, so
that `\u0000` cuts a string off; a number of the grammar has at most 63 bytes, which is what
`parse_number` copies; and its value is the `double` that it is rounded to, with an `int` that
is cut off and saturated.
-/

namespace Wfrest

namespace ParseBuffer

/-! ### The grammar -/

/-- White space of a JSON text. -/
def IsWs (w : Bytes) : Prop := ∀ b ∈ w, b = space ∨ b = 9 ∨ b = lf ∨ b = cr

/-- Four hex digits that write `n`. -/
def HexText (t : Bytes) (n : Nat) : Prop :=
  t.length = 4 ∧ ∃ ds : List Nat, t.map hexDigit? = ds.map some ∧
    ds.foldl (fun h d => 16 * h + d) 0 = n

/-- A character of a string as it may be written, and its bytes. -/
inductive CharText : Bytes → Bytes → Prop
  | plain {b : UInt8} (hctl : space ≤ b) (hquote : b ≠ dquote) (hslash : b ≠ backslash) :
      CharText [b] [b]
  | escape {b e : UInt8} (h : simpleEscape b = some e) : CharText [backslash, b] [e]
  | unit {c : Char} {t : Bytes} (hc : c.toNat < 0x10000) (h : HexText t c.toNat) :
      CharText (backslash :: 117 :: t) (String.utf8EncodeChar c)
  | pair {c : Char} {t t' : Bytes} (hc : 0x10000 ≤ c.toNat)
      (h : HexText t (0xD800 + (c.toNat - 0x10000) / 0x400))
      (h' : HexText t' (0xDC00 + (c.toNat - 0x10000) % 0x400)) :
      CharText (backslash :: 117 :: (t ++ backslash :: 117 :: t')) (String.utf8EncodeChar c)

/-- What stands between the quotes of a string, and its bytes. -/
inductive CharsText : Bytes → Bytes → Prop
  | nil : CharsText [] []
  | cons {t m ts ms : Bytes} (h : CharText t m) (hs : CharsText ts ms) :
      CharsText (t ++ ts) (m ++ ms)

/-- A string. The tree holds its bytes up to the first NUL. -/
inductive StringText : Bytes → Bytes → Prop
  | mk {t m : Bytes} (h : CharsText t m) : StringText (cStr m) (dquote :: (t ++ [dquote]))

/-- Items with commas between them, up to the bracket or brace `close`. -/
inductive ItemsText {α : Type} (item : α → Bytes → Prop) (close : UInt8) : List α → Bytes → Prop
  | last {x : α} {w t w' : Bytes} (hw : IsWs w) (h : item x t) (hw' : IsWs w') :
      ItemsText item close [x] (w ++ (t ++ (w' ++ [close])))
  | cons {x : α} {xs : List α} {w t w' ts : Bytes} (hw : IsWs w) (h : item x t) (hw' : IsWs w')
      (hs : ItemsText item close xs ts) :
      ItemsText item close (x :: xs) (w ++ (t ++ (w' ++ comma :: ts)))

/-- An array or object behind its opening bracket or brace. -/
inductive BracketsText {α : Type} (item : α → Bytes → Prop) (close : UInt8) :
    List α → Bytes → Prop
  | empty {w : Bytes} (hw : IsWs w) : BracketsText item close [] (w ++ [close])
  | items {xs : List α} {t : Bytes} (h : ItemsText item close xs t) :
      BracketsText item close xs t

/-- A member of an object. -/
inductive MemberText (value : CJson → Bytes → Prop) : Bytes × CJson → Bytes → Prop
  | mk {name s : Bytes} {v : CJson} {w w' t : Bytes} (hs : StringText name s) (hw : IsWs w)
      (hw' : IsWs w') (h : value v t) : MemberText value (name, v) (s ++ (w ++ colon :: (w' ++ t)))

/-- A value. The items of an array or object are texts of `below`, which is `none` where no
array or object may stand. -/
inductive ValueTextOver (R : Rounding) (below : Option (CJson → Bytes → Prop)) :
    CJson → Bytes → Prop
  | null : ValueTextOver R below .null (ascii "null")
  | false : ValueTextOver R below .false (ascii "false")
  | true : ValueTextOver R below .true (ascii "true")
  | number {t : Bytes} {q : ℚ} (h : NumText t q) (hlen : t.length ≤ 63) :
      ValueTextOver R below (.number (R.round q).valueint (R.round q)) t
  | string {s t : Bytes} (h : StringText s t) : ValueTextOver R below (.string s) t
  | array {item : CJson → Bytes → Prop} {vs : List CJson} {t : Bytes} (hbelow : below = some item)
      (h : BracketsText item rbracket vs t) : ValueTextOver R below (.array vs) (lbracket :: t)
  | object {item : CJson → Bytes → Prop} {ms : List (Bytes × CJson)} {t : Bytes}
      (hbelow : below = some item) (h : BracketsText (MemberText item) rbrace ms t) :
      ValueTextOver R below (.object ms) (lbrace :: t)

/-- A value with at most `levels` arrays and objects inside each other. -/
def ValueText (R : Rounding) : Nat → CJson → Bytes → Prop
  | 0 => ValueTextOver R none
  | levels + 1 => ValueTextOver R (some (ValueText R levels))

/-! ### White space -/

theorem isBlank_of_isWs {w : Bytes} (hw : IsWs w) : ∀ b ∈ w, isBlank b = true := by
  intro b hb
  rcases hw b hb with rfl | rfl | rfl | rfl <;> rfl

/-- White space is skipped. -/
theorem skipWhitespace_append {w s : Bytes} {b : UInt8} (hw : IsWs w) (hb : isBlank b = false) :
    skipWhitespace (w ++ b :: s) = b :: s := by
  have hdrop : (w ++ b :: s).dropWhile isBlank = b :: s := by
    rw [List.dropWhile_append_of_pos (isBlank_of_isWs hw),
      List.dropWhile_cons_of_neg (by simp [hb])]
  rw [skipWhitespace, hdrop, if_neg (List.cons_ne_nil b s)]

theorem skipWhitespace_idem (s : Bytes) :
    skipWhitespace (skipWhitespace s) = skipWhitespace s := by
  by_cases hall : s.dropWhile isBlank = []
  · -- the last byte stays
    have hlast : skipWhitespace s = s.drop (s.length - 1) := if_pos hall
    have hblank : (s.drop (s.length - 1)).dropWhile isBlank = [] := by
      rw [List.dropWhile_eq_nil_iff] at hall ⊢
      exact fun b hb => hall b (List.mem_of_mem_drop hb)
    rw [hlast, skipWhitespace, if_pos hblank, List.length_drop, List.drop_drop]
    congr 1
    omega
  · have hskip : skipWhitespace s = s.dropWhile isBlank := if_neg hall
    rw [hskip, skipWhitespace, List.dropWhile_idempotent, if_neg hall]

/-! ### Strings are read -/

theorem hexLoop_eq {t : Bytes} {ds : List Nat} (h : t.map hexDigit? = ds.map some) (n : Nat) :
    hexLoop n t = ds.foldl (fun h d => 16 * h + d) n := by
  induction t generalizing ds n with
  | nil =>
    obtain rfl : ds = [] := List.map_eq_nil_iff.mp h.symm
    rfl
  | cons b t ih =>
    obtain _ | ⟨d, ds⟩ := ds
    · cases h
    rw [List.map_cons, List.map_cons, List.cons.injEq] at h
    rw [hexLoop, h.1, List.foldl_cons]
    exact ih h.2 _

theorem parseHex4_hexText {t : Bytes} {n : Nat} (h : HexText t n) (s : Bytes) :
    parseHex4 (t ++ s) = n := by
  obtain ⟨hlen, ds, hds, hn⟩ := h
  rw [parseHex4, ← hlen, List.take_left, hexLoop_eq hds]
  exact hn

/-- A hex digit is none of the bytes that the first loop looks for. -/
theorem ne_of_mem_hexText {t : Bytes} {n : Nat} (h : HexText t n) {b : UInt8} (hb : b ∈ t) :
    b ≠ dquote ∧ b ≠ backslash := by
  obtain ⟨-, ds, hds, -⟩ := h
  have hmem : hexDigit? b ∈ ds.map some := hds ▸ List.mem_map_of_mem hb
  obtain ⟨d, -, hd⟩ := List.mem_map.mp hmem
  constructor
  · rintro rfl
    cases hd
  · rintro rfl
    cases hd

/-- The bytes behind the first one hold six bits each. -/
theorem tailByte (n : Nat) : (n ||| 0x80) &&& 0xBF = n % 64 + 0x80 := by
  have hsmall : ∀ m < 256, (m ||| 0x80) &&& 0xBF = m % 64 + 0x80 := by decide +kernel
  have hlt : (n ||| 0x80) &&& 0xBF < 2 ^ 8 := Nat.and_lt_two_pow _ (by decide)
  rw [← Nat.mod_eq_of_lt hlt, Nat.and_mod_two_pow, Nat.or_mod_two_pow]
  show (n % 256 ||| 0x80) &&& 0xBF = _
  rw [hsmall _ (Nat.mod_lt n (by decide)), Nat.mod_mod_of_dvd n (by decide)]

theorem toNat_le_of_valid (c : Char) : c.toNat ≤ 0x10FFFF := by
  have hvalid := c.valid
  simp only [UInt32.isValidChar, Nat.isValidChar] at hvalid
  show c.val.toNat ≤ _
  omega

/-- The bytes of a character are those of its UTF-8 encoding. -/
theorem encodeUtf8_char (c : Char) : encodeUtf8 c.toNat = some (String.utf8EncodeChar c) := by
  have hone : ∀ m < 128, m &&& 0x7F = m := by decide
  have htwo : ∀ m < 32, (m ||| 0xC0) &&& 0xFF = m % 32 + 0xC0 := by decide
  have hthree : ∀ m < 16, (m ||| 0xE0) &&& 0xFF = m % 16 + 0xE0 := by decide
  have hfour : ∀ m < 8, (m ||| 0xF0) &&& 0xFF = m % 8 + 0xF0 := by decide
  have hle := toNat_le_of_valid c
  unfold encodeUtf8
  show _ = some (if c.toNat ≤ 0x7f then _ else if c.toNat ≤ 0x7ff then _ else
    if c.toNat ≤ 0xffff then _ else _)
  split_ifs <;> try omega
  all_goals simp only [encodeAs, encodeTail, tailByte, Nat.shiftRight_eq_div_pow, Nat.reduceSub,
    Nat.reduceLT, if_true, if_false, Nat.div_div_eq_div_mul, Nat.reducePow, Nat.reduceMul]
  · rw [hone _ (by omega)]
    rfl
  · rw [htwo _ (by omega)]
    rfl
  · rw [hthree _ (by omega)]
    rfl
  · rw [hfour _ (by omega)]
    rfl
/-- The first loop passes over bytes that mean nothing to it. -/
theorem scanString_plain {t : Bytes} (ht : ∀ b ∈ t, b ≠ dquote ∧ b ≠ backslash) (s : Bytes) :
    scanString (t ++ s) = (scanString s).map fun r => (t ++ r.1, r.2.1, r.2.2) := by
  induction t with
  | nil => exact Option.map_id'.symm
  | cons b t ih =>
    obtain ⟨hb, ht⟩ := List.forall_mem_cons.mp ht
    rw [List.cons_append, scanString_of_ne hb.1 hb.2, ih ht, Option.map_map]
    rfl

/-- The first loop passes over an escape of two bytes. -/
theorem scanString_escape (b : UInt8) (s : Bytes) :
    scanString (backslash :: b :: s) =
      (scanString s).map fun r => (backslash :: b :: r.1, r.2.1 + 1, r.2.2) := rfl

/-- The first loop passes over a character. -/
theorem scanString_charText {t m : Bytes} (h : CharText t m) (s : Bytes) :
    ∃ k, scanString (t ++ s) = (scanString s).map fun r => (t ++ r.1, r.2.1 + k, r.2.2) := by
  cases h with
  | plain _ hquote hslash => exact ⟨0, scanString_of_ne hquote hslash s⟩
  | escape => exact ⟨1, rfl⟩
  | @unit c t _ h =>
    refine ⟨1, ?_⟩
    show scanString (backslash :: 117 :: (t ++ s)) = _
    rw [scanString_escape, scanString_plain fun b hb => ne_of_mem_hexText h hb, Option.map_map]
    rfl
  | @pair c t t' _ h h' =>
    refine ⟨2, ?_⟩
    show scanString (backslash :: 117 :: ((t ++ backslash :: 117 :: t') ++ s)) = _
    rw [scanString_escape, List.append_assoc, scanString_plain fun b hb => ne_of_mem_hexText h hb]
    show Option.map _ (Option.map _ (scanString (backslash :: 117 :: (t' ++ s)))) = _
    rw [scanString_escape, scanString_plain fun b hb => ne_of_mem_hexText h' hb, Option.map_map,
      Option.map_map, Option.map_map]
    congr 1
    funext r
    simp

/-- The first loop finds the closing quote. -/
theorem scanString_charsText {t m : Bytes} (h : CharsText t m) (rest : Bytes) :
    ∃ skipped, scanString (t ++ dquote :: rest) = some (t, skipped, rest) := by
  induction h with
  | nil => exact ⟨0, scanString_quote rest⟩
  | @cons t m ts ms h hs ih =>
    obtain ⟨skipped, hscan⟩ := ih
    obtain ⟨k, hk⟩ := scanString_charText h (ts ++ dquote :: rest)
    rw [← List.append_assoc] at hk
    exact ⟨skipped + k, by rw [hk, hscan]; rfl⟩

theorem simpleEscape_ne {b e : UInt8} (h : simpleEscape b = some e) : b ≠ 117 := by
  rintro rfl
  cases h

/-- A `\u` escape outside the surrogates is read as the character. -/
theorem utf16LiteralToUtf8_unit {c : Char} {t : Bytes} (hc : c.toNat < 0x10000)
    (h : HexText t c.toNat) (s : Bytes) :
    utf16LiteralToUtf8 (backslash :: 117 :: (t ++ s)) = some (String.utf8EncodeChar c, 6) := by
  have hcode := parseHex4_hexText h s
  have hlen : ¬ (backslash :: 117 :: (t ++ s)).length < 6 := by
    rw [List.length_cons, List.length_cons, List.length_append, h.1]
    omega
  have hvalid := c.valid
  simp only [UInt32.isValidChar, Nat.isValidChar] at hvalid
  have hval : c.val.toNat = c.toNat := rfl
  rw [hval] at hvalid
  simp only [utf16LiteralToUtf8, List.drop_succ_cons, List.drop_zero, hcode]
  rw [if_neg hlen, if_neg (by omega), if_neg (by omega), encodeUtf8_char]
  rfl

/-- The two halves of a surrogate pair make up the code point. -/
theorem surrogates_join {n : Nat} (h : n < 0x100000) :
    ((0xD800 + n / 0x400) &&& 0x3FF) <<< 10 ||| ((0xDC00 + n % 0x400) &&& 0x3FF) = n := by
  have hhigh : (0xD800 + n / 0x400) &&& 0x3FF = n / 0x400 := by
    rw [show (0x3FF : Nat) = 2 ^ 10 - 1 from rfl, Nat.and_two_pow_sub_one_eq_mod]
    omega
  have hlow : (0xDC00 + n % 0x400) &&& 0x3FF = n % 0x400 := by
    rw [show (0x3FF : Nat) = 2 ^ 10 - 1 from rfl, Nat.and_two_pow_sub_one_eq_mod]
    omega
  rw [hhigh, hlow, ← Nat.shiftLeft_add_eq_or_of_lt (b := n % 0x400) (Nat.mod_lt n (by decide)),
    Nat.shiftLeft_eq]
  omega

theorem lowSurrogate_hexText {t : Bytes} {n : Nat} (h : HexText t n) (hlow : 0xDC00 ≤ n)
    (hhigh : n ≤ 0xDFFF) (s : Bytes) :
    lowSurrogate (backslash :: 117 :: (t ++ s)) = some n := by
  have hcode := parseHex4_hexText h s
  have hlen : ¬ (backslash :: 117 :: (t ++ s)).length < 6 := by
    rw [List.length_cons, List.length_cons, List.length_append, h.1]
    omega
  have hmark : ¬ (backslash :: 117 :: (t ++ s)).take 2 ≠ [backslash, 117] := not_not.mpr rfl
  simp only [lowSurrogate, List.drop_succ_cons, List.drop_zero, hcode]
  rw [if_neg hlen, if_neg hmark, if_neg (by omega)]

/-- A surrogate pair is read as the character. -/
theorem utf16LiteralToUtf8_pair {c : Char} {t t' : Bytes} (hc : 0x10000 ≤ c.toNat)
    (h : HexText t (0xD800 + (c.toNat - 0x10000) / 0x400))
    (h' : HexText t' (0xDC00 + (c.toNat - 0x10000) % 0x400)) (s : Bytes) :
    utf16LiteralToUtf8 (backslash :: 117 :: (t ++ backslash :: 117 :: (t' ++ s))) =
      some (String.utf8EncodeChar c, 12) := by
  have hle := toNat_le_of_valid c
  obtain ⟨n, hn⟩ : ∃ n, c.toNat = 0x10000 + n := Nat.exists_eq_add_of_le hc
  have hsub : c.toNat - 0x10000 = n := by omega
  rw [hsub] at h h'
  have hcode := parseHex4_hexText h (backslash :: 117 :: (t' ++ s))
  have hlen : ¬ (backslash :: 117 :: (t ++ backslash :: 117 :: (t' ++ s))).length < 6 := by
    rw [List.length_cons, List.length_cons, List.length_append, h.1]
    omega
  have hdrop : (backslash :: 117 :: (t ++ backslash :: 117 :: (t' ++ s))).drop 6 =
      backslash :: 117 :: (t' ++ s) := by
    rw [List.drop_succ_cons, List.drop_succ_cons, ← h.1, List.drop_left]
  have hsecond := lowSurrogate_hexText h' (by omega) (by omega) s
  have hjoin := surrogates_join (n := n) (by omega)
  unfold utf16LiteralToUtf8
  simp only [hdrop, hsecond, List.drop_succ_cons, List.drop_zero, hcode]
  rw [if_neg hlen, if_neg (by omega), if_pos (by omega)]
  simp only [Option.bind_eq_bind, Option.bind_some, hjoin]
  rw [← hn, encodeUtf8_char]
  rfl

/-- The second loop writes the bytes of a character. -/
theorem unescape_charText {t m : Bytes} (h : CharText t m) (s : Bytes) :
    unescape 0 (t ++ s) = written m (unescape 0 s) := by
  cases h with
  | plain _ _ hslash =>
    show unescape 0 (_ :: s) = _
    rw [unescape_cons, if_pos hslash]
  | @escape b e h =>
    show unescape 0 (backslash :: b :: s) = _
    rw [unescape_cons, if_neg (not_not.mpr rfl), List.headD_cons, if_neg (simpleEscape_ne h), h]
    rfl
  | @unit c t hc h =>
    show unescape 0 (backslash :: 117 :: (t ++ s)) = _
    rw [unescape_cons, if_neg (not_not.mpr rfl), List.headD_cons, if_pos rfl,
      utf16LiteralToUtf8_unit hc h]
    show written _ (unescape 0 ((t ++ s).drop 4)) = _
    rw [← h.1, List.drop_left]
  | @pair c t t' hc h h' =>
    show unescape 0 (backslash :: 117 :: ((t ++ backslash :: 117 :: t') ++ s)) = _
    rw [List.append_assoc]
    show unescape 0 (backslash :: 117 :: (t ++ backslash :: 117 :: (t' ++ s))) = _
    rw [unescape_cons, if_neg (not_not.mpr rfl), List.headD_cons, if_pos rfl,
      utf16LiteralToUtf8_pair hc h h']
    show written _ (unescape 0 ((t ++ backslash :: 117 :: (t' ++ s)).drop 10)) = _
    have hdrop : (t ++ backslash :: 117 :: (t' ++ s)).drop 10 = s := by
      rw [List.drop_append, List.drop_eq_nil_of_le (by rw [h.1]; omega), h.1, List.nil_append]
      show (t' ++ s).drop 4 = s
      rw [← h'.1, List.drop_left]
    rw [hdrop]

theorem unescape_charsText {t m : Bytes} (h : CharsText t m) : unescape 0 t = (m, true) := by
  induction h with
  | nil => rfl
  | cons h _ ih =>
    rw [unescape_charText h, ih]
    rfl

/-- **A string of the grammar is read** as the bytes of its characters. -/
theorem parseString_text {s t : Bytes} (h : StringText s t) (rest : Bytes) :
    parseString (t ++ rest) = .ok (s, rest) := by
  cases h with
  | @mk t m h =>
    obtain ⟨skipped, hscan⟩ := scanString_charsText h rest
    show parseString (dquote :: ((t ++ [dquote]) ++ rest)) = _
    rw [List.append_assoc, List.singleton_append, parseString]
    rw [if_neg (not_not.mpr rfl), hscan]
    dsimp only
    rw [unescape_charsText h, if_pos rfl]

/-! ### Numbers are read -/

/-- The text behind a number does not continue it. -/
def Stops (rest : Bytes) : Prop := ∀ b ∈ rest.head?, isNumberByte b = false

theorem isNumberByte_of_digits {ds : Bytes} (h : Digits ds) : ∀ b ∈ ds, isNumberByte b = true := by
  intro b hb
  rw [isNumberByte, h.2 b hb]
  rfl

theorem isNumberByte_of_mark {b : UInt8} (h : isExpMark b = true) : isNumberByte b = true := by
  rw [isNumberByte, h, Bool.or_true, Bool.true_or]

theorem isNumberByte_unsigned {t : Bytes} {q : ℚ} (h : UnsignedText t q) :
    ∀ b ∈ t, isNumberByte b = true := by
  cases h with
  | mk hds _ hf he =>
    refine List.forall_mem_append.mpr ⟨isNumberByte_of_digits hds, List.forall_mem_append.mpr ⟨?_, ?_⟩⟩
    · cases hf with
      | absent => exact List.forall_mem_nil _
      | digits h => exact List.forall_mem_cons.mpr ⟨rfl, isNumberByte_of_digits h⟩
    · cases he with
      | absent => exact List.forall_mem_nil _
      | plain hb h =>
        exact List.forall_mem_cons.mpr ⟨isNumberByte_of_mark hb, isNumberByte_of_digits h⟩
      | plus hb h =>
        refine List.forall_mem_cons.mpr ⟨isNumberByte_of_mark hb, ?_⟩
        exact List.forall_mem_cons.mpr ⟨rfl, isNumberByte_of_digits h⟩
      | minus hb h =>
        refine List.forall_mem_cons.mpr ⟨isNumberByte_of_mark hb, ?_⟩
        exact List.forall_mem_cons.mpr ⟨rfl, isNumberByte_of_digits h⟩

theorem isNumberByte_numText {t : Bytes} {q : ℚ} (h : NumText t q) :
    ∀ b ∈ t, isNumberByte b = true := by
  cases h with
  | unsigned h => exact isNumberByte_unsigned h
  | negative h => exact List.forall_mem_cons.mpr ⟨rfl, isNumberByte_unsigned h⟩

/-- **A number of the grammar is read** when it has at most 63 bytes. -/
theorem parseNumber_text (R : Rounding) {t rest : Bytes} {q : ℚ} (h : NumText t q)
    (hlen : t.length ≤ 63) (hrest : Stops rest) :
    parseNumber R (t ++ rest) = .ok (.number (R.round q).valueint (R.round q), rest) := by
  have hall := isNumberByte_numText h
  have htake : ((t ++ rest).take 63).takeWhile isNumberByte = t := by
    rw [List.take_append, List.take_of_length_le hlen, List.takeWhile_append_of_pos hall]
    obtain _ | ⟨b, rest⟩ := rest
    · rw [List.take_nil, List.takeWhile_nil, List.append_nil]
    · cases 63 - t.length with
      | zero => rw [List.take_zero, List.takeWhile_nil, List.append_nil]
      | succ n =>
        rw [List.take_succ_cons, List.takeWhile_cons_of_neg (by simp [hrest b rfl]),
          List.append_nil]
  rw [parseNumber, htake, strtod_numText R h]
  dsimp only
  rw [List.length_nil, Nat.sub_zero, List.drop_left]

/-! ### Arrays and objects are read -/

/-- The function reads the texts of the items, and no such text begins with white space or
with the bracket that ends the items. -/
structure ReadsTexts {α : Type} (p : Parser α) (item : α → Bytes → Prop) (close : UInt8) :
    Prop where
  reads {x : α} {t rest : Bytes} : item x t → Stops rest → p (t ++ rest) = .ok (x, rest)
  head {x : α} {t : Bytes} : item x t → ∃ b t', t = b :: t' ∧ isBlank b = false ∧ b ≠ close

/-- A byte that may end the items. -/
structure Closes (close : UInt8) : Prop where
  blank : isBlank close = false
  number : isNumberByte close = false
  comma : close ≠ comma

theorem closes_rbracket : Closes rbracket := ⟨rfl, rfl, by decide⟩

theorem closes_rbrace : Closes rbrace := ⟨rfl, rfl, by decide⟩

/-- White space and a byte of no number end a number. -/
theorem stops_append {w s : Bytes} {b : UInt8} (hw : IsWs w) (hb : isNumberByte b = false) :
    Stops (w ++ b :: s) := by
  intro c hc
  obtain _ | ⟨d, w⟩ := w
  · rwa [← Option.some.inj hc]
  · rw [← Option.some.inj hc]
    rcases hw d List.mem_cons_self with rfl | rfl | rfl | rfl <;> rfl

theorem parseItems_skipWhitespace {α : Type} (item : Parser α) (close : UInt8) (fuel : Nat)
    (rest : Bytes) :
    parseItems item close fuel (skipWhitespace rest) = parseItems item close fuel rest := by
  cases fuel with
  | zero => rfl
  | succ fuel => rw [parseItems, parseItems, skipWhitespace_idem]

section

variable {α : Type} {p : Parser α} {item : α → Bytes → Prop} {close : UInt8}

/-- A round of the loop reads an item and the white space around it. -/
theorem parseItems_item (hp : ReadsTexts p item close) {x : α} {w t w' rest : Bytes} {b : UInt8}
    (hw : IsWs w) (h : item x t) (hw' : IsWs w') (hblank : isBlank b = false)
    (hnumber : isNumberByte b = false) (fuel : Nat) :
    parseItems p close (fuel + 1) (w ++ (t ++ (w' ++ b :: rest))) =
      if b = comma then do
        let (xs, left) ← parseItems p close fuel rest
        return (x :: xs, left)
      else if b = close then .ok ([x], rest)
      else .error .fail := by
  obtain ⟨c, t', ht, hc, -⟩ := hp.head h
  have hskip : skipWhitespace (w ++ (t ++ (w' ++ b :: rest))) = t ++ (w' ++ b :: rest) := by
    rw [ht]
    exact skipWhitespace_append hw hc
  rw [parseItems, hskip, hp.reads h (stops_append hw' hnumber), ok_bind]
  dsimp only
  rw [skipWhitespace_append hw' hblank]
  rfl

/-- The loop reads the items, by induction on their text. -/
theorem parseItems_text (hp : ReadsTexts p item close) (hclose : Closes close) {xs : List α}
    {t : Bytes} (h : ItemsText item close xs t) (rest : Bytes) {fuel : Nat}
    (hfuel : t.length ≤ fuel) : parseItems p close fuel (t ++ rest) = .ok (xs, rest) := by
  induction h generalizing fuel with
  | @last x w t w' hw h hw' =>
    simp only [List.length_append, List.length_singleton] at hfuel
    obtain ⟨fuel, rfl⟩ : ∃ n, fuel = n + 1 := ⟨fuel - 1, by omega⟩
    rw [List.append_assoc, List.append_assoc, List.append_assoc, List.singleton_append,
      parseItems_item hp hw h hw' hclose.blank hclose.number, if_neg hclose.comma, if_pos rfl]
  | @cons x xs w t w' ts hw h hw' hs ih =>
    simp only [List.length_append, List.length_cons] at hfuel
    obtain ⟨fuel, rfl⟩ : ∃ n, fuel = n + 1 := ⟨fuel - 1, by omega⟩
    rw [List.append_assoc, List.append_assoc, List.append_assoc, List.cons_append,
      parseItems_item hp hw h hw' rfl rfl, if_pos rfl, ih (by omega), ok_bind]
    rfl

theorem ItemsText.exists_cons (hp : ReadsTexts p item close) {xs : List α} {t : Bytes}
    (h : ItemsText item close xs t) (rest : Bytes) :
    ∃ b left, skipWhitespace (t ++ rest) = b :: left ∧ b ≠ close := by
  cases h with
  | @last x w t w' hw h hw' =>
    obtain ⟨b, t', rfl, hb, hne⟩ := hp.head h
    have hskip := skipWhitespace_append (s := t' ++ (w' ++ close :: rest)) hw hb
    exact ⟨b, _, by simpa using hskip, hne⟩
  | @cons x xs w t w' ts hw h hw' hs =>
    obtain ⟨b, t', rfl, hb, hne⟩ := hp.head h
    have hskip := skipWhitespace_append (s := t' ++ (w' ++ comma :: (ts ++ rest))) hw hb
    exact ⟨b, _, by simpa using hskip, hne⟩

theorem parseBrackets_text (hp : ReadsTexts p item close) (hclose : Closes close) {xs : List α}
    {t : Bytes} (h : BracketsText item close xs t) (rest : Bytes) :
    parseBrackets p close (t ++ rest) = .ok (xs, rest) := by
  cases h with
  | empty hw =>
    rw [parseBrackets, List.append_assoc, List.singleton_append,
      skipWhitespace_append hw hclose.blank]
    exact if_pos rfl
  | items h =>
    obtain ⟨b, left, hskip, hne⟩ := h.exists_cons hp rest
    have hfuel : t.length ≤ (t ++ rest).length := by
      rw [List.length_append]
      exact Nat.le_add_right _ _
    rw [parseBrackets, hskip]
    dsimp only
    rw [if_neg hne, ← hskip, parseItems_skipWhitespace, parseItems_text hp hclose h rest hfuel]

end

theorem StringText.exists_cons {s t : Bytes} (h : StringText s t) : ∃ t', t = dquote :: t' := by
  cases h with
  | mk h => exact ⟨_, rfl⟩

/-- The members of an object are read when their values are. -/
theorem readsTexts_parseMember {value : Parser CJson} {item : CJson → Bytes → Prop}
    (hvalue : ReadsTexts value item rbracket) :
    ReadsTexts (parseMember value) (MemberText item) rbrace where
  reads := by
    rintro ⟨name, v⟩ t rest h hrest
    cases h with
    | @mk _ s _ w w' t hs hw hw' ht =>
      obtain ⟨b, t', hb, hblank, -⟩ := hvalue.head ht
      have hskip : skipWhitespace (w' ++ (t ++ rest)) = t ++ rest := by
        rw [hb]
        exact skipWhitespace_append hw' hblank
      have hassoc : s ++ (w ++ colon :: (w' ++ t)) ++ rest =
          s ++ (w ++ colon :: (w' ++ (t ++ rest))) := by simp
      rw [hassoc, parseMember, parseString_text hs, ok_bind]
      dsimp only
      rw [skipWhitespace_append hw rfl]
      dsimp only
      rw [if_neg (not_not.mpr rfl), hskip, hvalue.reads ht hrest, ok_bind]
      rfl
  head := by
    rintro ⟨name, v⟩ t h
    cases h with
    | mk hs _ _ _ =>
      obtain ⟨s, rfl⟩ := hs.exists_cons
      exact ⟨dquote, _, rfl, rfl, by decide⟩

/-! ### Values are read -/

/-- A byte that may stand first in a value. -/
structure StartsValue (b : UInt8) : Prop where
  blank : isBlank b = false
  rbracket : b ≠ rbracket
  bom : b ≠ 0xEF

theorem startsValue_of_isDigit {b : UInt8} (h : isDigit b = true) : StartsValue b := by
  have hrange : 48 ≤ b.toNat ∧ b.toNat ≤ 57 := by
    have h := of_decide_eq_true h
    rwa [UInt8.le_iff_toNat_le, UInt8.le_iff_toNat_le] at h
  refine ⟨?_, ?_, ?_⟩
  · refine decide_eq_false fun hle => ?_
    rw [UInt8.le_iff_toNat_le] at hle
    have h32 : (32 : UInt8).toNat = 32 := rfl
    omega
  · rintro rfl
    exact absurd hrange.2 (by decide)
  · rintro rfl
    exact absurd hrange.2 (by decide)

theorem UnsignedText.startsValue {t : Bytes} {q : ℚ} (h : UnsignedText t q) :
    ∃ b t', t = b :: t' ∧ StartsValue b := by
  obtain ⟨d, t', rfl, hd⟩ := h.exists_cons
  exact ⟨d, t', rfl, startsValue_of_isDigit hd⟩

theorem ValueTextOver.startsValue {R : Rounding} {below : Option (CJson → Bytes → Prop)}
    {v : CJson} {t : Bytes} (h : ValueTextOver R below v t) :
    ∃ b t', t = b :: t' ∧ StartsValue b := by
  cases h with
  | null => exact ⟨110, _, rfl, rfl, by decide, by decide⟩
  | false => exact ⟨102, _, rfl, rfl, by decide, by decide⟩
  | true => exact ⟨116, _, rfl, rfl, by decide, by decide⟩
  | number h _ =>
    cases h with
    | unsigned h => exact UnsignedText.startsValue h
    | negative h => exact ⟨hyphen, _, rfl, rfl, by decide, by decide⟩
  | string h =>
    obtain ⟨t', rfl⟩ := h.exists_cons
    exact ⟨dquote, t', rfl, rfl, by decide, by decide⟩
  | array _ h => exact ⟨lbracket, _, rfl, rfl, by decide, by decide⟩
  | object _ h => exact ⟨lbrace, _, rfl, rfl, by decide, by decide⟩

/-- What does not begin with a letter is no literal. -/
theorem parseValue_of_ne {R : Rounding} {levels : Nat} {b : UInt8} {left : Bytes} (hn : b ≠ 110)
    (hf : b ≠ 102) (ht : b ≠ 116) :
    parseValue R levels (b :: left) =
      if b = dquote then do
        let (s, rest) ← parseString (b :: left)
        return (.string s, rest)
      else if b = hyphen ∨ isDigit b then parseNumber R (b :: left)
      else if b = lbracket then
        match levels with
        | 0 => .error .fail
        | levels + 1 => parseArray (parseValue R levels) left
      else if b = lbrace then
        match levels with
        | 0 => .error .fail
        | levels + 1 => parseObject (parseValue R levels) left
      else .error .fail := by
  have hnull : (b :: left).take 4 ≠ ascii "null" := fun h => hn (List.cons.inj h).1
  have hfalse : (b :: left).take 5 ≠ ascii "false" := fun h => hf (List.cons.inj h).1
  have htrue : (b :: left).take 4 ≠ ascii "true" := fun h => ht (List.cons.inj h).1
  conv_lhs => unfold parseValue
  rw [if_neg hnull, if_neg hfalse]
  exact if_neg htrue

/-- One level of values is read when the level below is. -/
theorem parseValue_over {R : Rounding} {levels : Nat} {below : Option (CJson → Bytes → Prop)}
    (hbelow : ∀ item, below = some item →
      ∃ n, levels = n + 1 ∧ ReadsTexts (parseValue R n) item rbracket)
    {v : CJson} {t rest : Bytes} (h : ValueTextOver R below v t) (hrest : Stops rest) :
    parseValue R levels (t ++ rest) = .ok (v, rest) := by
  cases h with
  | null =>
    unfold parseValue
    exact if_pos rfl
  | false =>
    unfold parseValue
    have hnull : (ascii "false" ++ rest).take 4 ≠ ascii "null" := by
      show ascii "fals" ≠ ascii "null"
      decide
    rw [if_neg hnull]
    exact if_pos rfl
  | true =>
    unfold parseValue
    have hnull : (ascii "true" ++ rest).take 4 ≠ ascii "null" := by
      show ascii "true" ≠ ascii "null"
      decide
    have hfalse : (ascii "true" ++ rest).take 5 ≠ ascii "false" :=
      fun h => absurd (List.cons.inj h).1 (by decide)
    rw [if_neg hnull, if_neg hfalse]
    exact if_pos rfl
  | @number t q h hlen =>
    have hread := parseNumber_text R h hlen hrest
    cases h with
    | unsigned h =>
      obtain ⟨d, t', rfl, hd⟩ := h.exists_cons
      have hne : ∀ b : UInt8, isDigit b = false → d ≠ b := by
        rintro b hb rfl
        rw [hb] at hd
        cases hd
      rw [List.cons_append, parseValue_of_ne (hne 110 rfl) (hne 102 rfl) (hne 116 rfl),
        if_neg (hne dquote rfl), if_pos (Or.inr hd)]
      exact hread
    | negative h =>
      rw [List.cons_append, parseValue_of_ne (by decide) (by decide) (by decide),
        if_neg (by decide), if_pos (Or.inl rfl)]
      exact hread
  | @string s t h =>
    have hread := parseString_text h rest
    obtain ⟨t', rfl⟩ := h.exists_cons
    rw [List.cons_append] at hread ⊢
    rw [parseValue_of_ne (by decide) (by decide) (by decide), if_pos rfl, hread, ok_bind]
    rfl
  | @array item vs t hitem h =>
    obtain ⟨n, rfl, hn⟩ := hbelow item hitem
    rw [List.cons_append, parseValue_of_ne (by decide) (by decide) (by decide),
      if_neg (by decide), if_neg (by decide), if_pos rfl]
    dsimp only
    rw [parseArray, parseBrackets_text hn closes_rbracket h, ok_bind]
    rfl
  | @object item ms t hitem h =>
    obtain ⟨n, rfl, hn⟩ := hbelow item hitem
    rw [List.cons_append, parseValue_of_ne (by decide) (by decide) (by decide),
      if_neg (by decide), if_neg (by decide), if_neg (by decide), if_pos rfl]
    dsimp only
    rw [parseObject, parseBrackets_text (readsTexts_parseMember hn) closes_rbrace h, ok_bind]
    rfl

theorem ValueText.startsValue {R : Rounding} {levels : Nat} {v : CJson} {t : Bytes}
    (h : ValueText R levels v t) : ∃ b t', t = b :: t' ∧ StartsValue b := by
  cases levels with
  | zero => exact ValueTextOver.startsValue h
  | succ levels => exact ValueTextOver.startsValue h

/-- Values are read, by induction on the levels. -/
theorem readsTexts_parseValue (R : Rounding) (levels : Nat) :
    ReadsTexts (parseValue R levels) (ValueText R levels) rbracket where
  reads := by
    induction levels with
    | zero =>
      intro v t rest h hrest
      have h : ValueTextOver R none v t := h
      refine parseValue_over ?_ h hrest
      intro item hitem
      cases hitem
    | succ levels ih =>
      intro v t rest h hrest
      have h : ValueTextOver R (some (ValueText R levels)) v t := h
      refine parseValue_over ?_ h hrest
      intro item hitem
      rw [← Option.some.inj hitem]
      refine ⟨levels, rfl, ih, fun h => ?_⟩
      obtain ⟨b, t', ht, hb⟩ := h.startsValue
      exact ⟨b, t', ht, hb.blank, hb.rbracket⟩
  head h := by
    obtain ⟨b, t', ht, hb⟩ := h.startsValue
    exact ⟨b, t', ht, hb.blank, hb.rbracket⟩

/-- The byte order mark. -/
def utf8Bom : Bytes := [0xEF, 0xBB, 0xBF]

/-- A JSON text: a value in white space, perhaps behind a byte order mark. -/
inductive JsonText (R : Rounding) : CJson → Bytes → Prop
  | mk {v : CJson} {w t w' : Bytes} (hw : IsWs w) (h : ValueText R nestingLimit v t)
      (hw' : IsWs w') : JsonText R v (w ++ (t ++ w'))
  | bom {v : CJson} {w t w' : Bytes} (hw : IsWs w) (h : ValueText R nestingLimit v t)
      (hw' : IsWs w') : JsonText R v (utf8Bom ++ (w ++ (t ++ w')))

/-- A text that does not begin with a byte order mark is left alone. -/
theorem skipUtf8Bom_of_ne {b : UInt8} {s : Bytes} (h : b ≠ 0xEF) :
    skipUtf8Bom (b :: s) = b :: s :=
  if_neg fun hbom => h (List.cons.inj hbom.2).1

/-- The value is read behind white space and up to what does not continue it. -/
theorem parseWithLength_text {R : Rounding} {v : CJson} {w t rest : Bytes} (hw : IsWs w)
    (h : ValueText R nestingLimit v t) (hrest : Stops rest) (hmore : rest ≠ []) :
    parseWithLength R (w ++ (t ++ rest)) = .ok (v, rest) ∧
      parseWithLength R (utf8Bom ++ (w ++ (t ++ rest))) = .ok (v, rest) := by
  obtain ⟨b, t', rfl, hb⟩ := h.startsValue
  have hread := (readsTexts_parseValue R nestingLimit).reads h hrest
  have hskip : skipWhitespace (w ++ (b :: t' ++ rest)) = b :: t' ++ rest :=
    skipWhitespace_append hw hb.blank
  have hne : w ++ (b :: t' ++ rest) ≠ [] := fun hnil =>
    absurd (List.append_eq_nil_iff.mp hnil).2 (List.cons_ne_nil _ _)
  constructor
  · have hbom : skipUtf8Bom (w ++ (b :: t' ++ rest)) = w ++ (b :: t' ++ rest) := by
      obtain _ | ⟨c, w⟩ := w
      · exact skipUtf8Bom_of_ne hb.bom
      · refine skipUtf8Bom_of_ne ?_
        rcases hw c List.mem_cons_self with rfl | rfl | rfl | rfl <;> decide
    rw [parseWithLength, if_neg hne, hbom, hskip, hread]
  · have hlen : 4 < (utf8Bom ++ (w ++ (b :: t' ++ rest))).length := by
      have hpos := List.length_pos_iff.mpr hmore
      simp only [List.length_append, List.length_cons, utf8Bom, List.length_nil]
      omega
    have hbom : skipUtf8Bom (utf8Bom ++ (w ++ (b :: t' ++ rest))) = w ++ (b :: t' ++ rest) :=
      if_pos ⟨hlen, rfl⟩
    rw [parseWithLength, if_neg (by simp [utf8Bom]), hbom, hskip, hread]

end ParseBuffer

/-- The parser delivers what a text writes. -/
theorem cJSONParse_of_jsonText {R : Rounding} {v : CJson} {s : Bytes}
    (h : ParseBuffer.JsonText R v s) : cJSONParse R s = some v := by
  have hstops : ∀ {w' : Bytes}, ParseBuffer.IsWs w' → ParseBuffer.Stops (w' ++ [0]) :=
    fun hw' => ParseBuffer.stops_append hw' rfl
  cases h with
  | @mk w t w' hw h hw' =>
    have hread := (ParseBuffer.parseWithLength_text hw h (hstops hw') (by simp)).1
    rw [cJSONParse, List.append_assoc, List.append_assoc, hread]
  | @bom w t w' hw h hw' =>
    have hread := (ParseBuffer.parseWithLength_text hw h (hstops hw') (by simp)).2
    rw [cJSONParse, List.append_assoc, List.append_assoc, List.append_assoc, hread]

/-- **Every JSON text is accepted**, its numbers in at most 63 bytes, with the value that it
writes, and it writes no other. -/
theorem cJSONParse_text {R : Rounding} {v : CJson} {s : Bytes} (h : ParseBuffer.JsonText R v s) :
    cJSONParse R s = some v ∧ ∀ v', ParseBuffer.JsonText R v' s → v' = v := by
  have hparse := cJSONParse_of_jsonText h
  refine ⟨hparse, fun v' h' => ?_⟩
  have hparse' := cJSONParse_of_jsonText h'
  rw [hparse] at hparse'
  exact (Option.some.inj hparse').symm

/-- A string of one escaped character in an array, with blanks. -/
theorem cJSONParse_text_sample :
    cJSONParse .exact (ascii " [ \"\\u00E9\" ]") = some (.array [.string [0xC3, 0xA9]]) := by
  have hspace : ParseBuffer.IsWs [space] := fun b hb => Or.inl (List.mem_singleton.mp hb)
  have hchar : ParseBuffer.CharText (ascii "\\u00E9") [0xC3, 0xA9] :=
    .unit (c := Char.ofNat 0xE9) (by decide) ⟨rfl, [0, 0, 14, 9], rfl, rfl⟩
  have hstring : ParseBuffer.StringText [0xC3, 0xA9] (ascii "\"\\u00E9\"") := .mk (.cons hchar .nil)
  have hvalue : ParseBuffer.ValueText .exact ParseBuffer.nestingLimit
      (.array [.string [0xC3, 0xA9]]) (ascii "[ \"\\u00E9\" ]") :=
    .array rfl (.items (.last hspace (ParseBuffer.ValueTextOver.string hstring) hspace))
  exact (cJSONParse_text (.mk hspace hvalue (List.forall_mem_nil _))).1

end Wfrest
