import Wfrest.CJson.Strtod
import Wfrest.Compare.Json
import Mathlib.Data.List.Induction

/-!
# Numbers and strings of `cJSON`

A `parse_buffer` is modelled by the bytes from `buffer_at_offset` to its end, so that an
offset moves when bytes are dropped. A read that the code does not guard is `Halt.outside`
when no byte is left.

`parse_string` goes twice over a string. The first loop looks for the closing quote and
counts the escapes (`scanString`); from that the output is allocated. The second loop
writes the output (`unescape`). The two loops do not agree on what an escape is: the first
takes two bytes for every backslash, the second six or twelve behind `\u`, and what
`parse_hex4` cannot read it takes for zero. Still the output always fits
(`length_unescape_lt`).
-/

namespace Wfrest

namespace ParseBuffer

/-- `\` -/
def backslash : UInt8 := 92

/-- How a function of the parser ends without a value. -/
inductive Halt where
  /-- It read a byte behind the end of the buffer. -/
  | outside
  /-- It returned `false`. -/
  | fail
  /-- The model of a loop ran out of fuel. -/
  | fuel
  deriving DecidableEq

/-- A function of the parser. It delivers a value and the buffer behind it. -/
abbrev Parser (α : Type) := Bytes → Except Halt (α × Bytes)

/-! ### White space -/

/-- The test of `buffer_skip_whitespace`. -/
def isBlank (b : UInt8) : Bool := b ≤ 32

/-- `buffer_skip_whitespace`. At the end of the buffer it steps back to the last byte. -/
def skipWhitespace (rest : Bytes) : Bytes :=
  if rest.dropWhile isBlank = [] then rest.drop (rest.length - 1) else rest.dropWhile isBlank

/-- `skip_utf8_bom` at the beginning of a buffer. -/
def skipUtf8Bom (content : Bytes) : Bytes :=
  if 4 < content.length ∧ content.take 3 = [0xEF, 0xBB, 0xBF] then content.drop 3 else content

/-! ### Numbers -/

/-- The bytes that `parse_number` copies. -/
def isNumberByte (b : UInt8) : Bool :=
  isDigit b || b = plusSign || b = hyphen || isExpMark b || b = dot

/-- `parse_number` -/
def parseNumber (R : Rounding) (rest : Bytes) : Except Halt (CJson × Bytes) :=
  let numberCString := (rest.take 63).takeWhile isNumberByte
  match strtod R numberCString with
  | none => .error .fail
  | some (number, left) =>
    .ok (.number number.valueint number, rest.drop (numberCString.length - left.length))

/-! ### UTF-16 literals -/

/-- The digit that `parse_hex4` reads. -/
def hexDigit? (b : UInt8) : Option Nat :=
  if 48 ≤ b ∧ b ≤ 57 then some (b.toNat - 48)
  else if 65 ≤ b ∧ b ≤ 70 then some (10 + b.toNat - 65)
  else if 97 ≤ b ∧ b ≤ 102 then some (10 + b.toNat - 97)
  else none

/-- The loop of `parse_hex4`: `h` is what is read so far. -/
def hexLoop : Nat → Bytes → Nat
  | h, [] => h
  | h, b :: s =>
    match hexDigit? b with
    | none => 0
    | some d => hexLoop (16 * h + d) s

/-- `parse_hex4`. What is not a digit makes it zero. -/
def parseHex4 (input : Bytes) : Nat := hexLoop 0 (input.take 4)

/-- The loop that writes the bytes behind the first one, the last byte first: what is left
of the code point, and the bytes. -/
def encodeTail : Nat → Nat → Bytes → Nat × Bytes
  | 0, codepoint, output => (codepoint, output)
  | n + 1, codepoint, output =>
    encodeTail n (codepoint >>> 6) (((codepoint ||| 0x80) &&& 0xBF).toUInt8 :: output)

/-- The bytes of a code point when there are `utf8Length` of them. -/
def encodeAs (utf8Length firstByteMark codepoint : Nat) : Bytes :=
  let r := encodeTail (utf8Length - 1) codepoint []
  let first := if 1 < utf8Length then (r.1 ||| firstByteMark) &&& 0xFF else r.1 &&& 0x7F
  first.toUInt8 :: r.2

/-- The bytes of a code point, `none` behind the last one. -/
def encodeUtf8 (codepoint : Nat) : Option Bytes :=
  if codepoint < 0x80 then some (encodeAs 1 0 codepoint)
  else if codepoint < 0x800 then some (encodeAs 2 0xC0 codepoint)
  else if codepoint < 0x10000 then some (encodeAs 3 0xE0 codepoint)
  else if codepoint ≤ 0x10FFFF then some (encodeAs 4 0xF0 codepoint)
  else none

/-- The second half of a surrogate pair, `none` when it is missing. -/
def lowSurrogate (second : Bytes) : Option Nat :=
  if second.length < 6 then none
  else if second.take 2 ≠ [backslash, 117] then none
  else if parseHex4 (second.drop 2) < 0xDC00 ∨ 0xDFFF < parseHex4 (second.drop 2) then none
  else some (parseHex4 (second.drop 2))

/-- `utf16_literal_to_utf8` on the bytes between `input_pointer` and `input_end`: what it
writes and the length of the sequence, `none` for zero. -/
def utf16LiteralToUtf8 (input : Bytes) : Option (Bytes × Nat) :=
  let firstCode := parseHex4 (input.drop 2)
  if input.length < 6 then none
  else if 0xDC00 ≤ firstCode ∧ firstCode ≤ 0xDFFF then none
  else if 0xD800 ≤ firstCode ∧ firstCode ≤ 0xDBFF then do
    let secondCode ← lowSurrogate (input.drop 6)
    let out ← encodeUtf8 (0x10000 + (((firstCode &&& 0x3FF) <<< 10) ||| (secondCode &&& 0x3FF)))
    return (out, 12)
  else do
    let out ← encodeUtf8 firstCode
    return (out, 6)

/-! ### Strings -/

/-- The first loop of `parse_string`, behind the opening quote: the bytes up to the closing
one, `skipped_bytes`, and what follows the closing quote. `none` when there is none. -/
def scanString : Bytes → Option (Bytes × Nat × Bytes)
  | [] => none
  | b :: s =>
    if b = dquote then some ([], 0, s)
    else if b = backslash then
      match s with
      | [] => none
      | c :: s => (scanString s).map fun r => (b :: c :: r.1, r.2.1 + 1, r.2.2)
    else (scanString s).map fun r => (b :: r.1, r.2.1, r.2.2)

/-- `allocation_length` -/
def allocationLength (body : Bytes) (skippedBytes : Nat) : Nat := body.length + 1 - skippedBytes

/-- The byte that an escape of two bytes stands for. -/
def simpleEscape (b : UInt8) : Option UInt8 :=
  if b = 98 then some 8
  else if b = 102 then some 12
  else if b = 110 then some lf
  else if b = 114 then some cr
  else if b = 116 then some 9
  else if b = dquote ∨ b = backslash ∨ b = slash then some b
  else none

/-- The output written so far, in front of what the rest of the loop writes. -/
def written (out : Bytes) (r : Bytes × Bool) : Bytes × Bool := (out ++ r.1, r.2)

/-- The second loop of `parse_string`: what it writes, and whether it gets to the end.
`skip` bytes belong to the sequence in front. Behind the last byte stands the closing
quote. -/
def unescape (skip : Nat) : Bytes → Bytes × Bool
  | [] => ([], true)
  | b :: s =>
    if 0 < skip then unescape (skip - 1) s
    else if b ≠ backslash then written [b] (unescape 0 s)
    else if s.headD dquote = 117 then
      match utf16LiteralToUtf8 (b :: s) with
      | none => ([], false)
      | some (out, sequenceLength) => written out (unescape (sequenceLength - 1) s)
    else
      match simpleEscape (s.headD dquote) with
      | none => ([], false)
      | some e => written [e] (unescape 1 s)

/-- `parse_string`. The members of a tree are C strings, so what is kept of the output ends
at the first NUL. -/
def parseString (rest : Bytes) : Except Halt (Bytes × Bytes) :=
  match rest with
  | [] => .error .outside
  | b :: s =>
    if b ≠ dquote then .error .fail
    else
      match scanString s with
      | none => .error .fail
      | some (body, _, rest) =>
        if (unescape 0 body).2 then .ok (cStr (unescape 0 body).1, rest) else .error .fail

/-! ### The output fits -/

theorem unescape_of_skip (k : Nat) (s : Bytes) : unescape k s = unescape 0 (s.drop k) := by
  induction s generalizing k with
  | nil => rw [List.drop_nil, unescape, unescape]
  | cons b s ih =>
    cases k with
    | zero => rfl
    | succ k =>
      rw [unescape, if_pos (Nat.succ_pos k), List.drop_succ_cons]
      exact ih k

theorem unescape_cons (b : UInt8) (s : Bytes) :
    unescape 0 (b :: s) =
      if b ≠ backslash then written [b] (unescape 0 s)
      else if s.headD dquote = 117 then
        match utf16LiteralToUtf8 (b :: s) with
        | none => ([], false)
        | some (out, sequenceLength) => written out (unescape 0 (s.drop (sequenceLength - 1)))
      else
        match simpleEscape (s.headD dquote) with
        | none => ([], false)
        | some e => written [e] (unescape 0 (s.drop 1)) := by
  rw [unescape, if_neg (Nat.lt_irrefl 0)]
  simp only [unescape_of_skip _ s]

/-- The characters of a string as the first loop sees them: an escape is one of them. -/
def units : Bytes → Nat
  | [] => 0
  | b :: s =>
    if b = backslash then
      match s with
      | [] => 1
      | _ :: s => units s + 1
    else units s + 1

theorem units_cons_of_ne {b : UInt8} (h : b ≠ backslash) (s : Bytes) :
    units (b :: s) = units s + 1 := by
  conv_lhs => unfold units
  rw [if_neg h]

theorem units_escape (c : UInt8) (s : Bytes) : units (backslash :: c :: s) = units s + 1 := by
  rw [units, if_pos rfl]

/-- One byte less is at most one character less. -/
theorem units_cons_le (b : UInt8) (s : Bytes) :
    units s ≤ units (b :: s) ∧ units (b :: s) ≤ units s + 1 := by
  have hne : ∀ {b s}, b ≠ backslash → units s ≤ units (b :: s) ∧ units (b :: s) ≤ units s + 1 := by
    intro b s hb
    rw [units_cons_of_ne hb]
    exact ⟨Nat.le_succ _, le_rfl⟩
  induction s using List.twoStepInduction generalizing b with
  | nil =>
    by_cases hb : b = backslash
    · rw [hb]
      decide
    · exact hne hb
  | singleton c =>
    by_cases hb : b = backslash
    · rw [hb, units_escape, show units [] = 0 from rfl]
      have hc : units [c] = 1 := by
        unfold units
        split <;> rfl
      omega
    · exact hne hb
  | cons_cons c d s ih _ =>
    by_cases hb : b = backslash
    · rw [hb, units_escape]
      by_cases hc : c = backslash
      · -- the bytes are taken two and two, from the first or from the second on
        rw [hc, units_escape]
        have := ih d
        omega
      · rw [units_cons_of_ne hc]
        omega
    · exact hne hb

theorem units_drop_le (n : Nat) (s : Bytes) : units (s.drop n) ≤ units s := by
  induction n generalizing s with
  | zero => exact le_rfl
  | succ n ih =>
    cases s with
    | nil => exact le_rfl
    | cons b s => exact (ih s).trans (units_cons_le b s).1

theorem scanString_quote (s : Bytes) : scanString (dquote :: s) = some ([], 0, s) := by
  unfold scanString
  exact if_pos rfl

theorem scanString_of_ne {b : UInt8} (hquote : b ≠ dquote) (hslash : b ≠ backslash) (s : Bytes) :
    scanString (b :: s) = (scanString s).map fun r => (b :: r.1, r.2.1, r.2.2) := by
  conv_lhs => unfold scanString
  rw [if_neg hquote, if_neg hslash]

/-- What the first loop finds: a body of characters up to a quote. -/
theorem scanString_spec {s body rest : Bytes} {skipped : Nat}
    (h : scanString s = some (body, skipped, rest)) :
    s = body ++ dquote :: rest ∧ body.length = units body + skipped := by
  induction s using scanString.induct generalizing body rest skipped with
  | case1 => cases h
  | case2 s =>
    rw [scanString_quote] at h
    cases h
    exact ⟨rfl, rfl⟩
  | case3 => cases h
  | case4 c s _ ih =>
    obtain ⟨⟨body, skipped, rest⟩, hscan, hr⟩ := Option.map_eq_some_iff.mp h
    cases hr
    obtain ⟨rfl, hlen⟩ := ih hscan
    refine ⟨rfl, ?_⟩
    show body.length + 1 + 1 = units (backslash :: c :: body) + (skipped + 1)
    rw [units_escape]
    omega
  | case5 b s hquote hslash ih =>
    rw [scanString_of_ne hquote hslash] at h
    obtain ⟨⟨body, skipped, rest⟩, hscan, hr⟩ := Option.map_eq_some_iff.mp h
    cases hr
    obtain ⟨rfl, hlen⟩ := ih hscan
    refine ⟨rfl, ?_⟩
    show body.length + 1 = units (b :: body) + skipped
    rw [units_cons_of_ne hslash]
    omega

theorem length_encodeTail (n codepoint : Nat) (output : Bytes) :
    (encodeTail n codepoint output).2.length = n + output.length := by
  induction n generalizing codepoint output with
  | zero => exact (Nat.zero_add _).symm
  | succ n ih =>
    rw [encodeTail, ih, List.length_cons]
    omega

theorem length_encodeAs (n mark codepoint : Nat) :
    (encodeAs (n + 1) mark codepoint).length = n + 1 := by
  rw [encodeAs, List.length_cons, length_encodeTail]
  rfl

/-- No code point takes more than four bytes, and one below `0x10000` at most three. -/
theorem length_encodeUtf8 {codepoint : Nat} {out : Bytes} (h : encodeUtf8 codepoint = some out) :
    out.length ≤ 4 ∧ (codepoint < 0x10000 → out.length ≤ 3) ∧ (codepoint = 0 → out.length ≤ 1) := by
  unfold encodeUtf8 at h
  split_ifs at h with h1 h2 h3 h4 <;> cases h <;> rw [length_encodeAs] <;> omega

theorem hexDigit?_backslash : hexDigit? backslash = none := by decide

theorem hexDigit?_lt {b : UInt8} {d : Nat} (h : hexDigit? b = some d) : d < 16 := by
  unfold hexDigit? at h
  simp only [UInt8.le_iff_toNat_le, UInt8.reduceToNat] at h
  split_ifs at h <;> cases h <;> omega

/-- What is read as a number other than zero has four digits. -/
theorem eq_of_parseHex4_ne_zero {s : Bytes} (h : parseHex4 s ≠ 0) (hlen : 4 ≤ s.length) :
    ∃ a b c d t, s = a :: b :: c :: d :: t ∧ a ≠ backslash ∧ b ≠ backslash ∧ c ≠ backslash ∧
      d ≠ backslash := by
  obtain _ | ⟨a, _ | ⟨b, _ | ⟨c, _ | ⟨d, t⟩⟩⟩⟩ := s
  · cases hlen
  · exact absurd hlen (by simp)
  · exact absurd hlen (by simp)
  · exact absurd hlen (by simp)
  refine ⟨a, b, c, d, t, rfl, ?_⟩
  -- a backslash ends the loop with a zero
  have hloop : ∀ (n : Nat) (s s' : Bytes), hexLoop n (s ++ backslash :: s') = 0 := by
    intro n s s'
    induction s generalizing n with
    | nil => rw [List.nil_append, hexLoop, hexDigit?_backslash]
    | cons b s ih =>
      rw [List.cons_append, hexLoop]
      split
      · rfl
      · exact ih _
  refine ⟨?_, ?_, ?_, ?_⟩ <;> rintro rfl
  · exact h (hloop 0 [] [b, c, d])
  · exact h (hloop 0 [a] [c, d])
  · exact h (hloop 0 [a, b] [d])
  · exact h (hloop 0 [a, b, c] [])

theorem parseHex4_lt (s : Bytes) : parseHex4 s < 0x10000 := by
  have hloop : ∀ (t : Bytes) (h n : Nat), h < 16 ^ n → hexLoop h t < 16 ^ (n + t.length) := by
    intro t
    induction t with
    | nil => exact fun h n hlt => hlt
    | cons b t ih =>
      intro h n hlt
      rw [hexLoop]
      split
      · exact Nat.pow_pos (by decide)
      · next d hd =>
        have hd := hexDigit?_lt hd
        have hstep := ih (16 * h + d) (n + 1) (by rw [Nat.pow_succ]; omega)
        rwa [List.length_cons, Nat.add_comm t.length 1, ← Nat.add_assoc]
  have hlt := hloop (s.take 4) 0 0 (by decide)
  refine lt_of_lt_of_le hlt ?_
  rw [Nat.zero_add]
  exact Nat.pow_le_pow_right (by decide) (List.length_take_le 4 s)

/-- The second half of a pair is an escape of six bytes, of which four are digits. -/
theorem units_of_lowSurrogate {second : Bytes} {n : Nat} (h : lowSurrogate second = some n) :
    units second = 5 + units (second.drop 6) := by
  unfold lowSurrogate at h
  split_ifs at h with hlen hmark hcode
  obtain _ | ⟨b, _ | ⟨u, s⟩⟩ := second
  · exact absurd (by decide) hlen
  · exact absurd (by simp) hlen
  obtain ⟨rfl, rfl⟩ : b = backslash ∧ u = 117 := by simpa using hmark
  rw [List.length_cons, List.length_cons] at hlen
  have hne : parseHex4 s ≠ 0 := by
    intro hzero
    exact hcode (Or.inl (hzero ▸ by decide))
  obtain ⟨a, b, c, d, t, rfl, ha, hb, hc, hd⟩ := eq_of_parseHex4_ne_zero hne (by omega)
  simp only [List.drop_succ_cons, List.drop_zero, units_escape, units_cons_of_ne, ha, hb, hc, hd,
    ne_eq, not_false_eq_true]
  omega

/-- What a UTF-16 literal writes fits where the first loop saw the literal. -/
theorem length_utf16LiteralToUtf8 {u : UInt8} {s out : Bytes} {n : Nat}
    (h : utf16LiteralToUtf8 (backslash :: u :: s) = some (out, n)) :
    2 ≤ n ∧ out.length + units (s.drop (n - 2)) ≤ units s + 1 := by
  unfold utf16LiteralToUtf8 at h
  simp only [List.drop_succ_cons, List.drop_zero, List.length_cons] at h
  split_ifs at h with hlen hlow hhigh
  · -- a surrogate pair
    obtain ⟨secondCode, hsecond, h⟩ := Option.bind_eq_some_iff.mp h
    obtain ⟨out, hout, h⟩ := Option.bind_eq_some_iff.mp h
    cases h
    have hne : parseHex4 s ≠ 0 := by omega
    obtain ⟨a, b, c, d, t, rfl, ha, hb, hc, hd⟩ := eq_of_parseHex4_ne_zero hne (by omega)
    have hfour := (length_encodeUtf8 hout).1
    have hpair := units_of_lowSurrogate hsecond
    simp only [List.drop_succ_cons, List.drop_zero] at hpair
    simp only [Nat.reduceSub, List.drop_succ_cons, units_cons_of_ne, ha, hb, hc, hd, ne_eq,
      not_false_eq_true, hpair]
    omega
  · obtain ⟨out, hout, h⟩ := Option.bind_eq_some_iff.mp h
    cases h
    obtain ⟨-, hthree, hone⟩ := length_encodeUtf8 hout
    refine ⟨by decide, ?_⟩
    by_cases hzero : parseHex4 s = 0
    · -- one byte for at least one character
      have hout := hone hzero
      have hdrop := units_drop_le 4 s
      show out.length + units (s.drop 4) ≤ _
      omega
    · obtain ⟨a, b, c, d, t, rfl, ha, hb, hc, hd⟩ := eq_of_parseHex4_ne_zero hzero (by omega)
      have hout := hthree (parseHex4_lt _)
      simp only [Nat.reduceSub, List.drop_succ_cons, List.drop_zero, units_cons_of_ne, ha, hb, hc,
        hd, ne_eq, not_false_eq_true]
      omega

/-- The second loop writes at most one byte for a character of the first. -/
theorem length_unescape_le (body : Bytes) : (unescape 0 body).1.length ≤ units body := by
  induction hn : body.length using Nat.strong_induction_on generalizing body with
  | _ n ih =>
    obtain _ | ⟨b, s⟩ := body
    · exact le_rfl
    have hrest : ∀ k, (unescape 0 (s.drop k)).1.length ≤ units (s.drop k) := by
      intro k
      refine ih _ ?_ (s.drop k) rfl
      rw [List.length_drop, ← hn, List.length_cons]
      omega
    rw [unescape_cons]
    by_cases hb : b = backslash
    · rw [if_neg (not_not.mpr hb), hb]
      obtain _ | ⟨c, s⟩ := s
      · decide
      rw [units_escape]
      split
      · split
        · exact Nat.zero_le _
        · next out n hliteral =>
          obtain ⟨hpos, hfits⟩ := length_utf16LiteralToUtf8 hliteral
          have hrest := hrest (n - 1)
          obtain ⟨m, rfl⟩ := Nat.exists_eq_add_of_le hpos
          rw [show 2 + m - 1 = m + 1 by omega, List.drop_succ_cons] at hrest ⊢
          rw [Nat.add_sub_cancel_left] at hfits
          rw [written, List.length_append]
          omega
      · split
        · exact Nat.zero_le _
        · have hrest := hrest 1
          rw [List.drop_succ_cons, List.drop_zero] at hrest ⊢
          rw [written, List.length_append, List.length_singleton]
          omega
    · rw [if_pos hb, units_cons_of_ne hb, written, List.length_append, List.length_singleton]
      have hrest := hrest 0
      rw [List.drop_zero] at hrest
      omega

/-- **The output fits.** Whatever stands between the quotes, and whether or not the second
loop gets to the end, what it writes and the NUL behind it fit in `allocation_length`
bytes. One byte more is allocated. -/
theorem length_unescape_lt {s body rest : Bytes} {skippedBytes : Nat}
    (h : scanString s = some (body, skippedBytes, rest)) :
    (unescape 0 body).1.length + 1 ≤ allocationLength body skippedBytes := by
  have hlen := (scanString_spec h).2
  have hle := length_unescape_le body
  unfold allocationLength
  omega

/-- The loops disagree on `\u123\\`: an escape, three digits and an escape to the first one,
six bytes and an escape that runs into the closing quote to the second one. -/
theorem length_unescape_lt_misaligned :
    (unescape 0 [backslash, 117, 49, 50, 51, backslash, backslash]).1.length + 1 ≤
      allocationLength [backslash, 117, 49, 50, 51, backslash, backslash] 2 :=
  have hscan : scanString [backslash, 117, 49, 50, 51, backslash, backslash, dquote] =
      some ([backslash, 117, 49, 50, 51, backslash, backslash], 2, []) := rfl
  length_unescape_lt hscan

end ParseBuffer

end Wfrest
