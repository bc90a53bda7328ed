import Wfrest.Base.Bytes

/-!
# `CodeUtil`

`url_encode` keeps letters, digits, the slash and four marks, and writes every
other byte as `%` and two hex digits. It is injective, and works on each segment
of a path by itself (`splitOn_urlEncode`). The dot is among the bytes it keeps, so
the segments `.` and `..` come out as they went in.
-/

namespace Wfrest

/-- `%` -/
def percent : UInt8 := 37

namespace CodeUtil

/-- The bytes that `url_encode` copies. -/
def keeps (chr : UInt8) : Bool :=
  (48 ≤ chr && chr ≤ 57) || (65 ≤ chr && chr ≤ 90) || (97 ≤ chr && chr ≤ 122) || chr = hyphen ||
    chr = dot || chr = 95 || chr = 126 || chr = slash

/-- `hex_chars` -/
def hexChars : Bytes := ascii "0123456789ABCDEF"

/-- A byte that `url_encode` does not copy. -/
def escape (chr : UInt8) : Bytes :=
  [percent, hexChars.getD (chr.toNat >>> 4) 0, hexChars.getD (chr.toNat &&& 15) 0]

/-- One round of the loop. -/
def encodeChar (chr : UInt8) : Bytes := if keeps chr then [chr] else escape chr

/-- `CodeUtil::url_encode` -/
def urlEncode (value : Bytes) : Bytes := value.flatMap encodeChar

@[simp] theorem urlEncode_nil : urlEncode [] = [] := rfl

theorem urlEncode_cons (chr : UInt8) (value : Bytes) :
    urlEncode (chr :: value) = encodeChar chr ++ urlEncode value := List.flatMap_cons

theorem urlEncode_append (a b : Bytes) : urlEncode (a ++ b) = urlEncode a ++ urlEncode b :=
  List.flatMap_append

private theorem hexChars_keeps : ∀ i < 16, keeps (hexChars.getD i 0) = true := by decide

private theorem hexChars_injective :
    ∀ i < 16, ∀ j < 16, hexChars.getD i 0 = hexChars.getD j 0 → i = j := by decide

/-- **The bytes of an encoded string** are copied ones and `%`. -/
theorem keeps_or_percent_of_mem {value : Bytes} {b : UInt8} (h : b ∈ urlEncode value) :
    keeps b = true ∨ b = percent := by
  obtain ⟨chr, -, hb⟩ := List.mem_flatMap.mp h
  unfold encodeChar at hb
  split at hb
  · next hk =>
    rw [List.mem_singleton.mp hb]
    exact Or.inl hk
  · rw [escape, List.mem_cons, List.mem_cons, List.mem_singleton] at hb
    rcases hb with rfl | rfl | rfl
    · exact Or.inr rfl
    · exact Or.inl (hexChars_keeps _ (shiftRight_four_lt chr))
    · exact Or.inl (hexChars_keeps _ (and_fifteen_lt chr))

theorem zero_notMem_urlEncode (value : Bytes) : 0 ∉ urlEncode value := fun h =>
  absurd (keeps_or_percent_of_mem h) (by decide)

theorem star_notMem_urlEncode (value : Bytes) : star ∉ urlEncode value := fun h =>
  absurd (keeps_or_percent_of_mem h) (by decide)

/-! ### Fixed points -/

theorem length_encodeChar (chr : UInt8) :
    (encodeChar chr).length = if keeps chr then 1 else 3 := by
  unfold encodeChar escape
  split <;> rfl

theorem length_le_length_urlEncode (value : Bytes) : value.length ≤ (urlEncode value).length := by
  induction value with
  | nil => exact le_refl _
  | cons c value ih =>
    rw [urlEncode_cons, List.length_append, List.length_cons, length_encodeChar]
    split <;> omega

/-- **What `url_encode` leaves as it is**: the strings of copied bytes. -/
theorem urlEncode_eq_self_iff {value : Bytes} :
    urlEncode value = value ↔ ∀ b ∈ value, keeps b = true := by
  induction value with
  | nil => simp
  | cons c value ih =>
    rw [urlEncode_cons, List.forall_mem_cons, ← ih]
    cases hc : keeps c with
    | true => simp [encodeChar, hc]
    | false =>
      -- an escaped byte makes the string longer
      have hlen := length_le_length_urlEncode value
      refine iff_of_false (fun h => ?_) (by simp)
      have h' := congrArg List.length h
      rw [List.length_append, length_encodeChar, hc, List.length_cons] at h'
      simp only [Bool.false_eq_true, if_false] at h'
      omega

/-! ### Injectivity -/

theorem escape_injective : Function.Injective escape := by
  intro c d h
  simp only [escape, List.cons.injEq, true_and, and_true] at h
  have hhi := hexChars_injective _ (shiftRight_four_lt c) _ (shiftRight_four_lt d) h.1
  have hlo := hexChars_injective _ (and_fifteen_lt c) _ (and_fifteen_lt d) h.2
  exact eq_of_nibbles hhi hlo

theorem encodeChar_ne_nil (chr : UInt8) : encodeChar chr ≠ [] := by
  unfold encodeChar escape
  split <;> simp

/-- The code of a byte can be cut off the front of a string in one way. -/
theorem encodeChar_append_inj {c d : UInt8} {s t : Bytes}
    (h : encodeChar c ++ s = encodeChar d ++ t) : c = d ∧ s = t := by
  have hpercent : keeps percent = false := by decide
  unfold encodeChar at h
  split at h <;> split at h
  · simpa using h
  · next hc _ =>
    -- a copied byte is not `%`
    rw [escape, List.singleton_append, List.cons_append, List.cons.injEq] at h
    rw [h.1, hpercent] at hc
    simp at hc
  · next _ hd =>
    rw [escape, List.singleton_append, List.cons_append, List.cons.injEq] at h
    rw [← h.1, hpercent] at hd
    simp at hd
  · obtain ⟨h1, h2⟩ := List.append_inj h rfl
    exact ⟨escape_injective h1, h2⟩

theorem urlEncode_injective : Function.Injective urlEncode := by
  intro a b h
  induction a generalizing b with
  | nil =>
    cases b with
    | nil => rfl
    | cons d b =>
      rw [urlEncode_nil, urlEncode_cons] at h
      exact absurd (List.append_eq_nil_iff.mp h.symm).1 (encodeChar_ne_nil d)
  | cons c a ih =>
    cases b with
    | nil =>
      rw [urlEncode_nil, urlEncode_cons] at h
      exact absurd (List.append_eq_nil_iff.mp h).1 (encodeChar_ne_nil c)
    | cons d b =>
      rw [urlEncode_cons, urlEncode_cons] at h
      obtain ⟨rfl, hrest⟩ := encodeChar_append_inj h
      rw [ih hrest]

/-! ### Segments -/

theorem encodeChar_slash : encodeChar slash = [slash] := by decide

theorem slash_notMem_encodeChar {chr : UInt8} (h : chr ≠ slash) : slash ∉ encodeChar chr := by
  have hhex : ∀ i < 16, hexChars.getD i 0 ≠ slash := by decide
  unfold encodeChar
  split
  · simpa using h.symm
  · rw [escape, List.mem_cons, List.mem_cons, List.mem_singleton]
    rintro (h0 | h1 | h2)
    · exact absurd h0 (by decide)
    · exact hhex _ (shiftRight_four_lt chr) h1.symm
    · exact hhex _ (and_fifteen_lt chr) h2.symm

private theorem splitOn_append_of_notMem {a : Bytes} (h : slash ∉ a) (b : Bytes) :
    (a ++ b).splitOn slash = (b.splitOn slash).modifyHead (a ++ ·) := by
  induction a with
  | nil => exact (congrFun List.modifyHead_id _).symm
  | cons c a ih =>
    have hc : ¬ c = slash := fun hc => h (hc ▸ List.mem_cons_self)
    have ha : slash ∉ a := fun hm => h (List.mem_cons_of_mem c hm)
    obtain ⟨x, xs, hx⟩ := List.exists_cons_of_ne_nil (List.splitOn_ne_nil slash b)
    rw [List.cons_append, List.splitOn_cons_eq_if_modifyHead, ih ha, hx]
    simp [hc]

/-- **Segment by segment.** Encoding a path encodes its segments. -/
theorem splitOn_urlEncode (p : Bytes) :
    (urlEncode p).splitOn slash = (p.splitOn slash).map urlEncode := by
  induction p with
  | nil => simp
  | cons c p ih =>
    obtain ⟨x, xs, hx⟩ := List.exists_cons_of_ne_nil (List.splitOn_ne_nil slash p)
    rw [urlEncode_cons, List.splitOn_cons_eq_if_modifyHead]
    by_cases hc : c = slash
    · rw [hc, encodeChar_slash, List.singleton_append, List.splitOn_cons_eq_if_modifyHead, ih]
      simp
    · rw [splitOn_append_of_notMem (slash_notMem_encodeChar hc), ih, hx]
      simp [hc, urlEncode_cons]

end CodeUtil

end Wfrest
