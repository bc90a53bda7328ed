import Wfrest.CJson.Literals
import Wfrest.Compare.Task

/-!
# `cJSON_Parse`

The parser proper. `parse_value` and the functions for arrays and objects call each other
up to `CJSON_NESTING_LIMIT` levels deep; `levels` is how many are left. The loops over the
items of an array and the members of an object are one loop (`parseItems`), which runs on
fuel.

No function reads behind the buffer, except in one place: `parse_string` does not check
that there is a byte where the name of a member must stand. So the buffer must not end in a
comma (`getLast?_of_outside`), which the NUL of a C string sees to. The loops end before
their fuel (`parseWithLength_ne_fuel`).

The texts are those of a C program: what is left out is a failing allocation, and the
place of an error.
-/

namespace Wfrest

namespace ParseBuffer

/-- `[` -/
def lbracket : UInt8 := 91

/-- `]` -/
def rbracket : UInt8 := 93

/-! ### Arrays and objects -/

/-- The `do` loop of `parse_array` and `parse_object`, from behind the bracket or comma on,
and the test behind it. -/
def parseItems {α : Type} (item : Parser α) (close : UInt8) :
    Nat → Bytes → Except Halt (List α × Bytes)
  | 0, _ => .error .fuel
  | fuel + 1, rest => do
    let (x, rest) ← item (skipWhitespace rest)
    match skipWhitespace rest with
    | [] => .error .fail
    | b :: rest =>
      if b = comma then do
        let (xs, rest) ← parseItems item close fuel rest
        return (x :: xs, rest)
      else if b = close then return ([x], rest)
      else .error .fail

/-- The items between the brackets, from behind the opening one on. -/
def parseBrackets {α : Type} (item : Parser α) (close : UInt8) (rest : Bytes) :
    Except Halt (List α × Bytes) :=
  match skipWhitespace rest with
  | [] => .error .fail
  | b :: left =>
    if b = close then .ok ([], left) else parseItems item close rest.length (b :: left)

/-- A round of the loop of `parse_object`, up to the value. -/
def parseMember (value : Parser CJson) (rest : Bytes) : Except Halt ((Bytes × CJson) × Bytes) := do
  let (name, rest) ← parseString rest
  match skipWhitespace rest with
  | [] => .error .fail
  | b :: rest =>
    if b ≠ colon then .error .fail
    else do
      let (v, rest) ← value (skipWhitespace rest)
      return ((name, v), rest)

/-- `parse_array` behind the bracket -/
def parseArray (value : Parser CJson) (rest : Bytes) : Except Halt (CJson × Bytes) := do
  let (items, rest) ← parseBrackets value rbracket rest
  return (.array items, rest)

/-- `parse_object` behind the brace -/
def parseObject (value : Parser CJson) (rest : Bytes) : Except Halt (CJson × Bytes) := do
  let (items, rest) ← parseBrackets (parseMember value) rbrace rest
  return (.object items, rest)

/-! ### Values -/

/-- `parse_value` -/
def parseValue (R : Rounding) (levels : Nat) (rest : Bytes) : Except Halt (CJson × Bytes) :=
  if rest.take 4 = ascii "null" then .ok (.null, rest.drop 4)
  else if rest.take 5 = ascii "false" then .ok (.false, rest.drop 5)
  else if rest.take 4 = ascii "true" then .ok (.true, rest.drop 4)
  else
    match rest with
    | [] => .error .fail
    | b :: left =>
      if b = dquote then do
        let (s, rest) ← parseString (b :: left)
        return (.string s, rest)
      else if b = hyphen ∨ isDigit b then parseNumber R (b :: left)
      else if b = lbracket then
        match levels with
        | 0 => .error .fail
        | levels + 1 => parseArray (parseValue R levels) left
      else if b = lbrace then
        match levels with
        | 0 => .error .fail
        | levels + 1 => parseObject (parseValue R levels) left
      else .error .fail

/-- `CJSON_NESTING_LIMIT` -/
def nestingLimit : Nat := 1000

/-- `cJSON_ParseWithLength`. What stands behind the value is not looked at. -/
def parseWithLength (R : Rounding) (content : Bytes) : Except Halt (CJson × Bytes) :=
  if content = [] then .error .fail
  else parseValue R nestingLimit (skipWhitespace (skipUtf8Bom content))

/-! ### Nothing outside is read -/

theorem skipWhitespace_suffix (rest : Bytes) : skipWhitespace rest <:+ rest := by
  unfold skipWhitespace
  split_ifs
  · exact List.drop_suffix _ _
  · exact List.dropWhile_suffix _

theorem skipWhitespace_eq_nil {rest : Bytes} (h : skipWhitespace rest = []) : rest = [] := by
  unfold skipWhitespace at h
  split_ifs at h with hall
  · rw [List.drop_eq_nil_iff] at h
    refine List.length_eq_zero_iff.mp ?_
    omega
  · exact absurd h hall

/-- What may come of a call in the buffer `content`. A value leaves fewer than `n` bytes. -/
def Within {α : Type} (content : Bytes) (n : Nat) : Except Halt (α × Bytes) → Prop
  | .ok r => r.2 <:+ content ∧ r.2.length < n
  | .error .outside => content.getLast? = some comma
  | .error .fail => True
  | .error .fuel => False

theorem Within.mono {α : Type} {content : Bytes} {m n : Nat} {r : Except Halt (α × Bytes)}
    (h : Within content m r) (hmn : m ≤ n) : Within content n r := by
  match r, h with
  | .ok r, h => exact ⟨h.1, h.2.trans_le hmn⟩
  | .error .outside, h => exact h
  | .error .fail, _ => trivial

/-- What follows a call starts where the call has stopped. -/
theorem Within.bind {α β : Type} {content : Bytes} {m n : Nat} {x : Except Halt (α × Bytes)}
    {f : α × Bytes → Except Halt (β × Bytes)} (hx : Within content m x)
    (hf : ∀ a left, left <:+ content → left.length < m → Within content n (f (a, left))) :
    Within content n (x >>= f) := by
  match x, hx with
  | .ok (a, left), hx => exact hf a left hx.1 hx.2
  | .error .outside, hx => exact hx
  | .error .fail, _ => trivial

/-- A function stays in the buffer wherever it is called. -/
def Stays {α : Type} (content : Bytes) (p : Parser α) : Prop :=
  ∀ rest, rest <:+ content → Within content rest.length (p rest)

/-- A function stays in the buffer where a byte is left. -/
def StaysBefore {α : Type} (content : Bytes) (p : Parser α) : Prop :=
  ∀ rest, rest <:+ content → (rest = [] → content.getLast? = some comma) →
    Within content rest.length (p rest)

section

variable {α : Type} {content : Bytes}

theorem getLast?_of_suffix {b : UInt8} (h : [b] <:+ content) :
    content.getLast? = some b := by
  obtain ⟨s, rfl⟩ := h
  exact List.getLast?_concat

theorem staysBefore_parseString : StaysBefore content parseString := by
  intro rest hrest hend
  obtain _ | ⟨b, s⟩ := rest
  · exact hend rfl
  unfold parseString
  dsimp only
  split_ifs
  · trivial
  cases hscan : scanString s with
  | none => trivial
  | some r =>
    obtain ⟨body, skipped, left⟩ := r
    dsimp only
    split_ifs
    · obtain ⟨rfl, -⟩ := scanString_spec hscan
      have hleft : left <:+ b :: (body ++ dquote :: left) := ⟨b :: (body ++ [dquote]), by simp⟩
      refine ⟨hleft.trans hrest, ?_⟩
      simp only [List.length_cons, List.length_append]
      omega
    · trivial

theorem within_parseNumber (R : Rounding) {rest : Bytes} (hrest : rest <:+ content) :
    Within content rest.length (parseNumber R rest) := by
  unfold parseNumber
  dsimp only
  cases hnum : strtod R ((rest.take 63).takeWhile isNumberByte) with
  | none => trivial
  | some r =>
    obtain ⟨number, left⟩ := r
    refine ⟨(List.drop_suffix _ _).trans hrest, ?_⟩
    have hlt := length_lt_of_strtod hnum
    have htake := (List.takeWhile_prefix isNumberByte (l := rest.take 63)).length_le
    have htake' := List.length_take_le' 63 rest
    show (rest.drop _).length < _
    rw [List.length_drop]
    omega

/-- The loop over items stays in the buffer and has fuel for every byte. -/
theorem within_parseItems {item : Parser α} (hitem : StaysBefore content item) (close : UInt8)
    {fuel : Nat} {rest : Bytes} (hrest : rest <:+ content)
    (hend : rest = [] → content.getLast? = some comma) (hpos : 0 < fuel)
    (hfuel : rest.length ≤ fuel) : Within content rest.length (parseItems item close fuel rest) := by
  induction fuel generalizing rest with
  | zero => cases hpos
  | succ fuel ih =>
    have hskip := skipWhitespace_suffix rest
    have hx := hitem (skipWhitespace rest) (hskip.trans hrest)
      fun hnil => hend (skipWhitespace_eq_nil hnil)
    rw [parseItems]
    refine hx.bind fun x left hleft hlt => ?_
    have hlen := hskip.length_le
    have hskip' := skipWhitespace_suffix left
    dsimp only
    split
    · trivial
    next b left' h =>
    rw [h] at hskip'
    have hlen' := hskip'.length_le
    rw [List.length_cons] at hlen'
    have hcons : left' <:+ content := (List.suffix_cons b left').trans (hskip'.trans hleft)
    split_ifs with hcomma
    · -- another item: the comma and the item before it are taken
      have hrec : Within content left'.length (parseItems item close fuel left') := by
        refine ih hcons ?_ (by omega) (by omega)
        rintro rfl
        rw [hcomma] at hskip'
        exact getLast?_of_suffix (hskip'.trans hleft)
      refine (hrec.mono (n := rest.length) (by omega)).bind fun xs last hlast hlt' => ?_
      exact ⟨hlast, hlt'⟩
    · exact ⟨hcons, by show left'.length < _; omega⟩
    · trivial

theorem within_parseBrackets {item : Parser α} (hitem : StaysBefore content item) (close : UInt8)
    {rest : Bytes} (hrest : rest <:+ content) :
    Within content (rest.length + 1) (parseBrackets item close rest) := by
  unfold parseBrackets
  have hskip := skipWhitespace_suffix rest
  split
  · trivial
  · next b left h =>
    rw [h] at hskip
    have hlen := hskip.length_le
    rw [List.length_cons] at hlen
    split_ifs
    · exact ⟨(List.suffix_cons b left).trans (hskip.trans hrest), by show left.length < _; omega⟩
    · have hitems : Within content (b :: left).length
          (parseItems item close rest.length (b :: left)) :=
        within_parseItems hitem close (hskip.trans hrest)
          (fun hnil => absurd hnil (List.cons_ne_nil b left)) (by omega)
          (by rw [List.length_cons]; omega)
      exact hitems.mono (by rw [List.length_cons]; omega)

theorem staysBefore_parseMember {value : Parser CJson} (hvalue : Stays content value) :
    StaysBefore content (parseMember value) := by
  intro rest hrest hend
  unfold parseMember
  refine (staysBefore_parseString rest hrest hend).bind fun name left hleft hlt => ?_
  have hskip := skipWhitespace_suffix left
  dsimp only
  split
  · trivial
  · next b left' h =>
    rw [h] at hskip
    have hlen := hskip.length_le
    rw [List.length_cons] at hlen
    split_ifs with hcolon
    · trivial
    · have hskip' := skipWhitespace_suffix left'
      have hlen' := hskip'.length_le
      have hcons := (List.suffix_cons b left').trans (hskip.trans hleft)
      refine (hvalue _ (hskip'.trans hcons)).bind fun v last hlast hlt' => ?_
      exact ⟨hlast, by show last.length < _; omega⟩

theorem Stays.staysBefore {p : Parser α} (h : Stays content p) : StaysBefore content p :=
  fun rest hrest _ => h rest hrest

/-- An array or object takes its brackets and what is between them. -/
theorem within_brackets {item : Parser α} (hitem : StaysBefore content item) (close b : UInt8)
    {left : Bytes} (hrest : b :: left <:+ content) (f : List α → CJson) :
    Within content (b :: left).length (do
      let (items, rest) ← parseBrackets item close left
      return (f items, rest)) := by
  have hleft := (List.suffix_cons b left).trans hrest
  refine (within_parseBrackets hitem close hleft).bind fun items last hlast hlt => ?_
  exact ⟨hlast, by rwa [List.length_cons]⟩

/-- A literal is taken off. -/
theorem within_drop {rest t : Bytes} {n : Nat} {v : α} (hrest : rest <:+ content)
    (h : rest.take n = t) (ht : t ≠ []) :
    Within content rest.length (.ok (v, rest.drop n)) := by
  refine ⟨(List.drop_suffix _ _).trans hrest, ?_⟩
  have hpos := List.length_pos_iff.mpr (h ▸ ht)
  rw [List.length_take] at hpos
  show (rest.drop n).length < _
  rw [List.length_drop]
  omega

end

/-- One level of `parse_value` stays in the buffer when the level below does. -/
theorem stays_parseValue_of {R : Rounding} {content : Bytes} {levels : Nat}
    (hbelow : ∀ n, levels = n + 1 → Stays content (parseValue R n)) :
    Stays content (parseValue R levels) := by
  intro rest hrest
  unfold parseValue
  split_ifs with hnull hfalse htrue
  · exact within_drop hrest hnull (by decide)
  · exact within_drop hrest hfalse (by decide)
  · exact within_drop hrest htrue (by decide)
  obtain _ | ⟨b, left⟩ := rest
  · trivial
  dsimp only
  split_ifs
  · refine (staysBefore_parseString _ hrest fun hnil => nomatch hnil).bind fun s last hlast hlt => ?_
    exact ⟨hlast, hlt⟩
  · exact within_parseNumber R hrest
  · split
    · trivial
    · next n => exact within_brackets (hbelow n rfl).staysBefore rbracket b hrest .array
  · split
    · trivial
    · next n => exact within_brackets (staysBefore_parseMember (hbelow n rfl)) rbrace b hrest .object
  · trivial

/-- `parse_value` stays in the buffer. The induction is on the levels that are left. -/
theorem stays_parseValue (R : Rounding) (content : Bytes) (levels : Nat) :
    Stays content (parseValue R levels) := by
  induction levels with
  | zero => exact stays_parseValue_of fun n hn => nomatch hn
  | succ levels ih =>
    refine stays_parseValue_of fun n hn => ?_
    rw [← Nat.succ_injective hn]
    exact ih

/-- What may come of a parse: a value leaves an end of the buffer, a read outside needs a
comma at the end of the buffer, and the loops have fuel. -/
theorem within_parseWithLength (R : Rounding) (content : Bytes) :
    Within content content.length (parseWithLength R content) := by
  unfold parseWithLength
  split_ifs
  · trivial
  have hbom : skipUtf8Bom content <:+ content := by
    unfold skipUtf8Bom
    split_ifs
    · exact List.drop_suffix _ _
    · exact List.suffix_refl _
  have hskip := (skipWhitespace_suffix (skipUtf8Bom content)).trans hbom
  exact (stays_parseValue R content nestingLimit _ hskip).mono hskip.length_le

/-- **A read outside the buffer** happens only behind a comma at its end. -/
theorem getLast?_of_outside {R : Rounding} {content : Bytes}
    (h : parseWithLength R content = .error .outside) : content.getLast? = some comma := by
  have hwithin := within_parseWithLength R content
  rwa [h] at hwithin

/-- **The parser returns**, and on a C string it stays in the buffer: the outcome is a value
or `false`. -/
theorem parseWithLength_cString (R : Rounding) (value : Bytes) :
    parseWithLength R (value ++ [0]) = .error .fail ∨
      ∃ v left, parseWithLength R (value ++ [0]) = .ok (v, left) ∧ left <:+ value ++ [0] := by
  have hwithin := within_parseWithLength R (value ++ [0])
  match h : parseWithLength R (value ++ [0]), hwithin with
  | .ok (v, left), hwithin => exact Or.inr ⟨v, left, rfl, hwithin.1⟩
  | .error .fail, _ => exact Or.inl rfl
  | .error .outside, hwithin =>
    have hlast : (value ++ [0]).getLast? = some comma := hwithin
    rw [List.getLast?_concat] at hlast
    cases hlast

/-! ### What is delivered -/

/-- A tree with at most `levels` arrays and objects inside each other, of `double` numbers with
their `int` and C strings. -/
inductive Fits (R : Rounding) : Nat → CJson → Prop
  | null {levels : Nat} : Fits R levels .null
  | false {levels : Nat} : Fits R levels .false
  | true {levels : Nat} : Fits R levels .true
  | number {levels : Nat} (q : ℚ) : Fits R levels (.number (R.round q).valueint (R.round q))
  | string {levels : Nat} {s : Bytes} (h : 0 ∉ s) : Fits R levels (.string s)
  | array {levels : Nat} {vs : List CJson} (h : ∀ v ∈ vs, Fits R levels v) :
      Fits R (levels + 1) (.array vs)
  | object {levels : Nat} {ms : List (Bytes × CJson)} (hname : ∀ m ∈ ms, 0 ∉ m.1)
      (h : ∀ m ∈ ms, Fits R levels m.2) : Fits R (levels + 1) (.object ms)

/-- A number that is an `int`. -/
theorem Fits.int {R : Rounding} {levels : Nat} {n : ℤ} (hmin : Double.intMin ≤ n)
    (hmax : n ≤ Double.intMax) : Fits R levels (.number n (.fin n)) := by
  have hfit : Fits R levels (.number (R.round n).valueint (R.round n)) := .number n
  rwa [R.valueint_round_int, min_eq_left hmax, max_eq_right hmin, R.round_int hmin hmax] at hfit

theorem Fits.valueint_mem {R : Rounding} {levels : Nat} {n : ℤ} {d : Double}
    (h : Fits R levels (.number n d)) : Double.intMin ≤ n ∧ n ≤ Double.intMax := by
  cases h with
  | number q => exact (R.round q).valueint_mem

/-- What holds of every item holds of what the loop delivers. -/
theorem forall_mem_parseItems {α : Type} {P : α → Prop} {item : Parser α} {close : UInt8}
    (hitem : ∀ rest x left, item rest = .ok (x, left) → P x) {fuel : Nat} {rest left : Bytes}
    {xs : List α} (h : parseItems item close fuel rest = .ok (xs, left)) : ∀ x ∈ xs, P x := by
  induction fuel generalizing rest left xs with
  | zero => cases h
  | succ fuel ih =>
    obtain ⟨⟨x, rest'⟩, hx, h⟩ := bind_eq_ok.mp h
    have hP := hitem _ x rest' hx
    dsimp only at h
    split at h
    · cases h
    · split_ifs at h
      · obtain ⟨⟨ys, last⟩, hys, h⟩ := bind_eq_ok.mp h
        cases h
        exact List.forall_mem_cons.mpr ⟨hP, ih hys⟩
      · cases h
        exact List.forall_mem_singleton.mpr hP

theorem forall_mem_parseBrackets {α : Type} {P : α → Prop} {item : Parser α} {close : UInt8}
    (hitem : ∀ rest x left, item rest = .ok (x, left) → P x) {rest left : Bytes} {xs : List α}
    (h : parseBrackets item close rest = .ok (xs, left)) : ∀ x ∈ xs, P x := by
  unfold parseBrackets at h
  split at h
  · cases h
  · split_ifs at h
    · cases h
      exact List.forall_mem_nil P
    · exact forall_mem_parseItems hitem h

theorem zero_notMem_of_parseString {rest s left : Bytes} (h : parseString rest = .ok (s, left)) :
    0 ∉ s := by
  unfold parseString at h
  split at h
  · cases h
  · split_ifs at h
    split at h
    · cases h
    · split_ifs at h
      cases h
      exact zero_notMem_cStr _

/-- One level of values fits when the level below does. -/
theorem fits_parseValue_of {R : Rounding} {levels : Nat}
    (hbelow : ∀ n, levels = n + 1 → ∀ rest v left, parseValue R n rest = .ok (v, left) → Fits R n v)
    {rest left : Bytes} {v : CJson} (h : parseValue R levels rest = .ok (v, left)) :
    Fits R levels v := by
  unfold parseValue at h
  split_ifs at h
  · cases h
    exact .null
  · cases h
    exact .false
  · cases h
    exact .true
  split at h
  · cases h
  split_ifs at h
  · obtain ⟨⟨s, rest'⟩, hs, h⟩ := bind_eq_ok.mp h
    cases h
    exact .string (zero_notMem_of_parseString hs)
  · unfold parseNumber at h
    dsimp only at h
    split at h
    · cases h
    · next number _ hread =>
      cases h
      obtain ⟨q, rfl⟩ := exists_round_of_strtod hread
      exact .number q
  · split at h
    · cases h
    · next n =>
      obtain ⟨⟨vs, rest'⟩, hvs, h⟩ := bind_eq_ok.mp h
      cases h
      exact .array (forall_mem_parseBrackets (hbelow n rfl) hvs)
  · split at h
    · cases h
    · next n =>
      obtain ⟨⟨ms, rest'⟩, hms, h⟩ := bind_eq_ok.mp h
      cases h
      have hmember : ∀ rest m left, parseMember (parseValue R n) rest = .ok (m, left) →
          0 ∉ m.1 ∧ Fits R n m.2 := by
        intro rest m left h
        obtain ⟨⟨name, rest'⟩, hname, h⟩ := bind_eq_ok.mp h
        dsimp only at h
        split at h
        · cases h
        · split_ifs at h
          obtain ⟨⟨v, last⟩, hv, h⟩ := bind_eq_ok.mp h
          cases h
          exact ⟨zero_notMem_of_parseString hname, hbelow n rfl _ v _ hv⟩
      have hall := forall_mem_parseBrackets hmember hms
      exact .object (fun m hm => (hall m hm).1) fun m hm => (hall m hm).2

theorem fits_parseValue (R : Rounding) (levels : Nat) {rest left : Bytes} {v : CJson}
    (h : parseValue R levels rest = .ok (v, left)) : Fits R levels v := by
  induction levels generalizing rest left v with
  | zero => exact fits_parseValue_of (fun n hn => absurd hn.symm (Nat.succ_ne_zero n)) h
  | succ levels ih =>
    refine fits_parseValue_of (fun n hn rest v left h => ?_) h
    obtain rfl := Nat.succ_injective hn
    exact ih h

end ParseBuffer

/-- `cJSON_Parse` of a C string. The NUL belongs to the buffer. -/
def cJSONParse (R : Rounding) (value : Bytes) : Option CJson :=
  match ParseBuffer.parseWithLength R (value ++ [0]) with
  | .ok r => some r.1
  | .error _ => none

/-- **Every tree that is delivered** is of bounded depth, and holds `double` numbers with their
`int` and C strings. -/
theorem fits_cJSONParse {R : Rounding} {value : Bytes} {item : CJson}
    (h : cJSONParse R value = some item) : ParseBuffer.Fits R ParseBuffer.nestingLimit item := by
  unfold cJSONParse at h
  split at h
  · next r hr =>
    cases h
    unfold ParseBuffer.parseWithLength at hr
    split_ifs at hr
    exact ParseBuffer.fits_parseValue R _ hr
  · cases h

end Wfrest
