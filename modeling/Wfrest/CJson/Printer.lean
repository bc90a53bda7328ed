import Wfrest.CJson.Grammar
import Wfrest.CJson.Printf

/-!
# `cJSON_Print`

The writer of `cJSON`, with and without formatting. The output buffer is the text written
so far: that it grows by reallocation is left out. Printing fails where the text of a number
does not fit into the buffer of `print_number`.

A tree that the parser can deliver (`Fits`) is printed, and what is printed is a JSON text
(`valueText_printValue`), whatever the format. So it is read back (`cJSONParse_cJSONPrint`), up
to the numbers (`Reread`): an `int` is the same again, an infinity has become `null`, and
another number is one that `compare_double` takes for the same. It need not be the same: 15
digits are printed where `compare_double` finds them good enough.
-/

namespace Wfrest

/-! ### Comparing numbers -/

namespace Double

/-- `a <= b` -/
def Le : Double → Double → Prop
  | fin a, fin b => a ≤ b
  | fin _, inf negative => negative = false
  | inf negative, fin _ => negative = true
  | inf negative, inf negative' => negative = true ∨ negative' = false

instance : (a b : Double) → Decidable (a.Le b)
  | fin a, fin b => inferInstanceAs (Decidable (a ≤ b))
  | fin _, inf negative => inferInstanceAs (Decidable (negative = false))
  | inf negative, fin _ => inferInstanceAs (Decidable (negative = true))
  | inf negative, inf negative' =>
    inferInstanceAs (Decidable (negative = true ∨ negative' = false))

/-- `DBL_EPSILON` -/
def epsilon : ℚ := 1 / 2 ^ 52

/-- `compare_double`, whose arithmetic rounds. The difference of two infinities of one sign is
no number. -/
def CompareDouble (R : Rounding) : Double → Double → Prop
  | fin a, fin b => (R.round |a - b|).Le (R.round (max |a| |b| * epsilon))
  | fin _, inf _ => True
  | inf _, fin _ => True
  | inf negative, inf negative' => negative ≠ negative'

instance (R : Rounding) : (a b : Double) → Decidable (CompareDouble R a b)
  | fin a, fin b =>
    inferInstanceAs (Decidable ((R.round |a - b|).Le (R.round (max |a| |b| * epsilon))))
  | fin _, inf _ => .isTrue trivial
  | inf _, fin _ => .isTrue trivial
  | inf negative, inf negative' => inferInstanceAs (Decidable (negative ≠ negative'))

end Double

namespace ParseBuffer

/-! ### Printing -/

/-- `number_buffer` -/
def numberBuffer (R : Rounding) (valueint : ℤ) : Double → Bytes
  | .inf _ => ascii "null"
  | .fin d =>
    if d = valueint then intText valueint
    else
      let text := sprintfG 15 d
      -- the original double has to be recovered
      match strtod R text with
      | some (test, _) => if test.CompareDouble R (.fin d) then text else sprintfG 17 d
      | none => sprintfG 17 d

/-- `print_number` -/
def printNumber (R : Rounding) (valueint : ℤ) (d : Double) : Option Bytes :=
  let text := numberBuffer R valueint d
  if 25 < text.length then none else some text

/-- A digit of `%04x`. -/
def hexChar (d : Nat) : UInt8 := if d < 10 then (48 + d).toUInt8 else (87 + d).toUInt8

/-- A byte that `print_string_ptr` writes. -/
def printChar (b : UInt8) : Bytes :=
  if 31 < b ∧ b ≠ dquote ∧ b ≠ backslash then [b]
  else if b = backslash then [backslash, backslash]
  else if b = dquote then [backslash, dquote]
  else if b = 8 then [backslash, 98]
  else if b = 12 then [backslash, 102]
  else if b = lf then [backslash, 110]
  else if b = cr then [backslash, 114]
  else if b = 9 then [backslash, 116]
  else [backslash, 117, 48, 48, hexChar (b.toNat / 16), hexChar (b.toNat % 16)]

/-- `print_string_ptr` of a C string -/
def printString (s : Bytes) : Bytes := dquote :: (s.flatMap printChar ++ [dquote])

/-- What is only written with formatting. -/
def formatted (format : Bool) (w : Bytes) : Bytes := if format then w else []

/-- A tab for every level. -/
def tabs (depth : Nat) : Bytes := List.replicate depth 9

mutual

/-- `print_value`, inside `depth` arrays and objects. -/
def printValue (R : Rounding) (format : Bool) (depth : Nat) : CJson → Option Bytes
  | .null => some (ascii "null")
  | .false => some (ascii "false")
  | .true => some (ascii "true")
  | .number n d => printNumber R n d
  | .string s => some (printString s)
  | .array items => do
    let body ← printItems R format (depth + 1) items
    some (lbracket :: (body ++ [rbracket]))
  | .object items => do
    let body ← printMembers R format (depth + 1) items
    some (lbrace :: (formatted format [lf] ++ (body ++
      (formatted format (tabs depth) ++ [rbrace]))))

/-- The loop of `print_array`. -/
def printItems (R : Rounding) (format : Bool) (depth : Nat) : List CJson → Option Bytes
  | [] => some []
  | v :: vs => do
    let item ← printValue R format depth v
    let rest ← printItems R format depth vs
    match vs with
    | [] => some item
    | _ :: _ => some (item ++ comma :: (formatted format [space] ++ rest))

/-- The loop of `print_object`. -/
def printMembers (R : Rounding) (format : Bool) (depth : Nat) :
    List (Bytes × CJson) → Option Bytes
  | [] => some []
  | (name, v) :: ms => do
    let value ← printValue R format depth v
    let rest ← printMembers R format depth ms
    some (formatted format (tabs depth) ++ (printString name ++ (colon :: (formatted format [9] ++
      (value ++ ((match ms with | [] => [] | _ :: _ => [comma]) ++
        (formatted format [lf] ++ rest)))))))

end

end ParseBuffer

/-- `cJSON_Print`, or `cJSON_PrintUnformatted` -/
def cJSONPrint (R : Rounding) (format : Bool) (item : CJson) : Option Bytes :=
  ParseBuffer.printValue R format 0 item

namespace ParseBuffer

/-! ### Numbers -/

/-- What a tree has become when it has been printed and read again. -/
inductive Reread (R : Rounding) : CJson → CJson → Prop
  | null : Reread R .null .null
  | false : Reread R .false .false
  | true : Reread R .true .true
  | number (n : ℤ) (d : ℚ) : Reread R (.number n (.fin d)) (.number n (.fin d))
  /-- A number that is no `int`. Near the largest `double` it can become an infinity. -/
  | near {n : ℤ} {d : ℚ} {d' : Double} (hint : d ≠ n) (h : d'.CompareDouble R (.fin d)) :
      Reread R (.number n (.fin d)) (.number d'.valueint d')
  | infinite (n : ℤ) (negative : Bool) : Reread R (.number n (.inf negative)) .null
  | string (s : Bytes) : Reread R (.string s) (.string s)
  | array {vs vs' : List CJson} (h : List.Forall₂ (Reread R) vs vs') :
      Reread R (.array vs) (.array vs')
  | object {ms ms' : List (Bytes × CJson)} (hname : ms.map Prod.fst = ms'.map Prod.fst)
      (h : List.Forall₂ (Reread R) (ms.map Prod.snd) (ms'.map Prod.snd)) :
      Reread R (.object ms) (.object ms')

/-- The numbers of the tree are of type `int`. -/
inductive IntNumbers : CJson → Prop
  | null : IntNumbers .null
  | false : IntNumbers .false
  | true : IntNumbers .true
  | number (n : ℤ) : IntNumbers (.number n (.fin n))
  | string (s : Bytes) : IntNumbers (.string s)
  | array {vs : List CJson} (h : ∀ v ∈ vs, IntNumbers v) : IntNumbers (.array vs)
  | object {ms : List (Bytes × CJson)} (h : ∀ m ∈ ms, IntNumbers m.2) : IntNumbers (.object ms)

theorem eq_of_forall₂_reread {R : Rounding} {vs vs' : List CJson}
    (h : List.Forall₂ (Reread R) vs vs') (hsame : ∀ v ∈ vs, ∀ v', Reread R v v' → v' = v) :
    vs' = vs := by
  induction h with
  | nil => rfl
  | cons hread _ ih =>
    obtain ⟨hv, hvs⟩ := List.forall_mem_cons.mp hsame
    rw [hv _ hread, ih hvs]

/-- A tree of `int` numbers has not changed. -/
theorem Reread.eq_of_intNumbers {R : Rounding} {v v' : CJson} (h : Reread R v v')
    (hv : IntNumbers v) : v' = v := by
  induction hv generalizing v' with
  | null | false | true | string => cases h; rfl
  | number n =>
    cases h with
    | number => rfl
    | near hint => exact absurd rfl hint
  | array _ ih =>
    cases h with
    | array h => rw [eq_of_forall₂_reread h fun v hv v' hread => ih v hv hread]
  | @object ms _ ih =>
    cases h with
    | @object _ ms' hname h =>
      have hsnd : ms'.map Prod.snd = ms.map Prod.snd := by
        refine eq_of_forall₂_reread h fun v hv v' hread => ?_
        obtain ⟨m, hm, rfl⟩ := List.mem_map.mp hv
        exact ih m hm hread
      have hms : ms' = ms :=
        (List.zip_of_prod hname.symm hsnd).trans (List.zip_of_prod rfl rfl).symm
      rw [hms]

/-- A value is printed as a text of `item`, of what it is read as. -/
def Prints (R : Rounding) (format : Bool) (depth : Nat) (item : CJson → Bytes → Prop) (v : CJson) :
    Prop :=
  ∃ t v', printValue R format depth v = some t ∧ item v' t ∧ Reread R v v'

/-- **A `double` is printed**: an infinity as `null`, an `int` as it is, and any other number
with 15 digits where they are good enough, or else with 17, which are exact. -/
theorem prints_number (format : Bool) (depth : Nat) (below : Option (CJson → Bytes → Prop))
    (q : ℚ) :
    Prints .binary64 format depth (ValueTextOver .binary64 below)
      (.number (Rounding.binary64.round q).valueint (Rounding.binary64.round q)) := by
  cases hd : Rounding.binary64.round q with
  | inf negative => exact ⟨_, _, rfl, .null, .infinite _ _⟩
  | fin d =>
    obtain ⟨hmin, hmax⟩ := Double.valueint_mem (.fin d)
    have hsome : ∀ t, numberBuffer .binary64 (Double.fin d).valueint (.fin d) = t →
        t.length ≤ 25 →
        printValue .binary64 format depth (.number (Double.fin d).valueint (.fin d)) = some t := by
      rintro t rfl hlen
      unfold printValue printNumber
      exact if_neg (not_lt.mpr hlen)
    by_cases hint : d = (Double.fin d).valueint
    · -- `%d`
      have hround := Rounding.binary64.round_int hmin hmax
      have hlen := length_intText_le hmin hmax
      have htext : ValueTextOver .binary64 below _ (intText (Double.fin d).valueint) :=
        .number (numText_intText _) (by omega)
      rw [hround, ← hint] at htext
      exact ⟨_, _, hsome _ (if_pos hint) (by omega), htext, .number _ _⟩
    have hzero : d ≠ 0 := by
      rintro rfl
      have hval : (Double.fin ((0 : ℤ) : ℚ)).valueint = 0 := Rounding.exact.valueint_round_int 0
      rw [Int.cast_zero] at hval
      rw [hval, Int.cast_zero] at hint
      exact hint rfl
    obtain ⟨hlow, hhigh⟩ := Rounding.log_binary64 hd hzero
    have hlen : ∀ precision ≤ 17, (sprintfG precision d).length ≤ 25 := by
      intro precision hprecision
      have hle := length_sprintfG_le precision hlow hhigh
      omega
    -- `sscanf` takes the whole text, so that `test` is the number it denotes, rounded
    obtain ⟨a, ha, -⟩ := exists_numText_sprintfG 15 d
    have htest := strtod_numText .binary64 ha
    by_cases hgood : (Rounding.binary64.round a).CompareDouble .binary64 (.fin d)
    · -- 15 digits are good enough
      have htext : numberBuffer .binary64 (Double.fin d).valueint (.fin d) = sprintfG 15 d := by
        unfold numberBuffer
        dsimp only
        rw [if_neg hint, htest]
        exact if_pos hgood
      have h15 := hlen 15 (by decide)
      exact ⟨_, _, hsome _ htext h15, .number ha (by omega), .near hint hgood⟩
    · -- they are not, and 17 digits are exact
      have htext : numberBuffer .binary64 (Double.fin d).valueint (.fin d) = sprintfG 17 d := by
        unfold numberBuffer
        dsimp only
        rw [if_neg hint, htest]
        exact if_neg hgood
      have h17 := hlen 17 le_rfl
      obtain ⟨b, hb, hclose⟩ := exists_numText_sprintfG 17 d
      have hvalue : ValueTextOver .binary64 below _ (sprintfG 17 d) := .number hb (by omega)
      rw [Rounding.binary64_of_abs_sub_le hd hclose] at hvalue
      exact ⟨_, _, hsome _ htext h17, hvalue, .number _ _⟩

/-! ### Strings -/

theorem hexDigit?_hexChar {d : Nat} (h : d < 16) : hexDigit? (hexChar d) = some d := by
  have hall : ∀ d < 16, hexDigit? (hexChar d) = some d := by decide
  exact hall d h

/-- A control character is written by its number, and that is the character. -/
theorem charText_control {b : UInt8} (hb : b ≤ 31) :
    CharText [backslash, 117, 48, 48, hexChar (b.toNat / 16), hexChar (b.toNat % 16)] [b] := by
  have hlt : b.toNat ≤ 31 := UInt8.le_iff_toNat_le.mp hb
  have hvalid : b.toNat.isValidChar := Or.inl (by omega)
  have hnat : (Char.ofNat b.toNat).toNat = b.toNat := by
    rw [Char.ofNat, dif_pos hvalid]
    rfl
  have hchar : String.utf8EncodeChar (Char.ofNat b.toNat) = [b] := by
    show (if (Char.ofNat b.toNat).toNat ≤ 0x7f then [UInt8.ofNat (Char.ofNat b.toNat).toNat]
      else _) = _
    rw [hnat, if_pos (by omega), UInt8.ofNat_toNat]
  have hhex : HexText [48, 48, hexChar (b.toNat / 16), hexChar (b.toNat % 16)]
      (Char.ofNat b.toNat).toNat := by
    refine ⟨rfl, [0, 0, b.toNat / 16, b.toNat % 16], ?_, ?_⟩
    · simp only [List.map_cons, List.map_nil, hexDigit?_hexChar (d := b.toNat / 16) (by omega),
        hexDigit?_hexChar (d := b.toNat % 16) (by omega)]
      rfl
    · rw [hnat]
      show 16 * (16 * (16 * (16 * 0 + 0) + 0) + b.toNat / 16) + b.toNat % 16 = b.toNat
      omega
  have h := CharText.unit (by rw [hnat]; omega) hhex
  rwa [hchar] at h

/-- Every byte is printed as a character of the grammar. -/
theorem charText_printChar (b : UInt8) : CharText (printChar b) [b] := by
  unfold printChar
  split_ifs with hplain hslash hquote h8 h12 hlf hcr h9
  · refine .plain ?_ hplain.2.1 hplain.2.2
    have hlt := UInt8.lt_iff_toNat_lt.mp hplain.1
    rw [UInt8.le_iff_toNat_le]
    exact hlt
  · rw [hslash]
    exact .escape rfl
  · rw [hquote]
    exact .escape rfl
  · exact h8 ▸ .escape rfl
  · exact h12 ▸ .escape rfl
  · exact hlf ▸ .escape rfl
  · exact hcr ▸ .escape rfl
  · exact h9 ▸ .escape rfl
  · refine charText_control (not_lt.mp fun hlt => hplain ⟨hlt, hquote, hslash⟩)

theorem stringText_printString {s : Bytes} (h : 0 ∉ s) : StringText s (printString s) := by
  have hchars : ∀ s : Bytes, CharsText (s.flatMap printChar) s := by
    intro s
    induction s with
    | nil => exact .nil
    | cons b s ih => exact .cons (charText_printChar b) ih
  have htext := StringText.mk (hchars s)
  rwa [cStr_eq_self h] at htext

/-! ### Values -/

theorem isWs_append {w w' : Bytes} (h : IsWs w) (h' : IsWs w') : IsWs (w ++ w') :=
  List.forall_mem_append.mpr ⟨h, h'⟩

theorem isWs_nil : IsWs [] := List.forall_mem_nil _

theorem isWs_formatted (format : Bool) {w : Bytes} (h : IsWs w) : IsWs (formatted format w) := by
  unfold formatted
  split_ifs
  · exact h
  · exact isWs_nil

theorem isWs_tabs (depth : Nat) : IsWs (tabs depth) := by
  intro _ hb
  exact Or.inr (Or.inl (List.eq_of_mem_replicate hb))

theorem isWs_lf : IsWs [lf] :=
  fun _ hb => Or.inr (Or.inr (Or.inl (List.mem_singleton.mp hb)))

theorem isWs_space : IsWs [space] := fun _ hb => Or.inl (List.mem_singleton.mp hb)

theorem isWs_tab : IsWs [9] := isWs_tabs 1

section

variable {R : Rounding} {format : Bool} {item : CJson → Bytes → Prop}

/-- The items of an array are printed with commas between them. -/
theorem itemsText_printItems {depth : Nat} {v : CJson} {vs : List CJson} {w : Bytes} (hw : IsWs w)
    (h : ∀ x ∈ v :: vs, Prints R format depth item x) :
    ∃ t vs', printItems R format depth (v :: vs) = some t ∧
      ItemsText item rbracket vs' (w ++ (t ++ [rbracket])) ∧
        List.Forall₂ (Reread R) (v :: vs) vs' := by
  induction vs generalizing v w with
  | nil =>
    obtain ⟨t, v', hprint, htext, hread⟩ := h v List.mem_cons_self
    refine ⟨t, [v'], ?_, .last hw htext isWs_nil, .cons hread .nil⟩
    rw [printItems, hprint, printItems]
    rfl
  | cons u vs ih =>
    obtain ⟨hv, hvs⟩ := List.forall_mem_cons.mp h
    obtain ⟨t, v', hprint, htext, hread⟩ := hv
    obtain ⟨ts, vs', hprints, htexts, hreads⟩ := ih (isWs_formatted format isWs_space) hvs
    have hcons := ItemsText.cons hw htext isWs_nil htexts
    rw [List.nil_append] at hcons
    have hall : printItems R format depth (v :: u :: vs) =
        some (t ++ comma :: (formatted format [space] ++ ts)) := by
      rw [printItems, hprint, hprints]
      rfl
    refine ⟨_, v' :: vs', hall, ?_, .cons hread hreads⟩
    rw [List.append_assoc, List.cons_append, List.append_assoc]
    exact hcons

/-- The members of an object are printed with commas between them. -/
theorem itemsText_printMembers {depth : Nat} {m : Bytes × CJson} {ms : List (Bytes × CJson)}
    {w w' : Bytes} (hw : IsWs w) (hw' : IsWs w') (hname : ∀ x ∈ m :: ms, 0 ∉ x.1)
    (h : ∀ x ∈ m :: ms, Prints R format depth item x.2) :
    ∃ t ms', printMembers R format depth (m :: ms) = some t ∧
      ItemsText (MemberText item) rbrace ms' (w ++ (t ++ (w' ++ [rbrace]))) ∧
        (m :: ms).map Prod.fst = ms'.map Prod.fst ∧
          List.Forall₂ (Reread R) ((m :: ms).map Prod.snd) (ms'.map Prod.snd) := by
  induction ms generalizing m w with
  | nil =>
    obtain ⟨t, v', hprint, htext, hread⟩ := h m List.mem_cons_self
    -- the line feed behind the last member is white space in front of the brace
    have hm : MemberText item (m.1, v') _ :=
      .mk (stringText_printString (hname m List.mem_cons_self)) isWs_nil
        (isWs_formatted format isWs_tab) htext
    have hbefore := isWs_append hw (isWs_formatted format (isWs_tabs depth))
    have hbehind := isWs_append (isWs_formatted format isWs_lf) hw'
    have hlast : ItemsText (MemberText item) rbrace [(m.1, v')] _ :=
      .last hbefore hm hbehind
    have hall : printMembers R format depth [m] = some (formatted format (tabs depth) ++
        (printString m.1 ++ (colon :: (formatted format [9] ++
          (t ++ ([] ++ (formatted format [lf] ++ []))))))) := by
      rw [printMembers, hprint, printMembers]
      rfl
    refine ⟨_, [(m.1, v')], hall, ?_, rfl, .cons hread .nil⟩
    simpa using hlast
  | cons m' ms ih =>
    obtain ⟨hm, hms⟩ := List.forall_mem_cons.mp h
    obtain ⟨hname, hnames⟩ := List.forall_mem_cons.mp hname
    obtain ⟨t, v', hprint, htext, hread⟩ := hm
    obtain ⟨ts, ms', hprints, htexts, hsame, hreads⟩ :=
      ih (isWs_formatted format isWs_lf) hnames hms
    have hmember : MemberText item (m.1, v') _ :=
      .mk (stringText_printString hname) isWs_nil (isWs_formatted format isWs_tab) htext
    have hbefore := isWs_append hw (isWs_formatted format (isWs_tabs depth))
    have hcons := ItemsText.cons hbefore hmember isWs_nil htexts
    have hall : printMembers R format depth (m :: m' :: ms) = some (formatted format (tabs depth) ++
        (printString m.1 ++ (colon :: (formatted format [9] ++
          (t ++ ([comma] ++ (formatted format [lf] ++ ts))))))) := by
      rw [printMembers, hprint, hprints]
      rfl
    refine ⟨_, (m.1, v') :: ms', hall, ?_, congrArg (m.1 :: ·) hsame, .cons hread hreads⟩
    simpa using hcons

end

theorem prints_scalar (format : Bool) (depth : Nat) {below : Option (CJson → Bytes → Prop)}
    {levels : Nat} {v : CJson} (h : Fits .binary64 levels v) (harray : ∀ vs, v ≠ .array vs)
    (hobject : ∀ ms, v ≠ .object ms) :
    Prints .binary64 format depth (ValueTextOver .binary64 below) v := by
  cases h with
  | null => exact ⟨_, _, rfl, .null, .null⟩
  | false => exact ⟨_, _, rfl, .false, .false⟩
  | true => exact ⟨_, _, rfl, .true, .true⟩
  | number q => exact prints_number format depth below q
  | string h => exact ⟨_, _, rfl, .string (stringText_printString h), .string _⟩
  | array => exact absurd rfl (harray _)
  | object => exact absurd rfl (hobject _)

/-- **What is printed is a JSON text** of the tree. The induction is on the levels. -/
theorem prints_of_fits (format : Bool) {levels : Nat} {v : CJson} (h : Fits .binary64 levels v)
    (depth : Nat) : Prints .binary64 format depth (ValueText .binary64 levels) v := by
  induction levels generalizing v depth with
  | zero =>
    refine prints_scalar format depth h ?_ ?_
    · rintro vs rfl
      cases h
    · rintro ms rfl
      cases h
  | succ levels ih =>
    by_cases harray : ∃ vs, v = .array vs
    · obtain ⟨vs, rfl⟩ := harray
      cases h with
      | array h =>
        obtain _ | ⟨v, vs⟩ := vs
        · exact ⟨_, _, rfl, .array rfl (.empty isWs_nil), .array .nil⟩
        · obtain ⟨t, vs', hprint, htext, hread⟩ :=
            itemsText_printItems isWs_nil fun x hx => ih (h x hx) (depth + 1)
          refine ⟨_, _, ?_, .array rfl (.items htext), .array hread⟩
          rw [printValue, hprint]
          rfl
    by_cases hobject : ∃ ms, v = .object ms
    · obtain ⟨ms, rfl⟩ := hobject
      have hlf := isWs_formatted format isWs_lf
      have htabs := isWs_formatted format (isWs_tabs depth)
      cases h with
      | object hname h =>
        obtain _ | ⟨m, ms⟩ := ms
        · have hempty : BracketsText (MemberText (ValueText .binary64 levels)) rbrace [] _ :=
            .empty (isWs_append hlf htabs)
          rw [List.append_assoc] at hempty
          exact ⟨_, _, rfl, .object rfl hempty, .object rfl .nil⟩
        · obtain ⟨t, ms', hprint, htext, hsame, hread⟩ :=
            itemsText_printMembers hlf htabs hname fun x hx => ih (h x hx) (depth + 1)
          refine ⟨_, _, ?_, .object rfl (.items htext), .object hsame hread⟩
          rw [printValue, hprint]
          rfl
    · exact prints_scalar format depth h (fun vs hv => harray ⟨vs, hv⟩)
        fun ms hv => hobject ⟨ms, hv⟩

end ParseBuffer

end Wfrest
