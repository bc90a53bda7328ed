import Wfrest.Route.Complete
import Mathlib.Data.List.DropRight

/-!
# The name of a parameter

`RouteTableNode::find` takes the name of a parameter out of its key `{name}`: one scan goes
over the spaces behind the left brace, another one goes back over those in front of the
right brace, and the view is shrunk to what is between the two places where they stop.

The scans do not look at each other. On a key with nothing but spaces between its braces
each runs up to the opposite brace, and the view is asked to become shorter than empty.
`extractsName_iff` says that this is all that can go wrong, with the second scan beginning
at an `int`: in a key of more than 2 ^ 31 bytes that is not the last byte of the name.
-/

namespace Wfrest

variable {H : Type}

namespace RouteTableNode

/-! ### The scans -/

/-- `while (param[i] == ' ') i++;`, or `none` when an index is outside of the key or does
not fit into an `int`. -/
def scanUp (param : Bytes) (i : Nat) : Option Nat :=
  if h : i < param.length ∧ i < 2 ^ 31 then
    if param[i] = space then scanUp param (i + 1) else some i
  else none
termination_by param.length - i

/-- `while (param[j] == ' ') j--;` for an index that is not negative. -/
def scanDownFrom (param : Bytes) (j : Nat) : Option Nat :=
  match param[j]? with
  | none => none
  | some c =>
    if c = space then
      match j with
      | 0 => none
      | j + 1 => scanDownFrom param j
    else some j

/-- `while (param[j] == ' ') j--;` -/
def scanDown (param : Bytes) (j : Int) : Option Nat :=
  if 0 ≤ j then scanDownFrom param j.toNat else none

/-- The view after `param.shrink(i, param.size() - 1 - j)`. -/
def shrunk (param : Bytes) (i j : Nat) : StringPiece :=
  (StringPiece.ofString param).shrink i (sizeSub (sizeSub param.length 1) j)

/-- The text without the spaces at its ends. -/
def trimSpaces (s : Bytes) : Bytes := (s.dropWhile (· = space)).rdropWhile (· = space)

/-- The text between the braces. -/
def inner (param : Bytes) : Bytes := param.tail.dropLast

/-- The scans stay inside the key, `shrink` takes no more than there is, and the name is
the text between the braces without the spaces at its ends. -/
def ExtractsName (param : Bytes) : Prop :=
  ∃ i j, scanUp param 1 = some i ∧
    scanDown param (toInt ((param.length : Int) - 2)) = some j ∧
    i + (param.length - 1 - j) ≤ param.length ∧
    (shrunk param i j).asString = .ok (trimSpaces (inner param))

/-- The scan up stops at the first byte that is not a space. -/
theorem scanUp_eq_some_iff {param : Bytes} {a i : Nat} :
    scanUp param a = some i ↔
      a ≤ i ∧ i < 2 ^ 31 ∧ (∃ c, param[i]? = some c ∧ c ≠ space) ∧
        ∀ t, a ≤ t → t < i → param[t]? = some space := by
  fun_induction scanUp param a with
  | case1 a h hspace ih =>
    have hget : param[a]? = some space := by rw [List.getElem?_eq_getElem h.1, hspace]
    -- one space more in front of where the scan stops
    rw [ih]
    constructor
    · rintro ⟨hle, hint, hc, hall⟩
      refine ⟨by omega, hint, hc, fun t hat hti => ?_⟩
      rcases Nat.eq_or_lt_of_le hat with rfl | hlt
      · exact hget
      · exact hall t hlt hti
    · rintro ⟨hle, hint, ⟨c, hc, hne⟩, hall⟩
      have hai : a ≠ i := by
        rintro rfl
        rw [hget] at hc
        exact hne (Option.some.inj hc).symm
      exact ⟨by omega, hint, ⟨c, hc, hne⟩, fun t hat hti => hall t (by omega) hti⟩
  | case2 a h hne =>
    rw [Option.some.injEq]
    constructor
    · rintro rfl
      exact ⟨le_rfl, h.2, ⟨_, List.getElem?_eq_getElem h.1, hne⟩, fun t h₁ h₂ => by omega⟩
    · rintro ⟨hle, -, -, hall⟩
      by_contra hai
      have := hall a le_rfl (by omega)
      rw [List.getElem?_eq_getElem h.1, Option.some.injEq] at this
      exact hne this
  | case3 a h =>
    refine iff_of_false (by simp) ?_
    rintro ⟨hle, hint, ⟨c, hc, -⟩, -⟩
    have := (List.getElem?_eq_some_iff.mp hc).1
    omega

/-- The scan down stops at the last byte that is not a space. -/
theorem scanDownFrom_eq_some_iff {param : Bytes} {b j : Nat} :
    scanDownFrom param b = some j ↔
      j ≤ b ∧ (∃ c, param[j]? = some c ∧ c ≠ space) ∧
        ∀ t, j < t → t ≤ b → param[t]? = some space := by
  fun_induction scanDownFrom param b with
  | case1 b hget =>
    -- behind the key there is nothing to stop at
    refine iff_of_false (by simp) ?_
    rintro ⟨hle, ⟨c, hc, -⟩, hall⟩
    have hj : j ≠ b := by
      rintro rfl
      rw [hget] at hc
      cases hc
    have := hall b (by omega) le_rfl
    rw [hget] at this
    cases this
  | case2 hget =>
    -- a space at index 0 leads out of the key
    refine iff_of_false (by simp) ?_
    rintro ⟨hle, ⟨c, hc, hne⟩, -⟩
    obtain rfl : j = 0 := by omega
    rw [hget, Option.some.injEq] at hc
    exact hne hc.symm
  | case3 b hget ih =>
    rw [ih]
    constructor
    · rintro ⟨hle, hc, hall⟩
      refine ⟨by omega, hc, fun t hjt htb => ?_⟩
      rcases Nat.eq_or_lt_of_le htb with rfl | hlt
      · exact hget
      · exact hall t hjt (by omega)
    · rintro ⟨hle, ⟨c, hc, hne⟩, hall⟩
      have hj : j ≠ b + 1 := by
        rintro rfl
        rw [hget, Option.some.injEq] at hc
        exact hne hc.symm
      exact ⟨by omega, ⟨c, hc, hne⟩, fun t hjt htb => hall t hjt (by omega)⟩
  | case4 b c hget hspace =>
    rw [Option.some.injEq]
    constructor
    · rintro rfl
      exact ⟨le_rfl, ⟨c, hget, hspace⟩, fun t h₁ h₂ => by omega⟩
    · rintro ⟨hle, -, hall⟩
      by_contra hne
      have := hall b (by omega) le_rfl
      rw [hget, Option.some.injEq] at this
      exact hspace this

/-! ### The parts of a key -/

/-- A text is cut into the spaces at its ends and what is between them. -/
theorem exists_trimSpaces (s : Bytes) :
    ∃ a b, s = a ++ trimSpaces s ++ b ∧ (∀ c ∈ a, c = space) ∧ ∀ c ∈ b, c = space := by
  refine ⟨s.takeWhile (· = space), (s.dropWhile (· = space)).rtakeWhile (· = space), ?_, ?_, ?_⟩
  · rw [trimSpaces, List.append_assoc, List.rdropWhile_append_rtakeWhile,
      List.takeWhile_append_dropWhile]
  · intro c hc
    simpa using List.mem_takeWhile_imp hc
  · intro c hc
    simpa using List.mem_rtakeWhile_imp hc

/-- What is between them begins and ends with another byte. -/
theorem trimSpaces_ends {s : Bytes} (h : trimSpaces s ≠ []) :
    (∃ x xs, trimSpaces s = x :: xs ∧ x ≠ space) ∧
      ∃ ys y, trimSpaces s = ys ++ [y] ∧ y ≠ space := by
  constructor
  · obtain ⟨x, xs, hx⟩ := List.exists_cons_of_ne_nil h
    refine ⟨x, xs, hx, ?_⟩
    -- the first byte is that of the text behind the leading spaces
    obtain ⟨rest, hrest⟩ := List.rdropWhile_prefix (· = space) (s.dropWhile (· = space))
    have hdrop : s.dropWhile (· = space) = x :: (xs ++ rest) := by
      rw [← hrest, ← List.cons_append, ← hx, trimSpaces]
    have hne : s.dropWhile (· = space) ≠ [] := by rw [hdrop]; exact List.cons_ne_nil _ _
    have hhead := List.head_dropWhile_not (· = space) hne
    simpa [hdrop] using hhead
  · refine ⟨(trimSpaces s).dropLast, (trimSpaces s).getLast h, ?_, ?_⟩
    · exact (List.dropLast_append_getLast h).symm
    · have hlast := List.rdropWhile_last_not (· = space) (s.dropWhile (· = space)) h
      simpa [trimSpaces] using hlast

theorem eq_of_isParam {k : Bytes} (hk : isParam k = true) :
    k = lbrace :: inner k ++ [rbrace] ∧ 2 < k.length := by
  unfold isParam at hk
  simp only [Bool.and_eq_true, decide_eq_true_eq] at hk
  obtain ⟨⟨hlen, hhead⟩, hlast⟩ := hk
  refine ⟨?_, hlen⟩
  obtain ⟨cs, rfl⟩ := List.head?_eq_some_iff.mp hhead
  have hne : cs ≠ [] := by
    rintro rfl
    simp at hlen
  have hlast' : cs.getLast? = some rbrace := by
    rw [← hlast, List.getLast?_cons_of_ne_nil hne]
  rw [inner, List.tail_cons, List.cons_append, List.dropLast_append_getLast? _ hlast']

/-- The parts of a parameter key: the braces, spaces, the name, spaces. -/
structure Parts (k a b : Bytes) : Prop where
  longEnough : 2 < k.length
  inner_eq : inner k = a ++ trimSpaces (inner k) ++ b
  front_space : ∀ c ∈ a, c = space
  back_space : ∀ c ∈ b, c = space
  eq : k = lbrace :: (a ++ trimSpaces (inner k) ++ b) ++ [rbrace]

theorem exists_parts {k : Bytes} (hk : isParam k = true) : ∃ a b, Parts k a b := by
  obtain ⟨heq, hlen⟩ := eq_of_isParam hk
  obtain ⟨a, b, hinner, ha, hb⟩ := exists_trimSpaces (inner k)
  exact ⟨a, b, hlen, hinner, ha, hb, by rw [← hinner]; exact heq⟩

namespace Parts

variable {k a b : Bytes} (h : Parts k a b)
include h

theorem length_eq : k.length = a.length + (trimSpaces (inner k)).length + b.length + 2 := by
  conv_lhs => rw [h.eq]
  simp
  omega

/-- The bytes in front of the name. -/
theorem front {t : Nat} (h₁ : 1 ≤ t) (h₂ : t < 1 + a.length) : k[t]? = some space := by
  obtain ⟨t, rfl⟩ := Nat.exists_eq_add_of_le' h₁
  have hlt : t < a.length := by omega
  rw [h.eq, List.cons_append, List.getElem?_cons_succ, List.append_assoc, List.append_assoc,
    List.getElem?_append_left hlt, List.getElem?_eq_getElem hlt,
    h.front_space _ (List.getElem_mem hlt)]

/-- The bytes of the name. -/
theorem middle {t : Nat} (ht : t < (trimSpaces (inner k)).length) :
    k[1 + a.length + t]? = (trimSpaces (inner k))[t]? := by
  have hidx : 1 + a.length + t = a.length + t + 1 := by omega
  conv_lhs => rw [h.eq]
  rw [hidx, List.cons_append, List.getElem?_cons_succ, List.append_assoc, List.append_assoc,
    List.getElem?_append_right (Nat.le_add_right _ _), Nat.add_sub_cancel_left,
    List.getElem?_append_left ht]

/-- The bytes behind the name. -/
theorem back {t : Nat} (h₁ : a.length + (trimSpaces (inner k)).length < t)
    (h₂ : t < k.length - 1) : k[t]? = some space := by
  have hlen := h.length_eq
  have heq := h.eq
  generalize trimSpaces (inner k) = m at h₁ hlen heq
  obtain ⟨d, rfl⟩ : ∃ d, t = a.length + m.length + d + 1 :=
    ⟨t - (a.length + m.length) - 1, by omega⟩
  have hlt : d < b.length := by omega
  have hcat : a ++ m ++ b ++ [rbrace] = (a ++ m) ++ (b ++ [rbrace]) := by simp
  have hidx : a.length + m.length + d = (a ++ m).length + d := by simp
  rw [heq, List.cons_append, List.getElem?_cons_succ, hcat, hidx,
    List.getElem?_append_right (Nat.le_add_right _ _), Nat.add_sub_cancel_left,
    List.getElem?_append_left hlt, List.getElem?_eq_getElem hlt,
    h.back_space _ (List.getElem_mem hlt)]

/-- A byte of the inner text that is no space belongs to the name. -/
theorem mem_name {t : Nat} {c : UInt8} (hc : (inner k)[t]? = some c) (hne : c ≠ space) :
    a.length ≤ t ∧ t < a.length + (trimSpaces (inner k)).length := by
  have htlen := (List.getElem?_eq_some_iff.mp hc).1
  have hkt : k[t + 1]? = some c := by
    rw [h.eq, List.cons_append, List.getElem?_cons_succ, ← h.inner_eq,
      List.getElem?_append_left htlen, hc]
  rw [h.inner_eq, List.length_append, List.length_append] at htlen
  have hlen := h.length_eq
  constructor
  · by_contra hlt
    have hfront := h.front (show 1 ≤ t + 1 by omega) (by omega)
    rw [hkt, Option.some.injEq] at hfront
    exact hne hfront
  · by_contra hge
    have hback := h.back (show a.length + (trimSpaces (inner k)).length < t + 1 by omega) (by omega)
    rw [hkt, Option.some.injEq] at hback
    exact hne hback

theorem nonBlank (hne : trimSpaces (inner k) ≠ []) : NonBlank k := by
  intro _
  obtain ⟨⟨x, xs, hx, hxne⟩, -⟩ := trimSpaces_ends hne
  refine ⟨x, ?_, hxne⟩
  change x ∈ inner k
  rw [h.inner_eq, hx]
  simp

/-- The first byte of the name, and the last one. -/
theorem ends (hne : trimSpaces (inner k) ≠ []) :
    (∃ x, k[1 + a.length]? = some x ∧ x ≠ space) ∧
      ∃ y, k[a.length + (trimSpaces (inner k)).length]? = some y ∧
        (inner k)[a.length + (trimSpaces (inner k)).length - 1]? = some y ∧ y ≠ space := by
  obtain ⟨⟨x, xs, hx, hxne⟩, ys, y, hy, hyne⟩ := trimSpaces_ends hne
  have hlen : (trimSpaces (inner k)).length = ys.length + 1 := by rw [hy]; simp
  refine ⟨⟨x, ?_, hxne⟩, y, ?_, ?_, hyne⟩
  · have hfirst := h.middle (show 0 < (trimSpaces (inner k)).length by omega)
    rw [Nat.add_zero, hx] at hfirst
    exact hfirst
  · have hidx : a.length + (trimSpaces (inner k)).length = 1 + a.length + ys.length := by omega
    have hlast : (trimSpaces (inner k))[ys.length]? = some y := by rw [hy]; simp
    rw [hidx, h.middle (show ys.length < _ by omega), hlast]
  · have hidx : a.length + (trimSpaces (inner k)).length - 1 = a.length + ys.length := by omega
    have hlast : (trimSpaces (inner k))[ys.length]? = some y := by rw [hy]; simp
    have heq := h.inner_eq
    rw [hidx]
    generalize trimSpaces (inner k) = m at heq hlast hlen
    rw [heq, List.append_assoc, List.getElem?_append_right (Nat.le_add_right _ _),
      Nat.add_sub_cancel_left, List.getElem?_append_left (by omega), hlast]

end Parts

/-! ### When the name is found -/

theorem toInt_le {n : Int} (h : 0 ≤ n) : toInt n ≤ n := by
  obtain ⟨q, hq, hlow, hhigh⟩ := toInt_spec n
  omega

theorem length_shrunk {k : Bytes} {i j : Nat} (hlen : 0 < k.length)
    (hle : i + (k.length - 1 - j) ≤ k.length) (hj : j ≤ k.length - 1) :
    (shrunk k i j).length = j + 1 - i := by
  change sizeSub (sizeSub k.length i) (sizeSub (sizeSub k.length 1) j) = _
  have hi : i ≤ k.length := by omega
  have hrest : k.length - 1 - j ≤ k.length - i := by omega
  rw [sizeSub_of_le (show 1 ≤ k.length from hlen), sizeSub_of_le hj, sizeSub_of_le hi,
    sizeSub_of_le hrest]
  omega

/-- The bytes of the name lie where the second scan, which begins at an `int`, comes by. -/
def InScan (k : Bytes) : Prop :=
  ∀ (t : Nat) c, (inner k)[t]? = some c → c ≠ space → (t : Int) + 1 ≤ toInt ((k.length : Int) - 2)

/-- In a key whose length is an `int` they always do. -/
theorem inScan_of_length_lt {k : Bytes} (hk : isParam k = true) (h : k.length < 2 ^ 31 + 2) :
    InScan k := by
  intro t c hc _
  obtain ⟨heq, hlen⟩ := eq_of_isParam hk
  have ht := (List.getElem?_eq_some_iff.mp hc).1
  have hinner : k.length = (inner k).length + 2 := by
    conv_lhs => rw [heq]
    simp
  have hint : toInt ((k.length : Int) - 2) = (k.length - 2 : Nat) := by
    rw [← toInt_of_lt (show k.length - 2 < 2 ^ 31 by omega)]
    congr 1
    omega
  rw [hint]
  omega

namespace Parts

variable {k a b : Bytes} (h : Parts k a b)
include h

/-- On a blank text the scans end at the opposite braces, and `shrink` is asked for too
much. -/
theorem not_extractsName_of_blank (hblank : trimSpaces (inner k) = []) : ¬ ExtractsName k := by
  rintro ⟨i, j, hup, hdown, hle, -⟩
  obtain ⟨hi1, -, ⟨c, hci, hcne⟩, -⟩ := scanUp_eq_some_iff.mp hup
  unfold scanDown at hdown
  split at hdown
  swap
  · cases hdown
  obtain ⟨hjle, ⟨d, hdj, hdne⟩, -⟩ := scanDownFrom_eq_some_iff.mp hdown
  have hlong := h.longEnough
  have hint : toInt ((k.length : Int) - 2) ≤ (k.length : Int) - 2 := toInt_le (by omega)
  have hbetween : ∀ t, 1 ≤ t → t < k.length - 1 → k[t]? = some space := by
    intro t h₁ h₂
    rcases Nat.lt_or_ge t (1 + a.length) with hlt | hge
    · exact h.front h₁ hlt
    · refine h.back ?_ h₂
      rw [hblank, List.length_nil]
      omega
  have hi : k.length - 1 ≤ i := by
    by_contra hlt
    have hspace := hbetween i hi1 (by omega)
    rw [hci, Option.some.injEq] at hspace
    exact hcne hspace
  have hj : j = 0 := by
    by_contra hne
    have hspace := hbetween j (by omega) (by omega)
    rw [hdj, Option.some.injEq] at hspace
    exact hdne hspace
  omega

/-- The second scan has been at the last byte of the name. -/
theorem inScan_of_extractsName (hname : ExtractsName k) : InScan k := by
  have hne : trimSpaces (inner k) ≠ [] := fun hnil => h.not_extractsName_of_blank hnil hname
  obtain ⟨i, j, hup, hdown, hle, hstr⟩ := hname
  obtain ⟨hi1, -, ⟨c, hci, hcne⟩, hbefore⟩ := scanUp_eq_some_iff.mp hup
  unfold scanDown at hdown
  split at hdown
  swap
  · cases hdown
  obtain ⟨hjle, ⟨d, hdj, -⟩, -⟩ := scanDownFrom_eq_some_iff.mp hdown
  have hjk := (List.getElem?_eq_some_iff.mp hdj).1
  -- the first scan stops at the first byte of the name
  obtain ⟨⟨x, hx, hxne⟩, -⟩ := h.ends hne
  have hi : i = 1 + a.length := by
    apply Nat.le_antisymm
    · by_contra hlt
      have hspace := hbefore (1 + a.length) (by omega) (by omega)
      rw [hx, Option.some.injEq] at hspace
      exact hxne hspace
    · by_contra hlt
      have hspace := h.front hi1 (by omega)
      rw [hci, Option.some.injEq] at hspace
      exact hcne hspace
  -- and the name is as long as it should be, so the second one stops at the last byte
  have hlen : (shrunk k i j).length = (trimSpaces (inner k)).length := by
    unfold StringPiece.asString at hstr
    split at hstr
    next hfits => rw [← Except.ok.inj hstr, StringPiece.length_view hfits]
    · cases hstr
  rw [length_shrunk (by omega) hle (by omega)] at hlen
  have hpos := List.length_pos_iff.mpr hne
  intro t c hc hcs
  have ht := (h.mem_name hc hcs).2
  omega

/-- The view between the first and the last byte of the name. -/
theorem asString_shrunk :
    (shrunk k (1 + a.length) (a.length + (trimSpaces (inner k)).length)).asString =
      .ok (trimSpaces (inner k)) := by
  have hlen := h.length_eq
  have hshrunk : (shrunk k (1 + a.length) (a.length + (trimSpaces (inner k)).length)).length =
      (trimSpaces (inner k)).length := by
    rw [length_shrunk (by omega) (by omega) (by omega)]
    omega
  have hptr : (shrunk k (1 + a.length) (a.length + (trimSpaces (inner k)).length)).ptr =
      trimSpaces (inner k) ++ (b ++ [rbrace]) := by
    change k.drop (1 + a.length) = _
    conv_lhs => rw [h.eq]
    rw [Nat.add_comm, List.cons_append, List.drop_succ_cons, List.append_assoc,
      List.append_assoc, List.drop_left]
  rw [StringPiece.asString, hshrunk, hptr, if_pos (by simp), StringPiece.view, hshrunk, hptr,
    List.take_left]

theorem extractsName_of_inScan (hne : trimSpaces (inner k) ≠ []) (hscan : InScan k) :
    ExtractsName k := by
  have hlen := h.length_eq
  have hpos := List.length_pos_iff.mpr hne
  have hint : toInt ((k.length : Int) - 2) ≤ (k.length : Int) - 2 := toInt_le (by omega)
  obtain ⟨-, -, -, hhigh⟩ := toInt_spec ((k.length : Int) - 2)
  obtain ⟨⟨x, hx, hxne⟩, y, hy, hyinner, hyne⟩ := h.ends hne
  have hreach := hscan _ y hyinner hyne
  have hup : scanUp k 1 = some (1 + a.length) :=
    scanUp_eq_some_iff.mpr ⟨by omega, by omega, ⟨x, hx, hxne⟩, fun t h₁ h₂ => h.front h₁ h₂⟩
  have hdown : scanDown k (toInt ((k.length : Int) - 2)) =
      some (a.length + (trimSpaces (inner k)).length) := by
    rw [scanDown, if_pos (by omega), scanDownFrom_eq_some_iff]
    exact ⟨by omega, ⟨y, hy, hyne⟩, fun t h₁ h₂ => h.back h₁ (by omega)⟩
  exact ⟨_, _, hup, hdown, by omega, h.asString_shrunk⟩

end Parts

/-- A name is blank if nothing is left of it. -/
theorem nonBlank_iff {k : Bytes} (hparam : isParam k = true) :
    NonBlank k ↔ trimSpaces (inner k) ≠ [] := by
  obtain ⟨a, b, h⟩ := exists_parts hparam
  refine ⟨fun hnonblank => ?_, h.nonBlank⟩
  obtain ⟨x, hxmem, hxne⟩ := hnonblank hparam
  obtain ⟨t, ht⟩ := List.getElem?_of_mem hxmem
  have hlt := h.mem_name ht hxne
  intro hnil
  rw [hnil, List.length_nil] at hlt
  omega

/-- **When the name is found.** The text between the braces has a byte other than a space,
and every such byte is within the reach of the second scan. -/
theorem extractsName_iff {k : Bytes} (hparam : isParam k = true) :
    ExtractsName k ↔ NonBlank k ∧ InScan k := by
  obtain ⟨a, b, h⟩ := exists_parts hparam
  constructor
  · intro hname
    exact ⟨h.nonBlank fun hnil => h.not_extractsName_of_blank hnil hname,
      h.inScan_of_extractsName hname⟩
  · rintro ⟨hnonblank, hscan⟩
    exact h.extractsName_of_inScan ((nonBlank_iff hparam).mp hnonblank) hscan

/-! ### What `find` does with the name -/

theorem length_takeWhile_space {l r : Bytes} {c : UInt8} (hl : ∀ x ∈ l, x = space)
    (hc : c ≠ space) : ((l ++ c :: r).takeWhile (· = space)).length = l.length := by
  have hall : ∀ x ∈ l, decide (x = space) = true := fun x hx => decide_eq_true (hl x hx)
  rw [List.takeWhile_append_of_pos hall, List.takeWhile_cons_of_neg (by simpa using hc),
    List.append_nil]

namespace Parts

variable {k a b : Bytes} (h : Parts k a b)
include h

/-- Without its right brace the key ends with the name and spaces. -/
theorem take_eq : k.take (k.length - 2 + 1) = lbrace :: (a ++ trimSpaces (inner k) ++ b) := by
  have hlen := h.length_eq
  have heq := h.eq
  generalize trimSpaces (inner k) = m at heq hlen
  have hidx : k.length - 2 + 1 = (lbrace :: (a ++ m ++ b)).length := by
    simp only [List.length_cons, List.length_append]
    omega
  rw [hidx]
  conv_lhs => rw [heq]
  rw [List.take_left]

/-- A name that is not blank is cut out. -/
theorem paramPiece_eq (hne : trimSpaces (inner k) ≠ []) :
    paramPiece k = shrunk k (1 + a.length) (a.length + (trimSpaces (inner k)).length) := by
  have hlen := h.length_eq
  obtain ⟨⟨x, xs, hx, hxne⟩, ys, y, hy, hyne⟩ := trimSpaces_ends hne
  have hup : ((k.drop 1).takeWhile (· = space)).length = a.length := by
    have hdrop : k.drop 1 = a ++ x :: (xs ++ b ++ [rbrace]) := by
      conv_lhs => rw [h.eq, hx]
      simp
    rw [hdrop, length_takeWhile_space h.front_space hxne]
  have hdown : ((k.take (k.length - 2 + 1)).reverse.takeWhile (· = space)).length = b.length := by
    have hrev : (k.take (k.length - 2 + 1)).reverse =
        b.reverse ++ y :: (ys.reverse ++ a.reverse ++ [lbrace]) := by
      rw [h.take_eq, hy]
      simp
    rw [hrev, length_takeWhile_space (fun c hc => h.back_space c (List.mem_reverse.mp hc)) hyne,
      List.length_reverse]
  have hj : k.length - 2 - b.length = a.length + (trimSpaces (inner k)).length := by omega
  unfold paramPiece
  dsimp only
  rw [hup, hdown, hj]
  rfl

/-- A blank name has a length beyond every buffer. -/
theorem asString_paramPiece_of_blank (hblank : trimSpaces (inner k) = [])
    (hfits : k.length < 2 ^ 63) : (paramPiece k).asString = .error .length_error := by
  have hlen := h.length_eq
  have hlong := h.longEnough
  rw [hblank, List.length_nil] at hlen
  have hspace : ∀ c ∈ a ++ b, c = space := by
    intro c hc
    rcases List.mem_append.mp hc with hc | hc
    · exact h.front_space c hc
    · exact h.back_space c hc
  have heq := h.eq
  rw [hblank, List.append_nil] at heq
  have hup : ((k.drop 1).takeWhile (· = space)).length = (a ++ b).length := by
    have hdrop : k.drop 1 = (a ++ b) ++ rbrace :: [] := by
      conv_lhs => rw [heq]
      rfl
    rw [hdrop, length_takeWhile_space hspace (by decide)]
  have hdown : ((k.take (k.length - 2 + 1)).reverse.takeWhile (· = space)).length =
      (a ++ b).length := by
    have hrev : (k.take (k.length - 2 + 1)).reverse = (a ++ b).reverse ++ lbrace :: [] := by
      rw [h.take_eq, hblank]
      simp
    rw [hrev, length_takeWhile_space (fun c hc => hspace c (List.mem_reverse.mp hc)) (by decide),
      List.length_reverse]
  have hab : (a ++ b).length = k.length - 2 := by
    rw [List.length_append]
    omega
  have hpiece : paramPiece k = shrunk k (1 + (k.length - 2)) 0 := by
    unfold paramPiece
    dsimp only
    rw [hup, hdown, hab, Nat.sub_self]
    rfl
  -- one byte is left, and as many as the key has are to be cut off behind it
  have hlength : (paramPiece k).length = 2 ^ 64 + 2 - k.length := by
    rw [hpiece]
    change sizeSub (sizeSub k.length (1 + (k.length - 2))) (sizeSub (sizeSub k.length 1) 0) = _
    have h₁ : sizeSub k.length (1 + (k.length - 2)) = 1 := by
      rw [sizeSub_of_le (by omega)]
      omega
    have h₂ : sizeSub (sizeSub k.length 1) 0 = k.length - 1 := by
      rw [sizeSub_of_le (Nat.zero_le _), sizeSub_of_le (by omega), Nat.sub_zero]
    rw [h₁, h₂, sizeSub, if_neg (by omega)]
    omega
  have hptr : (paramPiece k).ptr.length = k.length - (1 + (k.length - 2)) := by
    rw [hpiece]
    exact List.length_drop
  rw [StringPiece.asString, if_neg (by omega)]

end Parts

theorem not_isWildcard_of_isParam {k : Bytes} (hparam : isParam k = true) :
    isWildcard k = false := by
  unfold isParam at hparam
  simp only [Bool.and_eq_true, decide_eq_true_eq] at hparam
  rw [isWildcard, hparam.2]
  decide

/-- **Parameter names.** The name is taken out of the key as it should be unless it is
blank, or has a byte that the second scan does not reach. In the first case a request that
comes to the key binds its segment to the name. At a blank key, whatever the request, it
ends in an exception. -/
theorem paramName_iff {k : Bytes} (hparam : isParam k = true) :
    (ExtractsName k ↔ NonBlank k ∧ InScan k) ∧
      (k.length < 2 ^ 31 + 2 → ∀ (child : RouteTableNode H) children mid this route cursor ctx,
        findParam ((k, child) :: children) mid this route cursor ctx =
          if NonBlank k then
            find child (this ++ [k]) route cursor
              { ctx with routeParams := OrdMap.set (trimSpaces (inner k)) mid.view ctx.routeParams }
          else .error .length_error) := by
  refine ⟨extractsName_iff hparam, fun hshort child children mid this route cursor ctx => ?_⟩
  obtain ⟨a, b, h⟩ := exists_parts hparam
  rw [findParam, not_isWildcard_of_isParam hparam, if_neg (by simp), if_pos hparam]
  by_cases hname : NonBlank k
  · have hne := (nonBlank_iff hparam).mp hname
    rw [if_pos hname, h.paramPiece_eq hne, h.asString_shrunk]
    rfl
  · have hblank : trimSpaces (inner k) = [] := by
      by_contra hne
      exact hname ((nonBlank_iff hparam).mpr hne)
    rw [if_neg hname, h.asString_paramPiece_of_blank hblank (by omega)]
    rfl

/-- The key `{ id }` gives its name to every request. -/
theorem paramName_id : ExtractsName (ascii "{ id }") :=
  (@paramName_iff Unit _ (by decide)).1.mpr
    ⟨by decide, inScan_of_length_lt (by decide) (by decide)⟩

/-- The key `{ }` gives none, and to make a string of its name is an exception. -/
theorem not_extractsName_blank :
    ¬ ExtractsName (ascii "{ }") ∧
      (paramPiece (ascii "{ }")).asString = .error .length_error :=
  ⟨fun h => absurd ((extractsName_iff (by decide)).mp h).1 (by decide), by decide⟩

end RouteTableNode

end Wfrest
