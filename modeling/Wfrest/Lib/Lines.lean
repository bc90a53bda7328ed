import Mathlib.Data.List.TakeWhile
import Mathlib.Tactic.Common

/-!
# Lines of a stream

The lines of a text are what stands between its separators. A reader that gets the
text in chunks keeps the unfinished line, the *carry*, from one chunk to the next:
`feed` says which lines a chunk completes and what carry it leaves.

* `feed_append`: feeding two chunks one after the other is feeding them as one, so
  the result does not depend on where the chunks are cut;
* `splitOn_carry_append`: the completed lines with the carry are `List.splitOn`;
* `lines` drops the empty piece after a final separator, `lines_eq_feed` reads it off
  a feed, and `lines_of_ne_nil` takes the first line off;
* `notMem_of_mem_splitOn`, `infix_of_mem_splitOn` and `infix_of_mem_lines` say what a
  piece of a split is, and `length_splitOn` how many there are.
-/

namespace Wfrest.Lines

variable {α : Type*} [DecidableEq α] (sep : α)

/-- The lines that a chunk completes, and the carry that it leaves. -/
def feed (carry : List α) : List α → List (List α) × List α
  | [] => ([], carry)
  | c :: cs =>
    if c = sep then
      let r := feed [] cs
      (carry :: r.1, r.2)
    else feed (carry ++ [c]) cs

/-- The lines of a text. An empty piece after the last separator is not a line. -/
def lines (l : List α) : List (List α) :=
  let pieces := l.splitOn sep
  if pieces.getLast? = some [] then pieces.dropLast else pieces

/-- The line that a carry makes at the end of the text. -/
def lastLine (carry : List α) : List (List α) := if carry = [] then [] else [carry]

variable {sep}

@[simp] theorem feed_nil (carry : List α) : feed sep carry [] = ([], carry) := rfl

theorem feed_cons_sep (carry l : List α) :
    feed sep carry (sep :: l) = (carry :: (feed sep [] l).1, (feed sep [] l).2) := by
  rw [feed, if_pos rfl]

theorem feed_cons_of_ne {c : α} (h : c ≠ sep) (carry l : List α) :
    feed sep carry (c :: l) = feed sep (carry ++ [c]) l := by
  rw [feed, if_neg h]

/-- **Chunks do not matter.** Two chunks give the lines of the first, then those of
the second, which starts with the carry of the first. -/
theorem feed_append (carry a b : List α) :
    feed sep carry (a ++ b) =
      ((feed sep carry a).1 ++ (feed sep (feed sep carry a).2 b).1,
        (feed sep (feed sep carry a).2 b).2) := by
  induction a generalizing carry with
  | nil => rfl
  | cons c a ih =>
    rw [List.cons_append]
    by_cases h : c = sep
    · subst h
      rw [feed_cons_sep, feed_cons_sep, ih]
      rfl
    · rw [feed_cons_of_ne h, feed_cons_of_ne h, ih]

theorem feed_of_notMem {l : List α} (h : sep ∉ l) (carry : List α) :
    feed sep carry l = ([], carry ++ l) := by
  induction l generalizing carry with
  | nil => simp
  | cons c l ih =>
    obtain ⟨hc, hl⟩ := List.ne_and_not_mem_of_not_mem_cons h
    rw [feed_cons_of_ne hc.symm, ih hl, List.append_assoc]
    rfl

/-- The completed lines and the carry are the pieces between the separators. -/
theorem splitOn_carry_append {carry : List α} (h : sep ∉ carry) (l : List α) :
    (carry ++ l).splitOn sep = (feed sep carry l).1 ++ [(feed sep carry l).2] := by
  induction l generalizing carry with
  | nil => simpa using List.splitOn_eq_singleton h
  | cons c l ih =>
    by_cases hc : c = sep
    · subst hc
      rw [List.splitOn_append_cons_self_of_not_mem h, feed_cons_sep]
      have hnil : c ∉ ([] : List α) := List.not_mem_nil
      have hrest := ih hnil
      rw [List.nil_append] at hrest
      rw [hrest]
      rfl
    · have hcarry : sep ∉ carry ++ [c] := by
        rw [List.mem_append, List.mem_singleton]
        rintro (hmem | heq)
        · exact h hmem
        · exact hc heq.symm
      rw [feed_cons_of_ne hc, ← ih hcarry, List.append_assoc]
      rfl

/-- The lines of a text, read off a feed of the whole. -/
theorem lines_eq_feed (l : List α) :
    lines sep l = (feed sep [] l).1 ++ lastLine (feed sep [] l).2 := by
  have hnil : sep ∉ ([] : List α) := List.not_mem_nil
  have hsplit := splitOn_carry_append hnil l
  rw [List.nil_append] at hsplit
  unfold lines lastLine
  rw [hsplit]
  by_cases hcarry : (feed sep [] l).2 = []
  · simp [hcarry]
  · simp [hcarry]

@[simp] theorem lines_nil : lines sep ([] : List α) = [] := by
  rw [lines_eq_feed]
  rfl

/-! ### Pieces -/

/-- There is one piece more than there are separators. -/
theorem length_splitOn (l : List α) : (l.splitOn sep).length = l.count sep + 1 := by
  induction l with
  | nil => rfl
  | cons c l ih =>
    rw [List.splitOn_cons_eq_if_modifyHead]
    by_cases hc : c = sep
    · subst hc
      rw [if_pos (beq_self_eq_true c), List.length_cons, ih, List.count_cons_self]
    · rw [if_neg (by simpa using hc), List.length_modifyHead, ih, List.count_cons_of_ne hc]

/-- No piece contains the separator. -/
theorem notMem_of_mem_splitOn {l piece : List α} (h : piece ∈ l.splitOn sep) : sep ∉ piece := by
  induction l generalizing piece with
  | nil =>
    rw [List.splitOn_nil, List.mem_singleton] at h
    rw [h]
    exact List.not_mem_nil
  | cons c l ih =>
    rw [List.splitOn_cons_eq_if_modifyHead] at h
    split at h
    · rcases List.mem_cons.mp h with rfl | h
      · exact List.not_mem_nil
      · exact ih h
    next hc =>
      -- the byte goes to the first piece of the rest
      obtain ⟨a, as, has⟩ := List.exists_cons_of_ne_nil (List.splitOn_ne_nil sep l)
      rw [has, List.modifyHead_cons] at h
      rcases List.mem_cons.mp h with rfl | h
      · have ha : sep ∉ a := ih (by rw [has]; exact List.mem_cons_self)
        have hne : ¬ sep = c := fun heq => hc (by simp [heq])
        simp [hne, ha]
      · exact ih (by rw [has]; exact List.mem_cons_of_mem _ h)

/-- A piece stands in the text. The first one stands at its beginning. -/
private theorem prefix_and_infix_of_splitOn (l : List α) :
    (∀ a as, l.splitOn sep = a :: as → a <+: l) ∧ ∀ piece ∈ l.splitOn sep, piece <:+: l := by
  induction l with
  | nil => simp [List.splitOn_nil]
  | cons c l ih =>
    obtain ⟨hhead, hall⟩ := ih
    rw [List.splitOn_cons_eq_if_modifyHead]
    split
    · refine ⟨fun a as h => ?_, fun piece h => ?_⟩
      · rw [← (List.cons.inj h).1]
        exact List.nil_prefix
      · rcases List.mem_cons.mp h with rfl | h
        · exact List.nil_infix
        · exact (hall piece h).trans (List.suffix_cons c l).isInfix
    · obtain ⟨a, as, has⟩ := List.exists_cons_of_ne_nil (List.splitOn_ne_nil sep l)
      rw [has, List.modifyHead_cons]
      have hpre : c :: a <+: c :: l := (List.prefix_cons_inj c).mpr (hhead a as has)
      refine ⟨fun b bs h => ?_, fun piece h => ?_⟩
      · rw [← (List.cons.inj h).1]
        exact hpre
      · rcases List.mem_cons.mp h with rfl | h
        · exact hpre.isInfix
        · have hmem : piece ∈ l.splitOn sep := by
            rw [has]
            exact List.mem_cons_of_mem _ h
          exact (hall piece hmem).trans (List.suffix_cons c l).isInfix

theorem infix_of_mem_splitOn {l piece : List α} (h : piece ∈ l.splitOn sep) : piece <:+: l :=
  (prefix_and_infix_of_splitOn l).2 piece h

theorem infix_of_mem_lines {l line : List α} (h : line ∈ lines sep l) : line <:+: l := by
  unfold lines at h
  dsimp only at h
  split at h
  · exact infix_of_mem_splitOn ((List.dropLast_sublist _).subset h)
  · exact infix_of_mem_splitOn h

omit [DecidableEq α] in
/-- A text without separators that stands in a separated text stands on one of the sides. -/
theorem infix_append_cons_iff {n a b : List α} (h : sep ∉ n) :
    n <:+: a ++ sep :: b ↔ n <:+: a ∨ n <:+: b := by
  constructor
  · rintro ⟨s, t, heq⟩
    rcases List.append_eq_append_iff.mp heq with ⟨c, rfl, hc⟩ | ⟨c, hc, hsep⟩
    · exact Or.inl ⟨s, c, rfl⟩
    · -- what stands in front of the rest of the text ends behind `a`
      cases c with
      | nil => exact Or.inl ⟨s, [], by rw [hc]; simp⟩
      | cons x c =>
        obtain ⟨rfl, rfl⟩ := List.cons.inj hsep
        rcases List.append_eq_append_iff.mp hc with ⟨d, hd, hn⟩ | ⟨d, rfl, hd⟩
        · exact absurd (hn ▸ List.mem_append_right d List.mem_cons_self) h
        · cases d with
          | nil =>
            rw [List.nil_append] at hd
            rw [← hd] at h
            exact absurd List.mem_cons_self h
          | cons y d =>
            obtain ⟨rfl, rfl⟩ := List.cons.inj hd
            exact Or.inr ⟨d, t, rfl⟩
  · rintro (h | h)
    · exact h.trans (List.prefix_append a _).isInfix
    · exact h.trans ((List.suffix_cons sep b).trans (List.suffix_append a _)).isInfix

/-! ### The first line -/

/-- The first line ends at the first separator. -/
theorem lines_of_ne_nil {l : List α} (h : l ≠ []) :
    lines sep l =
      l.takeWhile (· ≠ sep) :: lines sep (l.dropWhile (· ≠ sep)).tail := by
  by_cases hsep : sep ∈ l
  · obtain ⟨a, b, rfl, ha⟩ := List.eq_append_cons_of_mem hsep
    have hall : ∀ c ∈ a, decide (c ≠ sep) = true := fun c hc => by
      simpa using fun heq : c = sep => ha (heq ▸ hc)
    have htake : (a ++ sep :: b).takeWhile (· ≠ sep) = a := by
      rw [List.takeWhile_append_of_pos hall, List.takeWhile_cons_of_neg (by simp),
        List.append_nil]
    have hdrop : (a ++ sep :: b).dropWhile (· ≠ sep) = sep :: b := by
      rw [List.dropWhile_append_of_pos hall, List.dropWhile_cons_of_neg (by simp)]
    rw [htake, hdrop, List.tail_cons]
    unfold lines
    rw [List.splitOn_append_cons_self_of_not_mem ha]
    obtain ⟨p, ps, hps⟩ := List.exists_cons_of_ne_nil (List.splitOn_ne_nil sep b)
    rw [hps]
    dsimp only
    rw [List.getLast?_cons_cons]
    split <;> rfl
  · have hall : ∀ c ∈ l, decide (c ≠ sep) = true := fun c hc => by
      simpa using fun heq : c = sep => hsep (heq ▸ hc)
    rw [List.takeWhile_eq_self_iff.mpr hall, List.dropWhile_eq_nil_iff.mpr hall, lines_eq_feed,
      feed_of_notMem hsep, List.tail_nil, lines_nil]
    exact if_neg h

end Wfrest.Lines
