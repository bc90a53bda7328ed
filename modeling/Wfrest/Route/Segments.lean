import Wfrest.Base.StringPiece
import Wfrest.Lib.Lines

/-!
# Paths as lists of segments

The byte loops of `find_or_create` and `find` cut a path at its slashes.
`reqSegs` is the cut that `find` makes: one leading slash is skipped, and a
trailing slash leaves an empty last segment. `routeKeys` is the cut that
`find_or_create` makes, which ignores one trailing slash and gives `/` a key of
its own.

`headSeg` and `tailSegs` are one round of the loop on the bytes after the
cursor; `view_mid` and `drop_next` say that the loop of the source computes them.
-/

namespace Wfrest

/-- Skip one leading slash. -/
def dropSlash : Bytes → Bytes
  | [] => []
  | c :: cs => if c = slash then cs else c :: cs

/-- Drop one trailing slash. -/
def stripSlash (p : Bytes) : Bytes :=
  if p.getLast? = some slash then p.dropLast else p

/-- The segments of a request path. -/
def reqSegs (p : Bytes) : List Bytes :=
  if p = [] then [] else (dropSlash p).splitOn slash

/-- The keys of the node at which a route is registered. -/
def routeKeys (r : Bytes) : List Bytes :=
  if r = [slash] then [[slash]] else reqSegs (stripSlash r)

/-- The first segment of what is left of a path. -/
def headSeg (r : Bytes) : Bytes := (dropSlash r).takeWhile (· ≠ slash)

/-- What is left of a path after its first segment. -/
def tailSegs (r : Bytes) : Bytes := (dropSlash r).dropWhile (· ≠ slash)

@[simp] theorem reqSegs_nil : reqSegs [] = [] := rfl

@[simp] theorem dropSlash_slash_cons (cs : Bytes) : dropSlash (slash :: cs) = cs := by
  simp [dropSlash]

theorem dropSlash_cons_of_ne {c : UInt8} (h : c ≠ slash) (cs : Bytes) :
    dropSlash (c :: cs) = c :: cs := by
  simp [dropSlash, h]

theorem dropSlash_append {s : Bytes} (hs : s ≠ []) (t : Bytes) :
    dropSlash (s ++ t) = dropSlash s ++ t := by
  cases s with
  | nil => exact absurd rfl hs
  | cons c cs =>
    by_cases hc : c = slash
    · subst hc; simp
    · simp [dropSlash_cons_of_ne hc]

theorem reqSegs_slash_cons (cs : Bytes) : reqSegs (slash :: cs) = cs.splitOn slash := by
  simp [reqSegs]

/-- A path that continues behind a slash. -/
theorem splitOn_append_slash (a b : Bytes) :
    (a ++ slash :: b).splitOn slash = a.splitOn slash ++ b.splitOn slash := by
  induction a with
  | nil => simp [List.splitOn_cons_eq_if_modifyHead]
  | cons c a ih =>
    rw [List.cons_append, List.splitOn_cons_eq_if_modifyHead, List.splitOn_cons_eq_if_modifyHead,
      ih]
    split
    · rfl
    · obtain ⟨x, xs, hx⟩ := List.exists_cons_of_ne_nil (List.splitOn_ne_nil slash a)
      rw [hx]
      rfl

theorem reqSegs_append_slash (w x : Bytes) :
    reqSegs (w ++ slash :: x) = reqSegs w ++ x.splitOn slash := by
  by_cases hw : w = []
  · subst hw
    exact reqSegs_slash_cons x
  · unfold reqSegs
    rw [if_neg (by simp), if_neg hw, dropSlash_append hw, splitOn_append_slash]

theorem slash_notMem_headSeg (r : Bytes) : slash ∉ headSeg r := by
  intro h
  have := List.mem_takeWhile_imp h
  simp at this

/-- What is left after the first segment is empty or starts with a slash. -/
theorem tailSegs_eq_nil_or (r : Bytes) : tailSegs r = [] ∨ ∃ cs, tailSegs r = slash :: cs := by
  unfold tailSegs
  cases h : (dropSlash r).dropWhile (· ≠ slash) with
  | nil => exact Or.inl rfl
  | cons c cs =>
    refine Or.inr ⟨cs, ?_⟩
    have h_head := List.head?_dropWhile_not (· ≠ slash) (dropSlash r)
    rw [h] at h_head
    simp only [List.head?_cons, ne_eq, decide_not, Bool.not_eq_eq_eq_not, Bool.not_false,
      decide_eq_true_eq] at h_head
    rw [h_head]

/-- One round of the loop. -/
theorem reqSegs_eq_cons {r : Bytes} (hr : r ≠ []) :
    reqSegs r = headSeg r :: reqSegs (tailSegs r) := by
  have hsplit : dropSlash r = headSeg r ++ tailSegs r :=
    (List.takeWhile_append_dropWhile).symm
  rw [reqSegs, if_neg hr, hsplit]
  rcases tailSegs_eq_nil_or r with h | ⟨cs, h⟩
  · rw [h, List.append_nil, List.splitOn_eq_singleton (slash_notMem_headSeg r), reqSegs_nil]
  · rw [h, List.splitOn_append_cons_self_of_not_mem (slash_notMem_headSeg r), reqSegs_slash_cons]

/-- No segment contains a slash. -/
theorem slash_notMem_of_mem_reqSegs {p s : Bytes} (h : s ∈ reqSegs p) : slash ∉ s := by
  unfold reqSegs at h
  split at h
  · simp at h
  · exact Lines.notMem_of_mem_splitOn h

/-- The bytes of a segment are bytes of the path. -/
theorem mem_of_mem_reqSegs {p s : Bytes} {b : UInt8} (h : s ∈ reqSegs p) (hb : b ∈ s) :
    b ∈ p := by
  unfold reqSegs at h
  split at h
  · simp at h
  · have hmem := (Lines.infix_of_mem_splitOn h).subset hb
    cases p with
    | nil => exact absurd rfl ‹_›
    | cons c cs =>
      by_cases hc : c = slash
      · rw [hc, dropSlash_slash_cons] at hmem
        exact List.mem_cons_of_mem _ hmem
      · rwa [dropSlash_cons_of_ne hc] at hmem

/-! ### The trailing slash of a route -/

theorem stripSlash_concat (s : Bytes) : stripSlash (s ++ [slash]) = s := by
  simp [stripSlash]

theorem stripSlash_of_ne {s : Bytes} (h : s.getLast? ≠ some slash) : stripSlash s = s := by
  simp [stripSlash, h]

@[simp] theorem stripSlash_nil : stripSlash [] = [] := rfl

theorem stripSlash_subset (p : Bytes) : stripSlash p ⊆ p := by
  unfold stripSlash
  split
  · exact (List.dropLast_sublist p).subset
  · exact List.Subset.refl p

theorem mem_of_mem_routeKeys {r s : Bytes} {b : UInt8} (h : s ∈ routeKeys r) (hb : b ∈ s) :
    b ∈ r := by
  unfold routeKeys at h
  split at h
  · next hr =>
    rw [List.mem_singleton.mp h] at hb
    rwa [hr]
  · exact stripSlash_subset r (mem_of_mem_reqSegs h hb)

/-- Dropping the trailing slash commutes with a round of the loop. -/
theorem stripSlash_round {r : Bytes} (hr : r ≠ []) (hs : r ≠ [slash]) :
    stripSlash r ≠ [] ∧ headSeg (stripSlash r) = headSeg r ∧
      tailSegs (stripSlash r) = stripSlash (tailSegs r) := by
  by_cases hlast : r.getLast? = some slash
  · obtain ⟨s, rfl⟩ : ∃ s, r = s ++ [slash] :=
      ⟨r.dropLast, by rw [List.dropLast_append_getLast? _ hlast]⟩
    have hne : s ≠ [] := by
      rintro rfl
      exact hs rfl
    rw [stripSlash_concat]
    refine ⟨hne, ?_, ?_⟩
    · rw [headSeg, headSeg, dropSlash_append hne, List.takeWhile_append]
      split
      · next h =>
        have hnil : [slash].takeWhile (· ≠ slash) = [] := rfl
        rw [hnil, List.append_nil]
        exact (List.takeWhile_prefix _).eq_of_length h
      · rfl
    · rw [tailSegs, tailSegs, dropSlash_append hne, List.dropWhile_append]
      split
      · next h =>
        rw [List.isEmpty_iff.mp h]
        rfl
      · rw [stripSlash_concat]
  · rw [stripSlash_of_ne hlast]
    refine ⟨hr, rfl, (stripSlash_of_ne fun h => hlast ?_).symm⟩
    -- what is left after a round ends as the path does
    have hsuf : tailSegs r <:+ dropSlash r := List.dropWhile_suffix _
    obtain ⟨pre, hpre⟩ := hsuf
    have hd : (dropSlash r).getLast? = some slash := by
      rw [← hpre, List.getLast?_append, h]; rfl
    cases r with
    | nil => exact absurd rfl hr
    | cons c cs =>
      by_cases hc : c = slash
      · subst hc
        rw [dropSlash_slash_cons] at hd
        rw [List.getLast?_cons, hd]; rfl
      · rwa [dropSlash_cons_of_ne hc] at hd

/-- The keys after a round of the loop of `find_or_create`. -/
theorem reqSegs_stripSlash_eq_cons {r : Bytes} (hr : r ≠ []) (hs : r ≠ [slash]) :
    reqSegs (stripSlash r) = headSeg r :: reqSegs (stripSlash (tailSegs r)) := by
  obtain ⟨hne, hhead, htail⟩ := stripSlash_round hr hs
  rw [reqSegs_eq_cons hne, hhead, htail]

/-! ### The byte loop -/

namespace StringPiece

/-- The view lies inside its buffer. -/
def Valid (s : StringPiece) : Prop := s.length ≤ s.ptr.length

theorem valid_ofString (s : Bytes) : (ofString s).Valid := le_refl _

theorem valid_ofCStr (s : Bytes) : (ofCStr s).Valid :=
  (List.takeWhile_sublist _).length_le

variable {s : StringPiece}

theorem Valid.length_view (h : s.Valid) : s.view.length = s.length :=
  StringPiece.length_view h

theorem Valid.get_eq (h : s.Valid) {i : Nat} (hi : i < s.length) :
    ∃ cs, s.view.drop i = s.get i :: cs := by
  have hlt : i < s.view.length := by rwa [h.length_view]
  refine ⟨s.view.drop (i + 1), ?_⟩
  rw [List.drop_eq_getElem_cons hlt]
  have hp : i < s.ptr.length := lt_of_lt_of_le hi h
  simp [view, get, hp]

theorem Valid.drop_view_eq_nil_iff (h : s.Valid) {i : Nat} :
    s.view.drop i = [] ↔ s.length ≤ i := by
  rw [List.drop_eq_nil_iff, h.length_view]

theorem Valid.skipSegment_eq (h : s.Valid) (i : Nat) :
    s.skipSegment i = i + ((s.view.drop i).takeWhile (· ≠ slash)).length := by
  fun_induction skipSegment s i with
  | case1 i hi ih =>
    obtain ⟨cs, hcs⟩ := h.get_eq hi.1
    have hdrop : s.view.drop (i + 1) = cs := by
      rw [← List.drop_drop, hcs]; rfl
    rw [ih, hdrop, hcs, List.takeWhile_cons_of_pos (by simpa using hi.2)]
    simp only [List.length_cons]
    omega
  | case2 i hi =>
    by_cases hlt : i < s.length
    · obtain ⟨cs, hcs⟩ := h.get_eq hlt
      have hget : s.get i = slash := by
        by_contra hne
        exact hi ⟨hlt, hne⟩
      rw [hcs, List.takeWhile_cons_of_neg (by simp [hget])]
      rfl
    · rw [h.drop_view_eq_nil_iff.mpr (by omega)]
      rfl

/-- The start of the segment after the cursor. -/
def anchor (s : StringPiece) (cursor : Nat) : Nat :=
  if s.get cursor = slash then cursor + 1 else cursor

/-- The end of the segment after the cursor. -/
def next (s : StringPiece) (cursor : Nat) : Nat := s.skipSegment (s.anchor cursor)

/-- The segment after the cursor. -/
def mid (s : StringPiece) (cursor : Nat) : StringPiece :=
  s.sub (s.anchor cursor) (s.next cursor - s.anchor cursor)

theorem Valid.drop_anchor (h : s.Valid) {c : Nat} (hc : c < s.length) :
    s.view.drop (s.anchor c) = dropSlash (s.view.drop c) := by
  obtain ⟨cs, hcs⟩ := h.get_eq hc
  unfold anchor
  split
  · next hget => rw [← List.drop_drop, hcs, hget, dropSlash_slash_cons]; rfl
  · next hget => rw [hcs, dropSlash_cons_of_ne hget]

theorem anchor_le (s : StringPiece) {c : Nat} (hc : c < s.length) : s.anchor c ≤ s.length := by
  unfold anchor
  split <;> omega

theorem Valid.next_eq (h : s.Valid) {c : Nat} (hc : c < s.length) :
    s.next c = s.anchor c + (headSeg (s.view.drop c)).length := by
  rw [next, h.skipSegment_eq, h.drop_anchor hc, headSeg]

/-- The loop stops inside the view. -/
theorem Valid.next_le (h : s.Valid) {c : Nat} (hc : c < s.length) : s.next c ≤ s.length := by
  have hle : (headSeg (s.view.drop c)).length ≤ (s.view.drop (s.anchor c)).length := by
    rw [h.drop_anchor hc]
    exact (List.takeWhile_sublist _).length_le
  rw [List.length_drop, h.length_view] at hle
  have := s.anchor_le hc
  rw [h.next_eq hc]
  omega

theorem lt_next (s : StringPiece) {c : Nat} (hc : c < s.length) : c < s.next c := by
  unfold next anchor
  split
  · have := s.le_skipSegment (c + 1)
    omega
  · next hne => exact lt_skipSegment hc hne

/-- The loop leaves the cursor after the first segment. -/
theorem Valid.drop_next (h : s.Valid) {c : Nat} (hc : c < s.length) :
    s.view.drop (s.next c) = tailSegs (s.view.drop c) := by
  have hsplit : dropSlash (s.view.drop c)
      = headSeg (s.view.drop c) ++ tailSegs (s.view.drop c) :=
    (List.takeWhile_append_dropWhile).symm
  rw [h.next_eq hc, ← List.drop_drop, h.drop_anchor hc, hsplit, List.drop_left]

/-- The piece cut out by the loop is the first segment. -/
theorem Valid.view_mid (h : s.Valid) {c : Nat} (hc : c < s.length) :
    (s.mid c).view = headSeg (s.view.drop c) := by
  have hsplit : s.view.drop (s.anchor c)
      = headSeg (s.view.drop c) ++ tailSegs (s.view.drop c) := by
    rw [h.drop_anchor hc]
    exact (List.takeWhile_append_dropWhile).symm
  have hlen : s.next c - s.anchor c = (headSeg (s.view.drop c)).length := by
    rw [h.next_eq hc]; omega
  have hview : s.view.drop (s.anchor c)
      = (s.ptr.drop (s.anchor c)).take (s.length - s.anchor c) := by
    rw [view, List.drop_take]
  have hle : (headSeg (s.view.drop c)).length ≤ s.length - s.anchor c := by
    have := h.next_le hc
    rw [h.next_eq hc] at this
    omega
  change (s.ptr.drop (s.anchor c)).take (s.next c - s.anchor c) = _
  rw [hlen, ← min_eq_left hle, ← List.take_take, ← hview, hsplit, List.take_left]

theorem Valid.mid (h : s.Valid) {c : Nat} (hc : c < s.length) : (s.mid c).Valid := by
  have h1 := h.next_le hc
  have h2 : s.length ≤ s.ptr.length := h
  change s.next c - s.anchor c ≤ (s.ptr.drop (s.anchor c)).length
  rw [List.length_drop]
  omega

end StringPiece

end Wfrest
