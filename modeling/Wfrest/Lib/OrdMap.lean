import Mathlib.Order.Lattice
import Mathlib.Data.List.Basic

/-!
# Ordered association lists

A finite map kept as a list of entries in increasing key order, the shape in
which an ordered tree map is iterated. The three writers differ in what they do
with a key that is already present:

* `replace` rewrites the entry of a present key in place and never adds one;
* `insert` adds an absent key and leaves a present one alone;
* `set` rewrites or adds.

The lookup equations (`get?_insert`, `get?_set`) need no hypothesis on the
list. The order is a separate invariant, `Sorted`, which every writer preserves;
it makes the keys distinct, so that `get?` sees every entry
(`Sorted.get?_eq_some_iff`), and it makes two maps with the same lookups equal
(`Sorted.ext`).
-/

namespace OrdMap

variable {κ α β : Type} [LinearOrder κ]

/-- The entry of `k`, if there is one. -/
def get? (k : κ) : List (κ × α) → Option α
  | [] => none
  | (k', x) :: m => if k = k' then some x else get? k m

/-- Overwrite the entry of `k` in place; no effect on an absent key. -/
def replace (k : κ) (x : α) : List (κ × α) → List (κ × α)
  | [] => []
  | (k', y) :: m => if k = k' then (k', x) :: m else (k', y) :: replace k x m

/-- Add an entry before the first larger key. -/
def insertNew (k : κ) (x : α) : List (κ × α) → List (κ × α)
  | [] => [(k, x)]
  | (k', y) :: m => if k < k' then (k, x) :: (k', y) :: m else (k', y) :: insertNew k x m

/-- Add an entry unless the key is present. -/
def insert (k : κ) (x : α) (m : List (κ × α)) : List (κ × α) :=
  if (get? k m).isSome then m else insertNew k x m

/-- Add or overwrite an entry. -/
def set (k : κ) (x : α) (m : List (κ × α)) : List (κ × α) :=
  if (get? k m).isSome then replace k x m else insertNew k x m

/-- The map of some entries; of two with one key the first stays. -/
def ofEntries (es : List (κ × α)) : List (κ × α) :=
  es.foldl (fun m e => insert e.1 e.2 m) []

/-! ### Lookups -/

@[simp] theorem get?_nil (k : κ) : get? k ([] : List (κ × α)) = none := rfl

theorem get?_cons (k k' : κ) (x : α) (m : List (κ × α)) :
    get? k ((k', x) :: m) = if k = k' then some x else get? k m := rfl

theorem get?_replace (k j : κ) (x : α) (m : List (κ × α)) :
    get? j (replace k x m) = if j = k then (get? k m).map fun _ => x else get? j m := by
  induction m with
  | nil => simp [replace]
  | cons e m ih =>
    obtain ⟨k', y⟩ := e
    by_cases hk : k = k'
    · subst hk
      by_cases hj : j = k <;> simp [replace, get?_cons, hj]
    · by_cases hj : j = k
      · subst hj
        simpa [replace, get?_cons, hk] using ih
      · simp [replace, get?_cons, hk, ih, hj]

theorem get?_insertNew {k : κ} {m : List (κ × α)} (h : get? k m = none) (j : κ) (x : α) :
    get? j (insertNew k x m) = if j = k then some x else get? j m := by
  induction m with
  | nil => simp [insertNew, get?_cons]
  | cons e m ih =>
    obtain ⟨k', y⟩ := e
    have hk : k ≠ k' := by
      rintro rfl
      simp [get?_cons] at h
    rw [get?_cons, if_neg hk] at h
    rw [insertNew]
    split
    · rw [get?_cons]
    · rw [get?_cons, ih h, get?_cons]
      by_cases hj : j = k
      · subst hj; simp [hk]
      · simp [hj]

/-- `insert` keeps what is there. -/
theorem get?_insert (k j : κ) (x : α) (m : List (κ × α)) :
    get? j (insert k x m) = if j = k then some ((get? k m).getD x) else get? j m := by
  unfold insert
  cases h : get? k m with
  | some y =>
    by_cases hj : j = k
    · subst hj; simp [h]
    · simp [hj]
  | none => simpa [h] using get?_insertNew h j x

theorem get?_set (k j : κ) (x : α) (m : List (κ × α)) :
    get? j (set k x m) = if j = k then some x else get? j m := by
  unfold set
  cases h : get? k m with
  | some y => simp [get?_replace, h]
  | none => simpa using get?_insertNew h j x

theorem get?_map (f : α → β) (k : κ) (m : List (κ × α)) :
    get? k (m.map fun e => (e.1, f e.2)) = (get? k m).map f := by
  induction m with
  | nil => rfl
  | cons e m ih =>
    rw [List.map_cons, get?_cons, ih, get?_cons]
    split <;> rfl

theorem mem_of_get? {k : κ} {x : α} {m : List (κ × α)} (h : get? k m = some x) :
    (k, x) ∈ m := by
  induction m with
  | nil => simp at h
  | cons e m ih =>
    obtain ⟨k', y⟩ := e
    rw [get?_cons] at h
    split at h
    · next hk => simp_all
    · exact List.mem_cons_of_mem _ (ih h)

theorem get?_isSome_of_mem {k : κ} {x : α} {m : List (κ × α)} (h : (k, x) ∈ m) :
    (get? k m).isSome := by
  induction m with
  | nil => simp at h
  | cons e m ih =>
    obtain ⟨k', y⟩ := e
    rw [get?_cons]
    split
    · rfl
    · next hk =>
      rcases List.mem_cons.mp h with h' | h'
      · exact absurd (Prod.mk.inj h').1 hk
      · exact ih h'

theorem get?_foldl_insert (k : κ) (es m : List (κ × α)) :
    get? k (es.foldl (fun m e => insert e.1 e.2 m) m) = (get? k m).or (get? k es) := by
  induction es generalizing m with
  | nil => simp
  | cons e es ih =>
    obtain ⟨k', x⟩ := e
    rw [List.foldl_cons, ih, get?_insert, get?_cons]
    by_cases hk : k = k'
    · subst hk
      cases get? k m <;> simp
    · simp [hk]

/-- The lookup finds the first entry of a key. -/
theorem get?_ofEntries (k : κ) (es : List (κ × α)) : get? k (ofEntries es) = get? k es := by
  rw [ofEntries, get?_foldl_insert, get?_nil, Option.none_or]

theorem get?_filter (p : κ → Bool) (k : κ) (m : List (κ × α)) :
    get? k (m.filter fun e => p e.1) = if p k then get? k m else none := by
  induction m with
  | nil => simp
  | cons e m ih =>
    obtain ⟨k', x⟩ := e
    rw [List.filter_cons, get?_cons]
    by_cases hk : k = k'
    · subst hk
      by_cases hp : p k
      · simp [hp, get?_cons]
      · simp [hp, ih]
    · split
      · rw [get?_cons, if_neg hk, ih]
      · exact ih

/-- With distinct keys every entry is found. -/
theorem get?_eq_some_of_nodup {k : κ} {x : α} {m : List (κ × α)} (hm : (m.map Prod.fst).Nodup)
    (h : (k, x) ∈ m) : get? k m = some x := by
  induction m with
  | nil => simp at h
  | cons e m ih =>
    obtain ⟨k', y⟩ := e
    rw [List.map_cons, List.nodup_cons] at hm
    rw [get?_cons]
    rcases List.mem_cons.mp h with heq | hmem
    · obtain ⟨rfl, rfl⟩ := Prod.mk.inj heq
      exact if_pos rfl
    · have hne : k ≠ k' := by
        rintro rfl
        exact hm.1 (List.mem_map.mpr ⟨_, hmem, rfl⟩)
      rw [if_neg hne]
      exact ih hm.2 hmem

/-! ### Shape -/

theorem map_fst_replace (k : κ) (x : α) (m : List (κ × α)) :
    (replace k x m).map Prod.fst = m.map Prod.fst := by
  induction m with
  | nil => rfl
  | cons e m ih =>
    obtain ⟨k', y⟩ := e
    unfold replace
    split <;> simp [ih]

theorem replace_replace (k : κ) (x y : α) (m : List (κ × α)) :
    replace k y (replace k x m) = replace k y m := by
  induction m with
  | nil => rfl
  | cons e m ih =>
    obtain ⟨k', z⟩ := e
    by_cases hk : k = k'
    · simp [replace, hk]
    · simp [replace, hk, ih]

theorem replace_insertNew {k : κ} {m : List (κ × α)} (h : get? k m = none) (x y : α) :
    replace k y (insertNew k x m) = insertNew k y m := by
  induction m with
  | nil => simp [insertNew, replace]
  | cons e m ih =>
    obtain ⟨k', z⟩ := e
    rw [get?_cons] at h
    split at h
    · cases h
    · next hk =>
      unfold insertNew
      split
      · simp [replace]
      · rw [replace, if_neg hk, ih h]

/-- The second of two writes to a key stays. -/
theorem set_set (k : κ) (x y : α) (m : List (κ × α)) : set k y (set k x m) = set k y m := by
  have hsome : (get? k (set k x m)).isSome := by simp [get?_set]
  rw [set, if_pos hsome]
  unfold set
  split
  · exact replace_replace k x y m
  · next hnone => exact replace_insertNew (by simpa using hnone) x y

theorem mem_insertNew {k : κ} {x : α} {e : κ × α} {m : List (κ × α)} :
    e ∈ insertNew k x m ↔ e = (k, x) ∨ e ∈ m := by
  induction m with
  | nil => simp [insertNew]
  | cons e' m ih =>
    obtain ⟨k', y⟩ := e'
    unfold insertNew
    split
    · simp
    · rw [List.mem_cons, ih, List.mem_cons]
      tauto

/-! ### Order -/

/-- Strictly increasing keys. -/
def Sorted (m : List (κ × α)) : Prop :=
  m.Pairwise fun a b => a.1 < b.1

@[simp] theorem sorted_nil : Sorted ([] : List (κ × α)) := List.Pairwise.nil

theorem sorted_iff_map {m : List (κ × α)} :
    Sorted m ↔ (m.map Prod.fst).Pairwise (· < ·) := by
  rw [List.pairwise_map]; rfl

theorem Sorted.replace {k : κ} {x : α} {m : List (κ × α)} (h : Sorted m) :
    Sorted (OrdMap.replace k x m) := by
  rw [sorted_iff_map, map_fst_replace, ← sorted_iff_map]
  exact h

theorem Sorted.insertNew {k : κ} {x : α} {m : List (κ × α)} (h : Sorted m)
    (hk : get? k m = none) : Sorted (OrdMap.insertNew k x m) := by
  induction m with
  | nil => exact List.pairwise_singleton _ _
  | cons e m ih =>
    obtain ⟨k', y⟩ := e
    obtain ⟨h_lt, h_m⟩ := List.pairwise_cons.mp h
    rw [get?_cons] at hk
    split at hk
    · exact absurd hk (by simp)
    · next hne =>
      unfold OrdMap.insertNew
      split
      · next hlt =>
        refine List.pairwise_cons.mpr ⟨fun b hb => ?_, h⟩
        rcases List.mem_cons.mp hb with rfl | hb
        · exact hlt
        · exact lt_trans hlt (h_lt b hb)
      · next hge =>
        -- the new key is neither smaller nor equal, so it goes behind this entry
        have hgt : k' < k := lt_of_le_of_ne (not_lt.mp hge) (Ne.symm hne)
        refine List.pairwise_cons.mpr ⟨fun b hb => ?_, ih h_m hk⟩
        rcases mem_insertNew.mp hb with rfl | hb
        · exact hgt
        · exact h_lt b hb

theorem Sorted.insert {k : κ} {x : α} {m : List (κ × α)} (h : Sorted m) :
    Sorted (OrdMap.insert k x m) := by
  unfold OrdMap.insert
  split
  · exact h
  · next hk => exact h.insertNew (by simpa using hk)

theorem Sorted.set {k : κ} {x : α} {m : List (κ × α)} (h : Sorted m) :
    Sorted (OrdMap.set k x m) := by
  unfold OrdMap.set
  split
  · exact h.replace
  · next hk => exact h.insertNew (by simpa using hk)

theorem sorted_ofEntries (es : List (κ × α)) : Sorted (ofEntries es) := by
  suffices ∀ m : List (κ × α), Sorted m →
      Sorted (es.foldl (fun m e => OrdMap.insert e.1 e.2 m) m) from this [] sorted_nil
  induction es with
  | nil => exact fun m hm => hm
  | cons e es ih => exact fun m hm => ih _ hm.insert

theorem Sorted.map {f : α → β} {m : List (κ × α)} (h : Sorted m) :
    Sorted (m.map fun e => (e.1, f e.2)) :=
  List.Pairwise.map _ (fun _ _ hlt => hlt) h

/-- In a sorted list the lookup sees every entry. -/
theorem Sorted.get?_eq_some_iff {k : κ} {x : α} {m : List (κ × α)} (h : Sorted m) :
    get? k m = some x ↔ (k, x) ∈ m := by
  refine ⟨mem_of_get?, fun hmem => ?_⟩
  induction m with
  | nil => simp at hmem
  | cons e m ih =>
    obtain ⟨k', y⟩ := e
    obtain ⟨h_lt, h_m⟩ := List.pairwise_cons.mp h
    rcases List.mem_cons.mp hmem with he | hmem
    · obtain ⟨rfl, rfl⟩ := Prod.mk.inj he
      simp [get?_cons]
    · have hne : k ≠ k' := ne_of_gt (h_lt _ hmem)
      rw [get?_cons, if_neg hne]
      exact ih h_m hmem

/-- The first entry that passes is the one with the least key. -/
theorem Sorted.find?_eq_some_iff {p : κ × α → Bool} {e : κ × α} {m : List (κ × α)}
    (h : Sorted m) :
    m.find? p = some e ↔ e ∈ m ∧ p e = true ∧ ∀ x ∈ m, p x = true → e.1 ≤ x.1 := by
  induction m with
  | nil => simp
  | cons y m ih =>
    obtain ⟨hlt, hm⟩ := List.pairwise_cons.mp h
    by_cases hy : p y = true
    · rw [List.find?_cons_of_pos hy, Option.some.injEq]
      constructor
      · rintro rfl
        refine ⟨List.mem_cons_self, hy, fun x hx _ => ?_⟩
        rcases List.mem_cons.mp hx with rfl | hx
        · exact le_rfl
        · exact (hlt x hx).le
      · rintro ⟨he, -, hle⟩
        rcases List.mem_cons.mp he with rfl | he
        · rfl
        · exact absurd (hle y List.mem_cons_self hy) (not_le.mpr (hlt e he))
    · rw [List.find?_cons_of_neg hy, ih hm]
      constructor
      · rintro ⟨he, hp, hle⟩
        refine ⟨List.mem_cons_of_mem y he, hp, fun x hx hpx => ?_⟩
        rcases List.mem_cons.mp hx with rfl | hx
        · exact absurd hpx hy
        · exact hle x hx hpx
      · rintro ⟨he, hp, hle⟩
        rcases List.mem_cons.mp he with rfl | he
        · exact absurd hp hy
        · exact ⟨he, hp, fun x hx hpx => hle x (List.mem_cons_of_mem y hx) hpx⟩
/-- Two sorted lists with the same lookups are equal. -/
theorem Sorted.ext {m₁ m₂ : List (κ × α)} (h₁ : Sorted m₁) (h₂ : Sorted m₂)
    (h : ∀ k, get? k m₁ = get? k m₂) : m₁ = m₂ := by
  have hperm : m₁.Perm m₂ := by
    refine (List.perm_ext_iff_of_nodup ?_ ?_).mpr fun e => ?_
    · exact h₁.imp fun hlt he => ne_of_lt hlt (congrArg Prod.fst he)
    · exact h₂.imp fun hlt he => ne_of_lt hlt (congrArg Prod.fst he)
    · obtain ⟨k, x⟩ := e
      rw [← h₁.get?_eq_some_iff, ← h₂.get?_eq_some_iff, h k]
  exact hperm.eq_of_pairwise (fun a b _ _ hab hba => absurd hab (lt_asymm hba)) h₁ h₂

end OrdMap
