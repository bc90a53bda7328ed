import Wfrest.Lib.OrdMap

/-!
# Prefix trees

A node carries a value and its children in increasing key order. Two readings
of a tree are used throughout:

* `sub? p t` — the node reached by following the keys of `p`, and on top of it
  `Has p t` (the node exists) and `valAt p t` (its value, `default` when the
  node is missing);
* `update f p t` — walk down `p`, creating the missing nodes with the value
  `default`, and apply `f` to the value at its end.

`sub?_update_append` and `sub?_update_of_not_isPrefix` say what `update` does to
every node, on and off the path; `valAt_update` and `has_update` are the two
consequences that clients use. Child lists are kept `OrdMap.Sorted` at every
node (`WF`), an invariant of `update`. A well-formed tree is determined by its
nodes and their values (`WF.ext`), so trees that differ in a part of their values
only are equal once `map` has taken that part away.
-/

/-- A tree of keys with a value at every node. -/
inductive Trie (κ β : Type) where
  | node (val : β) (children : List (κ × Trie κ β))

namespace Trie

variable {κ β : Type}

/-- Induction over a tree through membership in the child list. -/
theorem ind {P : Trie κ β → Prop}
    (h : ∀ v cs, (∀ k c, (k, c) ∈ cs → P c) → P (node v cs)) : ∀ t, P t :=
  @Trie.rec κ β P (fun cs => ∀ k c, (k, c) ∈ cs → P c) (fun e => P e.2)
    (fun v cs ih => h v cs ih)
    (fun _ _ hm => absurd hm (by simp))
    (fun e _ ihe ihcs k c hm => by
      rcases List.mem_cons.mp hm with heq | hm
      · rw [← heq] at ihe; exact ihe
      · exact ihcs k c hm)
    (fun _ _ ih => ih)

/-- The value at the root. -/
def val : Trie κ β → β
  | node v _ => v

/-- The children of the root. -/
def children : Trie κ β → List (κ × Trie κ β)
  | node _ cs => cs

@[simp] theorem val_node (v : β) (cs : List (κ × Trie κ β)) : (node v cs).val = v := rfl

@[simp] theorem children_node (v : β) (cs : List (κ × Trie κ β)) :
    (node v cs).children = cs := rfl

theorem node_val_children (t : Trie κ β) : node t.val t.children = t := by
  cases t; rfl

/-- A node without children and with the default value. -/
def empty [Inhabited β] : Trie κ β := node default []

variable [LinearOrder κ]

/-- The node reached by following the keys of a path. -/
def sub? : List κ → Trie κ β → Option (Trie κ β)
  | [], t => some t
  | k :: ks, t => (OrdMap.get? k t.children).bind (sub? ks)

@[simp] theorem sub?_nil (t : Trie κ β) : sub? [] t = some t := rfl

theorem sub?_cons (k : κ) (ks : List κ) (t : Trie κ β) :
    sub? (k :: ks) t = (OrdMap.get? k t.children).bind (sub? ks) := rfl

theorem sub?_singleton (k : κ) (t : Trie κ β) :
    sub? [k] t = OrdMap.get? k t.children := by
  rw [sub?_cons]
  cases OrdMap.get? k t.children <;> rfl

theorem sub?_append (p q : List κ) (t : Trie κ β) :
    sub? (p ++ q) t = (sub? p t).bind (sub? q) := by
  induction p generalizing t with
  | nil => rfl
  | cons k p ih =>
    rw [List.cons_append, sub?_cons, sub?_cons]
    cases OrdMap.get? k t.children with
    | none => rfl
    | some c => exact ih c

/-- The node at the end of the path exists. -/
def Has (p : List κ) (t : Trie κ β) : Prop := (sub? p t).isSome

instance (p : List κ) (t : Trie κ β) : Decidable (Has p t) :=
  inferInstanceAs (Decidable ((sub? p t).isSome = true))

@[simp] theorem has_nil (t : Trie κ β) : Has [] t := rfl

theorem Has.of_append {p q : List κ} {t : Trie κ β} (h : Has (p ++ q) t) : Has p t := by
  unfold Has at h ⊢
  rw [sub?_append] at h
  cases hp : sub? p t with
  | none => rw [hp] at h; simp at h
  | some s => rfl

/-- A missing node has no children, so a node with a child is not a leaf. -/
theorem has_concat_iff {p : List κ} {k : κ} {t s : Trie κ β} (h : sub? p t = some s) :
    Has (p ++ [k]) t ↔ (OrdMap.get? k s.children).isSome := by
  unfold Has
  rw [sub?_append, h, Option.bind_some, sub?_singleton]

theorem children_eq_nil_iff {p : List κ} {t s : Trie κ β} (h : sub? p t = some s) :
    s.children = [] ↔ ∀ k, ¬ Has (p ++ [k]) t := by
  constructor
  · intro hnil k
    rw [has_concat_iff h, hnil]
    simp
  · intro hno
    cases hcs : s.children with
    | nil => rfl
    | cons e cs =>
      refine absurd ((has_concat_iff h).mpr ?_) (hno e.1)
      exact OrdMap.get?_isSome_of_mem (x := e.2) (by rw [hcs]; exact List.mem_cons_self)

/-! ### Update along a path -/

variable [Inhabited β]

/-- The value at the end of the path, `default` when the node is missing. -/
def valAt (p : List κ) (t : Trie κ β) : β :=
  ((sub? p t).getD empty).val

theorem valAt_of_sub? {p : List κ} {t s : Trie κ β} (h : sub? p t = some s) :
    valAt p t = s.val := by
  simp [valAt, h]

theorem valAt_of_not_has {p : List κ} {t : Trie κ β} (h : ¬ Has p t) :
    valAt p t = default := by
  unfold Has at h
  rw [Bool.not_eq_true, Option.isSome_eq_false_iff, Option.isNone_iff_eq_none] at h
  simp [valAt, h, empty]

/-- Apply `f` at the end of the path, creating the nodes that are missing. -/
def update (f : β → β) : List κ → Trie κ β → Trie κ β
  | [], t => node (f t.val) t.children
  | k :: ks, t =>
    match OrdMap.get? k t.children with
    | some c => node t.val (OrdMap.replace k (update f ks c) t.children)
    | none => node t.val (OrdMap.insertNew k (update f ks empty) t.children)

@[simp] theorem val_update_cons (f : β → β) (k : κ) (ks : List κ) (t : Trie κ β) :
    (update f (k :: ks) t).val = t.val := by
  unfold update
  split <;> rfl

theorem get?_children_update_cons (f : β → β) (k j : κ) (ks : List κ) (t : Trie κ β) :
    OrdMap.get? j (update f (k :: ks) t).children =
      if j = k then some (update f ks ((OrdMap.get? k t.children).getD empty))
      else OrdMap.get? j t.children := by
  rw [update]
  cases h : OrdMap.get? k t.children with
  | some c => simp [OrdMap.get?_replace, h]
  | none => simp [OrdMap.get?_insertNew h]

/-- On the path: the node after the update is the updated old node. -/
theorem sub?_update_append (f : β → β) (q r : List κ) (t : Trie κ β) :
    sub? q (update f (q ++ r) t) = some (update f r ((sub? q t).getD empty)) := by
  induction q generalizing t with
  | nil => rfl
  | cons k q ih =>
    rw [List.cons_append, sub?_cons, get?_children_update_cons, if_pos rfl, Option.bind_some,
      ih, sub?_cons]
    cases h : OrdMap.get? k t.children with
    | some c => rfl
    | none =>
      cases q with
      | nil => rfl
      | cons j q => rfl

/-- Off the path: the node is untouched. -/
theorem sub?_update_of_not_isPrefix (f : β → β) {p q : List κ} (h : ¬ q <+: p) (t : Trie κ β) :
    sub? q (update f p t) = sub? q t := by
  induction p generalizing q t with
  | nil =>
    cases q with
    | nil => exact absurd List.nil_prefix h
    | cons j q => rfl
  | cons k p ih =>
    cases q with
    | nil => exact absurd List.nil_prefix h
    | cons j q =>
      rw [sub?_cons, get?_children_update_cons, sub?_cons]
      by_cases hj : j = k
      · subst hj
        have hq : ¬ q <+: p := fun hp => h (List.cons_prefix_cons.mpr ⟨rfl, hp⟩)
        rw [if_pos rfl, Option.bind_some, ih hq]
        cases OrdMap.get? j t.children with
        | some c => rfl
        | none =>
          cases q with
          | nil => exact absurd List.nil_prefix hq
          | cons i q => rfl
      · rw [if_neg hj]

/-- The value at `p` is `f` of the old one; every other value is the old one. -/
theorem valAt_update (f : β → β) (p q : List κ) (t : Trie κ β) :
    valAt q (update f p t) = if q = p then f (valAt p t) else valAt q t := by
  by_cases hq : q <+: p
  · obtain ⟨r, rfl⟩ := hq
    rw [valAt_of_sub? (sub?_update_append f q r t)]
    cases r with
    | nil => simp [update, valAt]
    | cons k r => simp [valAt]
  · have hne : q ≠ p := fun h => hq (h ▸ List.prefix_refl p)
    rw [if_neg hne, valAt, sub?_update_of_not_isPrefix f hq, ← valAt]

/-- The update adds exactly the nodes of its path. -/
theorem has_update (f : β → β) (p q : List κ) (t : Trie κ β) :
    Has q (update f p t) ↔ Has q t ∨ q <+: p := by
  by_cases hq : q <+: p
  · obtain ⟨r, rfl⟩ := hq
    simp [Has, sub?_update_append]
  · simp [Has, sub?_update_of_not_isPrefix f hq, hq]

/-! ### Sorted child lists -/

omit [Inhabited β] in
/-- Every child list of the tree is sorted. -/
def WF (t : Trie κ β) : Prop :=
  ∀ p s, sub? p t = some s → OrdMap.Sorted s.children

omit [Inhabited β] in
theorem WF.sorted {t : Trie κ β} (h : WF t) : OrdMap.Sorted t.children := h [] t rfl

omit [Inhabited β] in
theorem WF.sub {t s : Trie κ β} {p : List κ} (h : WF t) (hs : sub? p t = some s) : WF s := by
  intro q u hu
  refine h (p ++ q) u ?_
  rw [sub?_append, hs]
  exact hu

omit [Inhabited β] in
theorem WF.child {t c : Trie κ β} {k : κ} (h : WF t) (hc : (k, c) ∈ t.children) : WF c := by
  refine h.sub (p := [k]) ?_
  rw [sub?_singleton, h.sorted.get?_eq_some_iff]
  exact hc

theorem wf_empty : WF (empty : Trie κ β) := by
  intro p s hs
  cases p with
  | nil => cases hs; exact OrdMap.sorted_nil
  | cons k p => simp [sub?_cons, empty] at hs

private theorem sorted_children_update {f : β → β} {t : Trie κ β} {p : List κ}
    (h : OrdMap.Sorted t.children) : OrdMap.Sorted (update f p t).children := by
  cases p with
  | nil => exact h
  | cons k p =>
    unfold update
    split
    · exact h.replace
    · next hk => exact h.insertNew hk

theorem WF.update {f : β → β} {t : Trie κ β} {p : List κ} (h : WF t) :
    WF (Trie.update f p t) := by
  intro q s hs
  by_cases hq : q <+: p
  · obtain ⟨r, rfl⟩ := hq
    rw [sub?_update_append, Option.some.injEq] at hs
    subst hs
    refine sorted_children_update ?_
    cases hsub : sub? q t with
    | none => exact OrdMap.sorted_nil
    | some u => exact h q u hsub
  · rw [sub?_update_of_not_isPrefix f hq] at hs
    exact h q s hs

omit [Inhabited β] in
theorem WF.of_child {v : β} {cs : List (κ × Trie κ β)} (hcs : OrdMap.Sorted cs)
    (h : ∀ k c, (k, c) ∈ cs → WF c) : WF (node v cs) := by
  intro p s hs
  cases p with
  | nil =>
    cases hs
    exact hcs
  | cons k p =>
    rw [sub?_cons, Option.bind_eq_some_iff] at hs
    obtain ⟨c, hget, hs⟩ := hs
    exact h k c (OrdMap.mem_of_get? hget) p s hs

omit [Inhabited β] in
theorem has_cons_iff {k : κ} {p : List κ} {t : Trie κ β} :
    Has (k :: p) t ↔ ∃ c, OrdMap.get? k t.children = some c ∧ Has p c := by
  unfold Has
  rw [sub?_cons]
  cases OrdMap.get? k t.children <;> simp

theorem valAt_cons_of_get? {k : κ} {p : List κ} {t c : Trie κ β}
    (hget : OrdMap.get? k t.children = some c) : valAt (k :: p) t = valAt p c := by
  rw [valAt, sub?_cons, hget, Option.bind_some, ← valAt]

/-- **Extensionality.** The nodes and their values determine the tree. -/
theorem WF.ext {t u : Trie κ β} (ht : WF t) (hu : WF u) (hhas : ∀ p, Has p t ↔ Has p u)
    (hval : ∀ p, valAt p t = valAt p u) : t = u := by
  induction t using ind generalizing u with
  | h v cs ih =>
    obtain ⟨w, ds⟩ := u
    have hroot : v = w := hval []
    have hget : ∀ k, OrdMap.get? k cs = OrdMap.get? k ds := by
      intro k
      have hk := hhas [k]
      rw [has_cons_iff, has_cons_iff] at hk
      simp only [children_node, has_nil, and_true, ← Option.isSome_iff_exists] at hk
      cases hc : OrdMap.get? k cs with
      | none =>
        rw [hc] at hk
        exact (Option.not_isSome_iff_eq_none.mp fun h => by simpa using hk.mpr h).symm
      | some c =>
        obtain ⟨d, hd⟩ := Option.isSome_iff_exists.mp (hk.mp (by rw [hc]; rfl))
        -- the two children have the same nodes and values below them
        have hchild : ∀ p, (Has p c ↔ Has p d) ∧ valAt p c = valAt p d := by
          intro p
          have hp := hhas (k :: p)
          rw [has_cons_iff, has_cons_iff] at hp
          have hv := hval (k :: p)
          rw [valAt_cons_of_get? (t := node v cs) hc, valAt_cons_of_get? (t := node w ds) hd] at hv
          exact ⟨by simpa [hc, hd] using hp, hv⟩
        rw [hd, ih k c (OrdMap.mem_of_get? hc) (ht.child (OrdMap.mem_of_get? hc))
          (hu.child (OrdMap.mem_of_get? hd)) (fun p => (hchild p).1) (fun p => (hchild p).2)]
    have hcs : cs = ds := OrdMap.Sorted.ext ht.sorted hu.sorted hget
    rw [hroot, hcs]

/-! ### Mapping the values -/

variable {γ : Type}

mutual

/-- The tree with `f` applied to every value. -/
def map (f : β → γ) : Trie κ β → Trie κ γ
  | node v cs => node (f v) (mapList f cs)

/-- The loop over the children. -/
def mapList (f : β → γ) : List (κ × Trie κ β) → List (κ × Trie κ γ)
  | [] => []
  | (k, c) :: cs => (k, map f c) :: mapList f cs

end

omit [LinearOrder κ] [Inhabited β] in
theorem mapList_eq (f : β → γ) (cs : List (κ × Trie κ β)) :
    mapList f cs = cs.map fun e => (e.1, map f e.2) := by
  induction cs with
  | nil => rfl
  | cons e cs ih => rw [mapList, ih]; rfl

omit [LinearOrder κ] [Inhabited β] in
@[simp] theorem val_map (f : β → γ) (t : Trie κ β) : (map f t).val = f t.val := by
  cases t; rfl

omit [LinearOrder κ] [Inhabited β] in
@[simp] theorem children_map (f : β → γ) (t : Trie κ β) :
    (map f t).children = t.children.map fun e => (e.1, map f e.2) := by
  cases t with
  | node v cs => exact mapList_eq f cs

omit [Inhabited β] in
theorem sub?_map (f : β → γ) (p : List κ) (t : Trie κ β) :
    sub? p (map f t) = (sub? p t).map (map f) := by
  induction p generalizing t with
  | nil => rfl
  | cons k p ih =>
    rw [sub?_cons, sub?_cons, children_map, OrdMap.get?_map]
    cases OrdMap.get? k t.children with
    | none => rfl
    | some c => exact ih c

omit [Inhabited β] in
theorem has_map (f : β → γ) (p : List κ) (t : Trie κ β) : Has p (map f t) ↔ Has p t := by
  unfold Has
  rw [sub?_map, Option.isSome_map]

theorem valAt_map [Inhabited γ] {f : β → γ} (hf : f default = default) (p : List κ)
    (t : Trie κ β) : valAt p (map f t) = f (valAt p t) := by
  unfold valAt
  rw [sub?_map]
  cases sub? p t with
  | none => exact hf.symm
  | some s => exact val_map f s

omit [Inhabited β] in
theorem WF.map {f : β → γ} {t : Trie κ β} (h : WF t) : WF (Trie.map f t) := by
  induction t using ind with
  | h v cs ih =>
    have hsorted : OrdMap.Sorted cs := h.sorted
    rw [Trie.map, mapList_eq]
    refine WF.of_child hsorted.map fun k c hmem => ?_
    obtain ⟨⟨k', c'⟩, hmem', heq⟩ := List.mem_map.mp hmem
    obtain ⟨rfl, rfl⟩ := Prod.mk.inj heq
    exact ih k' c' hmem' (h.child hmem')

/-! ### Leaves -/

mutual

/-- The paths and values of the nodes without children, in key order. -/
def leaves : Trie κ β → List (List κ × β)
  | node v cs => if cs.isEmpty then [([], v)] else leavesList cs

/-- The leaves below a list of children. -/
def leavesList : List (κ × Trie κ β) → List (List κ × β)
  | [] => []
  | (k, c) :: cs => (leaves c).map (fun e => (k :: e.1, e.2)) ++ leavesList cs

end

omit [LinearOrder κ] [Inhabited β] in
theorem mem_leavesList {e : List κ × β} {cs : List (κ × Trie κ β)} :
    e ∈ leavesList cs ↔ ∃ k c p, (k, c) ∈ cs ∧ (p, e.2) ∈ leaves c ∧ e.1 = k :: p := by
  induction cs with
  | nil => simp [leavesList]
  | cons x cs ih =>
    obtain ⟨k, c⟩ := x
    rw [leavesList, List.mem_append, ih, List.mem_map]
    constructor
    · rintro (⟨⟨p, v⟩, hp, rfl⟩ | ⟨k', c', p, hmem, hp, he⟩)
      · exact ⟨k, c, p, List.mem_cons_self, hp, rfl⟩
      · exact ⟨k', c', p, List.mem_cons_of_mem _ hmem, hp, he⟩
    · rintro ⟨k', c', p, hmem, hp, he⟩
      rcases List.mem_cons.mp hmem with heq | hmem
      · obtain ⟨rfl, rfl⟩ := Prod.mk.inj heq
        exact Or.inl ⟨(p, e.2), hp, by rw [← he]⟩
      · exact Or.inr ⟨k', c', p, hmem, hp, he⟩

omit [Inhabited β] in
/-- The leaves are the childless nodes that a path leads to. -/
theorem mem_leaves {t : Trie κ β} (hwf : WF t) {p : List κ} {v : β} :
    (p, v) ∈ leaves t ↔ ∃ s, sub? p t = some s ∧ s.children = [] ∧ s.val = v := by
  induction t using ind generalizing p v with
  | h w cs ih =>
    rw [leaves]
    split
    · next hnil =>
      -- the only path out of a leaf is the empty one
      rw [List.isEmpty_iff] at hnil
      subst hnil
      cases p with
      | nil =>
        rw [List.mem_singleton, Prod.mk.injEq]
        constructor
        · rintro ⟨-, rfl⟩
          exact ⟨node v [], rfl, rfl, rfl⟩
        · rintro ⟨s, hs, -, rfl⟩
          cases hs
          exact ⟨rfl, rfl⟩
      | cons k p => simp [sub?_cons]
    · next hne =>
      rw [mem_leavesList]
      constructor
      · rintro ⟨k, c, q, hmem, hq, rfl⟩
        obtain ⟨s, hs, hleaf, hval⟩ := (ih k c hmem (hwf.child hmem)).mp hq
        refine ⟨s, ?_, hleaf, hval⟩
        have hget : OrdMap.get? k cs = some c := hwf.sorted.get?_eq_some_iff.mpr hmem
        rw [sub?_cons, children_node, hget]
        exact hs
      · rintro ⟨s, hs, hleaf, hval⟩
        cases p with
        | nil =>
          -- the empty path leads to this node, which has children
          rw [sub?_nil, Option.some.injEq] at hs
          subst hs
          exact absurd (List.isEmpty_iff.mpr hleaf) hne
        | cons k p =>
          rw [sub?_cons, Option.bind_eq_some_iff] at hs
          obtain ⟨c, hget, hs⟩ := hs
          have hmem : (k, c) ∈ cs := OrdMap.mem_of_get? hget
          exact ⟨k, c, p, hmem, (ih k c hmem (hwf.child hmem)).mpr ⟨s, hs, hleaf, hval⟩, rfl⟩

/-- Two paths part ways at some key, and the first one takes the smaller. -/
def Precedes (p q : List κ) : Prop :=
  ∃ c a b p' q', p = c ++ a :: p' ∧ q = c ++ b :: q' ∧ a < b

omit [Inhabited β] in
/-- The leaves come in key order, and none extends another. -/
theorem pairwise_leaves {t : Trie κ β} (hwf : WF t) :
    (leaves t).Pairwise fun e f => Precedes e.1 f.1 := by
  induction t using ind with
  | h w cs ih =>
    rw [leaves]
    split
    · exact List.pairwise_singleton _ _
    · have hlist : ∀ l : List (κ × Trie κ β), OrdMap.Sorted l → (∀ e ∈ l, e ∈ cs) →
          (leavesList l).Pairwise fun e f => Precedes e.1 f.1 := by
        intro l hl hsub
        induction l with
        | nil => exact List.Pairwise.nil
        | cons x l ihl =>
          obtain ⟨k, c⟩ := x
          obtain ⟨hlt, hl'⟩ := List.pairwise_cons.mp hl
          have hmem : (k, c) ∈ cs := hsub _ List.mem_cons_self
          rw [leavesList, List.pairwise_append]
          refine ⟨?_, ihl hl' fun e he => hsub e (List.mem_cons_of_mem _ he), ?_⟩
          · -- below one child the common part gets one key longer
            refine List.Pairwise.map _ ?_ (ih k c hmem (hwf.child hmem))
            rintro e f ⟨d, a, b, p', q', he, hf, hab⟩
            exact ⟨k :: d, a, b, p', q', by simp [he], by simp [hf], hab⟩
          · rintro e he f hf
            obtain ⟨e', -, rfl⟩ := List.mem_map.mp he
            obtain ⟨k', c', p, hmem', -, hf'⟩ := mem_leavesList.mp hf
            exact ⟨[], k, k', e'.1, p, rfl, hf', hlt _ hmem'⟩
      exact hlist cs hwf.sorted fun e he => he

end Trie
