import Mathlib.Data.List.Chain
import Mathlib.Data.List.Nodup
import Mathlib.Tactic.Common

/-!
# Rows with blank and anonymous cells

A row has one cell for each of a list of names. Printing it leaves the blank cells
out, and writes the name beside a named cell but not beside an anonymous one. What is
printed may not tell where in the row an anonymous cell stands.

It does exactly when no anonymous cell stands next to a blank one (`Apart`): then the
row can be read back (`print_injective`), and otherwise exchanging the two gives
another row that prints the same (`print_swap`).
-/

namespace Wfrest

/-- A cell of a row. -/
inductive Cell (α β : Type*) where
  | blank
  | anon (a : α)
  | named (b : β)

namespace Cell

variable {ν α β : Type*}

/-- What is printed, in the order of the row. -/
def print : List ν → List (Cell α β) → List (α ⊕ ν × β)
  | _ :: ns, blank :: cs => print ns cs
  | _ :: ns, anon a :: cs => .inl a :: print ns cs
  | n :: ns, named b :: cs => .inr (n, b) :: print ns cs
  | _, _ => []

/-- Neither of two neighbours is anonymous while the other is blank. -/
def Apart : Cell α β → Cell α β → Prop
  | anon _, blank => False
  | blank, anon _ => False
  | _, _ => True

@[simp] theorem print_nil (cs : List (Cell α β)) : print ([] : List ν) cs = [] := by
  cases cs <;> rfl

@[simp] theorem print_blank (n : ν) (ns : List ν) (cs : List (Cell α β)) :
    print (n :: ns) (blank :: cs) = print ns cs := rfl

@[simp] theorem print_anon (n : ν) (ns : List ν) (a : α) (cs : List (Cell α β)) :
    print (n :: ns) (anon a :: cs) = .inl a :: print ns cs := rfl

@[simp] theorem print_named (n : ν) (ns : List ν) (b : β) (cs : List (Cell α β)) :
    print (n :: ns) (named b :: cs) = .inr (n, b) :: print ns cs := rfl

theorem print_cons (n : ν) (ns : List ν) (c : Cell α β) (cs : List (Cell α β)) :
    print (n :: ns) (c :: cs) = print [n] [c] ++ print ns cs := by
  cases c <;> rfl

/-- A printed name is one of the row. -/
theorem mem_of_mem_print {ns : List ν} {cs : List (Cell α β)} {n : ν} {b : β}
    (h : .inr (n, b) ∈ print ns cs) : n ∈ ns := by
  induction ns generalizing cs with
  | nil => simp at h
  | cons m ns ih =>
    cases cs with
    | nil => cases h
    | cons c cs =>
      cases c with
      | blank => exact List.mem_cons_of_mem _ (ih h)
      | anon a => exact List.mem_cons_of_mem _ (ih (by simpa using h))
      | named b' =>
        rcases List.mem_cons.mp h with heq | h
        · obtain ⟨rfl, -⟩ := Prod.mk.inj (Sum.inr.inj heq)
          exact List.mem_cons_self
        · exact List.mem_cons_of_mem _ (ih h)

/-! ### Exchanging neighbours -/

/-- **An anonymous cell and a blank one next to it** can change places. -/
theorem print_swap {ns : List ν} {l t : List (Cell α β)} {c d : Cell α β} (h : ¬ Apart c d)
    (hlen : (l ++ c :: d :: t).length = ns.length) :
    print ns (l ++ d :: c :: t) = print ns (l ++ c :: d :: t) := by
  induction l generalizing ns with
  | nil =>
    match ns, hlen with
    | n :: m :: ns, _ =>
      cases c <;> cases d <;> first | rfl | exact absurd trivial h
  | cons x l ih =>
    cases ns with
    | nil => simp at hlen
    | cons n ns =>
      have hlen' : (l ++ c :: d :: t).length = ns.length := by simpa using hlen
      have hrest := ih hlen'
      cases x <;> simp [hrest]

/-! ### Reading a row back -/

/-- After a blank cell, no anonymous one is printed first. -/
private theorem print_ne_inl_cons {ns : List ν} {cs : List (Cell α β)}
    (hchain : (blank :: cs).IsChain Apart) (a : α) (x : List (α ⊕ ν × β)) :
    print ns cs ≠ .inl a :: x := by
  induction cs generalizing ns with
  | nil => cases ns <;> simp [print]
  | cons c cs ih =>
    obtain ⟨hapart, hchain⟩ := List.isChain_cons_cons.mp hchain
    cases ns with
    | nil => simp
    | cons n ns =>
      cases c with
      | blank => exact ih hchain
      | anon a' => exact hapart.elim
      | named b => simp

/-- After an anonymous cell, anonymous ones cannot be added in front of what is
printed: up to the next name every cell of the row is printed already. -/
private theorem map_inl_append_print_ne {ns : List ν} (hnodup : ns.Nodup)
    {cs cs' : List (Cell α β)} (hlen : cs.length = ns.length) (hlen' : cs'.length = ns.length)
    {a : α} (hchain : (anon a :: cs).IsChain Apart) {us : List α} (hus : us ≠ []) :
    us.map Sum.inl ++ print ns cs ≠ print ns cs' := by
  induction ns generalizing cs cs' a us with
  | nil => cases us <;> simp at hus ⊢
  | cons n ns ih =>
    obtain ⟨c, cs, rfl⟩ := List.exists_cons_of_length_eq_add_one hlen
    obtain ⟨c', cs', rfl⟩ := List.exists_cons_of_length_eq_add_one hlen'
    obtain ⟨u, us, rfl⟩ := List.exists_cons_of_ne_nil hus
    obtain ⟨hn, hnodup⟩ := List.nodup_cons.mp hnodup
    obtain ⟨hapart, hchain⟩ := List.isChain_cons_cons.mp hchain
    have hl : cs.length = ns.length := by simpa using hlen
    have hl' : cs'.length = ns.length := by simpa using hlen'
    intro heq
    cases c with
    | blank => exact hapart
    | anon d =>
      -- one more anonymous cell to be printed before the rest
      have hmore : ∀ vs : List α, vs.map Sum.inl ++ print (n :: ns) (anon d :: cs) =
          (vs ++ [d]).map Sum.inl ++ print ns cs := by
        intro vs
        rw [print_anon, List.map_append, List.append_assoc]
        rfl
      rw [hmore] at heq
      cases c' with
      | blank => exact ih hnodup hl hl' hchain (List.cons_ne_nil _ _) heq
      | anon e =>
        have hus : us ++ [d] ≠ [] := by simp
        exact ih hnodup hl hl' hchain hus (List.cons.inj heq).2
      | named b => simp at heq
    | named b =>
      -- the other row has to print this name later
      have hlater : .inr (n, b) ∈ print ns cs' → False := fun h => hn (mem_of_mem_print h)
      cases c' with
      | blank =>
        refine hlater ?_
        rw [print_blank] at heq
        rw [← heq]
        exact List.mem_append_right _ List.mem_cons_self
      | anon e =>
        refine hlater ?_
        rw [print_anon] at heq
        rw [← (List.cons.inj heq).2]
        exact List.mem_append_right _ List.mem_cons_self
      | named b' => simp at heq

/-- **A row can be read back** when its names are distinct and no anonymous cell stands
next to a blank one. -/
theorem print_injective {ns : List ν} (hnodup : ns.Nodup) {cs cs' : List (Cell α β)}
    (hlen : cs.length = ns.length) (hlen' : cs'.length = ns.length)
    (hchain : cs.IsChain Apart) (heq : print ns cs = print ns cs') : cs = cs' := by
  induction ns generalizing cs cs' with
  | nil =>
    rw [List.length_eq_zero_iff.mp hlen, List.length_eq_zero_iff.mp hlen']
  | cons n ns ih =>
    obtain ⟨c, cs, rfl⟩ := List.exists_cons_of_length_eq_add_one hlen
    obtain ⟨c', cs', rfl⟩ := List.exists_cons_of_length_eq_add_one hlen'
    obtain ⟨hn, hnodup'⟩ := List.nodup_cons.mp hnodup
    have hl : cs.length = ns.length := by simpa using hlen
    have hl' : cs'.length = ns.length := by simpa using hlen'
    have hrest := ih hnodup' hl hl' hchain.tail
    -- a name is printed by its own cell only
    have hname : ∀ (b : β) (x : List (Cell α β)), .inr (n, b) ∈ print ns x → False :=
      fun b x h => hn (mem_of_mem_print h)
    cases c with
    | blank =>
      cases c' with
      | blank => rw [hrest heq]
      | anon a => exact absurd heq (print_ne_inl_cons hchain a _)
      | named b =>
        rw [print_blank, print_named] at heq
        exact (hname b cs (heq ▸ List.mem_cons_self)).elim
    | anon a =>
      cases c' with
      | blank =>
        have hne := map_inl_append_print_ne hnodup' hl hl' hchain (List.cons_ne_nil a [])
        exact absurd heq hne
      | anon a' =>
        obtain ⟨ha, heq⟩ := List.cons.inj heq
        rw [Sum.inl.inj ha, hrest heq]
      | named b => simp at heq
    | named b =>
      cases c' with
      | blank =>
        rw [print_blank, print_named] at heq
        exact (hname b cs' (heq ▸ List.mem_cons_self)).elim
      | anon a => simp at heq
      | named b' =>
        obtain ⟨hb, heq⟩ := List.cons.inj heq
        rw [(Prod.mk.inj (Sum.inr.inj hb)).2, hrest heq]

end Cell

end Wfrest
