import Mathlib.Algebra.GroupWithZero.Nat
import Mathlib.Data.List.Basic
import Mathlib.Data.List.ReduceOption
import Mathlib.Tactic.Common

/-!
# Parties of one kind

Calls of one function that run at the same time are a list, with an entry for
each call that was ever made; a step of a call replaces its entry.

* `AtMostOne p l`: no two entries satisfy `p` at the same time. With "is inside
  the critical section" for `p` this is mutual exclusion.
* `count_map_set` accounts for what the parties hold: one entry more or less.
* `tag` names the holders of the items that are held.
-/

namespace Wfrest

variable {β γ : Type*} {p : β → Prop} {l : List β} {i j : Nat} {a a' b : β}

/-- At most one entry of `l` satisfies `p`. -/
def AtMostOne (p : β → Prop) (l : List β) : Prop :=
  ∀ (i j : Nat) (a b : β), l[i]? = some a → l[j]? = some b → p a → p b → i = j

theorem atMostOne_of_forall_not (h : ∀ a ∈ l, ¬ p a) : AtMostOne p l := by
  intro i _ a _ ha _ hpa _
  exact absurd hpa (h a (List.mem_of_getElem? ha))

/-- The entries of `l` after a step of the party at `i`. -/
theorem getElem?_set_cases (hj : (l.set i a')[j]? = some b) :
    (j = i ∧ b = a') ∨ (j ≠ i ∧ l[j]? = some b) := by
  rcases eq_or_ne i j with rfl | hne
  · rw [List.getElem?_set_self'] at hj
    obtain ⟨_, _, rfl⟩ := Option.map_eq_some_iff.mp hj
    exact .inl ⟨rfl, rfl⟩
  · rw [List.getElem?_set_ne hne] at hj
    exact .inr ⟨hne.symm, hj⟩

theorem mem_set_cases (hb : b ∈ l.set i a') : b = a' ∨ ∃ j, j ≠ i ∧ l[j]? = some b := by
  obtain ⟨j, hj⟩ := List.mem_iff_getElem?.mp hb
  obtain ⟨-, rfl⟩ | hold := getElem?_set_cases hj
  · exact .inl rfl
  · exact .inr ⟨j, hold⟩

theorem set_eq_self (hi : l[i]? = some a) : l.set i a = l := by
  obtain ⟨hlt, rfl⟩ := List.getElem?_eq_some_iff.mp hi
  exact List.set_getElem_self hlt

namespace AtMostOne

/-- While the party at `i` satisfies `p`, the others do not. -/
theorem not_of_ne (h : AtMostOne p l) (hi : l[i]? = some a) (hpa : p a) (hne : j ≠ i)
    (hj : l[j]? = some b) : ¬ p b :=
  fun hpb => hne (h j i b a hj hi hpb hpa)

/-- A step of the party at `i` keeps the exclusion when no other party satisfies
`p`, or the party does not after the step. -/
theorem set (h : AtMostOne p l)
    (hstep : p a' → ∀ (j : Nat) (b : β), j ≠ i → l[j]? = some b → ¬ p b) :
    AtMostOne p (l.set i a') := by
  intro j k b c hj hk hpb hpc
  obtain ⟨rfl, rfl⟩ | ⟨hji, hj'⟩ := getElem?_set_cases hj <;>
    obtain ⟨rfl, rfl⟩ | ⟨hki, hk'⟩ := getElem?_set_cases hk
  · rfl
  · exact absurd hpc (hstep hpb k c hki hk')
  · exact absurd hpb (hstep hpc j b hji hj')
  · exact h j k b c hj' hk' hpb hpc

/-- A party that does not satisfy `p` may join. -/
theorem concat (h : AtMostOne p l) (hb : ¬ p b) : AtMostOne p (l ++ [b]) := by
  have hold : ∀ (j : Nat) (c : β), (l ++ [b])[j]? = some c → p c → l[j]? = some c := by
    intro j c hj hpc
    rcases Nat.lt_trichotomy j l.length with hlt | rfl | hgt
    · rwa [List.getElem?_append_left hlt] at hj
    · rw [List.getElem?_concat_length] at hj
      exact absurd (Option.some.inj hj ▸ hpc) hb
    · rw [List.getElem?_eq_none (by rw [List.length_append]; exact hgt)] at hj
      cases hj
  intro j k c d hj hk hpc hpd
  exact h j k c d (hold j c hj hpc) (hold k d hk hpd) hpc hpd

end AtMostOne

/-! ### What the parties hold -/

/-- What the party at `i` held before its step leaves the account, and what it
holds after it enters. -/
theorem count_map_set [BEq γ] (f : β → γ) (hi : l[i]? = some a) (a' : β) (c : γ) :
    ((l.set i a').map f).count c + [f a].count c = (l.map f).count c + [f a'].count c := by
  induction l generalizing i with
  | nil => cases hi
  | cons b l ih =>
    cases i with
    | zero =>
      obtain rfl : b = a := Option.some.inj hi
      simp only [List.set_cons_zero, List.map_cons, List.count_cons, List.count_nil]
      omega
    | succ i =>
      have := ih (i := i) (by simpa using hi)
      simp only [List.set_cons_succ, List.map_cons, List.count_cons, List.count_nil] at this ⊢
      omega

/-- The same for a measure of the parties. -/
theorem sum_map_set (f : β → Nat) (hi : l[i]? = some a) (a' : β) :
    ((l.set i a').map f).sum + f a = (l.map f).sum + f a' := by
  induction l generalizing i with
  | nil => cases hi
  | cons b l ih =>
    cases i with
    | zero =>
      obtain rfl : b = a := Option.some.inj hi
      simp only [List.set_cons_zero, List.map_cons, List.sum_cons]
      omega
    | succ i =>
      have := ih (i := i) (by simpa using hi)
      simp only [List.set_cons_succ, List.map_cons, List.sum_cons] at this ⊢
      omega

variable {π τ : Type*}

/-- The items that are held, each with its holder: `holder n` for the entry `n`. -/
def tag (holder : Nat → π) (held : List (Option τ)) : List (π × τ) :=
  held.zipIdx.filterMap fun r => r.1.map fun t => (holder r.2, t)

theorem tag_map_snd (holder : Nat → π) (held : List (Option τ)) :
    (tag holder held).map Prod.snd = held.reduceOption := by
  suffices h : ∀ n, ((held.zipIdx n).filterMap fun r => r.1.map fun t => (holder r.2, t)).map
      Prod.snd = held.reduceOption from h 0
  induction held with
  | nil => intro n; rfl
  | cons o held ih =>
    intro n
    cases o with
    | none => simpa [List.zipIdx_cons] using ih (n + 1)
    | some t => simpa [List.zipIdx_cons] using ih (n + 1)

end Wfrest
