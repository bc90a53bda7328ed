import Mathlib.Tactic.Common

/-!
# A lock

A lock knows its holder. What it is there for is said of the parties (`Guards`): those that
are inside of a section are the holder and nobody else, so that they are never two.
-/

namespace Wfrest

/-- A lock that parties of type `π` take. -/
structure Mutex (π : Type*) where
  holder : Option π

namespace Mutex

variable {π : Type*} {m : Mutex π} {p q : π} {inside inside' : π → Prop}

/-- Nobody holds it. -/
def free : Mutex π := ⟨none⟩

/-- `p` takes the lock when it is free. -/
def lock? (m : Mutex π) (p : π) : Option (Mutex π) :=
  match m.holder with
  | none => some ⟨some p⟩
  | some _ => none

theorem lock?_eq_some {m' : Mutex π} (h : m.lock? p = some m') :
    m.holder = none ∧ m' = ⟨some p⟩ := by
  unfold lock? at h
  split at h
  next hfree => exact ⟨hfree, (Option.some.inj h).symm⟩
  · cases h

theorem lock?_eq_none (h : m.lock? p = none) : ∃ q, m.holder = some q := by
  unfold lock? at h
  split at h
  · cases h
  next q hq => exact ⟨q, hq⟩

/-- The parties that are inside are those that hold the lock. -/
def Guards (m : Mutex π) (inside : π → Prop) : Prop := ∀ p, inside p ↔ m.holder = some p

namespace Guards

/-- **Mutual exclusion.** -/
theorem unique (h : m.Guards inside) (hp : inside p) (hq : inside q) : p = q :=
  Option.some.inj (((h p).mp hp).symm.trans ((h q).mp hq))

theorem outside (h : m.Guards inside) (hfree : m.holder = none) : ¬ inside p := by
  intro hp
  have hheld := (h p).mp hp
  rw [hfree] at hheld
  cases hheld

/-- A step that lets nobody in or out. -/
theorem congr (h : m.Guards inside) (hsame : ∀ q, inside' q ↔ inside q) : m.Guards inside' :=
  fun q => (hsame q).trans (h q)

/-- `p` takes the lock and goes in. -/
theorem lock (h : m.Guards inside) (hfree : m.holder = none) (hp : inside' p)
    (hsame : ∀ q, q ≠ p → (inside' q ↔ inside q)) : Mutex.Guards ⟨some p⟩ inside' := by
  intro q
  by_cases hq : q = p
  · rw [hq]
    exact iff_of_true hp rfl
  · refine iff_of_false ?_ fun heq => hq (Option.some.inj heq).symm
    rw [hsame q hq]
    exact h.outside hfree

/-- `p` goes out and gives the lock back. -/
theorem unlock (h : m.Guards inside) (hin : inside p) (hp : ¬ inside' p)
    (hsame : ∀ q, q ≠ p → (inside' q ↔ inside q)) : Mutex.Guards free inside' := by
  intro q
  refine iff_of_false ?_ nofun
  by_cases hq : q = p
  · rw [hq]
    exact hp
  · rw [hsame q hq]
    exact fun hin' => hq (h.unique hin' hin)

end Guards

end Mutex

end Wfrest
