import Mathlib.Data.List.DropRight
import Mathlib.Data.List.Induction

/-!
# Walks in a tree of directories

A directory is the list of names on the way to it. A walk is a list of steps:
stay, go up, or go down by a name; going up from the root stays there.

What a walk does from one directory it does from every other: `net` cancels each
step up against the name before it, and what remains is a number of levels to
climb and names to go down (`walk_eq`). So whether a walk ends below the
directory it starts from is a question about the last names of that directory
(`prefix_walk_iff`).
-/

namespace Wfrest

/-- A step of a walk. -/
inductive PathStep (α : Type*) where
  | stay
  | up
  | down (name : α)
  deriving DecidableEq, Repr

/-- What is left of a walk after cancelling: climb `ups` levels, then go down
`downs`. -/
structure NetWalk (α : Type*) where
  ups : Nat
  downs : List α
  deriving DecidableEq, Repr

namespace PathStep

variable {α β : Type*}

/-- The same step under other names. -/
def map (f : α → β) : PathStep α → PathStep β
  | stay => stay
  | up => up
  | down name => down (f name)

/-- One step. -/
def move (dir : List α) : PathStep α → List α
  | stay => dir
  | up => dir.dropLast
  | down name => dir ++ [name]

/-- A walk from a directory. -/
def walk (dir : List α) (steps : List (PathStep α)) : List α := steps.foldl move dir

/-- One more step behind a walk. -/
def cancel (n : NetWalk α) : PathStep α → NetWalk α
  | stay => n
  | up => if n.downs.isEmpty then ⟨n.ups + 1, []⟩ else ⟨n.ups, n.downs.dropLast⟩
  | down name => ⟨n.ups, n.downs ++ [name]⟩

/-- The net effect of a walk. -/
def net (steps : List (PathStep α)) : NetWalk α := steps.foldl cancel ⟨0, []⟩

@[simp] theorem walk_nil (dir : List α) : walk dir [] = dir := rfl

theorem walk_append (dir : List α) (s t : List (PathStep α)) :
    walk dir (s ++ t) = walk (walk dir s) t := List.foldl_append

theorem walk_concat (dir : List α) (steps : List (PathStep α)) (s : PathStep α) :
    walk dir (steps ++ [s]) = move (walk dir steps) s := List.foldl_concat _ _ _ _

theorem net_concat (steps : List (PathStep α)) (s : PathStep α) :
    net (steps ++ [s]) = cancel (net steps) s := List.foldl_concat _ _ _ _

end PathStep

namespace NetWalk

variable {α β : Type*}

/-- The directory that a net walk leads to. -/
def apply (n : NetWalk α) (dir : List α) : List α := dir.rdrop n.ups ++ n.downs

/-- The same walk under other names. -/
def map (f : α → β) (n : NetWalk α) : NetWalk β := ⟨n.ups, n.downs.map f⟩

/-- **One step.** Cancelling does not change where the walk leads. -/
theorem apply_cancel (n : NetWalk α) (s : PathStep α) (dir : List α) :
    (PathStep.cancel n s).apply dir = PathStep.move (n.apply dir) s := by
  cases s with
  | stay => rfl
  | down name => simp [PathStep.cancel, PathStep.move, apply]
  | up =>
    obtain ⟨ups, downs⟩ := n
    cases downs with
    | nil =>
      -- nothing to cancel: one level more of the start is lost
      change dir.rdrop (ups + 1) ++ [] = (dir.rdrop ups ++ []).dropLast
      rw [List.append_nil, List.append_nil, List.rdrop, List.rdrop, List.dropLast_eq_take,
        List.take_take, List.length_take]
      congr 1
      omega
    | cons d ds =>
      have hne : d :: ds ≠ [] := List.cons_ne_nil d ds
      change dir.rdrop ups ++ (d :: ds).dropLast = (dir.rdrop ups ++ d :: ds).dropLast
      rw [List.dropLast_append_of_ne_nil hne]

theorem cancel_map (f : α → β) (n : NetWalk α) (s : PathStep α) :
    PathStep.cancel (n.map f) (s.map f) = (PathStep.cancel n s).map f := by
  cases s with
  | stay => rfl
  | down name => simp [PathStep.cancel, PathStep.map, map]
  | up =>
    obtain ⟨ups, downs⟩ := n
    cases downs <;> simp [PathStep.cancel, PathStep.map, map]

end NetWalk

namespace PathStep

variable {α β : Type*}

/-- **A walk is its net effect**, wherever it starts. -/
theorem walk_eq (dir : List α) (steps : List (PathStep α)) :
    walk dir steps = (net steps).apply dir := by
  induction steps using List.reverseRecOn with
  | nil => simp [net, NetWalk.apply]
  | append_singleton steps s ih => rw [walk_concat, net_concat, NetWalk.apply_cancel, ih]

theorem net_map (f : α → β) (steps : List (PathStep α)) :
    net (steps.map (map f)) = (net steps).map f := by
  induction steps using List.reverseRecOn with
  | nil => rfl
  | append_singleton steps s ih =>
    rw [List.map_append, List.map_singleton, net_concat, net_concat, ih, NetWalk.cancel_map]

/-- **Staying below the start.** The walk goes down again by the names that it
has climbed past. -/
theorem prefix_walk_iff (dir : List α) (steps : List (PathStep α)) :
    dir <+: walk dir steps ↔ dir.rtake (net steps).ups <+: (net steps).downs := by
  have hsplit : dir.rdrop (net steps).ups ++ dir.rtake (net steps).ups = dir :=
    List.take_append_drop _ dir
  rw [walk_eq, NetWalk.apply]
  conv_lhs => lhs; rw [← hsplit]
  exact List.prefix_append_right_inj _

/-! ### When a walk does not climb -/

/-- The number of steps up. -/
def ups (steps : List (PathStep α)) : Nat := steps.countP fun s => s matches up

/-- The number of steps down. -/
def downs (steps : List (PathStep α)) : Nat := steps.countP fun s => s matches down _

/-- Cancelling takes one step up and one name at a time. -/
theorem net_balance (steps : List (PathStep α)) :
    (net steps).downs.length + ups steps = (net steps).ups + downs steps := by
  induction steps using List.reverseRecOn with
  | nil => rfl
  | append_singleton steps s ih =>
    rw [net_concat, ups, downs, List.countP_append, List.countP_append, ← ups, ← downs]
    cases s with
    | stay => simpa [cancel] using ih
    | down name =>
      simp [cancel]
      omega
    | up =>
      simp only [cancel]
      split
      · next h =>
        -- a step up goes one level up, or takes the last name back
        rw [List.isEmpty_iff.mp h] at ih
        simp at ih ⊢
        omega
      · next h =>
        have hpos : 0 < (net steps).downs.length := by
          simpa [List.length_pos_iff, List.isEmpty_iff] using h
        simp
        omega

/-- A longer walk climbs at least as far. -/
theorem net_ups_le_concat (steps : List (PathStep α)) (s : PathStep α) :
    (net steps).ups ≤ (net (steps ++ [s])).ups := by
  rw [net_concat]
  cases s with
  | stay => exact le_rfl
  | down name => exact le_rfl
  | up =>
    simp only [cancel]
    split
    · exact Nat.le_succ _
    · exact le_rfl

/-- **A walk does not climb** if no beginning of it has more steps up than down. -/
theorem net_ups_eq_zero_iff (steps : List (PathStep α)) :
    (net steps).ups = 0 ↔ ∀ p, p <+: steps → ups p ≤ downs p := by
  induction steps using List.reverseRecOn with
  | nil =>
    refine ⟨fun _ p hp => ?_, fun _ => rfl⟩
    rw [List.prefix_nil.mp hp]
    exact le_rfl
  | append_singleton steps s ih =>
    constructor
    · intro h p hp
      have hle := net_ups_le_concat steps s
      rcases List.prefix_concat_iff.mp hp with rfl | hp
      · have := net_balance (steps ++ [s])
        omega
      · exact ih.mp (by omega) p hp
    · intro h
      have hzero : (net steps).ups = 0 := ih.mpr fun p hp => h p (hp.trans (List.prefix_append _ _))
      have hlast := h _ (List.prefix_refl _)
      have hbal := net_balance (steps ++ [s])
      have hnet := net_concat steps s
      cases s with
      | stay => rw [hnet]; exact hzero
      | down name => rw [hnet]; exact hzero
      | up =>
        rw [cancel] at hnet
        split at hnet
        · -- a step up with nothing to cancel is one too many
          rw [hnet] at hbal
          simp at hbal
          omega
        · rw [hnet]; exact hzero

end PathStep

end Wfrest
