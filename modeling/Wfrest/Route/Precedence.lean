import Wfrest.Route.Dispatch

/-!
# Which route a path selects

`find` goes back from the child that is named as the segment, but not from the first child
that is a parameter or a fitting wildcard, whatever comes of it. What this means for a table
is said here of the registered keys and the segments of a path, without a search (`Routes`).

* `Reaches`: a node can be found. Each of its keys is the segment at its place or the first
  one in order that takes it.
* `Selects`: it is found. Nothing can be found that is `Sooner`, where the segment itself goes
  before the key that takes it.
* `Binds`: the lookup comes to a parameter and binds it, since nothing is found before.

A search leads to the node that is selected (`leads_iff_selects`), and gives up where nothing
can be found (`givesUp_iff`).
-/

namespace Wfrest

variable {H : Type}

open RouteTableNode

/-- The routes of a table: the keys that some route begins with, and those with handlers. -/
@[ext]
structure Routes where
  node : NodePtr → Prop
  handled : NodePtr → Prop
  of_append {p q : NodePtr} : node (p ++ q) → node p

/-- The key is a parameter, or a wildcard that fits the segment. -/
def Takes (k s : Bytes) : Prop :=
  (isWildcard k = true ∧ wildcardPrefix k <+: s) ∨ isParam k = true

namespace Routes

/-- No route goes on behind the keys. -/
def Leaf (S : Routes) (q : NodePtr) : Prop := ∀ k, ¬ S.node (q ++ [k])

/-- Of the keys that are registered behind `u` and take the segment, `k` is the first. -/
structure First (S : Routes) (u : NodePtr) (s k : Bytes) : Prop where
  node : S.node (u ++ [k])
  takes : Takes k s
  le : ∀ j, S.node (u ++ [j]) → Takes j s → k ≤ j

/-- Every key is the segment at its place, or the first one that takes it. A wildcard that is
taken for that is the last key. -/
def Steps (S : Routes) (segs : List Bytes) (q : NodePtr) : Prop :=
  ∀ u k t s, q = u ++ k :: t → segs[u.length]? = some s →
    k = s ∨ S.First u s k ∧ (isWildcard k = true → t = [])

/-- The search stops here. -/
inductive Stops (S : Routes) (segs : List Bytes) : NodePtr → Prop
  /-- At the end of the path there are handlers. -/
  | handled {q : NodePtr} (h : S.handled q) (hlen : q.length = segs.length) : Stops S segs q
  /-- No route goes on, also in the middle of the path. -/
  | leaf {q : NodePtr} (h : S.Leaf q) (hlen : q.length ≤ segs.length) : Stops S segs q
  /-- A wildcard takes what is left. -/
  | wildcard {u : NodePtr} {k s : Bytes} (hs : segs[u.length]? = some s)
      (hw : isWildcard k = true) (h : S.First u s k) : Stops S segs (u ++ [k])
  /-- At the end of the path there are no handlers, and a route goes on with `*`. -/
  | star {u : NodePtr} (hlen : u.length = segs.length) (h : ¬ S.handled u) :
      Stops S segs (u ++ [[Wfrest.star]])

/-- The lookup of the segments can find the node. -/
structure Reaches (S : Routes) (segs : List Bytes) (q : NodePtr) : Prop where
  node : S.node q
  steps : S.Steps segs q
  stops : S.Stops segs q

/-- Where the two part, `p` goes on with the segment itself, and `v` does not. -/
def Sooner (segs : List Bytes) (p v : NodePtr) : Prop :=
  ∃ c s k t t', p = c ++ s :: t ∧ v = c ++ k :: t' ∧ segs[c.length]? = some s ∧ k ≠ s

/-- The lookup comes to the parameter `k` behind `u` and binds it to the segment. -/
structure Binds (S : Routes) (segs : List Bytes) (u : NodePtr) (k s : Bytes) : Prop where
  seg : segs[u.length]? = some s
  param : isParam k = true
  first : S.First u s k
  steps : S.Steps segs (u ++ [k])
  /-- Nothing is found before, neither sooner nor behind the segment itself. -/
  unfound : ∀ p, S.Reaches segs p → ¬ u ++ [s] <+: p ∧ ¬ Sooner segs p u

/-- The names of the parameters that the lookup comes to can be cut out of their keys. -/
def Readable (S : Routes) (segs : List Bytes) : Prop :=
  ∀ u k s, S.Binds segs u k s → (paramPiece k).asString.isOk

/-- The lookup of the segments finds the node: nothing else can be found sooner or behind it,
and no name on the way throws. -/
structure Selects (S : Routes) (segs : List Bytes) (q : NodePtr) : Prop where
  reaches : S.Reaches segs q
  first : ∀ p, S.Reaches segs p → p ≠ q → ¬ q <+: p ∧ ¬ Sooner segs p q
  readable : S.Readable segs

/-- The lookup of the segments finds nothing, and no name on the way throws. -/
structure Misses (S : Routes) (segs : List Bytes) : Prop where
  unreached : ∀ q, ¬ S.Reaches segs q
  readable : S.Readable segs

/-! ### One key -/

/-- What is registered behind a key. -/
def child (S : Routes) (k : Bytes) : Routes where
  node p := S.node (k :: p)
  handled p := S.handled (k :: p)
  of_append {p _} h := S.of_append (p := k :: p) h

section Cons

variable {S : Routes} {segs : List Bytes} {q p u : NodePtr} {j k s : Bytes}

theorem first_cons : S.First (j :: u) s k ↔ (S.child j).First u s k :=
  ⟨fun ⟨hnode, htakes, hle⟩ => ⟨hnode, htakes, hle⟩,
    fun ⟨hnode, htakes, hle⟩ => ⟨hnode, htakes, hle⟩⟩

/-- A first key that is no wildcard is a parameter. -/
theorem First.isParam (h : S.First u s k) (hw : isWildcard k = false) : isParam k = true := by
  rcases h.takes with ⟨hw', -⟩ | hp
  · rw [hw] at hw'
    cases hw'
  · exact hp

/-- There is only one first key. -/
theorem First.unique (h : S.First u s j) (h' : S.First u s k) : j = k :=
  le_antisymm (h.le k h'.node h'.takes) (h'.le j h.node h.takes)

theorem steps_nil : S.Steps segs [] := by
  intro u k t s h
  simp at h

theorem steps_cons : S.Steps (s :: segs) (k :: q) ↔
    (k = s ∨ S.First [] s k ∧ (isWildcard k = true → q = [])) ∧ (S.child k).Steps segs q := by
  constructor
  · intro h
    refine ⟨h [] k q s rfl rfl, fun u j t s' hq hs => ?_⟩
    have hstep := h (k :: u) j t s' (congrArg (k :: ·) hq) hs
    exact hstep.imp_right (And.imp_left first_cons.mp)
  · rintro ⟨hhead, htail⟩ u j t s' hq hs
    obtain _ | ⟨i, u⟩ := u
    · obtain ⟨rfl, rfl⟩ := List.cons.inj hq
      rw [← Option.some.inj hs]
      exact hhead
    · obtain ⟨rfl, rfl⟩ := List.cons.inj hq
      exact (htail u j t s' rfl hs).imp_right (And.imp_left first_cons.mpr)

theorem stops_nil_nil : S.Stops [] [] ↔ S.handled [] ∨ S.Leaf [] := by
  constructor
  · intro h
    generalize hq : ([] : NodePtr) = q at h
    cases h with
    | handled h hlen => exact Or.inl h
    | leaf h hlen => exact Or.inr h
    | wildcard hs hw h => simp at hq
    | star hlen h => simp at hq
  · exact fun h => h.elim (fun h => .handled h rfl) fun h => .leaf h le_rfl

theorem stops_cons_nil : S.Stops (s :: segs) [] ↔ S.Leaf [] := by
  constructor
  · intro h
    generalize hq : ([] : NodePtr) = q at h
    cases h with
    | handled h hlen => rw [← hq] at hlen; cases hlen
    | leaf h hlen => exact h
    | wildcard hs hw h => simp at hq
    | star hlen h => simp at hq
  · exact fun h => .leaf h (Nat.zero_le _)

theorem stops_nil_cons : S.Stops [] (k :: q) ↔ k = [Wfrest.star] ∧ q = [] ∧ ¬ S.handled [] := by
  constructor
  · intro h
    generalize hq : k :: q = q' at h
    cases h with
    | handled h hlen => rw [← hq] at hlen; cases hlen
    | leaf h hlen => rw [← hq] at hlen; exact absurd hlen (by simp)
    | wildcard hs hw h => cases hs
    | @star u hlen h =>
      obtain rfl := List.length_eq_zero_iff.mp hlen
      obtain ⟨rfl, rfl⟩ := List.cons.inj hq
      exact ⟨rfl, rfl, h⟩
  · rintro ⟨rfl, rfl, h⟩
    exact .star (u := []) rfl h

theorem stops_cons_cons : S.Stops (s :: segs) (k :: q) ↔
    (S.child k).Stops segs q ∨ q = [] ∧ isWildcard k = true ∧ S.First [] s k := by
  constructor
  · intro h
    generalize hq : k :: q = q' at h
    cases h with
    | handled h hlen =>
      subst hq
      exact Or.inl (.handled h (Nat.succ.inj hlen))
    | leaf h hlen =>
      subst hq
      exact Or.inl (.leaf h (Nat.le_of_succ_le_succ hlen))
    | @wildcard u j s' hs hw h =>
      obtain _ | ⟨i, u⟩ := u
      · obtain ⟨rfl, rfl⟩ := List.cons.inj hq
        rw [← Option.some.inj hs] at h
        exact Or.inr ⟨rfl, hw, h⟩
      · obtain ⟨rfl, rfl⟩ := List.cons.inj hq
        exact Or.inl (.wildcard hs hw (first_cons.mp h))
    | @star u hlen h =>
      obtain _ | ⟨i, u⟩ := u
      · cases hlen
      · obtain ⟨rfl, rfl⟩ := List.cons.inj hq
        exact Or.inl (.star (Nat.succ.inj hlen) h)
  · rintro (h | ⟨rfl, hw, h⟩)
    · cases h with
      | handled h hlen => exact .handled h (congrArg Nat.succ hlen)
      | leaf h hlen => exact .leaf h (Nat.succ_le_succ hlen)
      | @wildcard u j s' hs hw h =>
        exact .wildcard (u := k :: u) hs hw (first_cons.mpr h)
      | @star u hlen h => exact .star (u := k :: u) (congrArg Nat.succ hlen) h
    · exact .wildcard (u := []) rfl hw h

theorem reaches_nil_nil : S.Reaches [] [] ↔ S.node [] ∧ (S.handled [] ∨ S.Leaf []) :=
  ⟨fun h => ⟨h.node, stops_nil_nil.mp h.stops⟩,
    fun ⟨hnode, h⟩ => ⟨hnode, steps_nil, stops_nil_nil.mpr h⟩⟩

theorem reaches_cons_nil : S.Reaches (s :: segs) [] ↔ S.node [] ∧ S.Leaf [] :=
  ⟨fun h => ⟨h.node, stops_cons_nil.mp h.stops⟩,
    fun ⟨hnode, h⟩ => ⟨hnode, steps_nil, stops_cons_nil.mpr h⟩⟩

theorem reaches_nil_cons : S.Reaches [] (k :: q) ↔
    k = [Wfrest.star] ∧ q = [] ∧ S.node [[Wfrest.star]] ∧ ¬ S.handled [] := by
  constructor
  · intro h
    obtain ⟨rfl, rfl, hno⟩ := stops_nil_cons.mp h.stops
    exact ⟨rfl, rfl, h.node, hno⟩
  · rintro ⟨rfl, rfl, hnode, hno⟩
    exact ⟨hnode, fun u j t s _ hs => (by simp at hs), stops_nil_cons.mpr ⟨rfl, rfl, hno⟩⟩

/-- **One key of a node that can be found** is the segment, or the first one that takes it. -/
theorem reaches_cons_cons : S.Reaches (s :: segs) (k :: q) ↔
    k = s ∧ (S.child k).Reaches segs q ∨
      S.First [] s k ∧ isWildcard k = false ∧ (S.child k).Reaches segs q ∨
      S.First [] s k ∧ isWildcard k = true ∧ q = [] := by
  constructor
  · rintro ⟨hnode, hsteps, hstops⟩
    obtain ⟨hhead, htail⟩ := steps_cons.mp hsteps
    obtain hchild | ⟨rfl, hw, hfirst⟩ := stops_cons_cons.mp hstops
    · obtain rfl | ⟨hfirst, hlast⟩ := hhead
      · exact Or.inl ⟨rfl, hnode, htail, hchild⟩
      · cases hw : isWildcard k with
        | false => exact Or.inr (Or.inl ⟨hfirst, rfl, hnode, htail, hchild⟩)
        | true => exact Or.inr (Or.inr ⟨hfirst, rfl, hlast hw⟩)
    · exact Or.inr (Or.inr ⟨hfirst, hw, rfl⟩)
  · rintro (⟨rfl, h⟩ | ⟨hfirst, hw, h⟩ | ⟨hfirst, hw, rfl⟩)
    · exact ⟨h.node, steps_cons.mpr ⟨Or.inl rfl, h.steps⟩, stops_cons_cons.mpr (Or.inl h.stops)⟩
    · refine ⟨h.node, steps_cons.mpr ⟨Or.inr ⟨hfirst, fun hw' => ?_⟩, h.steps⟩,
        stops_cons_cons.mpr (Or.inl h.stops)⟩
      rw [hw] at hw'
      cases hw'
    · exact ⟨hfirst.node, steps_cons.mpr ⟨Or.inr ⟨hfirst, fun _ => rfl⟩, steps_nil⟩,
        stops_cons_cons.mpr (Or.inr ⟨rfl, hw, hfirst⟩)⟩

theorem not_sooner_nil : ¬ Sooner segs p [] := by
  rintro ⟨c, s, k, t, t', -, hv, -, -⟩
  simp at hv

theorem not_sooner_of_nil : ¬ Sooner segs [] p := by
  rintro ⟨c, s, k, t, t', hp, -, -, -⟩
  simp at hp

theorem sooner_cons : Sooner (s :: segs) (j :: p) (k :: q) ↔
    j = s ∧ k ≠ s ∨ j = k ∧ Sooner segs p q := by
  constructor
  · rintro ⟨c, s', k', t, t', hp, hq, hs, hne⟩
    obtain _ | ⟨i, c⟩ := c
    · obtain ⟨rfl, rfl⟩ := List.cons.inj hp
      obtain ⟨rfl, rfl⟩ := List.cons.inj hq
      obtain rfl := Option.some.inj hs
      exact Or.inl ⟨rfl, hne⟩
    · obtain ⟨rfl, rfl⟩ := List.cons.inj hp
      obtain ⟨rfl, rfl⟩ := List.cons.inj hq
      exact Or.inr ⟨rfl, c, s', k', t, t', rfl, rfl, hs, hne⟩
  · rintro (⟨rfl, hne⟩ | ⟨rfl, c, s', k', t, t', rfl, rfl, hs, hne⟩)
    · exact ⟨[], j, k, p, q, rfl, rfl, rfl, hne⟩
    · exact ⟨j :: c, s', k', t, t', rfl, rfl, hs, hne⟩

theorem not_binds_nil : ¬ S.Binds [] u k s := by
  intro h
  have hseg := h.seg
  rw [List.getElem?_nil] at hseg
  cases hseg

/-- A parameter of the root is bound when nothing is found behind the segment itself. -/
theorem binds_root {s' : Bytes} : S.Binds (s :: segs) [] k s' ↔
    s = s' ∧ isParam k = true ∧ S.First [] s k ∧ ∀ q, ¬ (S.child s).Reaches segs q := by
  constructor
  · intro h
    obtain rfl := Option.some.inj h.seg
    refine ⟨rfl, h.param, h.first, fun q hq => ?_⟩
    have hreach : S.Reaches (s :: segs) (s :: q) := reaches_cons_cons.mpr (Or.inl ⟨rfl, hq⟩)
    exact (h.unfound _ hreach).1 ⟨q, rfl⟩
  · rintro ⟨rfl, hp, hfirst, hno⟩
    have hsteps : S.Steps (s :: segs) [k] :=
      steps_cons.mpr ⟨Or.inr ⟨hfirst, fun _ => rfl⟩, steps_nil⟩
    refine ⟨rfl, hp, hfirst, hsteps, fun p hreach => ⟨?_, not_sooner_nil⟩⟩
    rintro ⟨q, rfl⟩
    rcases reaches_cons_cons.mp hreach with ⟨-, h⟩ | ⟨-, -, h⟩ | ⟨hfirst', hw, -⟩
    · exact hno q h
    · exact hno q h
    · -- the segment is spelled like the wildcard that comes first
      rw [hfirst'.unique hfirst, isWildcard_of_isParam hp] at hw
      cases hw

/-- A parameter behind `j` is bound when the lookup goes on to `j`. -/
theorem binds_cons {s' : Bytes} : S.Binds (s :: segs) (j :: u) k s' ↔
    (j = s ∨ S.First [] s j ∧ isWildcard j = false ∧ ∀ q, ¬ (S.child s).Reaches segs q) ∧
      (S.child j).Binds segs u k s' := by
  constructor
  · intro h
    obtain ⟨hhead, htail⟩ := steps_cons.mp h.steps
    have hhead' : j = s ∨
        S.First [] s j ∧ isWildcard j = false ∧ ∀ q, ¬ (S.child s).Reaches segs q := by
      by_cases hj : j = s
      · exact Or.inl hj
      · obtain ⟨hfirst, hlast⟩ := hhead.resolve_left hj
        refine Or.inr ⟨hfirst, ?_, fun q hq => ?_⟩
        · cases hw : isWildcard j with
          | false => rfl
          | true => simpa using hlast hw
        · have hreach : S.Reaches (s :: segs) (s :: q) :=
            reaches_cons_cons.mpr (Or.inl ⟨rfl, hq⟩)
          exact (h.unfound _ hreach).2 (sooner_cons.mpr (Or.inl ⟨rfl, hj⟩))
    refine ⟨hhead', h.seg, h.param, first_cons.mp h.first, htail, fun p hp => ?_⟩
    have hreach : S.Reaches (s :: segs) (j :: p) := by
      refine reaches_cons_cons.mpr ?_
      obtain hj | ⟨hfirst, hw, -⟩ := hhead'
      · exact Or.inl ⟨hj, hp⟩
      · exact Or.inr (Or.inl ⟨hfirst, hw, hp⟩)
    obtain ⟨hpre, hsooner⟩ := h.unfound _ hreach
    exact ⟨fun hpre' => hpre (List.cons_prefix_cons.mpr ⟨rfl, hpre'⟩),
      fun hsooner' => hsooner (sooner_cons.mpr (Or.inr ⟨rfl, hsooner'⟩))⟩
  · rintro ⟨hhead, h⟩
    have hsteps : S.Steps (s :: segs) (j :: (u ++ [k])) := by
      refine steps_cons.mpr ⟨hhead.imp_right fun ⟨hfirst, hw, _⟩ => ⟨hfirst, fun hw' => ?_⟩,
        h.steps⟩
      rw [hw] at hw'
      cases hw'
    refine ⟨h.seg, h.param, first_cons.mpr h.first, hsteps, fun p hreach => ?_⟩
    obtain _ | ⟨i, p⟩ := p
    · exact ⟨by simp, not_sooner_of_nil⟩
    -- what is found behind `j` is found in its child
    have hbehind : i = j → p = [] ∨ (S.child j).Reaches segs p := by
      rintro rfl
      rcases reaches_cons_cons.mp hreach with ⟨-, hp⟩ | ⟨-, -, hp⟩ | ⟨-, -, hp⟩
      · exact Or.inr hp
      · exact Or.inr hp
      · exact Or.inl hp
    constructor
    · intro hpre
      obtain ⟨hi, hpre⟩ := List.cons_prefix_cons.mp hpre
      obtain rfl | hp := hbehind hi.symm
      · simp at hpre
      · exact (h.unfound p hp).1 hpre
    · intro hsooner
      rcases sooner_cons.mp hsooner with ⟨rfl, hne⟩ | ⟨hi, hsooner⟩
      · obtain ⟨hfirst, hw, hno⟩ := hhead.resolve_left hne
        rcases reaches_cons_cons.mp hreach with ⟨-, hp⟩ | ⟨-, -, hp⟩ | ⟨hfirst', -, -⟩
        · exact hno p hp
        · exact hno p hp
        · exact hne (hfirst.unique hfirst')
      · obtain rfl | hp := hbehind hi
        · exact not_sooner_of_nil hsooner
        · exact (h.unfound p hp).2 hsooner

/-! ### One step of a lookup -/

theorem misses_nil : S.Misses [] ↔
    ¬ (S.node [] ∧ (S.handled [] ∨ S.Leaf [])) ∧
      ¬ (S.node [[Wfrest.star]] ∧ ¬ S.handled []) := by
  constructor
  · intro h
    exact ⟨fun hend => h.unreached [] (reaches_nil_nil.mpr hend),
      fun hstar => h.unreached _ (reaches_nil_cons.mpr ⟨rfl, rfl, hstar⟩)⟩
  · rintro ⟨hend, hstar⟩
    refine ⟨fun q hreach => ?_, fun u k s h => absurd h not_binds_nil⟩
    obtain _ | ⟨k, q⟩ := q
    · exact hend (reaches_nil_nil.mp hreach)
    · exact hstar (reaches_nil_cons.mp hreach).2.2

/-- **Nothing is found** where nothing is found behind the segment itself and nothing behind
the first key that takes it. -/
theorem misses_cons : S.Misses (s :: segs) ↔
    ¬ (S.node [] ∧ S.Leaf []) ∧ (S.child s).Misses segs ∧
      ∀ k, S.First [] s k → isWildcard k = false ∧ (paramPiece k).asString.isOk ∧
        (S.child k).Misses segs := by
  constructor
  · rintro ⟨hno, hreadable⟩
    -- what a child finds is found here behind its key
    have hself : ∀ q, ¬ (S.child s).Reaches segs q := fun q hq =>
      hno (s :: q) (reaches_cons_cons.mpr (Or.inl ⟨rfl, hq⟩))
    have hchild : ∀ k, (k = s ∨ S.First [] s k ∧ isWildcard k = false) →
        (S.child k).Misses segs := by
      refine fun k hk => ⟨fun q hq => hno (k :: q) (reaches_cons_cons.mpr ?_), fun u j s' h => ?_⟩
      · exact hk.elim (fun hk => Or.inl ⟨hk, hq⟩) fun hk => Or.inr (Or.inl ⟨hk.1, hk.2, hq⟩)
      · refine hreadable (k :: u) j s' (binds_cons.mpr ⟨?_, h⟩)
        exact hk.imp_right fun hk => ⟨hk.1, hk.2, hself⟩
    refine ⟨fun h => hno [] (reaches_cons_nil.mpr h), hchild s (Or.inl rfl), fun k hk => ?_⟩
    have hw : isWildcard k = false := Bool.eq_false_iff.mpr fun hw =>
      hno [k] (reaches_cons_cons.mpr (Or.inr (Or.inr ⟨hk, hw, rfl⟩)))
    exact ⟨hw, hreadable [] k s (binds_root.mpr ⟨rfl, hk.isParam hw, hk, hself⟩),
      hchild k (Or.inr ⟨hk, hw⟩)⟩
  · rintro ⟨hleaf, hself, hfirst⟩
    constructor
    · intro q hreach
      obtain _ | ⟨k, q⟩ := q
      · exact hleaf (reaches_cons_nil.mp hreach)
      rcases reaches_cons_cons.mp hreach with ⟨rfl, hq⟩ | ⟨hk, -, hq⟩ | ⟨hk, hw, -⟩
      · exact hself.unreached q hq
      · exact (hfirst k hk).2.2.unreached q hq
      · exact Bool.eq_false_iff.mp (hfirst k hk).1 hw
    · intro u k s' h
      obtain _ | ⟨j, u⟩ := u
      · exact (hfirst k (binds_root.mp h).2.2.1).2.1
      obtain ⟨rfl | ⟨hj, -, -⟩, h'⟩ := binds_cons.mp h
      · exact hself.readable u k s' h'
      · exact (hfirst j hj).2.2.readable u k s' h'

theorem selects_nil_nil : S.Selects [] [] ↔ S.node [] ∧ (S.handled [] ∨ S.Leaf []) := by
  refine ⟨fun h => reaches_nil_nil.mp h.reaches, fun h => ?_⟩
  refine ⟨reaches_nil_nil.mpr h, fun p hp hne => ?_, fun u k s h => absurd h not_binds_nil⟩
  obtain _ | ⟨k, p⟩ := p
  · exact absurd rfl hne
  · -- handlers or a leaf leave nothing to the child `*`
    obtain ⟨-, -, hnode, hno⟩ := reaches_nil_cons.mp hp
    exact absurd hnode (h.2.resolve_left hno _)

theorem selects_nil_cons : S.Selects [] (k :: q) ↔
    k = [Wfrest.star] ∧ q = [] ∧ S.node [[Wfrest.star]] ∧ ¬ S.handled [] := by
  refine ⟨fun h => reaches_nil_cons.mp h.reaches, fun h => ?_⟩
  refine ⟨reaches_nil_cons.mpr h, fun p hp hne => ?_, fun u k s h => absurd h not_binds_nil⟩
  obtain ⟨rfl, rfl, hnode, hno⟩ := h
  obtain _ | ⟨k, p⟩ := p
  · obtain ⟨-, h | h⟩ := reaches_nil_nil.mp hp
    · exact absurd h hno
    · exact absurd hnode (h _)
  · obtain ⟨rfl, rfl, -, -⟩ := reaches_nil_cons.mp hp
    exact absurd rfl hne

theorem selects_cons_nil : S.Selects (s :: segs) [] ↔ S.node [] ∧ S.Leaf [] := by
  refine ⟨fun h => reaches_cons_nil.mp h.reaches, fun h => ?_⟩
  -- a leaf is the only node
  have hnode : ∀ {k p}, ¬ S.node (k :: p) := fun {k p} hk => h.2 k (S.of_append (q := p) hk)
  refine ⟨reaches_cons_nil.mpr h, fun p hp hne => ?_, fun u k s' hk => ?_⟩
  · obtain _ | ⟨k, p⟩ := p
    · exact absurd rfl hne
    · exact absurd hp.node hnode
  · obtain _ | ⟨j, u⟩ := u
    · exact absurd hk.first.node hnode
    · exact absurd hk.first.node hnode

/-- What is found behind a key is what its child selects. -/
theorem Selects.child (h : S.Selects (s :: segs) (k :: q)) (hreach : (S.child k).Reaches segs q)
    (hk : k = s ∨ S.First [] s k ∧ isWildcard k = false ∧ ∀ p, ¬ (S.child s).Reaches segs p) :
    (S.child k).Selects segs q := by
  refine ⟨hreach, fun p hp hne => ?_, fun u j s' hj => ?_⟩
  · have hp' : S.Reaches (s :: segs) (k :: p) := by
      refine reaches_cons_cons.mpr ?_
      exact hk.elim (fun hk => Or.inl ⟨hk, hp⟩) fun hk => Or.inr (Or.inl ⟨hk.1, hk.2.1, hp⟩)
    obtain ⟨hpre, hsooner⟩ := h.first _ hp' fun heq => hne (List.cons.inj heq).2
    exact ⟨fun hpre' => hpre (List.cons_prefix_cons.mpr ⟨rfl, hpre'⟩),
      fun hsooner' => hsooner (sooner_cons.mpr (Or.inr ⟨rfl, hsooner'⟩))⟩
  · exact h.readable (k :: u) j s' (binds_cons.mpr ⟨hk, hj⟩)

/-- **What is found behind the segment itself** is found. -/
theorem Selects.exact (h : (S.child s).Selects segs q) : S.Selects (s :: segs) (s :: q) := by
  refine ⟨reaches_cons_cons.mpr (Or.inl ⟨rfl, h.reaches⟩), fun p hp hne => ?_, fun u k s' hk => ?_⟩
  · obtain _ | ⟨j, p⟩ := p
    · exact ⟨by simp, not_sooner_of_nil⟩
    have hnot : j = s → p ≠ q := fun hj hpq => hne (by rw [hj, hpq])
    -- behind the segment the child decides, and a wildcard that is spelled comes later
    have hbehind : j = s → p = [] ∨ (S.child s).Reaches segs p := by
      rintro rfl
      rcases reaches_cons_cons.mp hp with ⟨-, hp⟩ | ⟨-, -, hp⟩ | ⟨-, -, hp⟩
      · exact Or.inr hp
      · exact Or.inr hp
      · exact Or.inl hp
    constructor
    · intro hpre
      obtain ⟨hj, hpre⟩ := List.cons_prefix_cons.mp hpre
      obtain rfl | hp := hbehind hj.symm
      · exact hnot hj.symm (List.prefix_nil.mp hpre).symm
      · exact (h.first p hp (hnot hj.symm)).1 hpre
    · intro hsooner
      rcases sooner_cons.mp hsooner with ⟨-, hne⟩ | ⟨hj, hsooner⟩
      · exact hne rfl
      obtain rfl | hp := hbehind hj
      · exact not_sooner_of_nil hsooner
      · exact (h.first p hp (hnot hj)).2 hsooner
  · obtain _ | ⟨j, u⟩ := u
    · exact absurd h.reaches ((binds_root.mp hk).2.2.2 q)
    · obtain ⟨rfl | ⟨-, -, hno⟩, hk'⟩ := binds_cons.mp hk
      · exact h.readable u k s' hk'
      · exact absurd h.reaches (hno q)

/-- Where nothing is found behind the segment itself, every node lies behind the first key
that takes it. -/
theorem Reaches.of_misses {p : NodePtr} (hp : S.Reaches (s :: segs) p)
    (hmiss : (S.child s).Misses segs) (hk : S.First [] s k) :
    ∃ q, p = k :: q ∧ (isWildcard k = false ∧ (S.child k).Reaches segs q ∨
      isWildcard k = true ∧ q = []) := by
  obtain _ | ⟨j, p⟩ := p
  · have hnode : S.node ([] ++ [k]) := hk.node
    exact absurd hnode ((reaches_cons_nil.mp hp).2 k)
  -- there is one first key only
  rcases reaches_cons_cons.mp hp with ⟨rfl, hp'⟩ | ⟨hj, hw, hp'⟩ | ⟨hj, hw, rfl⟩
  · exact absurd hp' (hmiss.unreached p)
  · obtain rfl := hj.unique hk
    exact ⟨p, rfl, Or.inl ⟨hw, hp'⟩⟩
  · obtain rfl := hj.unique hk
    exact ⟨[], rfl, Or.inr ⟨hw, rfl⟩⟩

/-- **What is found behind the first key that takes the segment** is found, when nothing is
found behind the segment itself. -/
theorem Selects.first_key (hmiss : (S.child s).Misses segs) (hk : S.First [] s k)
    (h : isWildcard k = true ∧ q = [] ∨
      isWildcard k = false ∧ (paramPiece k).asString.isOk ∧ (S.child k).Selects segs q) :
    S.Selects (s :: segs) (k :: q) := by
  have hreach : S.Reaches (s :: segs) (k :: q) := by
    refine reaches_cons_cons.mpr (Or.inr ?_)
    rcases h with ⟨hw, rfl⟩ | ⟨hw, -, h⟩
    · exact Or.inr ⟨hk, hw, rfl⟩
    · exact Or.inl ⟨hk, hw, h.reaches⟩
  refine ⟨hreach, fun p hp hne => ?_, fun u j s' hj => ?_⟩
  · obtain ⟨p, rfl, hcase⟩ := hp.of_misses hmiss hk
    have hpq : p ≠ q := fun hpq => hne (by rw [hpq])
    have hno : ¬ q <+: p ∧ ¬ Sooner segs p q := by
      rcases h with ⟨hw, rfl⟩ | ⟨hw, -, h⟩
      · -- a wildcard is the last key
        rcases hcase with ⟨hw', -⟩ | ⟨-, hp⟩
        · rw [hw] at hw'
          cases hw'
        · exact absurd hp hpq
      · rcases hcase with ⟨-, hp⟩ | ⟨hw', -⟩
        · exact h.first p hp hpq
        · rw [hw] at hw'
          cases hw'
    refine ⟨fun hpre => hno.1 (List.cons_prefix_cons.mp hpre).2, fun hsooner => ?_⟩
    rcases sooner_cons.mp hsooner with ⟨rfl, hne⟩ | ⟨-, hsooner⟩
    · exact hne rfl
    · exact hno.2 hsooner
  · obtain _ | ⟨i, u⟩ := u
    · obtain ⟨-, hp, hj, -⟩ := binds_root.mp hj
      obtain rfl := hj.unique hk
      rcases h with ⟨hw, -⟩ | ⟨-, hok, -⟩
      · rw [isWildcard_of_isParam hp] at hw
        cases hw
      · exact hok
    · obtain ⟨rfl | ⟨hi, hw, -⟩, hj'⟩ := binds_cons.mp hj
      · exact hmiss.readable u j s' hj'
      · obtain rfl := hi.unique hk
        rcases h with ⟨hw', -⟩ | ⟨-, -, h⟩
        · rw [hw] at hw'
          cases hw'
        · exact h.readable u j s' hj'

/-- **One step of a lookup** that finds a node: behind the segment itself, or, when nothing
is found there, behind the first key that takes it. -/
theorem selects_cons_cons : S.Selects (s :: segs) (k :: q) ↔
    k = s ∧ (S.child s).Selects segs q ∨
      (S.child s).Misses segs ∧ S.First [] s k ∧ (isWildcard k = true ∧ q = [] ∨
        isWildcard k = false ∧ (paramPiece k).asString.isOk ∧ (S.child k).Selects segs q) := by
  constructor
  · intro h
    by_cases hexact : k = s ∧ (S.child s).Reaches segs q
    · -- the branch behind the segment is tried first
      obtain ⟨rfl, hreach⟩ := hexact
      exact Or.inl ⟨rfl, h.child hreach (Or.inl rfl)⟩
    have hno : ∀ p, ¬ (S.child s).Reaches segs p := by
      intro p hp
      have hne : s :: p ≠ k :: q := fun heq => by
        obtain ⟨rfl, rfl⟩ := List.cons.inj heq
        exact hexact ⟨rfl, hp⟩
      obtain ⟨hpre, hsooner⟩ := h.first _ (reaches_cons_cons.mpr (Or.inl ⟨rfl, hp⟩)) hne
      by_cases hk : k = s
      · -- the key is a wildcard that the segment spells, and `p` lies behind it
        subst hk
        rcases reaches_cons_cons.mp h.reaches with ⟨-, hq⟩ | ⟨-, -, hq⟩ | ⟨-, -, rfl⟩
        · exact hexact ⟨rfl, hq⟩
        · exact hexact ⟨rfl, hq⟩
        · exact hpre (List.cons_prefix_cons.mpr ⟨rfl, List.nil_prefix⟩)
      · exact hsooner (sooner_cons.mpr (Or.inl ⟨rfl, hk⟩))
    have hmiss : (S.child s).Misses segs :=
      ⟨hno, fun u j s' hj => h.readable (s :: u) j s' (binds_cons.mpr ⟨Or.inl rfl, hj⟩)⟩
    rcases reaches_cons_cons.mp h.reaches with ⟨rfl, hq⟩ | ⟨hk, hw, hq⟩ | ⟨hk, hw, rfl⟩
    · exact absurd hq (hno q)
    · have hok := h.readable [] k s (binds_root.mpr ⟨rfl, hk.isParam hw, hk, hno⟩)
      exact Or.inr ⟨hmiss, hk, Or.inr ⟨hw, hok, h.child hq (Or.inr ⟨hk, hw, hno⟩)⟩⟩
    · exact Or.inr ⟨hmiss, hk, Or.inl ⟨hw, rfl⟩⟩
  · rintro (⟨rfl, h⟩ | ⟨hmiss, hk, h⟩)
    · exact h.exact
    · exact .first_key hmiss hk h

end Cons

/-! ### The routes of a tree -/

/-- The routes that a tree holds. -/
def ofTree (n : RouteTableNode H) : Routes where
  node q := Trie.Has q n
  handled q := (Trie.valAt q n).verbHandlerMap ≠ []
  of_append := Trie.Has.of_append

section Tree

variable {n c : RouteTableNode H} {k s : Bytes} {segs : List Bytes} {q : NodePtr}

theorem child_ofTree (hget : OrdMap.get? k n.children = some c) :
    (ofTree n).child k = ofTree c := by
  ext p
  · show Trie.Has (k :: p) n ↔ Trie.Has p c
    rw [Trie.Has, Trie.sub?_cons, hget]
    rfl
  · show (Trie.valAt (k :: p) n).verbHandlerMap ≠ [] ↔ _
    rw [Trie.valAt_cons_of_get? hget]
    rfl

theorem node_ofTree : (ofTree n).node [k] ↔ (OrdMap.get? k n.children).isSome := by
  show Trie.Has [k] n ↔ _
  rw [Trie.Has, Trie.sub?_singleton]

theorem leaf_ofTree : (ofTree n).Leaf [] ↔ n.children = [] :=
  (Trie.children_eq_nil_iff (p := []) rfl).symm

theorem handled_ofTree : (ofTree n).handled [] ↔ n.val.verbHandlerMap ≠ [] := Iff.rfl

/-- The loop over the children stops at the first key that takes the segment. -/
theorem first_ofTree (hwf : Trie.WF n) :
    (ofTree n).First [] s k ↔ ∃ c, n.children.find? (candidate s) = some (k, c) := by
  have hnode : ∀ {j}, (ofTree n).node [j] ↔ ∃ c, (j, c) ∈ n.children := by
    intro j
    rw [node_ofTree, Option.isSome_iff_exists]
    exact exists_congr fun c => hwf.sorted.get?_eq_some_iff
  constructor
  · intro h
    obtain ⟨c, hc⟩ := hnode.mp h.node
    refine ⟨c, hwf.sorted.find?_eq_some_iff.mpr ⟨hc, candidate_iff.mpr h.takes, fun e he hp => ?_⟩⟩
    exact h.le e.1 (hnode.mpr ⟨e.2, he⟩) (candidate_iff.mp hp)
  · rintro ⟨c, hfind⟩
    obtain ⟨hc, hp, hle⟩ := hwf.sorted.find?_eq_some_iff.mp hfind
    refine ⟨hnode.mpr ⟨c, hc⟩, candidate_iff.mp hp, fun j hj htakes => ?_⟩
    obtain ⟨d, hd⟩ := hnode.mp hj
    exact hle (j, d) hd (candidate_iff.mpr htakes)

/-- Where there is no child, nothing is found. -/
theorem misses_of_get?_eq_none (hget : OrdMap.get? k n.children = none) :
    ((ofTree n).child k).Misses segs := by
  have hnode : ∀ p, ¬ ((ofTree n).child k).node p := by
    intro p hp
    have hk := node_ofTree.mp ((ofTree n).of_append (p := [k]) hp)
    rw [hget] at hk
    cases hk
  exact ⟨fun q hq => hnode q hq.node, fun u j s' hj => absurd hj.first.node (hnode _)⟩

/-- **A search gives up** where nothing is found. -/
theorem givesUp_iff (hwf : Trie.WF n) : GivesUp segs n ↔ (ofTree n).Misses segs := by
  induction segs generalizing n with
  | nil =>
    rw [GivesUp, misses_nil, node_ofTree, handled_ofTree, leaf_ofTree]
    have hroot : (ofTree n).node [] := rfl
    rw [and_iff_right hroot, not_or, not_not, and_assoc]
    refine and_congr_right fun hmap => and_congr_right fun _ => ?_
    rw [hmap]
    simp
  | cons s rest ih =>
    have hroot : (ofTree n).node [] := rfl
    rw [GivesUp, misses_cons, and_iff_right hroot, leaf_ofTree]
    refine and_congr_right fun _ => and_congr ?_ ?_
    · cases hget : OrdMap.get? s n.children with
      | none => exact iff_of_true nofun (misses_of_get?_eq_none hget)
      | some c =>
        rw [child_ofTree hget, ← ih (hwf.child (OrdMap.mem_of_get? hget))]
        simp
    · have hchild : ∀ {k c}, n.children.find? (candidate s) = some (k, c) →
          (GivesUp rest c ↔ ((ofTree n).child k).Misses rest) := by
        intro k c hfind
        have hmem := List.mem_of_find?_eq_some hfind
        rw [ih (hwf.child hmem), child_ofTree (hwf.sorted.get?_eq_some_iff.mpr hmem)]
      constructor
      · intro h k hk
        obtain ⟨c, hfind⟩ := (first_ofTree hwf).mp hk
        obtain ⟨hw, hok, hgive⟩ := h (k, c) hfind
        exact ⟨hw, hok, (hchild hfind).mp hgive⟩
      · rintro h ⟨k, c⟩ hfind
        obtain ⟨hw, hok, hmiss⟩ := h k ((first_ofTree hwf).mpr ⟨c, hfind⟩)
        exact ⟨hw, hok, (hchild hfind).mpr hmiss⟩

/-- **A search leads** to the node that is selected. -/
theorem leads_iff_selects (hwf : Trie.WF n) : Leads segs q n ↔ (ofTree n).Selects segs q := by
  induction segs generalizing n q with
  | nil =>
    have hroot : (ofTree n).node [] := rfl
    rw [Leads]
    cases q with
    | nil =>
      rw [selects_nil_nil, and_iff_right hroot, handled_ofTree, leaf_ofTree]
      split
      · next h => exact iff_of_true rfl h
      · next h => exact iff_of_false (by simp) h
    | cons k q =>
      rw [selects_nil_cons, node_ofTree, handled_ofTree]
      split
      · next h =>
        refine iff_of_false (by simp) ?_
        rintro ⟨-, -, hstar, hmap⟩
        rw [h.resolve_left hmap] at hstar
        cases hstar
      · next h =>
        rw [not_or] at h
        rw [and_iff_left h.1, List.cons.injEq, and_assoc]
  | cons s rest ih =>
    have hroot : (ofTree n).node [] := rfl
    cases q with
    | nil => rw [Leads, selects_cons_nil, and_iff_right hroot, leaf_ofTree]
    | cons k q =>
      have hchild : ∀ {k c}, OrdMap.get? k n.children = some c →
          (Leads rest q c ↔ ((ofTree n).child k).Selects rest q) ∧
            (GivesUp rest c ↔ ((ofTree n).child k).Misses rest) := by
        intro k c hget
        have hwf' := hwf.child (OrdMap.mem_of_get? hget)
        rw [ih hwf', givesUp_iff hwf', child_ofTree hget]
        exact ⟨Iff.rfl, Iff.rfl⟩
      rw [Leads, selects_cons_cons]
      refine or_congr ?_ (and_congr ?_ ?_)
      · constructor
        · rintro ⟨c, hget, rfl, hlead⟩
          exact ⟨rfl, (hchild hget).1.mp hlead⟩
        · rintro ⟨rfl, h⟩
          have hk := (ofTree n).of_append (p := [k]) h.reaches.node
          obtain ⟨c, hget⟩ := Option.isSome_iff_exists.mp (node_ofTree.mp hk)
          exact ⟨c, hget, rfl, (hchild hget).1.mpr h⟩
      · cases hget : OrdMap.get? s n.children with
        | none =>
          refine iff_of_true (fun c hc => ?_) (misses_of_get?_eq_none hget)
          cases hc
        | some c =>
          rw [← (hchild hget).2]
          simp
      · rw [first_ofTree hwf, ← exists_and_right]
        refine exists_congr fun c => and_congr_right fun hfind => ?_
        have hget := hwf.sorted.get?_eq_some_iff.mpr (List.mem_of_find?_eq_some hfind)
        rw [(hchild hget).1]

end Tree

/-! ### The routes of a table -/

/-- The routes that a list of calls registers. -/
def ofOps (ops : List (RouterOp H)) : Routes where
  node q := q = [] ∨ ∃ op ∈ ops, q <+: op.keys
  handled q :=
    ((Router.opsAt q ops).foldl (fun vh (op : RouterOp H) => op.effect vh) default).verbHandlerMap
      ≠ []
  of_append {p _} h := by
    refine h.imp (fun h => (List.append_eq_nil_iff.mp h).1) ?_
    rintro ⟨op, hop, hpre⟩
    exact ⟨op, hop, (List.prefix_append p _).trans hpre⟩

/-- The tree of a router holds the routes of its calls. -/
theorem ofTree_tree (ops : List (RouterOp H)) : ofTree (Router.tree ops) = ofOps ops := by
  ext q
  · exact Router.has_tree ops q
  · show (Trie.valAt q (Router.tree ops)).verbHandlerMap ≠ [] ↔ _
    rw [Router.valAt_tree]
    rfl

/-- The routes that a list of `handle` calls registers. -/
def ofCalls (calls : List (HandleCall H)) : Routes where
  node q := q = [] ∨ ∃ c ∈ calls, q <+: c.keys
  handled q := ∃ c ∈ calls, c.keys = q
  of_append {p _} h := by
    refine h.imp (fun h => (List.append_eq_nil_iff.mp h).1) ?_
    rintro ⟨c, hc, hpre⟩
    exact ⟨c, hc, (List.prefix_append p _).trans hpre⟩

theorem ofTree_calls (calls : List (HandleCall H)) :
    ofTree (Router.tree (calls.map HandleCall.op)) = ofCalls calls := by
  ext q
  · refine (Router.has_tree _ q).trans (or_congr_right ?_)
    simp only [List.mem_map, exists_exists_and_eq_and]
    rfl
  · constructor
    · intro h
      obtain ⟨op, hop, hkeys⟩ := Router.exists_op_of_valAt h
      obtain ⟨c, hc, rfl⟩ := List.mem_map.mp hop
      exact ⟨c, hc, hkeys⟩
    · rintro ⟨c, hc, rfl⟩
      exact HandleCall.valAt_ne_nil hc

theorem ofOps_calls (calls : List (HandleCall H)) :
    ofOps (calls.map HandleCall.op) = ofCalls calls := by
  rw [← ofTree_tree, ofTree_calls]

/-! ### The lookup of a path -/

/-- The lookup of a path finds the node. The path `/` goes to the node of `/`, once it is
there. -/
def Finds (S : Routes) (path : Bytes) (q : NodePtr) : Prop :=
  (path = [slash] ∧ S.node [[slash]]) ∧ q = [[slash]] ∨
    ¬ (path = [slash] ∧ S.node [[slash]]) ∧ S.Selects (reqSegs path) q

/-- No segment leads to the node of `/`. -/
theorem not_reaches_root {S : Routes} {path : Bytes} : ¬ S.Reaches (reqSegs path) [[slash]] := by
  intro h
  have hno : isWildcard [slash] = false ∧ isParam [slash] = false := by decide
  cases hsegs : reqSegs path with
  | nil =>
    rw [hsegs] at h
    exact absurd (reaches_nil_cons.mp h).1 (by decide)
  | cons s rest =>
    rcases h.steps [] [slash] [] s rfl (by rw [hsegs]; rfl) with hs | ⟨hfirst, -⟩
    · have hmem : [slash] ∈ reqSegs path := by
        rw [hsegs, hs]
        exact List.mem_cons_self
      exact slash_notMem_of_mem_reqSegs hmem (List.mem_singleton_self slash)
    · rcases hfirst.takes with ⟨hw, -⟩ | hp
      · exact absurd (hno.1.symm.trans hw) (by decide)
      · exact absurd (hno.2.symm.trans hp) (by decide)

theorem finds_root_iff {S : Routes} {path : Bytes} :
    S.Finds path [[slash]] ↔ path = [slash] ∧ S.node [[slash]] :=
  ⟨fun h => h.elim And.left fun h => absurd h.2.reaches not_reaches_root,
    fun h => Or.inl ⟨h, rfl⟩⟩

/-- A node other than that of `/` is found iff it is selected. -/
theorem finds_iff {S : Routes} {path : Bytes} {q : NodePtr} (hq : q ≠ [[slash]]) :
    S.Finds path q ↔ ¬ (path = [slash] ∧ S.node [[slash]]) ∧ S.Selects (reqSegs path) q :=
  or_iff_right fun h => hq h.2

end Routes

/-- A search leads to the node of `/` for the path `/` only. -/
theorem Router.findPtr_root_iff {ops : List (RouterOp H)} {path : Bytes} :
    findPtr ops path = .ok (some [[slash]]) ↔ path = [slash] ∧ Trie.Has [[slash]] (tree ops) := by
  rw [findPtr]
  by_cases hroot : path = [slash] ∧ Trie.Has [[slash]] (tree ops)
  · exact iff_of_true (if_pos hroot) hroot
  · rw [if_neg hroot]
    refine iff_of_false (fun h => ?_) hroot
    cases hreach : reach (reqSegs path) (tree ops) with
    | error e => rw [hreach] at h; cases h
    | ok o =>
      rw [hreach] at h
      cases o with
      | none => cases h
      | some r =>
        obtain ⟨q, m⟩ := r
        obtain rfl : q = [[slash]] := by simpa [Except.map] using h
        have hlead := (leads_iff _ _ _).mpr ⟨m, hreach⟩
        exact Routes.not_reaches_root
          ((Routes.leads_iff_selects (wf_tree ops)).mp hlead).reaches

/-- **The lookup of a path** ends at the node that the registered routes select. -/
theorem Router.findPtr_iff_finds {ops : List (RouterOp H)} {path : Bytes} {q : NodePtr} :
    findPtr ops path = .ok (some q) ↔ (Routes.ofOps ops).Finds path q := by
  rw [← Routes.ofTree_tree]
  by_cases hq : q = [[slash]]
  · rw [hq, Routes.finds_root_iff, findPtr_root_iff]
    rfl
  · rw [Routes.finds_iff hq, findPtr_iff hq, Routes.leads_iff_selects (wf_tree ops)]
    rfl

end Wfrest
