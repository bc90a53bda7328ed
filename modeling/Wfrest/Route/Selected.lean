import Wfrest.Route.Context
import Wfrest.Route.Leftover
import Mathlib.Data.List.Nodup

/-!
# The context of the selected route

What a handler sees of the request: `full_path`, the `route_params` and the
`match_path`. `OwnContext` says that they are those of the route under which the
handler was registered, and `selected_context_iff` when that is so. There are four
ways in which it fails.

* A later registration for the same node, with another verb and spelled
  differently, overwrites the route string that the node keeps (`lastAccepted`).
* A branch of the search that is given up has bound a name, and nothing later in
  the search binds it again (`Routes.Leftover`).
* A segment of the request is spelled like a parameter or wildcard key of the
  route. The search then takes the key for a literal and writes nothing.
* A NUL behind the wildcard segment ends the `const char *` that the match path is
  built from.
-/

namespace Wfrest

variable {H : Type}

namespace RouteTableNode

/-! ### What the route's own keys bind -/

/-- The bindings of the parameter keys of a route, each to the segment at its
position. -/
def ownParams (keys segs : List Bytes) : List (Bytes × Bytes) :=
  (keys.zip segs).filterMap fun e => if isParam e.1 then some (paramName e.1, e.2) else none

/-- The names of the parameter keys. -/
def paramNames (keys : List Bytes) : List Bytes := (keys.filter isParam).map paramName

/-- The steps through parameter keys: the name, whether the request spells the key
itself, and the segment. -/
def ownSteps (ms : List Mark) : List (Bytes × Bool × Bytes) :=
  ms.filterMap fun
    | .exact k => if isParam k then some (paramName k, true, k) else none
    | .param k s => some (paramName k, false, s)
    | _ => none

theorem mem_ownSteps_true {ms : List Mark} {name seg : Bytes} :
    (name, true, seg) ∈ ownSteps ms ↔
      ∃ k, Mark.exact k ∈ ms ∧ isParam k = true ∧ name = paramName k ∧ seg = k := by
  unfold ownSteps
  rw [List.mem_filterMap]
  constructor
  · rintro ⟨m, hm, h⟩
    cases m with
    | exact k =>
      dsimp only at h
      split at h
      · next hp =>
        simp only [Option.some.injEq, Prod.mk.injEq, true_and] at h
        exact ⟨k, hm, hp, h.1.symm, h.2.symm⟩
      · cases h
    | _ => simp at h
  · rintro ⟨k, hm, hp, rfl, rfl⟩
    exact ⟨.exact seg, hm, by simp [hp]⟩

theorem mem_ownSteps_false {ms : List Mark} {name seg : Bytes} :
    (name, false, seg) ∈ ownSteps ms ↔
      ∃ k, Mark.param k seg ∈ ms ∧ name = paramName k := by
  unfold ownSteps
  rw [List.mem_filterMap]
  constructor
  · rintro ⟨m, hm, h⟩
    cases m with
    | exact k => dsimp only at h; split at h <;> simp at h
    | param k s =>
      simp only [Option.some.injEq, Prod.mk.injEq, true_and] at h
      rw [h.2] at hm
      exact ⟨k, hm, h.1.symm⟩
    | _ => simp at h
  · rintro ⟨k, hm, rfl⟩
    exact ⟨.param k seg, hm, rfl⟩

theorem isParam_of_isWildcard {k : Bytes} (h : isWildcard k = true) : isParam k = false := by
  by_contra hp
  rw [Bool.not_eq_false] at hp
  rw [isWildcard_of_isParam hp] at h
  exact absurd h (by decide)

/-- **The own steps of a trail** are the parameter keys of its address with their
segments. -/
theorem ownSteps_spec {segs : List Bytes} {ms : List Mark} (h : Follows segs ms) :
    ownParams (keysOf ms) segs = (ownSteps ms).map (fun e => (e.1, e.2.2)) ∧
      paramNames (keysOf ms) = (ownSteps ms).map Prod.fst := by
  induction h with
  | nil => exact ⟨rfl, rfl⟩
  | dropped hmem hfol ih => exact ih
  | @exact segs ms k hfol ih =>
    cases hp : isParam k with
    | false =>
      -- an exact step is an own one when the request spells a parameter key
      have hsteps : ownSteps (.exact k :: ms) = ownSteps ms :=
        List.filterMap_cons_none (by simp [hp])
      rw [hsteps, ← ih.1, ← ih.2]
      exact ⟨List.filterMap_cons_none (by simp [hp]), by simp [paramNames, hp]⟩
    | true =>
      have hsteps : ownSteps (.exact k :: ms) = (paramName k, true, k) :: ownSteps ms :=
        List.filterMap_cons_some (by simp [hp])
      rw [hsteps, List.map_cons, List.map_cons, ← ih.1, ← ih.2]
      exact ⟨List.filterMap_cons_some (by simp [hp]), by simp [paramNames, hp]⟩
  | @param segs ms k s hp hfol ih =>
    have hsteps : ownSteps (.param k s :: ms) = (paramName k, false, s) :: ownSteps ms := rfl
    rw [hsteps, List.map_cons, List.map_cons, ← ih.1, ← ih.2]
    exact ⟨List.filterMap_cons_some (by simp [hp]), by simp [paramNames, hp]⟩
  | @wildcard segs k s hw hpre =>
    have hp := isParam_of_isWildcard hw
    exact ⟨by simp [ownParams, hp, ownSteps], by simp [paramNames, hp, ownSteps]⟩
  | bare => exact ⟨rfl, by decide⟩

/-- **The parameters of a route** are all that `route_params` holds iff the
bindings of abandoned branches that survive agree with them, and so make up for
the keys that the request spells. -/
theorem routeParams_iff {segs keys : List Bytes} {ms : List Mark}
    (hown : ownParams keys segs = (ownSteps ms).map fun e => (e.1, e.2.2))
    (hnames : ((ownSteps ms).map Prod.fst).Nodup) :
    (∀ name seg, OrdMap.get? name (bindAll [] (bindingsOf ms)) = some seg ↔
        (name, seg) ∈ ownParams keys segs) ↔
      (∀ b ∈ survivors ms, b ∈ ownParams keys segs) ∧
        ∀ k, Mark.exact k ∈ ms → isParam k = true → (paramName k, k) ∈ survivors ms := by
  have hget : ∀ name seg, OrdMap.get? name (bindAll [] (bindingsOf ms)) = some seg ↔
      (name, seg) ∈ lastBindings (fun _ => true) ms := by
    intro name seg
    rw [get?_bindAll]
    simp
  have hmem : ∀ name seg, (name, seg) ∈ ownParams keys segs ↔
      ∃ spelled, (name, spelled, seg) ∈ ownSteps ms := by
    intro name seg
    rw [hown, List.mem_map]
    constructor
    · rintro ⟨⟨n, b, s⟩, he, heq⟩
      obtain ⟨rfl, rfl⟩ := Prod.mk.inj heq
      exact ⟨b, he⟩
    · rintro ⟨b, he⟩
      exact ⟨_, he, rfl⟩
  -- a name belongs to one key of the route
  have huniq : ∀ {name : Bytes} {e e' : Bool × Bytes}, (name, e) ∈ ownSteps ms →
      (name, e') ∈ ownSteps ms → e = e' := by
    intro name e e' he he'
    have := List.inj_on_of_nodup_map hnames he he' rfl
    exact (Prod.mk.inj this).2
  constructor
  · intro hall
    refine ⟨fun b hb => ?_, fun k hk hp => ?_⟩
    · exact (hall b.1 b.2).mp ((hget _ _).mpr (mem_lastBindings_true.mpr (Or.inl hb)))
    · have hstep : (paramName k, true, k) ∈ ownSteps ms :=
        mem_ownSteps_true.mpr ⟨k, hk, hp, rfl, rfl⟩
      have hbound := (hget _ _).mp ((hall _ _).mpr ((hmem _ _).mpr ⟨true, hstep⟩))
      rcases mem_lastBindings_true.mp hbound with h | h
      · exact h
      · obtain ⟨k', s', hk', heq⟩ := exists_param_of_mem h
        obtain ⟨hname, rfl⟩ := Prod.mk.inj heq
        have hstep' : (paramName k, false, k) ∈ ownSteps ms :=
          mem_ownSteps_false.mpr ⟨k', hk', hname⟩
        have := huniq hstep hstep'
        simp at this
  · rintro ⟨hdrop, hspell⟩ name seg
    rw [hget, hmem]
    constructor
    · intro h
      rcases mem_lastBindings_true.mp h with h | h
      · exact (hmem _ _).mp (hdrop _ h)
      · obtain ⟨k, s, hk, heq⟩ := exists_param_of_mem h
        obtain ⟨rfl, rfl⟩ := Prod.mk.inj heq
        exact ⟨false, mem_ownSteps_false.mpr ⟨k, hk, rfl⟩⟩
    · rintro ⟨spelled, hstep⟩
      cases spelled with
      | true =>
        obtain ⟨k, hk, hp, rfl, rfl⟩ := mem_ownSteps_true.mp hstep
        exact mem_lastBindings_true.mpr (Or.inl (hspell _ hk hp))
      | false =>
        obtain ⟨k, hk, rfl⟩ := mem_ownSteps_false.mp hstep
        -- some binding of the name survives, and it can only be this one
        have hbind : paramName k ∈ (bindingsOf ms).map Prod.fst :=
          List.mem_map.mpr ⟨(paramName k, seg), List.mem_filterMap.mpr ⟨_, hk, rfl⟩, rfl⟩
        obtain ⟨seg', hseg'⟩ := exists_mem_lastBindings hbind
        have hstep' : ∃ spelled, (paramName k, spelled, seg') ∈ ownSteps ms := by
          rcases mem_lastBindings_true.mp hseg' with h | h
          · exact (hmem _ _).mp (hdrop _ h)
          · obtain ⟨k', s', hk', heq⟩ := exists_param_of_mem h
            obtain ⟨hname, rfl⟩ := Prod.mk.inj heq
            exact ⟨false, mem_ownSteps_false.mpr ⟨k', hk', hname⟩⟩
        obtain ⟨spelled, hstep'⟩ := hstep'
        have heq := (Prod.mk.inj (huniq hstep hstep')).2
        rwa [heq]

/-! ### The match path of a route -/

/-- The rest of a request path from the first wildcard key on. -/
def matchText : List Bytes → Bytes → Bytes
  | [], _ => []
  | k :: keys, r => if isWildcard k then dropSlash r else matchText keys (tailSegs r)

/-- What the wildcard step of a trail reads of a path. -/
def capturedText : List Mark → Bytes → Bytes
  | .dropped _ _ :: ms, r => capturedText ms r
  | .exact _ :: ms, r => capturedText ms (tailSegs r)
  | .param _ _ :: ms, r => capturedText ms (tailSegs r)
  | .wildcard _ _ :: _, r => headSeg r ++ cStr (tailSegs r)
  | _, _ => []

theorem headSeg_append_tailSegs (r : Bytes) : headSeg r ++ tailSegs r = dropSlash r :=
  List.takeWhile_append_dropWhile

theorem length_dropSlash_le (r : Bytes) : (dropSlash r).length ≤ r.length := by
  cases r with
  | nil => exact le_refl _
  | cons c cs =>
    rw [dropSlash]
    split
    · exact Nat.le_succ _
    · exact le_refl _

theorem length_tailSegs_le (r : Bytes) : (tailSegs r).length ≤ r.length :=
  (List.dropWhile_suffix _).length_le.trans (length_dropSlash_le r)

theorem length_cStr_le (s : Bytes) : (cStr s).length ≤ s.length :=
  (List.takeWhile_sublist _).length_le

theorem length_capturedText_le (ms : List Mark) (r : Bytes) :
    (capturedText ms r).length ≤ r.length := by
  induction ms generalizing r with
  | nil => exact Nat.zero_le _
  | cons m ms ih =>
    cases m with
    | dropped name seg => exact ih r
    | exact k => exact (ih _).trans (length_tailSegs_le r)
    | param k s => exact (ih _).trans (length_tailSegs_le r)
    | wildcard k s =>
      calc (headSeg r ++ cStr (tailSegs r)).length
          ≤ (headSeg r ++ tailSegs r).length := by
            rw [List.length_append, List.length_append]
            exact Nat.add_le_add_left (length_cStr_le _) _
        _ ≤ r.length := by
            rw [headSeg_append_tailSegs]
            exact length_dropSlash_le r
    | bare => exact Nat.zero_le _

theorem cStr_eq_iff {s : Bytes} : cStr s = s ↔ 0 ∉ s := by
  refine ⟨fun h => ?_, cStr_eq_self⟩
  rw [← h]
  exact zero_notMem_cStr s

/-- A key that the request spells, if it is a wildcard, stays out of the capture. -/
private theorem capturedText_ne_of_spelled {k : Bytes} {segs : List Bytes} {v t : Bytes}
    (hk : isWildcard k = true) (hsegs : reqSegs v = k :: segs) (ms : List Mark) :
    capturedText ms (tailSegs (v ++ t)) ≠ dropSlash (v ++ t) := by
  have hv : v ≠ [] := by
    rintro rfl
    cases hsegs
  have hhead : headSeg v = k := by
    rw [reqSegs_eq_cons hv] at hsegs
    exact (List.cons.inj hsegs).1
  -- the capture starts behind this segment, so it is shorter by the key at least
  have hpos : 0 < (headSeg (v ++ t)).length := by
    have hkpos : 0 < k.length := by
      rw [List.length_pos_iff]
      rintro rfl
      exact absurd hk (by decide)
    have hle : (headSeg v).length ≤ (headSeg (v ++ t)).length := by
      rw [headSeg, headSeg, dropSlash_append hv, List.takeWhile_append]
      split
      · rw [List.length_append]
        exact (List.takeWhile_sublist _).length_le.trans (Nat.le_add_right _ _)
      · exact le_refl _
    rw [hhead] at hle
    omega
  intro heq
  have hlen := length_capturedText_le ms (tailSegs (v ++ t))
  rw [heq, ← headSeg_append_tailSegs, List.length_append] at hlen
  omega

/-- **The capture is the text from the wildcard key on**, unless the request spells
a wildcard key or has a NUL behind the captured segment. -/
theorem capturedText_eq_iff {segs : List Bytes} {ms : List Mark} (h : Follows segs ms)
    {v t : Bytes} (hsegs : reqSegs v = segs) (ht : t = [] ∨ t = [slash]) :
    capturedText ms (v ++ t) = matchText (keysOf ms) (v ++ t) ↔
      (∀ k, Mark.exact k ∈ ms → isWildcard k = false) ∧
        (endsWild ms = true → 0 ∉ afterSegs (keysOf ms).length (v ++ t)) := by
  -- the path behind a step that takes one segment
  have hnext : ∀ {s : Bytes} {segs : List Bytes} {v : Bytes}, reqSegs v = s :: segs →
      reqSegs (tailSegs v) = segs ∧ tailSegs (v ++ t) = tailSegs v ++ t := by
    intro s segs v hsegs
    have hv : v ≠ [] := by
      rintro rfl
      cases hsegs
    rw [reqSegs_eq_cons hv] at hsegs
    exact ⟨(List.cons.inj hsegs).2, tailSegs_append hv ht⟩
  induction h generalizing v with
  | nil segs => simp [capturedText, matchText, endsWild]
  | @dropped segs ms name seg hmem hfol ih =>
    have hih : _ ↔ _ := ih hsegs
    rw [capturedText, endsWild_cons rfl, keysOf_dropped (name, seg), hih]
    simp
  | @exact segs ms k hfol ih =>
    obtain ⟨hsegs', htail⟩ := hnext hsegs
    rw [capturedText, endsWild_cons rfl, keysOf_exact, matchText, List.length_cons, afterSegs]
    cases hk : isWildcard k with
    | true =>
      -- a spelled wildcard key: the search takes it as a literal and captures less
      have hne := capturedText_ne_of_spelled (t := t) hk hsegs ms
      simp only [if_true, List.mem_cons]
      refine iff_of_false hne fun hall => ?_
      exact absurd (hall.1 k (Or.inl rfl)) (by simp [hk])
    | false =>
      have hih : _ ↔ _ := ih hsegs'
      rw [if_neg Bool.false_ne_true, htail, hih]
      simp only [List.mem_cons, Mark.exact.injEq]
      constructor
      · rintro ⟨hall, hnul⟩
        exact ⟨fun j hj => hj.elim (fun hj => hj ▸ hk) (hall j), hnul⟩
      · rintro ⟨hall, hnul⟩
        exact ⟨fun j hj => hall j (Or.inr hj), hnul⟩
  | @param segs ms k s hp hfol ih =>
    obtain ⟨hsegs', htail⟩ := hnext hsegs
    have hih : _ ↔ _ := ih hsegs'
    rw [capturedText, endsWild_cons rfl, keysOf_param, matchText, List.length_cons, afterSegs,
      isWildcard_of_isParam hp, if_neg Bool.false_ne_true, htail, hih]
    simp
  | @wildcard segs k s hw hpre =>
    rw [capturedText, keysOf_wildcard, matchText, if_pos hw, ← headSeg_append_tailSegs,
      List.append_cancel_left_eq, cStr_eq_iff]
    simp [endsWild, Mark.isWild, afterSegs]
  | bare =>
    have hv : v = [] := by
      by_contra hne
      rw [reqSegs_eq_cons hne] at hsegs
      cases hsegs
    subst hv
    rcases ht with rfl | rfl <;> simp [capturedText, matchText, endsWild, Mark.isWild, dropSlash]

/-- The capture of a trail along the cuts of a view, as a text of the path. -/
theorem captured_cuts {route : StringPiece} (h : route.Valid) {t : Bytes}
    (hptr : route.ptr = route.view ++ t) (ht : t = [] ∨ t = [slash]) {segs : List Bytes}
    {ms : List Mark} (hfol : Follows segs ms) {c : Nat}
    (hsegs : reqSegs (route.view.drop c) = segs) :
    (captured ms (cuts route c)).getD [] = capturedText ms (route.view.drop c ++ t) := by
  have hne : ∀ {s : Bytes} {segs : List Bytes} {c : Nat},
      reqSegs (route.view.drop c) = s :: segs → route.view.drop c ≠ [] := by
    intro s segs c hsegs hnil
    rw [hnil] at hsegs
    cases hsegs
  -- the first cut, and where the next one begins
  have hcut : ∀ {s : Bytes} {segs : List Bytes} {c : Nat},
      reqSegs (route.view.drop c) = s :: segs →
      cuts route c = ⟨headSeg (route.view.drop c ++ t), cStr (tailSegs (route.view.drop c ++ t))⟩
          :: cuts route (route.next c) ∧
        reqSegs (route.view.drop (route.next c)) = segs ∧
        tailSegs (route.view.drop c ++ t) = route.view.drop (route.next c) ++ t := by
    intro s segs c hsegs
    have hnil := hne hsegs
    have hc : c < route.length := by
      rw [Ne, h.drop_view_eq_nil_iff] at hnil
      omega
    have htail : tailSegs (route.view.drop c ++ t) = route.view.drop (route.next c) ++ t := by
      rw [tailSegs_append hnil ht, h.drop_next hc]
    -- a slash behind the view does not belong to the segment
    have hhead : headSeg (route.view.drop c ++ t) = headSeg (route.view.drop c) := by
      have hsplit := tailSegs_append hnil ht
      have hall := headSeg_append_tailSegs (route.view.drop c ++ t)
      rw [dropSlash_append hnil, ← headSeg_append_tailSegs (route.view.drop c), hsplit,
        List.append_assoc] at hall
      exact List.append_cancel_right hall
    rw [reqSegs_eq_cons hnil, ← h.drop_next hc] at hsegs
    refine ⟨?_, (List.cons.inj hsegs).2, htail⟩
    rw [cuts_of_lt hc, h.view_mid hc, hhead, htail, hptr,
      List.drop_append_of_le_length (by rw [h.length_view]; exact h.next_le hc)]
  induction hfol generalizing c with
  | nil segs => cases cuts route c <;> rfl
  | dropped hmem hfol ih =>
    rw [captured, capturedText]
    exact ih hsegs
  | exact hfol ih =>
    obtain ⟨hcuts, hrest, htail⟩ := hcut hsegs
    rw [hcuts, captured, capturedText, htail]
    exact ih hrest
  | param hp hfol ih =>
    obtain ⟨hcuts, hrest, htail⟩ := hcut hsegs
    rw [hcuts, captured, capturedText, htail]
    exact ih hrest
  | wildcard hw hpre =>
    obtain ⟨hcuts, -, -⟩ := hcut hsegs
    rw [hcuts]
    rfl
  | bare => cases cuts route c <;> rfl

/-- Where no wildcard key is taken for a literal, a last key that is a wildcard is taken as one,
or stands behind the end of the path. -/
theorem Follows.wildcard_last_iff {segs : List Bytes} {ms : List Mark} (h : Follows segs ms)
    (hexact : ∀ k, Mark.exact k ∈ ms → isWildcard k = false) :
    (∃ k ∈ (keysOf ms).getLast?, isWildcard k = true) ↔
      endsWild ms = true ∨ segs.length < (keysOf ms).length := by
  -- one more key that is no wildcard
  have hnext : ∀ {k : Bytes} {m : Mark} {segs : List Bytes} {ms : List Mark} (s : Bytes),
      isWildcard k = false → m.isWild = false → keysOf (m :: ms) = k :: keysOf ms →
      ((∃ k ∈ (keysOf ms).getLast?, isWildcard k = true) ↔
        endsWild ms = true ∨ segs.length < (keysOf ms).length) →
      ((∃ k ∈ (keysOf (m :: ms)).getLast?, isWildcard k = true) ↔
        endsWild (m :: ms) = true ∨ (s :: segs).length < (keysOf (m :: ms)).length) := by
    intro k m segs ms s hk hm hkeys hih
    rw [endsWild_cons hm, hkeys, List.length_cons, List.length_cons, Nat.succ_lt_succ_iff, ← hih]
    cases hms : keysOf ms with
    | nil => simp [hk]
    | cons j js => rw [List.getLast?_cons_cons]
  induction h with
  | nil segs => simp [endsWild]
  | @dropped segs ms name seg hmem hfol ih =>
    rw [endsWild_cons rfl, keysOf_dropped (name, seg)]
    exact ih fun k hk => hexact k (List.mem_cons_of_mem _ hk)
  | @exact segs ms k hfol ih =>
    exact hnext k (hexact k List.mem_cons_self) rfl rfl
      (ih fun j hj => hexact j (List.mem_cons_of_mem _ hj))
  | @param segs ms k s hp hfol ih =>
    exact hnext s (isWildcard_of_isParam hp) rfl rfl
      (ih fun j hj => hexact j (List.mem_cons_of_mem _ hj))
  | wildcard hw hpre => simp [endsWild, Mark.isWild, keysOf, Mark.key?, hw]
  | bare => simp [endsWild, keysOf, Mark.key?, isWildcard_star]

end RouteTableNode

/-! ### The call -/

open RouteTableNode

namespace Router

/-- What a call captures, as a text of its path. -/
theorem routeMatchPath_eq (ops : List (RouterOp H)) (path : Bytes) :
    (context ops path).routeMatchPath = capturedText (trail ops (callPath path)) path := by
  obtain ⟨t, hpath, ht⟩ := exists_eq_callPath_append path
  rcases follows_trail ops (callPath path) with hroot | hfol
  · rw [routeMatchPath_eq_nil ops path (by rw [hroot]; rfl), hroot]
    rfl
  · have hptr : (callPiece path).ptr = (callPiece path).view ++ t := by
      rw [view_callPiece, callPiece_eq]
      exact hpath
    have hcap := captured_cuts (valid_callPiece path) hptr ht hfol (c := 0)
      (by rw [List.drop_zero, view_callPiece])
    rw [List.drop_zero, view_callPiece, ← hpath] at hcap
    exact hcap

/-- The match path of a call, next to that of the route whose keys were found. -/
theorem routeMatchPath_eq_iff (ops : List (RouterOp H)) (path : Bytes) :
    (context ops path).routeMatchPath = matchText (keysOf (trail ops (callPath path))) path ↔
      (∀ k, Mark.exact k ∈ trail ops (callPath path) → isWildcard k = false) ∧
        (endsWild (trail ops (callPath path)) = true →
          0 ∉ afterSegs (keysOf (trail ops (callPath path))).length path) := by
  obtain ⟨t, hpath, ht⟩ := exists_eq_callPath_append path
  rw [routeMatchPath_eq]
  rcases follows_trail ops (callPath path) with hroot | hfol
  · rw [hroot]
    refine iff_of_true rfl ⟨fun k hk => ?_, fun hw => absurd hw (by decide)⟩
    rw [List.mem_singleton, Mark.exact.injEq] at hk
    rw [hk]
    decide
  · have hiff := capturedText_eq_iff hfol rfl ht
    rwa [← hpath] at hiff

/-- The own steps of the trail of a lookup. -/
theorem ownSteps_trail (ops : List (RouterOp H)) (path : Bytes) :
    ownParams (keysOf (trail ops path)) (reqSegs path) =
        (ownSteps (trail ops path)).map (fun e => (e.1, e.2.2)) ∧
      paramNames (keysOf (trail ops path)) = (ownSteps (trail ops path)).map Prod.fst := by
  rcases follows_trail ops path with hroot | hfol
  · rw [hroot]
    have hkey : isParam [slash] = false := by decide
    refine ⟨?_, rfl⟩
    cases reqSegs path with
    | nil => rfl
    | cons s segs => simp [ownParams, ownSteps, hkey]
  · exact ownSteps_spec hfol

section Found

variable {ops : List (RouterOp H)} {path : Bytes} {q : NodePtr}

/-- The trail of a lookup that finds a node, with the routes it walks along. -/
theorem trail_cases (h : findPtr ops path = .ok (some q)) :
    q = [[slash]] ∧ trail ops path = [.exact [slash]] ∨
      q ≠ [[slash]] ∧ Routes.Walks (reqSegs path) (tree ops) q (trail ops path) := by
  by_cases hq : q = [[slash]]
  · subst hq
    exact Or.inl ⟨rfl, if_pos (findPtr_root_iff.mp h)⟩
  · obtain ⟨hroot, hlead⟩ := (findPtr_iff hq path).mp h
    refine Or.inr ⟨hq, ?_⟩
    rw [trail, if_neg hroot]
    exact Routes.walks_trail hlead

/-- **The bindings that survive** a lookup, in terms of the registered routes. -/
theorem mem_survivors_iff (h : findPtr ops path = .ok (some q)) {b : Bytes × Bytes} :
    b ∈ survivors (trail ops path) ↔
      q ≠ [[slash]] ∧ (Routes.ofOps ops).Leftover (reqSegs path) q b := by
  rcases trail_cases h with ⟨hq, htrail⟩ | ⟨hq, hwalk⟩
  · rw [htrail]
    exact iff_of_false (by simp [survivors, lastBindings, Mark.binding?]) fun h => h.1 hq
  · rw [hwalk.survivors (wf_tree ops), Routes.ofTree_tree, and_iff_right hq]

/-- The parameter keys that a lookup takes for literals. -/
theorem exact_mem_iff (h : findPtr ops path = .ok (some q)) {k : Bytes} (hk : isParam k = true) :
    Mark.exact k ∈ trail ops path ↔ (k, k) ∈ q.zip (reqSegs path) := by
  rcases trail_cases h with ⟨rfl, htrail⟩ | ⟨-, hwalk⟩
  · have hno : k ≠ [slash] := by
      rintro rfl
      exact absurd hk (by decide)
    rw [htrail]
    refine iff_of_false (by simp [hno]) fun hmem => hno ?_
    exact List.mem_singleton.mp (List.of_mem_zip hmem).1
  · exact hwalk.exact_mem_iff (wf_tree ops) hk

/-- The lookup takes no wildcard key for a literal iff the wildcards take the segments that
are spelled like them. -/
theorem captures_iff (h : findPtr ops path = .ok (some q)) (hq : (Routes.ofOps ops).handled q) :
    (∀ k, Mark.exact k ∈ trail ops path → isWildcard k = false) ↔
      (Routes.ofOps ops).Captures (reqSegs path) q := by
  rw [← Routes.ofTree_tree] at hq ⊢
  rcases trail_cases h with ⟨rfl, htrail⟩ | ⟨-, hwalk⟩
  · rw [htrail]
    refine iff_of_true (by simp [isWildcard, slash, star]) fun u k t hkeys _ hw => ?_
    have hk : k ∈ [[slash]] := by
      rw [hkeys]
      simp
    rw [List.mem_singleton.mp hk] at hw
    exact absurd hw (by decide)
  · exact hwalk.captures_iff (wf_tree ops) hq

/-- Behind the end of the path nothing is left to capture. -/
theorem noNul_iff {path : Bytes} (h : findPtr ops (callPath path) = .ok (some q))
    (hexact : ∀ k, Mark.exact k ∈ trail ops (callPath path) → isWildcard k = false) :
    (endsWild (trail ops (callPath path)) = true → 0 ∉ afterSegs q.length path) ↔
      ((∃ k ∈ q.getLast?, isWildcard k = true) → 0 ∉ afterSegs q.length path) := by
  obtain rfl := keysOf_trail h
  rcases follows_trail ops (callPath path) with hroot | hfol
  · rw [hroot]
    refine iff_of_true (fun hw => absurd hw (by decide)) ?_
    rintro ⟨k, hk, hw⟩
    obtain rfl : [slash] = k := by simpa [keysOf, Mark.key?] using hk
    exact absurd hw (by decide)
  · rw [hfol.wildcard_last_iff hexact]
    refine ⟨fun hnul hor => hor.elim hnul fun hlt => ?_, fun hnul hw => hnul (Or.inl hw)⟩
    -- the path has one segment more than its view at most
    have hle : (reqSegs path).length ≤ (reqSegs (callPath path)).length + 1 := by
      obtain ⟨t, hpath, ht⟩ := exists_eq_callPath_append path
      conv_lhs => rw [hpath]
      rcases ht with rfl | rfl
      · rw [List.append_nil]
        exact Nat.le_succ _
      · rw [reqSegs_append_slash, List.length_append]
        rfl
    have hnil : afterSegs (keysOf (trail ops (callPath path))).length path = [] := by
      by_contra hne
      have hlt' := afterSegs_ne_nil_iff.mp hne
      omega
    rw [hnil]
    exact List.not_mem_nil

end Found

/-- What a handler that runs is given. -/
theorem answer_eq_run {verb : Verb} {vh : VerbHandler H} {ctx : RouteCtx} {handler : H}
    {fullPath matchPath : Bytes} {routeParams : List (Bytes × Bytes)}
    (h : answer verb vh ctx = .run handler fullPath routeParams matchPath) :
    vh.path = fullPath ∧ ctx.routeParams = routeParams ∧ ctx.routeMatchPath = matchPath := by
  unfold answer at h
  split at h
  · cases h
    exact ⟨rfl, rfl, rfl⟩
  · cases h
    exact ⟨rfl, rfl, rfl⟩
  · cases h

end Router

namespace HandleCall

/-- The calls at one node whose handler the node keeps: the first of each verb. -/
def accepted (calls : List (HandleCall H)) : List (HandleCall H) :=
  calls.foldl (fun kept c => if kept.any (·.verb = c.verb) then kept else kept ++ [c]) []

theorem accepted_concat (calls : List (HandleCall H)) (c : HandleCall H) :
    accepted (calls ++ [c]) =
      if (accepted calls).any (·.verb = c.verb) then accepted calls else accepted calls ++ [c] :=
  List.foldl_concat ..

/-- The verbs that have been kept are those that have been registered. -/
theorem any_accepted (calls : List (HandleCall H)) (v : Verb) :
    (accepted calls).any (·.verb = v) = calls.any (·.verb = v) := by
  induction calls using List.reverseRecOn with
  | nil => rfl
  | append_singleton calls c ih =>
    rw [accepted_concat, List.any_append, ← ih]
    split
    · next h =>
      by_cases hv : c.verb = v
      · rw [← hv, h]
        rfl
      · simp [hv]
    · rw [List.any_append]

/-- **The route string of a node** is that of the last call it has accepted. -/
theorem path_valAt_tree (calls : List (HandleCall H)) (q : NodePtr) :
    (Trie.valAt q (Router.tree (calls.map op))).path =
      (((accepted (callsAt q calls)).getLast?).map route).getD [] := by
  rw [Router.valAt_tree, opsAt_map]
  induction callsAt q calls using List.reverseRecOn with
  | nil => rfl
  | append_singleton l c ih =>
    have hget := get?_foldl_registerVerb l default c.verb
    have hsome : (OrdMap.get? c.verb
        ((l.map op).foldl (fun vh (op : RouterOp H) => op.effect vh) default).verbHandlerMap).isSome
          = (accepted l).any (·.verb = c.verb) := by
      rw [hget, any_accepted]
      change (none.or _).isSome = _
      rw [Option.none_or, Option.isSome_map, List.isSome_find?]
    rw [List.map_append, List.foldl_append, accepted_concat]
    change (Router.registerVerb c.route c.computeQueueId c.handler c.verb _).path = _
    unfold Router.registerVerb
    cases hold : OrdMap.get? c.verb
      ((l.map op).foldl (fun vh (op : RouterOp H) => op.effect vh) default).verbHandlerMap with
    | some h =>
      rw [hold] at hsome
      rw [← hsome, Option.isSome_some, if_pos rfl]
      exact ih
    | none =>
      rw [hold] at hsome
      rw [← hsome, Option.isSome_none, if_neg Bool.false_ne_true, List.getLast?_concat]
      rfl

theorem accepted_cons_ne_nil (c : HandleCall H) (calls : List (HandleCall H)) :
    accepted (c :: calls) ≠ [] := by
  intro hnil
  have hany := any_accepted (c :: calls) c.verb
  rw [hnil] at hany
  simp at hany

/-- A call that runs a handler was answered at the node of the handler's route. -/
theorem keys_of_runs {calls : List (HandleCall H)} {c : HandleCall (Nat × H)}
    (hc : c ∈ numbered calls) {verb : Verb} {vh : VerbHandler (Nat × H)}
    {q : NodePtr} (hvh : vh = Trie.valAt q (Router.tree ((numbered calls).map op)))
    (hrun : (OrdMap.get? verb vh.verbHandlerMap).or (OrdMap.get? Verb.ANY vh.verbHandlerMap)
      = some c.handler) : q = c.keys := by
  have hfind : ∀ v, OrdMap.get? v vh.verbHandlerMap = some c.handler → q = c.keys := by
    intro v hv
    rw [hvh, get?_valAt_tree, Option.map_eq_some_iff] at hv
    obtain ⟨d, hd, hh⟩ := hv
    obtain ⟨hmem, hkeys⟩ := mem_callsAt (List.mem_of_find?_eq_some hd)
    rw [← hkeys, eq_of_handler_eq hmem hc hh]
  rcases Option.or_eq_some_iff.mp hrun with h | ⟨-, h⟩
  · exact hfind verb h
  · exact hfind Verb.ANY h

/-- The request sees the route under which its handler was registered: its route
string, the segments at its parameters, and the text from its wildcard on. -/
structure OwnContext (c : HandleCall H) (path fullPath : Bytes)
    (routeParams : List (Bytes × Bytes)) (matchPath : Bytes) : Prop where
  fullPath : fullPath = c.route
  routeParams : ∀ name seg, OrdMap.get? name routeParams = some seg ↔
    (name, seg) ∈ ownParams c.keys (reqSegs (Router.callPath path))
  matchPath : matchPath = matchText c.keys path

/-- Nothing disturbs the context of a call: no later registration at the node, no
binding of a branch that was given up, no segment that spells a key, no NUL. -/
structure Undisturbed (calls : List (HandleCall H)) (c : HandleCall H) (path : Bytes) : Prop where
  lastAccepted : ((accepted (callsAt c.keys calls)).getLast?).map route = some c.route
  leftovers : c.keys ≠ [[slash]] → ∀ b,
    (Routes.ofCalls calls).Leftover (reqSegs (Router.callPath path)) c.keys b →
      b ∈ ownParams c.keys (reqSegs (Router.callPath path))
  /-- A leftover makes up for the parameter that the request spells. -/
  spelledParam : ∀ k, (k, k) ∈ c.keys.zip (reqSegs (Router.callPath path)) → isParam k = true →
    (Routes.ofCalls calls).Leftover (reqSegs (Router.callPath path)) c.keys (paramName k, k)
  spelledWildcard : (Routes.ofCalls calls).Captures (reqSegs (Router.callPath path)) c.keys
  noNul : (∃ k ∈ c.keys.getLast?, isWildcard k = true) → 0 ∉ afterSegs c.keys.length path

/-- **The context of the selected route** is its own iff nothing disturbs it. -/
theorem selected_context_iff (calls : List (HandleCall H)) (c : HandleCall (Nat × H))
    (hc : c ∈ numbered calls) (hnames : (paramNames c.keys).Nodup) (verb : Verb) (path : Bytes)
    (fullPath : Bytes) (routeParams : List (Bytes × Bytes)) (matchPath : Bytes)
    (hrun : (Router.ofOps ((numbered calls).map op)).call verb path
      = .ok (.run c.handler fullPath routeParams matchPath)) :
    OwnContext c path fullPath routeParams matchPath ↔ Undisturbed (numbered calls) c path := by
  obtain ⟨q, hfind, ho⟩ := Router.exists_of_call_run hrun
  have hq := keys_of_runs hc rfl (Router.answer_eq_run_iff.mp ⟨_, _, _, ho⟩)
  subst hq
  have hkeys := Router.keysOf_trail hfind
  obtain ⟨rfl, rfl, rfl⟩ := Router.answer_eq_run ho
  -- the three parts of the context
  have hpath : (Trie.valAt c.keys (Router.tree ((numbered calls).map op))).path = c.route ↔
      ((accepted (callsAt c.keys (numbered calls))).getLast?).map route = some c.route := by
    rw [path_valAt_tree]
    obtain ⟨d, ds, -, -, hat⟩ := callsAt_eq_cons ⟨c, hc, rfl⟩
    obtain ⟨e, he⟩ := Option.ne_none_iff_exists'.mp
      (mt List.getLast?_eq_none_iff.mp (accepted_cons_ne_nil d _))
    rw [hat, he]
    simp
  -- the names are distinct along the keys, and so along the own steps of the trail
  have hparams := routeParams_iff (Router.ownSteps_trail ((numbered calls).map op)
    (Router.callPath path)).1 (by
      rw [← (Router.ownSteps_trail _ _).2, ← hkeys]
      exact hnames)
  have hmatch := Router.routeMatchPath_eq_iff ((numbered calls).map op) path
  rw [← hkeys] at hparams hmatch
  -- the marks of the trail, in terms of the registered routes
  have hsurvivors : ∀ b, b ∈ survivors (Router.trail ((numbered calls).map op)
      (Router.callPath path)) ↔ c.keys ≠ [[slash]] ∧
        (Routes.ofCalls (numbered calls)).Leftover (reqSegs (Router.callPath path)) c.keys b := by
    intro b
    rw [Router.mem_survivors_iff hfind, Routes.ofOps_calls]
  have hcaptures := Router.captures_iff hfind (by rw [Routes.ofOps_calls]; exact ⟨c, hc, rfl⟩)
  rw [Routes.ofOps_calls] at hcaptures
  -- a route with a parameter is not `/`
  have hne : ∀ {k : Bytes}, (k, k) ∈ c.keys.zip (reqSegs (Router.callPath path)) →
      isParam k = true → c.keys ≠ [[slash]] := by
    intro k hk hp hroot
    have hmem := (List.of_mem_zip hk).1
    rw [hroot, List.mem_singleton] at hmem
    rw [hmem] at hp
    exact absurd hp (by decide)
  constructor
  · rintro ⟨hfull, hps, hmp⟩
    obtain ⟨hsurv, hspell⟩ := hparams.mp hps
    obtain ⟨hwild, hnul⟩ := hmatch.mp hmp
    exact ⟨hpath.mp hfull, fun hroot b hb => hsurv b ((hsurvivors b).mpr ⟨hroot, hb⟩),
      fun k hk hp => ((hsurvivors _).mp (hspell k ((Router.exact_mem_iff hfind hp).mpr hk) hp)).2,
      hcaptures.mp hwild, (Router.noNul_iff hfind hwild).mp hnul⟩
  · rintro ⟨hlast, hleft, hspell, hwild, hnul⟩
    have hwild' := hcaptures.mpr hwild
    refine ⟨hpath.mpr hlast, hparams.mpr ⟨fun b hb => ?_, fun k hk hp => ?_⟩,
      hmatch.mpr ⟨hwild', (Router.noNul_iff hfind hwild').mpr hnul⟩⟩
    · obtain ⟨hroot, hb⟩ := (hsurvivors b).mp hb
      exact hleft hroot b hb
    · have hmem := (Router.exact_mem_iff hfind hp).mp hk
      exact (hsurvivors _).mpr ⟨hne hmem hp, hspell k hmem hp⟩

/-- The context of a parameter route. -/
theorem selected_context_param :
    OwnContext (⟨ascii "/user/\x7bid\x7d", 0, (0, ()), .GET⟩ : HandleCall (Nat × Unit))
      (ascii "/user/7") (ascii "/user/\x7bid\x7d") [(ascii "id", ascii "7")] [] := by
  have hkeys : (⟨ascii "/user/\x7bid\x7d", 0, (0, ()), .GET⟩ : HandleCall (Nat × Unit)).keys
      = [ascii "user", ascii "\x7bid\x7d"] := by decide +kernel
  have hsegs : reqSegs (Router.callPath (ascii "/user/7")) = [ascii "user", ascii "7"] := by
    decide +kernel
  refine (selected_context_iff [⟨ascii "/user/\x7bid\x7d", 0, (), .GET⟩] _ (by simp [numbered])
    (by decide +kernel) .GET _ _ _ _ (by decide +kernel)).mpr ⟨by decide +kernel, ?_, ?_, ?_, ?_⟩
  · -- with one route every binding is made on the way to its node
    rintro - b ⟨u, k, -, hlast, hoff⟩
    rcases hlast.binds.first.node with hnil | ⟨d, hd, hpre⟩
    · simp at hnil
    · rw [List.mem_singleton.mp hd] at hpre
      exact absurd hpre hoff
  · rw [hkeys, hsegs]
    have hno : ∀ e ∈ [ascii "user", ascii "\x7bid\x7d"].zip [ascii "user", ascii "7"],
        e.1 = e.2 → isParam e.1 = false := by decide +kernel
    intro k hk hp
    rw [hno (k, k) hk rfl] at hp
    cases hp
  · rw [hkeys]
    intro u k t hq _ hw
    have hno : ∀ k ∈ [ascii "user", ascii "\x7bid\x7d"], isWildcard k = false := by
      decide +kernel
    rw [hno k (by rw [hq]; simp)] at hw
    cases hw
  · rw [hkeys]
    decide +kernel

/-- `/a/{x}/y` and `/{z}/q/w` with the path `/a/q/w`: the branch that has bound `x`
is given up, and the handler of the second route sees `x` next to its own `z`. -/
theorem not_ownContext_abandoned :
    (Router.ofOps ((numbered [⟨ascii "/a/\x7bx\x7d/y", 0, (), .GET⟩,
        ⟨ascii "/\x7bz\x7d/q/w", 0, (), .GET⟩]).map op)).call .GET (ascii "/a/q/w")
      = .ok (.run (1, ()) (ascii "/\x7bz\x7d/q/w")
          [(ascii "x", ascii "q"), (ascii "z", ascii "a")] []) ∧
    ¬ OwnContext (⟨ascii "/\x7bz\x7d/q/w", 0, (1, ()), .GET⟩ : HandleCall (Nat × Unit))
      (ascii "/a/q/w") (ascii "/\x7bz\x7d/q/w")
      [(ascii "x", ascii "q"), (ascii "z", ascii "a")] [] := by
  refine ⟨by decide +kernel, fun h => ?_⟩
  have hx := (h.routeParams (ascii "x") (ascii "q")).mp (by decide +kernel)
  exact absurd hx (by decide +kernel)

/-- `GET /a` and then `POST /a/`: both have one node, and it keeps the second route. -/
example : (Router.ofOps ((numbered [⟨ascii "/a", 0, (), .GET⟩,
    ⟨ascii "/a/", 0, (), .POST⟩]).map op)).call .GET (ascii "/a")
      = .ok (.run (0, ()) (ascii "/a/") [] []) := by
  decide +kernel

end HandleCall

end Wfrest
