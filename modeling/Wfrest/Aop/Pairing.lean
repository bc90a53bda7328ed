import Wfrest.Aop.Veto
import Mathlib.Data.List.Nodup
import Mathlib.Data.List.Perm.Subperm

/-!
# `before()` and `after()` in pairs

What `before()` allocates, `after()` has to release. `Paired` says that it is asked to: in
the log of a request every aspect whose `before()` returned true has one call of `after()`,
and no other aspect has any.

The wrappers leave the callback for `after()` only at their end, so a veto leaves those
aspects unreleased that agreed before it. The callback then stops at the first false in the
pack and calls every global aspect, also where a wrapper without a pack has ignored a veto
of theirs. `paired_iff` says when none of this happens.

The state in which the callbacks find a request is what the handler, its go task and the
tasks of the series have left. It is not related to the state at the beginning.
-/

namespace Wfrest

variable {σ S : Type}

/-! ### The calls of `after()` -/

/-- The aspects whose `after()` is called. -/
def afterCalls (log : List Event) : List Who :=
  log.filterMap fun
    | .after who _ => some who
    | _ => none

/-- The results of all `after()`, each called on what the ones before it have left. -/
def afterVerdicts : List (Who × Aspect σ) → σ → List Bool
  | [], _ => []
  | asp :: aspects, d => (asp.2.after d).1 :: afterVerdicts aspects (asp.2.after d).2

/-- The aspects up to the first whose `after()` returns false. -/
def reached : List (Who × Aspect σ) → σ → List Who
  | [], _ => []
  | asp :: aspects, d =>
    asp.1 :: if (asp.2.after d).1 then reached aspects (asp.2.after d).2 else []

theorem afterCalls_append (l l' : List Event) :
    afterCalls (l ++ l') = afterCalls l ++ afterCalls l' := List.filterMap_append

theorem afterCalls_vetoLog (aspects : List (Who × Aspect σ)) (d : σ) :
    afterCalls (vetoLog aspects d) = [] := by
  induction aspects generalizing d with
  | nil => rfl
  | cons asp aspects ih =>
    have hrest := ih (asp.2.before d).2
    rw [vetoLog]
    cases (asp.2.before d).1 with
    | true => exact hrest
    | false => rfl

theorem afterCalls_fullLog (aspects : List (Who × Aspect σ)) (d : σ) :
    afterCalls (fullLog aspects d) = [] := by
  induction aspects generalizing d with
  | nil => rfl
  | cons asp aspects ih => exact ih (asp.2.before d).2

theorem RouteOverload.afterCalls_concat (o : RouteOverload σ S) (log : List Event) :
    afterCalls (log ++ [o.ranEvent]) = afterCalls log := by
  rw [afterCalls_append]
  unfold RouteOverload.ranEvent
  cases o.computeQueueId <;> simp [afterCalls]

/-- One call of `after()`. -/
theorem callAfter_spec (t : ServerTask σ) (asp : Who × Aspect σ) :
    afterCalls (t.callAfter asp).2.log = afterCalls t.log ++ [asp.1] ∧
      beforeCalls (t.callAfter asp).2.log = beforeCalls t.log := by
  unfold ServerTask.callAfter
  dsimp only
  rw [afterCalls_append, beforeCalls_append]
  exact ⟨rfl, List.append_nil _⟩

/-- **The global loop** calls every `after()`. -/
theorem globalAfter_spec (aspects : List (Who × Aspect σ)) (t : ServerTask σ) :
    afterCalls (globalAfter aspects t).log = afterCalls t.log ++ aspects.map Prod.fst ∧
      beforeCalls (globalAfter aspects t).log = beforeCalls t.log := by
  induction aspects generalizing t with
  | nil => exact ⟨(List.append_nil _).symm, rfl⟩
  | cons asp aspects ih =>
    obtain ⟨hafter, hbefore⟩ := ih (t.callAfter asp).2
    obtain ⟨hone, hkeep⟩ := callAfter_spec t asp
    rw [globalAfter, List.foldl_cons, ← globalAfter, hafter, hbefore, hone, hkeep,
      List.append_assoc]
    exact ⟨rfl, rfl⟩

/-- **The loop of `aop_after`** stops calling at the first false. -/
theorem aopAfter_spec (tp : List (Who × Aspect σ)) (t : ServerTask σ) :
    afterCalls (aopAfter tp t).2.log = afterCalls t.log ++ reached tp t.data ∧
      beforeCalls (aopAfter tp t).2.log = beforeCalls t.log := by
  -- after a false the loop goes on without calling anything
  have hfalse : ∀ (l : List (Who × Aspect σ)) (t : ServerTask σ),
      l.foldl (fun r item => if r.1 then r.2.callAfter item else r) (false, t) = (false, t) := by
    intro l
    induction l with
    | nil => exact fun _ => rfl
    | cons asp l ih => exact fun t => ih t
  induction tp generalizing t with
  | nil => exact ⟨(List.append_nil _).symm, rfl⟩
  | cons asp tp ih =>
    obtain ⟨hone, hkeep⟩ := callAfter_spec t asp
    have hstep : aopAfter (asp :: tp) t =
        if (asp.2.after t.data).1 then aopAfter tp (t.callAfter asp).2
        else (false, (t.callAfter asp).2) := by
      have hcall : t.callAfter asp = ((asp.2.after t.data).1, (t.callAfter asp).2) := rfl
      rw [aopAfter, List.foldl_cons, if_pos rfl, hcall]
      cases (asp.2.after t.data).1 with
      | true => rfl
      | false => exact hfalse tp _
    rw [hstep, reached]
    cases hverdict : (asp.2.after t.data).1 with
    | true =>
      obtain ⟨hafter, hbefore⟩ := ih (t.callAfter asp).2
      simp only [if_true]
      rw [hafter, hbefore, hone, hkeep, List.append_assoc]
      exact ⟨rfl, rfl⟩
    | false =>
      simp only [Bool.false_eq_true, if_false]
      exact ⟨hone, hkeep⟩

theorem reached_isPrefix (tp : List (Who × Aspect σ)) (d : σ) :
    reached tp d <+: tp.map Prod.fst := by
  induction tp generalizing d with
  | nil => exact List.prefix_rfl
  | cons asp tp ih =>
    rw [reached, List.map_cons, List.cons_prefix_cons]
    refine ⟨rfl, ?_⟩
    cases (asp.2.after d).1 with
    | true => exact ih _
    | false => exact List.nil_prefix

/-- The whole pack is reached when no `after()` but the last returns false. -/
theorem reached_eq_iff (tp : List (Who × Aspect σ)) (d : σ) :
    reached tp d = tp.map Prod.fst ↔ ∀ b ∈ (afterVerdicts tp d).dropLast, b = true := by
  induction tp generalizing d with
  | nil => simp [reached, afterVerdicts]
  | cons asp tp ih =>
    rw [reached, List.map_cons, List.cons_inj_right, afterVerdicts]
    cases tp with
    | nil => cases (asp.2.after d).1 <;> simp [reached, afterVerdicts]
    | cons asp' tp =>
      have hne : afterVerdicts (asp' :: tp) (asp.2.after d).2 ≠ [] := List.cons_ne_nil _ _
      rw [List.dropLast_cons_of_ne_nil hne, List.forall_mem_cons, ← ih]
      cases (asp.2.after d).1 <;> simp

/-! ### Names -/

theorem nodup_named {who : Nat → Who} (hwho : Function.Injective who)
    (aspects : List (Aspect σ)) : ((named who aspects).map Prod.fst).Nodup := by
  have hmap : (named who aspects).map Prod.fst = (List.range aspects.length).map who := by
    unfold named
    rw [List.range_eq_range', ← List.zipIdx_map_snd 0 aspects, List.map_map, List.map_map]
    rfl
  rw [hmap]
  exact List.Nodup.map hwho List.nodup_range

/-! ### Pairs -/

/-- **Pairing.** An aspect has one call of `after()` if its `before()` returned true, and
none otherwise. -/
def Paired (log : List Event) : Prop :=
  ∀ who, (afterCalls log).count who = if (who, true) ∈ beforeCalls log then 1 else 0

theorem paired_iff_of_nodup {log : List Event} (h : (afterCalls log).Nodup) :
    Paired log ↔ ∀ who, who ∈ afterCalls log ↔ (who, true) ∈ beforeCalls log := by
  unfold Paired
  refine forall_congr' fun who => ?_
  by_cases hmem : who ∈ afterCalls log
  · rw [List.count_eq_one_of_mem h hmem]
    by_cases hbefore : (who, true) ∈ beforeCalls log <;> simp [hmem, hbefore]
  · rw [List.count_eq_zero.mpr hmem]
    by_cases hbefore : (who, true) ∈ beforeCalls log <;> simp [hmem, hbefore]

/-! ### The log of a request -/

/-- The task as its callbacks find it. -/
def ServerTask.found (t : ServerTask σ) (d' : σ) : ServerTask σ := { t with data := d' }

@[simp] theorem ServerTask.found_log (t : ServerTask σ) (d' : σ) : (t.found d').log = t.log := rfl

@[simp] theorem ServerTask.found_data (t : ServerTask σ) (d' : σ) : (t.found d').data = d' := rfl

namespace RouteOverload

/-- The log of a whole request: the wrapper on `d`, and then the callbacks of the server
task, which find `d'`. -/
def requestLog (wrap : WrapHandler σ S) (globals : List (Aspect σ)) (series : S) (d d' : σ) :
    List Event :=
  (runCallbacks globals (wrap globals series (fresh d)).1.cbList
    ((wrap globals series (fresh d)).1.found d')).log

/-- **What the results have to be.** Without a pack every global `before()` returns true.
With one, either every `before()` does, and no `after()` of the pack returns false in front
of another; or the very first `before()` returns false. -/
def ResultsFit (o : RouteOverload σ S) (globals : List (Aspect σ)) (d d' : σ) : Prop :=
  match o.ap with
  | none => AllTrue (named Who.global globals) d
  | some ap =>
    AllTrue (o.aspects globals) d ∧
        (∀ b ∈ (afterVerdicts (named Who.route ap) d').dropLast, b = true) ∨
      (verdicts (o.aspects globals) d).head? = some false

theorem nodup_aspects (o : RouteOverload σ S) (globals : List (Aspect σ)) :
    ((o.aspects globals).map Prod.fst).Nodup := by
  unfold aspects
  rw [List.map_append, List.nodup_append]
  refine ⟨nodup_named (fun _ _ h => Who.route.inj h) _,
    nodup_named (fun _ _ h => Who.global.inj h) _, ?_⟩
  rintro who hroute who' hglobal rfl
  simp only [named, List.map_map, List.mem_map] at hroute hglobal
  obtain ⟨e, -, rfl⟩ := hroute
  obtain ⟨e', -, he⟩ := hglobal
  exact absurd he (by simp)

/-- A wrapper with a pack on a fresh task: what it logs, and the callbacks it leaves. -/
theorem wrapHandler_pack {o : RouteOverload σ S} {ap : List (Aspect σ)} (hap : o.ap = some ap)
    (globals : List (Aspect σ)) (series : S) (d : σ) :
    (o.wrapHandler globals series (fresh d)).1.log =
        vetoLog (o.aspects globals) d ++
          (if AllTrue (o.aspects globals) d then [o.ranEvent] else []) ∧
      (o.wrapHandler globals series (fresh d)).1.cbList =
        if AllTrue (o.aspects globals) d then [.aopAfter ap] else [] := by
  have hwrap : o.wrapHandler = wrapAop ap o.run := by rw [wrapHandler_eq, hap]
  have haspects : named Who.route ap ++ named Who.global globals = o.aspects globals := by
    rw [aspects, hap]
    rfl
  obtain ⟨hret, hlog, hcb⟩ := globalBefore_spec (o.aspects globals) (fresh d)
  rw [hwrap, wrapAop_eq, haspects]
  -- the handler runs, and the callback is left, only behind the last verdict
  by_cases hall : AllTrue (o.aspects globals) d
  · obtain ⟨hrun, hkeep⟩ := o.run_spec series (globalBefore (o.aspects globals) (fresh d)).2
    simp only [hret.mpr hall, if_true, if_pos hall, ServerTask.addCallback]
    rw [hrun, hkeep, hlog, hcb]
    exact ⟨rfl, rfl⟩
  · have hfalse : (globalBefore (o.aspects globals) (fresh d)).1 = false := by
      rw [← Bool.not_eq_true]
      exact fun h => hall (hret.mp h)
    simp only [hfalse, Bool.false_eq_true, if_false, if_neg hall, List.append_nil]
    exact ⟨hlog, hcb⟩

/-- A wrapper with a pack that goes through: every `before()` is called, then the pack is
called up to its first false, then every global aspect. -/
theorem calls_of_allTrue {o : RouteOverload σ S} {ap globals : List (Aspect σ)} {d : σ}
    (hap : o.ap = some ap) (hall : AllTrue (o.aspects globals) d) (series : S) (d' : σ) :
    afterCalls (requestLog o.wrapHandler globals series d d') =
        reached (named Who.route ap) d' ++ (named Who.global globals).map Prod.fst ∧
      beforeCalls (requestLog o.wrapHandler globals series d d') =
        (o.aspects globals).map fun asp => (asp.1, true) := by
  obtain ⟨hlog, hcb⟩ := wrapHandler_pack hap globals series d
  rw [if_pos hall] at hlog hcb
  -- the callback finds the response as the request has left it, with the data `d'`
  have hrun : requestLog o.wrapHandler globals series d d' =
      (globalAfter (named Who.global globals) (aopAfter (named Who.route ap)
        ((o.wrapHandler globals series (fresh d)).1.found d')).2).log := by
    rw [requestLog, hcb]
    rfl
  obtain ⟨haop, haopb⟩ := aopAfter_spec (named Who.route ap)
    ((o.wrapHandler globals series (fresh d)).1.found d')
  obtain ⟨hglob, hglobb⟩ := globalAfter_spec (named Who.global globals) (aopAfter
    (named Who.route ap) ((o.wrapHandler globals series (fresh d)).1.found d')).2
  rw [ServerTask.found_log, hlog] at haop haopb
  rw [hrun, hglob, hglobb, haop, haopb, o.afterCalls_concat, o.beforeCalls_concat,
    afterCalls_vetoLog, (beforeCalls_vetoLog_iff _ d).mpr hall]
  exact ⟨rfl, rfl⟩

/-- A vetoed request leaves no callback. -/
theorem calls_of_veto {o : RouteOverload σ S} {ap globals : List (Aspect σ)} {d : σ}
    (hap : o.ap = some ap) (hall : ¬ AllTrue (o.aspects globals) d) (series : S) (d' : σ) :
    requestLog o.wrapHandler globals series d d' = vetoLog (o.aspects globals) d := by
  obtain ⟨hlog, hcb⟩ := wrapHandler_pack hap globals series d
  rw [if_neg hall] at hlog hcb
  rw [List.append_nil] at hlog
  rw [requestLog, hcb]
  exact hlog

/-- A wrapper without a pack on a fresh task. -/
theorem wrapHandler_plain {o : RouteOverload σ S} (hap : o.ap = none)
    (globals : List (Aspect σ)) (series : S) (d : σ) :
    (o.wrapHandler globals series (fresh d)).1.log =
        fullLog (named Who.global globals) d ++ [o.ranEvent] ∧
      (o.wrapHandler globals series (fresh d)).1.cbList =
        if globals.isEmpty then [] else [.globalAfter] := by
  have hwrap : o.wrapHandler = wrapPlain o.run := by rw [wrapHandler_eq, hap]
  obtain ⟨hlog, hcb⟩ := plainBefore_spec (named Who.global globals) (fresh d)
  obtain ⟨hrun, hkeep⟩ := o.run_spec series (plainBefore (named Who.global globals) (fresh d))
  rw [hwrap, wrapPlain]
  split
  · rw [hrun, hkeep, hlog, hcb]
    exact ⟨rfl, rfl⟩
  · simp only [ServerTask.addCallback]
    rw [hrun, hkeep, hlog, hcb]
    exact ⟨rfl, rfl⟩

/-- A wrapper without a pack calls everything. -/
theorem calls_of_plain {o : RouteOverload σ S} (hap : o.ap = none) (globals : List (Aspect σ))
    (series : S) (d d' : σ) :
    afterCalls (requestLog o.wrapHandler globals series d d') =
        (named Who.global globals).map Prod.fst ∧
      beforeCalls (requestLog o.wrapHandler globals series d d') =
        beforeCalls (fullLog (named Who.global globals) d) := by
  obtain ⟨hlog, hcb⟩ := wrapHandler_plain hap globals series d
  -- without global aspects there is no callback, but nothing to call either
  have hlast : requestLog o.wrapHandler globals series d d' =
      (globalAfter (named Who.global globals)
        ((o.wrapHandler globals series (fresh d)).1.found d')).log := by
    rw [requestLog, hcb]
    cases globals <;> rfl
  obtain ⟨hglob, hglobb⟩ := globalAfter_spec (named Who.global globals)
    ((o.wrapHandler globals series (fresh d)).1.found d')
  rw [ServerTask.found_log, hlog] at hglob hglobb
  rw [hlast, hglob, hglobb, o.afterCalls_concat, o.beforeCalls_concat, afterCalls_fullLog]
  exact ⟨rfl, rfl⟩

/-- The names of a pack that is reached are all its names, if every one of them is. -/
theorem reached_of_subset {tp : List (Who × Aspect σ)} (hnodup : (tp.map Prod.fst).Nodup)
    {d : σ} (h : ∀ who ∈ tp.map Prod.fst, who ∈ reached tp d) :
    reached tp d = tp.map Prod.fst :=
  (reached_isPrefix tp d).eq_of_length_le (hnodup.subperm h).length_le

theorem mem_allTrue_iff (l : List (Who × Aspect σ)) (who : Who) :
    (who, true) ∈ l.map (fun asp => (asp.1, true)) ↔ who ∈ l.map Prod.fst := by
  simp [List.mem_map]

/-- With distinct names, a verdict for every name is all verdicts. -/
theorem allTrue_of_mem {aspects : List (Who × Aspect σ)} (hnodup : (aspects.map Prod.fst).Nodup)
    {d : σ}
    (h : ∀ who ∈ aspects.map Prod.fst, (who, true) ∈ beforeCalls (fullLog aspects d)) :
    AllTrue aspects d := by
  induction aspects generalizing d with
  | nil => simp [AllTrue, verdicts]
  | cons asp aspects ih =>
    rw [List.map_cons, List.nodup_cons] at hnodup
    have hcalls : beforeCalls (fullLog (asp :: aspects) d) =
        (asp.1, (asp.2.before d).1) :: beforeCalls (fullLog aspects (asp.2.before d).2) := rfl
    rw [hcalls] at h
    -- an aspect is called once, so the verdict in the log is its own
    refine allTrue_cons.mpr ⟨?_, ih hnodup.2 fun who hwho => ?_⟩
    · rcases List.mem_cons.mp (h asp.1 List.mem_cons_self) with heq | hmem
      · exact (congrArg Prod.snd heq).symm
      · rw [beforeCalls_fullLog] at hmem
        exact absurd (List.of_mem_zip hmem).1 hnodup.1
    · rcases List.mem_cons.mp (h who (List.mem_cons_of_mem _ hwho)) with heq | hmem
      · exact absurd ((congrArg Prod.fst heq : who = asp.1) ▸ hwho) hnodup.1
      · exact hmem

theorem paired_plain_iff {o : RouteOverload σ S} (hap : o.ap = none)
    (globals : List (Aspect σ)) (series : S) (d d' : σ) :
    Paired (requestLog o.wrapHandler globals series d d') ↔
      AllTrue (named Who.global globals) d := by
  have hnodup := nodup_named (fun _ _ h => Who.global.inj h) globals
  obtain ⟨hafter, hbefore⟩ := calls_of_plain hap globals series d d'
  rw [paired_iff_of_nodup (hafter ▸ hnodup), hafter, hbefore]
  constructor
  · exact fun h => allTrue_of_mem hnodup fun who hwho => (h who).mp hwho
  · intro hall who
    rw [(beforeCalls_fullLog_iff _ d).mpr hall, mem_allTrue_iff]

theorem paired_of_allTrue_iff {o : RouteOverload σ S} {ap globals : List (Aspect σ)} {d : σ}
    (hap : o.ap = some ap) (hall : AllTrue (o.aspects globals) d) (series : S) (d' : σ) :
    Paired (requestLog o.wrapHandler globals series d d') ↔
      ∀ b ∈ (afterVerdicts (named Who.route ap) d').dropLast, b = true := by
  have hnames : (o.aspects globals).map Prod.fst =
      (named Who.route ap).map Prod.fst ++ (named Who.global globals).map Prod.fst := by
    rw [aspects, hap, List.map_append]
    rfl
  have hnodup := o.nodup_aspects globals
  rw [hnames] at hnodup
  obtain ⟨hafter, hbefore⟩ := calls_of_allTrue hap hall series d'
  have hsub : (reached (named Who.route ap) d' ++
      (named Who.global globals).map Prod.fst).Nodup :=
    hnodup.sublist ((reached_isPrefix _ d').sublist.append_right _)
  -- all aspects agreed, so all of them have to be reached on the way back
  rw [paired_iff_of_nodup (hafter ▸ hsub), hafter, hbefore, ← reached_eq_iff]
  constructor
  · intro h
    refine reached_of_subset (List.nodup_append.mp hnodup).1 fun who hwho => ?_
    have hmem := (h who).mpr ((mem_allTrue_iff _ who).mpr (hnames ▸ List.mem_append_left _ hwho))
    rcases List.mem_append.mp hmem with hreached | hglobal
    · exact hreached
    · exact absurd rfl ((List.nodup_append.mp hnodup).2.2 who hwho who hglobal)
  · intro h who
    rw [h, mem_allTrue_iff, hnames]

theorem paired_of_veto_iff {o : RouteOverload σ S} {ap globals : List (Aspect σ)} {d : σ}
    (hap : o.ap = some ap) (hall : ¬ AllTrue (o.aspects globals) d) (series : S) (d' : σ) :
    Paired (requestLog o.wrapHandler globals series d d') ↔
      (verdicts (o.aspects globals) d).head? = some false := by
  have hafter : afterCalls (requestLog o.wrapHandler globals series d d') = [] := by
    rw [calls_of_veto hap hall, afterCalls_vetoLog]
  -- no `after()` is called, which is right only where nobody agreed
  rw [paired_iff_of_nodup (hafter ▸ List.nodup_nil), hafter, calls_of_veto hap hall]
  cases haspects : o.aspects globals with
  | nil => exact absurd (by simp [haspects, AllTrue, verdicts]) hall
  | cons asp aspects =>
    rw [vetoLog, verdicts, List.head?_cons]
    cases hverdict : (asp.2.before d).1 with
    | true =>
      refine iff_of_false (fun h => ?_) (by simp)
      exact List.not_mem_nil ((h asp.1).mpr List.mem_cons_self)
    | false => simp [beforeCalls]

/-- **When the calls pair up.** In the log of a request through any overload every aspect
whose `before()` returned true has its `after()` called once, and no other has, exactly if
the results fit. -/
theorem paired_iff (o : RouteOverload σ S) (route : Bytes) (methods : Methods)
    (c : HandleCall (WrapHandler σ S)) (hc : c ∈ o.calls route methods)
    (globals : List (Aspect σ)) (series : S) (d d' : σ) :
    Paired (requestLog c.handler globals series d d') ↔ o.ResultsFit globals d d' := by
  rw [handler_of_mem_calls hc]
  unfold ResultsFit
  cases hap : o.ap with
  | none => exact paired_plain_iff hap globals series d d'
  | some ap =>
    by_cases hall : AllTrue (o.aspects globals) d
    · have hhead : ¬ (verdicts (o.aspects globals) d).head? = some false := fun h =>
        Bool.false_ne_true (hall false (List.mem_of_head? h))
      rw [paired_of_allTrue_iff hap hall]
      simp [hall, hhead]
    · rw [paired_of_veto_iff hap hall]
      simp [hall]

/-- An aspect that always answers `ret`. -/
def always (ret : Bool) : Aspect Unit := ⟨fun d => (ret, d), fun d => (ret, d)⟩

/-- An aspect that allocates one more and releases it; `ret` is what its `after()` answers. -/
def counting (ret : Bool) : Aspect Nat := ⟨fun d => (true, d + 1), fun d => (ret, d - 1)⟩

/-- A pack of two, the second of which returns false at its end, and a global aspect. -/
theorem paired_pack :
    let wrap := routeComputeSeriesHandlerAop 1 (fun series d => d + series)
      [counting true, counting false]
    afterCalls (requestLog wrap [counting true] 5 0 8) = [.route 0, .route 1, .global 0] ∧
      Paired (requestLog wrap [counting true] 5 0 8) :=
  ⟨by decide, (paired_iff
    ⟨.seriesHandler fun series d => d + series, some 1, some [counting true, counting false]⟩
    (ascii "/aop") (.methods [ascii "get", ascii "Put"])
    ⟨ascii "/aop", 1, _, .PUT⟩ (List.mem_cons_of_mem _ List.mem_cons_self)
    [counting true] 5 0 8).mpr (Or.inl ⟨by decide, by decide⟩)⟩

/-- The aspect of the pack agrees and a global one vetoes: the first is not released. -/
theorem not_paired_veto :
    ¬ Paired (requestLog (routeHandlerAop id [always true]) [always false] () () ()) := by
  intro h
  exact absurd (h (.route 0)) (by decide)

end RouteOverload

end Wfrest
