import Wfrest.Aop.Aspect

/-!
# The veto of an aspect

`aspect_veto_iff` says when an overload respects the verdicts of the aspects
(`Veto`). The wrappers with a pack of aspects do so always. The wrappers without
one call every global `before()` and drop the results, so they do so only if all
of these return true.

Both loops of `wrapAop` are one loop over the pack and the global aspects
(`aopBefore_eq`, `globalBefore_append`), and `vetoLog` is what it writes to the
log. `verdicts` are the results of calling every `before()`, one after the other.
-/

namespace Wfrest

variable {σ S : Type}

/-! ### The loops -/

/-- The results of all `before()`, each called on what the ones before it have
left. -/
def verdicts : List (Who × Aspect σ) → σ → List Bool
  | [], _ => []
  | asp :: aspects, d => (asp.2.before d).1 :: verdicts aspects (asp.2.before d).2

/-- Every `before()` returns true. -/
def AllTrue (aspects : List (Who × Aspect σ)) (d : σ) : Prop := ∀ b ∈ verdicts aspects d, b = true

instance (aspects : List (Who × Aspect σ)) (d : σ) : Decidable (AllTrue aspects d) :=
  inferInstanceAs (Decidable (∀ b ∈ verdicts aspects d, b = true))

/-- The calls of `before()` up to the first that returns false. -/
def vetoLog : List (Who × Aspect σ) → σ → List Event
  | [], _ => []
  | asp :: aspects, d =>
    let r := asp.2.before d
    .before asp.1 r.1 :: if r.1 then vetoLog aspects r.2 else []

/-- All calls of `before()`. -/
def fullLog : List (Who × Aspect σ) → σ → List Event
  | [], _ => []
  | asp :: aspects, d =>
    .before asp.1 (asp.2.before d).1 :: fullLog aspects (asp.2.before d).2

theorem allTrue_cons {asp : Who × Aspect σ} {aspects : List (Who × Aspect σ)} {d : σ} :
    AllTrue (asp :: aspects) d ↔
      (asp.2.before d).1 = true ∧ AllTrue aspects (asp.2.before d).2 := by
  simp [AllTrue, verdicts]

/-- The loop of `aop_before` stops calling at the first false. -/
theorem aopBefore_eq (aspects : List (Who × Aspect σ)) (t : ServerTask σ) :
    aopBefore aspects t = globalBefore aspects t := by
  -- after a false the loop goes on without calling anything
  have hfalse : ∀ (l : List (Who × Aspect σ)) (t : ServerTask σ),
      l.foldl (fun r item => if r.1 then r.2.callBefore item else r) (false, t) = (false, t) := by
    intro l
    induction l with
    | nil => exact fun _ => rfl
    | cons asp l ih => exact fun t => ih t
  have hloop : ∀ (l : List (Who × Aspect σ)) (t : ServerTask σ),
      l.foldl (fun r item => if r.1 then r.2.callBefore item else r) (true, t)
        = globalBefore l t := by
    intro l
    induction l with
    | nil => exact fun _ => rfl
    | cons asp l ih =>
      intro t
      rw [List.foldl_cons, globalBefore]
      change l.foldl _ (t.callBefore asp) = _
      obtain ⟨ret, t'⟩ := t.callBefore asp
      cases ret with
      | true => exact ih t'
      | false => exact hfalse l t'
  exact hloop aspects t

/-- Two loops in a row are one loop. -/
theorem globalBefore_append (l₁ l₂ : List (Who × Aspect σ)) (t : ServerTask σ) :
    globalBefore (l₁ ++ l₂) t =
      if (globalBefore l₁ t).1 then globalBefore l₂ (globalBefore l₁ t).2
      else globalBefore l₁ t := by
  induction l₁ generalizing t with
  | nil => rfl
  | cons asp l₁ ih =>
    rw [List.cons_append, globalBefore, globalBefore]
    obtain ⟨ret, t'⟩ := t.callBefore asp
    cases ret with
    | true => exact ih t'
    | false => rfl

/-- **The stopping loop**: what it answers, logs and leaves. -/
theorem globalBefore_spec (aspects : List (Who × Aspect σ)) (t : ServerTask σ) :
    ((globalBefore aspects t).1 = true ↔ AllTrue aspects t.data) ∧
      (globalBefore aspects t).2.log = t.log ++ vetoLog aspects t.data ∧
      (globalBefore aspects t).2.cbList = t.cbList := by
  induction aspects generalizing t with
  | nil => simp [globalBefore, AllTrue, verdicts, vetoLog]
  | cons asp aspects ih =>
    obtain ⟨hret, hlog, hcb⟩ := ih (t.callBefore asp).2
    rw [globalBefore, allTrue_cons, vetoLog]
    change ((if (asp.2.before t.data).1 then _ else _ : Bool × ServerTask σ).1 = true ↔ _) ∧ _
    cases hverdict : (asp.2.before t.data).1 with
    | true =>
      have hcall : (t.callBefore asp).1 = true := hverdict
      simp only [hcall, if_true]
      refine ⟨by rw [hret]; simp [ServerTask.callBefore], ?_, hcb⟩
      rw [hlog]
      simp [ServerTask.callBefore, hverdict]
    | false =>
      simp [ServerTask.callBefore, hverdict]

/-- **The other loop** calls every aspect. -/
theorem plainBefore_spec (aspects : List (Who × Aspect σ)) (t : ServerTask σ) :
    (plainBefore aspects t).log = t.log ++ fullLog aspects t.data ∧
      (plainBefore aspects t).cbList = t.cbList := by
  induction aspects generalizing t with
  | nil => simp [plainBefore, fullLog]
  | cons asp aspects ih =>
    obtain ⟨hlog, hcb⟩ := ih (t.callBefore asp).2
    rw [plainBefore, List.foldl_cons]
    refine ⟨?_, hcb⟩
    change (plainBefore aspects (t.callBefore asp).2).log = _
    rw [hlog, fullLog]
    simp [ServerTask.callBefore]

/-- If nobody vetoes, the two loops do the same. -/
theorem plainBefore_of_allTrue {aspects : List (Who × Aspect σ)} {t : ServerTask σ}
    (h : AllTrue aspects t.data) : globalBefore aspects t = (true, plainBefore aspects t) := by
  induction aspects generalizing t with
  | nil => rfl
  | cons asp aspects ih =>
    obtain ⟨hverdict, hrest⟩ := allTrue_cons.mp h
    have hcall : (t.callBefore asp).1 = true := hverdict
    rw [globalBefore, plainBefore, List.foldl_cons]
    simp only [hcall, if_true]
    exact ih hrest

/-! ### Reading the log -/

/-- The calls of `before()` with their results. -/
def beforeCalls (log : List Event) : List (Who × Bool) :=
  log.filterMap fun
    | .before who ret => some (who, ret)
    | _ => none

/-- The user handler ran, or its go task was created. -/
def Ran (log : List Event) : Prop := .handler ∈ log ∨ ∃ queue, .createGoTask queue ∈ log

/-- No `before()` is called after one that returned false. -/
def StopsAtVeto (log : List Event) : Prop :=
  log.Pairwise fun e e' => (∃ who, e = .before who false) → ∀ who ret, e' ≠ .before who ret

theorem beforeCalls_append (l l' : List Event) :
    beforeCalls (l ++ l') = beforeCalls l ++ beforeCalls l' := List.filterMap_append

theorem beforeCalls_fullLog (aspects : List (Who × Aspect σ)) (d : σ) :
    beforeCalls (fullLog aspects d) = (aspects.map Prod.fst).zip (verdicts aspects d) := by
  induction aspects generalizing d with
  | nil => rfl
  | cons asp aspects ih =>
    have := ih (asp.2.before d).2
    simpa [beforeCalls, fullLog, verdicts] using this

/-- Every `before()` was called and returned true, in a log of all calls. -/
theorem beforeCalls_fullLog_iff (aspects : List (Who × Aspect σ)) (d : σ) :
    beforeCalls (fullLog aspects d) = aspects.map (fun asp => (asp.1, true)) ↔
      AllTrue aspects d := by
  rw [beforeCalls_fullLog]
  induction aspects generalizing d with
  | nil => simp [AllTrue, verdicts]
  | cons asp aspects ih =>
    rw [allTrue_cons, ← ih]
    simp [verdicts]

/-- The same for a log that ends at the first false. -/
theorem beforeCalls_vetoLog_iff (aspects : List (Who × Aspect σ)) (d : σ) :
    beforeCalls (vetoLog aspects d) = aspects.map (fun asp => (asp.1, true)) ↔
      AllTrue aspects d := by
  induction aspects generalizing d with
  | nil => simp [AllTrue, verdicts, vetoLog, beforeCalls]
  | cons asp aspects ih =>
    rw [allTrue_cons, ← ih, vetoLog]
    cases hverdict : (asp.2.before d).1 <;> simp [beforeCalls]

theorem not_ran_vetoLog (aspects : List (Who × Aspect σ)) (d : σ) :
    ¬ Ran (vetoLog aspects d) := by
  induction aspects generalizing d with
  | nil => simp [Ran, vetoLog]
  | cons asp aspects ih =>
    have := ih (asp.2.before d).2
    rw [vetoLog]
    rw [Ran] at this ⊢
    cases (asp.2.before d).1 <;> simp [this]

theorem stopsAtVeto_vetoLog (aspects : List (Who × Aspect σ)) (d : σ) :
    StopsAtVeto (vetoLog aspects d) := by
  induction aspects generalizing d with
  | nil => exact List.Pairwise.nil
  | cons asp aspects ih =>
    rw [vetoLog]
    cases hverdict : (asp.2.before d).1 with
    | true =>
      refine List.pairwise_cons.mpr ⟨fun e _ => ?_, ih _⟩
      rintro ⟨who, hwho⟩
      simp at hwho
    | false => exact List.pairwise_singleton _ _

/-! ### The handler -/

namespace RouteOverload

/-- The one event that stands for the user handler. -/
def ranEvent (o : RouteOverload σ S) : Event :=
  match o.computeQueueId with
  | none => .handler
  | some queue => .createGoTask (queueName queue)

theorem run_spec (o : RouteOverload σ S) (series : S) (t : ServerTask σ) :
    (o.run series t).1.log = t.log ++ [o.ranEvent] ∧ (o.run series t).1.cbList = t.cbList := by
  obtain ⟨h, queue, ap⟩ := o
  cases h <;> cases queue <;> exact ⟨rfl, rfl⟩

theorem ran_concat (o : RouteOverload σ S) (log : List Event) : Ran (log ++ [o.ranEvent]) := by
  unfold ranEvent
  cases o.computeQueueId with
  | none => exact Or.inl (by simp)
  | some queue => exact Or.inr ⟨queueName queue, by simp⟩

theorem beforeCalls_concat (o : RouteOverload σ S) (log : List Event) :
    beforeCalls (log ++ [o.ranEvent]) = beforeCalls log := by
  rw [beforeCalls_append]
  unfold ranEvent
  cases o.computeQueueId <;> simp [beforeCalls]

theorem stopsAtVeto_concat (o : RouteOverload σ S) {log : List Event} (h : StopsAtVeto log) :
    StopsAtVeto (log ++ [o.ranEvent]) := by
  refine List.pairwise_append.mpr ⟨h, List.pairwise_singleton _ _, fun e _ e' he' _ who ret => ?_⟩
  rw [List.mem_singleton.mp he']
  unfold ranEvent
  cases o.computeQueueId <;> simp

/-- The aspects that guard the handler: the pack, then the global ones. -/
def aspects (o : RouteOverload σ S) (globals : List (Aspect σ)) : List (Who × Aspect σ) :=
  named Who.route (o.ap.getD []) ++ named Who.global globals

/-- What can be seen of a run: the state and the log it leaves, the go task, and
what the callbacks will do. -/
def observe (globals : List (Aspect σ)) (r : ServerTask σ × Option (GoTask σ)) :
    σ × List Event × Option (GoTask σ) × (ServerTask σ → ServerTask σ) :=
  (r.1.data, r.1.log, r.2, runCallbacks globals r.1.cbList)

/-- A fresh task on a request. -/
def fresh (d : σ) : ServerTask σ := ⟨d, [], []⟩

/-- **The veto is respected** for one request: the handler runs iff every
`before()` was called and returned true; none is called after one that returned
false; and the overload behaves as the one with a pack, empty if it has none. -/
structure Veto (o : RouteOverload σ S) (wrap : WrapHandler σ S) (globals : List (Aspect σ))
    (series : S) (d : σ) : Prop where
  ran_iff : Ran (wrap globals series (fresh d)).1.log ↔
    beforeCalls (wrap globals series (fresh d)).1.log
      = (o.aspects globals).map fun asp => (asp.1, true)
  stops : StopsAtVeto (wrap globals series (fresh d)).1.log
  uniform : observe globals (wrap globals series (fresh d))
    = observe globals (o.withPack.wrapHandler globals series (fresh d))

/-- The wrappers with a pack run one loop over all aspects. -/
theorem wrapAop_eq (ap globals : List (Aspect σ))
    (run : S → ServerTask σ → ServerTask σ × Option (GoTask σ)) (series : S) (t : ServerTask σ) :
    wrapAop ap run globals series t =
      let r := globalBefore (named Who.route ap ++ named Who.global globals) t
      if r.1 then ((run series r.2).1.addCallback (.aopAfter ap), (run series r.2).2)
      else (r.2, none) := by
  unfold wrapAop
  rw [aopBefore_eq, globalBefore_append]
  cases h : (globalBefore (named Who.route ap) t).1 with
  | false => simp [h]
  | true =>
    simp only [h, Bool.not_true, Bool.false_eq_true, if_false, if_true]
    cases (globalBefore (named Who.global globals) (globalBefore (named Who.route ap) t).2).1 <;>
      rfl

theorem veto_of_pack {o : RouteOverload σ S} {ap : List (Aspect σ)} (hap : o.ap = some ap)
    (globals : List (Aspect σ)) (series : S) (d : σ) :
    o.Veto o.wrapHandler globals series d := by
  have hself : o.withPack = o := by
    -- an overload with a pack is its own comparison, so only the log needs work
    obtain ⟨h, queue, ap'⟩ := o
    subst hap
    rfl
  have hwrap : o.wrapHandler = wrapAop ap o.run := by rw [wrapHandler_eq, hap]
  have haspects : named Who.route ap ++ named Who.global globals = o.aspects globals := by
    rw [aspects, hap]
    rfl
  obtain ⟨hret, hlog, -⟩ := globalBefore_spec (o.aspects globals) (fresh d)
  have hrun : (o.wrapHandler globals series (fresh d)).1.log =
      -- the handler has logged its event exactly if the stopping loop went through
      if AllTrue (o.aspects globals) d then vetoLog (o.aspects globals) d ++ [o.ranEvent]
      else vetoLog (o.aspects globals) d := by
    rw [hwrap, wrapAop_eq, haspects]
    by_cases hall : AllTrue (o.aspects globals) d
    · simp only [hret.mpr hall, if_true, if_pos hall]
      change (o.run series _).1.log = _
      rw [(o.run_spec series _).1, hlog]
      rfl
    -- a vetoed call ends before the handler, with the log of the loop
    · have hfalse : (globalBefore (o.aspects globals) (fresh d)).1 = false := by
        rw [← Bool.not_eq_true]
        exact fun h => hall (hret.mp h)
      simp only [hfalse, Bool.false_eq_true, if_false, if_neg hall]
      exact hlog
  refine ⟨?_, ?_, by rw [hself]⟩
  · rw [hrun]
    split
    · next hall =>
      rw [o.beforeCalls_concat, beforeCalls_vetoLog_iff]
      exact iff_of_true (o.ran_concat _) hall
    · next hall =>
      rw [beforeCalls_vetoLog_iff]
      exact iff_of_false (not_ran_vetoLog _ _) hall
  · rw [hrun]
    split
    · exact o.stopsAtVeto_concat (stopsAtVeto_vetoLog _ _)
    · exact stopsAtVeto_vetoLog _ _

/-- If nobody vetoes, a wrapper without a pack does what the one with an empty
pack does. Only the lists of callbacks differ, by one that has nothing to do. -/
theorem observe_plain_eq {o : RouteOverload σ S} (hap : o.ap = none)
    {globals : List (Aspect σ)} {t : ServerTask σ} (hcb : t.cbList = [])
    (hall : AllTrue (named Who.global globals) t.data) (series : S) :
    observe globals (o.wrapHandler globals series t)
      = observe globals (o.withPack.wrapHandler globals series t) := by
  have hplain : o.wrapHandler = wrapPlain o.run := by rw [wrapHandler_eq, hap]
  have hpack : o.withPack.wrapHandler = wrapAop [] o.run := by
    rw [wrapHandler_eq, run_withPack, withPack, hap]
    rfl
  have hbefore := plainBefore_of_allTrue hall
  have hnil : (o.run series (plainBefore (named Who.global globals) t)).1.cbList = [] := by
    rw [(o.run_spec series _).2, (plainBefore_spec _ t).2, hcb]
  have hloop : globalBefore (named Who.route [] ++ named Who.global globals) t
      = (true, plainBefore (named Who.global globals) t) := hbefore
  rw [hplain, hpack, wrapAop_eq, hloop, wrapPlain]
  cases globals with
  | nil =>
    -- the wrapper without a pack adds its callback only if there are global aspects
    simp only [List.isEmpty_nil, if_true, observe, ServerTask.addCallback, hnil]
    rfl
  | cons asp globals =>
    simp only [List.isEmpty_cons, Bool.false_eq_true, if_false, if_true, observe,
      ServerTask.addCallback, hnil]
    rfl

/-- **The veto is respected** by the overloads with a pack of aspects always, and
by those without one exactly if every global `before()` returns true. -/
theorem aspect_veto_iff (o : RouteOverload σ S) (route : Bytes) (methods : Methods)
    (c : HandleCall (WrapHandler σ S)) (hc : c ∈ o.calls route methods)
    (globals : List (Aspect σ)) (series : S) (d : σ) :
    o.Veto c.handler globals series d ↔
      o.ap.isSome ∨ AllTrue (named Who.global globals) d := by
  rw [handler_of_mem_calls hc]
  cases hap : o.ap with
  | some ap => exact iff_of_true (veto_of_pack hap globals series d) (Or.inl rfl)
  | none =>
    have hwrap : o.wrapHandler = wrapPlain o.run := by rw [wrapHandler_eq, hap]
    have haspects : o.aspects globals = named Who.global globals := by
      rw [aspects, hap]
      rfl
    obtain ⟨hlog, -⟩ := plainBefore_spec (named Who.global globals) (fresh d)
    have hrun : (o.wrapHandler globals series (fresh d)).1.log
        -- this wrapper drops the verdicts: it calls every aspect and then the handler
        = fullLog (named Who.global globals) d ++ [o.ranEvent] := by
      rw [hwrap, wrapPlain]
      split
      · rw [(o.run_spec series _).1, hlog]
        rfl
      · change (o.run series _).1.log = _
        rw [(o.run_spec series _).1, hlog]
        rfl
    rw [Option.isSome_none, or_iff_right Bool.false_ne_true]
    constructor
    · rintro ⟨hran, -, -⟩
      -- the handler has run, so every `before()` of the full log must have said true
      have hcalls := hran.mp (by rw [hrun]; exact o.ran_concat _)
      rwa [hrun, o.beforeCalls_concat, haspects, beforeCalls_fullLog_iff] at hcalls
    · intro hall
      -- nobody vetoes: the wrapper logs what the one with an empty pack does
      have hpack := veto_of_pack (o := o.withPack) rfl globals series d
      have haspects' : o.withPack.aspects globals = o.aspects globals := by
        rw [haspects, aspects, withPack, hap]
        rfl
      have huniform := observe_plain_eq hap (t := fresh d) rfl hall series
      have hlogs := congrArg (fun x => x.2.1) huniform
      change (o.wrapHandler globals series (fresh d)).1.log
        = (o.withPack.wrapHandler globals series (fresh d)).1.log at hlogs
      refine ⟨?_, ?_, huniform⟩
      · rw [hlogs, ← haspects']
        exact hpack.ran_iff
      · rw [hlogs]
        exact hpack.stops

/-- A global aspect that vetoes, and an overload with an empty pack. -/
theorem aspect_veto_pack :
    Veto ⟨.handler id, none, some []⟩ (routeHandlerAop id [])
      [⟨fun d => (false, d), fun d => (true, d)⟩] () () :=
  (aspect_veto_iff ⟨.handler id, none, some []⟩ (ascii "/api") (.verb .GET)
    ⟨ascii "/api", -1, routeHandlerAop id [], .GET⟩ List.mem_cons_self _ () ()).mpr (Or.inl rfl)

/-- The same aspect does not stop the overload without a pack. -/
theorem not_veto_plain :
    ¬ Veto ⟨.handler id, none, none⟩ (routeHandler id) [⟨fun d => (false, d), fun d => (true, d)⟩]
      () () := by
  intro h
  have hcalls := h.ran_iff.mp (Or.inl (by decide))
  revert hcalls
  decide

end RouteOverload

end Wfrest
