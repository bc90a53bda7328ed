import Wfrest.Route.Context

/-!
# A trailing slash

`Router::call` hides a slash at the end of the path by looking up a shorter view of
the same buffer. The lookup stays inside the view up to the wildcard step, which
builds its `match_path` from a plain `const char *` and so reads the slash again.

`call_slash_iff`: the slash changes the answer exactly when the handler that runs
was found by a wildcard step, and no NUL behind the captured segment stops the
reading before the slash.
-/

namespace Wfrest

variable {H : Type}

theorem cStr_append_of_mem {s : Bytes} (h : 0 ∈ s) (t : Bytes) : cStr (s ++ t) = cStr s := by
  unfold cStr
  rw [List.takeWhile_append, if_neg]
  intro hlen
  have heq := (List.takeWhile_prefix (p := (· ≠ 0)) (l := s)).eq_of_length hlen
  exact zero_notMem_cStr s (by rw [cStr, heq]; exact h)

/-- A byte behind a string shows in the C string unless a NUL comes first. -/
theorem cStr_concat_eq_iff {s : Bytes} {b : UInt8} (hb : b ≠ 0) :
    cStr (s ++ [b]) = cStr s ↔ 0 ∈ s := by
  refine ⟨fun h => ?_, fun h => cStr_append_of_mem h [b]⟩
  by_contra hmem
  have hboth : 0 ∉ s ++ [b] := by
    rw [List.mem_append, List.mem_singleton]
    rintro (h0 | h0)
    · exact hmem h0
    · exact hb h0.symm
  rw [cStr_eq_self hmem, cStr_eq_self hboth] at h
  simpa using congrArg List.length h

namespace Router

open RouteTableNode

/-- An answer shows the context if there is a handler to run. -/
theorem answer_eq_iff (verb : Verb) (vh : VerbHandler H) (ctx ctx' : RouteCtx) :
    answer verb vh ctx = answer verb vh ctx' ↔
      ((OrdMap.get? verb vh.verbHandlerMap).or (OrdMap.get? Verb.ANY vh.verbHandlerMap)).isSome →
        ctx = ctx' := by
  obtain ⟨ps, mp⟩ := ctx
  obtain ⟨ps', mp'⟩ := ctx'
  unfold answer
  cases OrdMap.get? verb vh.verbHandlerMap <;>
    cases OrdMap.get? Verb.ANY vh.verbHandlerMap <;> simp

/-- The path and the path with a slash behind it are answered alike. -/
def SlashBlind (ops : List (RouterOp H)) (verb : Verb) (path : Bytes) : Prop :=
  (ofOps ops).call verb (path ++ [slash]) = (ofOps ops).call verb path

/-- A handler runs that a wildcard step has found, and no NUL stands behind the
segment at which the step was taken. -/
def CapturesEnd (ops : List (RouterOp H)) (verb : Verb) (path : Bytes) : Prop :=
  (∃ handler, (ofOps ops).Runs verb path handler) ∧ endsWild (trail ops path) = true ∧
    0 ∉ afterSegs (keysOf (trail ops path)).length path

/-- The context of the path with the slash, next to that of the path. -/
private theorem context_slash_iff (ops : List (RouterOp H)) {path : Bytes} (hne : path ≠ [])
    (hlast : path.getLast? ≠ some slash) :
    context ops (path ++ [slash]) = context ops path ↔
      (endsWild (trail ops path) = true → 0 ∈ afterSegs (keysOf (trail ops path)).length path) := by
  have hp := callPath_of_ne hlast
  have hps := callPath_concat_slash hne
  have hparams : (context ops (path ++ [slash])).routeParams = (context ops path).routeParams := by
    unfold context
    rw [hp, hps]
  have hctx : context ops (path ++ [slash]) = context ops path ↔
      (context ops (path ++ [slash])).routeMatchPath = (context ops path).routeMatchPath := by
    rw [RouteCtx.mk.injEq]
    exact and_iff_right hparams
  rw [hctx]
  cases hw : endsWild (trail ops path) with
  | false =>
    rw [routeMatchPath_eq_nil ops path (by rw [hp]; exact hw),
      routeMatchPath_eq_nil ops (path ++ [slash]) (by rw [hps]; exact hw)]
    simp
  | true =>
    obtain ⟨i, hi, hlen, htext⟩ := captured_spec ops path (by rw [hp]; exact hw)
    obtain ⟨j, hj, hlen', htext'⟩ := captured_spec ops (path ++ [slash]) (by rw [hps]; exact hw)
    simp only [hp] at hi hlen htext
    simp only [hps] at hj hlen' htext'
    obtain rfl : i = j := by omega
    -- the slash is what the two captures differ in
    have hafter : afterSegs (i + 1) (path ++ [slash]) = afterSegs (i + 1) path ++ [slash] := by
      rw [afterSegs_succ, afterSegs_succ, afterSegs_append (Or.inr rfl) hi,
        tailSegs_append (afterSegs_ne_nil_iff.mpr hi) (Or.inr rfl)]
    rw [htext, htext', hafter, List.append_cancel_left_eq, cStr_concat_eq_iff (by decide), ← hlen]
    simp

/-- **When a trailing slash matters**: a handler runs that was found by a wildcard
step, and the slash is within what the step reads. -/
theorem call_slash_iff (ops : List (RouterOp H)) (verb : Verb) (path : Bytes) (hne : path ≠ [])
    (hlast : path.getLast? ≠ some slash) :
    SlashBlind ops verb path ↔ ¬ CapturesEnd ops verb path := by
  have hp := callPath_of_ne hlast
  have hruns : (∃ handler, (ofOps ops).Runs verb path handler) ↔
      ∃ q, findPtr ops path = .ok (some q) ∧
        ((OrdMap.get? verb (Trie.valAt q (tree ops)).verbHandlerMap).or
          (OrdMap.get? Verb.ANY (Trie.valAt q (tree ops)).verbHandlerMap)).isSome := by
    simp only [runs_iff, hp, Option.isSome_iff_exists]
    exact ⟨fun ⟨h, q, hq⟩ => ⟨q, hq.1, h, hq.2⟩, fun ⟨q, hq, h, hh⟩ => ⟨h, q, hq, hh⟩⟩
  unfold SlashBlind CapturesEnd
  rw [call_spec, call_spec, hp, callPath_concat_slash hne, hruns]
  cases hfind : findPtr ops path with
  | error e => simp [Except.map]
  | ok o =>
    cases o with
    | none => simp [Except.map]
    | some q =>
      have hstep := answer_eq_iff verb (Trie.valAt q (tree ops)) (context ops (path ++ [slash]))
        (context ops path)
      rw [context_slash_iff ops hne hlast] at hstep
      simp only [Except.map, Except.ok.injEq, Option.some.injEq, exists_eq_left']
      rw [hstep]
      tauto

/-- A parameter route answers alike. -/
theorem call_slash_param :
    SlashBlind [RouterOp.handle (ascii "/user/\x7bid\x7d") 0 () .GET] .GET (ascii "/user/7") :=
  (call_slash_iff _ _ _ (by decide) (by decide)).mpr fun h => by
    have hw : endsWild (trail [RouterOp.handle (ascii "/user/\x7bid\x7d") 0 () .GET]
        (ascii "/user/7")) = false := by decide +kernel
    exact Bool.false_ne_true (hw.symm.trans h.2.1)

/-- `/static/*` with the path `/static/x`: the match path is `x`, or `x/`. -/
theorem not_slashBlind_wildcard :
    ¬ SlashBlind [RouterOp.handle (ascii "/static/*") 0 () .GET] .GET (ascii "/static/x") := by
  have hplain : (ofOps [RouterOp.handle (ascii "/static/*") 0 () .GET]).call .GET
      (ascii "/static/x") = .ok (.run () (ascii "/static/*") [] (ascii "x")) := by decide +kernel
  have hslash : (ofOps [RouterOp.handle (ascii "/static/*") 0 () .GET]).call .GET
      (ascii "/static/x" ++ [slash]) = .ok (.run () (ascii "/static/*") [] (ascii "x/")) := by
    decide +kernel
  unfold SlashBlind
  rw [hplain, hslash]
  decide

end Router

end Wfrest
