import Wfrest.Base.UrlDecode
import Wfrest.Route.Router

/-!
# `Router::print_routes`

`print_routes` prints a line for every verb of every route, and decodes a route that looks
encoded. It prints with `%s`, so a text ends at its first zero byte: a route registered as
`url_encode(s)` is shown as `s` unless `s` has one (`urlCoding`).
-/

namespace Wfrest

/-- `verb_to_str` -/
def verbToStr : Verb → Bytes
  | .ANY => ascii "ANY"
  | .GET => ascii "GET"
  | .POST => ascii "POST"
  | .PUT => ascii "PUT"
  | .DELETE => ascii "DELETE"
  | .HEAD => ascii "HEAD"
  | .PATCH => ascii "PATCH"

namespace Router

open CodeUtil

variable {H : Type}

/-- The second `%s` of a line. -/
def shownRoute (route : Bytes) : Bytes :=
  if isUrlEncode route then cStr (urlDecode route) else cStr route

/-- A line of `print_routes`. -/
def routeLine (verb : Verb) (shown : Bytes) : Bytes :=
  ascii "[WFREST] " ++ verbToStr verb ++ ascii "\t" ++ shown ++ ascii "\n"

/-- What `Router::print_routes` writes to `stderr`. -/
def printRoutes (r : Router H) : Bytes :=
  r.routes.flatMap fun rv =>
    rv.2.flatMap fun verb => routeLine verb.1 (shownRoute (OrderDual.ofDual rv.1))

/-- An encoded text is shown as the text, up to its first zero byte. -/
theorem shownRoute_urlEncode (s : Bytes) : shownRoute (urlEncode s) = cStr s := by
  unfold shownRoute
  split
  next => rw [urlDecode_urlEncode]
  next h => rw [urlEncode_eq_self_of_not_isUrlEncode (Bool.eq_false_iff.mpr h)]

/-! ### The routes that are printed -/

/-- The verb is in the entry of the route. -/
def Lists (r : Router H) (route : Bytes) (verb : Verb) : Prop :=
  ∃ verbs, OrdMap.get? (OrderDual.toDual route) r.routes = some verbs ∧
    OrdMap.get? verb verbs = some ()

theorem Lists.handle_self (r : Router H) (route : Bytes) (queue : Int) (handler : H)
    (verb : Verb) : (r.handle route queue handler verb).Lists route verb := by
  refine ⟨_, (OrdMap.get?_set ..).trans (if_pos rfl), ?_⟩
  exact (OrdMap.get?_insert ..).trans (if_pos rfl)

/-- What is registered stays. -/
theorem Lists.handle {r : Router H} {route : Bytes} {verb : Verb} (h : r.Lists route verb)
    (route' : Bytes) (queue : Int) (handler : H) (verb' : Verb) :
    (r.handle route' queue handler verb').Lists route verb := by
  obtain ⟨verbs, hroute, hverb⟩ := h
  by_cases hr : route = route'
  · subst hr
    refine ⟨_, (OrdMap.get?_set ..).trans (if_pos rfl), ?_⟩
    rw [hroute]
    refine (OrdMap.get?_insert ..).trans ?_
    split
    · rfl
    · exact hverb
  · refine ⟨verbs, ?_, hverb⟩
    have hne : OrderDual.toDual route ≠ OrderDual.toDual route' := hr
    exact (OrdMap.get?_set ..).trans ((if_neg hne).trans hroute)

theorem Lists.apply {r : Router H} {route : Bytes} {verb : Verb} (h : r.Lists route verb)
    (op : RouterOp H) : (op.apply r).Lists route verb := by
  cases op with
  | findOrCreate route' f => exact h
  | handle route' queue handler verb' => exact h.handle route' queue handler verb'

theorem Lists.foldl {r : Router H} {route : Bytes} {verb : Verb} (h : r.Lists route verb)
    (ops : List (RouterOp H)) : (ops.foldl RouterOp.apply r).Lists route verb := by
  induction ops generalizing r with
  | nil => exact h
  | cons op ops ih => exact ih (h.apply op)

/-- **A registered route is listed**, whatever is registered before and after it. -/
theorem lists_of_mem {ops : List (RouterOp H)} {route : Bytes} {queue : Int} {handler : H}
    {verb : Verb} (h : RouterOp.handle route queue handler verb ∈ ops) :
    (ofOps ops).Lists route verb := by
  obtain ⟨before, after, rfl⟩ := List.append_of_mem h
  rw [ofOps, List.foldl_append, List.foldl_cons]
  exact (Lists.handle_self _ route queue handler verb).foldl after

/-- A listed route has its line. -/
theorem Lists.printed {r : Router H} {route : Bytes} {verb : Verb}
    (h : r.Lists route verb) : routeLine verb (shownRoute route) <:+: printRoutes r := by
  obtain ⟨verbs, hroute, hverb⟩ := h
  have hline : routeLine verb (shownRoute route) <:+:
      verbs.flatMap fun verb => routeLine verb.1 (shownRoute route) :=
    List.infix_of_mem_flatten (List.mem_map.mpr ⟨_, OrdMap.mem_of_get? hverb, rfl⟩)
  have hlines : (verbs.flatMap fun verb => routeLine verb.1 (shownRoute route)) <:+:
      printRoutes r :=
    List.infix_of_mem_flatten (List.mem_map.mpr ⟨_, OrdMap.mem_of_get? hroute, rfl⟩)
  exact hline.trans hlines

/-- **Decoding undoes encoding**, up to what `%s` can show. -/
theorem urlCoding :
    (∀ s, urlDecode (urlEncode s) = s) ∧ Function.Injective urlEncode ∧
      (∀ s, Encoded (urlEncode s)) ∧ (∀ s, shownRoute (urlEncode s) = cStr s) ∧
      (∀ s, shownRoute (urlEncode s) = s ↔ 0 ∉ s) ∧
      ∀ (ops : List (RouterOp H)) s queue handler verb,
        RouterOp.handle (urlEncode s) queue handler verb ∈ ops →
          routeLine verb (cStr s) <:+: printRoutes (ofOps ops) := by
  refine ⟨urlDecode_urlEncode, urlEncode_injective, encoded_urlEncode, shownRoute_urlEncode,
    fun s => ?_, fun ops s queue handler verb h => ?_⟩
  · rw [shownRoute_urlEncode]
    constructor
    · intro hs
      rw [← hs]
      exact zero_notMem_cStr s
    · exact cStr_eq_self
  · rw [← shownRoute_urlEncode]
    exact (lists_of_mem h).printed

/-- A text with a zero byte is not shown whole. -/
theorem not_shownRoute_zero :
    ¬ ((∀ s, urlDecode (urlEncode s) = s) ∧ Function.Injective urlEncode ∧
      (∀ s, Encoded (urlEncode s)) ∧ ∀ s, shownRoute (urlEncode s) = s) := by
  rintro ⟨-, -, -, hshown⟩
  exact absurd (hshown [97, 0, 98]) (by decide)

end Router

end Wfrest
