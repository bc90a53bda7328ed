import Wfrest.Route.BluePrint

/-!
# Aspects and the `ROUTE` overloads

A `ROUTE` overload wraps the user's handler into a `WrapHandler`, which runs the
`before()` of the aspects, then the handler, and leaves a callback for the
`after()`. There are eight wrappers: a `Handler` or a `SeriesHandler`, with or
without a compute queue, with or without a pack of aspects. The source writes
each of them out; here the two shapes are `wrapPlain` and `wrapAop`, and every
overload is one of them applied to its own way of running the handler.

Aspects and handlers are functions on the request and response, which are one
state `σ`. A `ServerTask` also carries the log of what was called and the list of
callbacks.
-/

namespace Wfrest

/-- An aspect. Both methods may change the response and return a verdict. -/
structure Aspect (σ : Type) where
  before : σ → Bool × σ
  after : σ → Bool × σ

/-- Whose method is called: an aspect of the pack, or of the global list. -/
inductive Who where
  | route (i : Nat)
  | global (i : Nat)
  deriving DecidableEq, Repr

/-- What happens to a request. -/
inductive Event where
  | before (who : Who) (ret : Bool)
  | handler
  | createGoTask (queueName : Bytes)
  | after (who : Who) (ret : Bool)
  deriving DecidableEq, Repr

/-- The lambdas that are given to `add_callback`. -/
inductive Callback (σ : Type) where
  /-- `after()` of the global aspects. -/
  | globalAfter
  /-- `aop_after` of the pack, then `after()` of the global aspects. -/
  | aopAfter (tp : List (Aspect σ))

/-- A server task. -/
structure ServerTask (σ : Type) where
  data : σ
  log : List Event
  cbList : List (Callback σ)

/-- A task for a compute queue, which will run the bound handler. -/
structure GoTask (σ : Type) where
  queueName : Bytes
  func : σ → σ

/-- `Handler` and `SeriesHandler`; `S` is the type of series. -/
inductive UserHandler (σ S : Type) where
  | handler (f : σ → σ)
  | seriesHandler (f : S → σ → σ)

/-- A wrapped handler: the global aspects, the series, and the task it runs on. -/
abbrev WrapHandler (σ S : Type) :=
  List (Aspect σ) → S → ServerTask σ → ServerTask σ × Option (GoTask σ)

variable {σ S : Type}

/-! ### `before()` and `after()` -/

/-- The aspects of a list with their names. -/
def named (who : Nat → Who) (aspects : List (Aspect σ)) : List (Who × Aspect σ) :=
  aspects.zipIdx.map fun e => (who e.2, e.1)

namespace ServerTask

/-- `asp->before(req, resp)` -/
def callBefore (t : ServerTask σ) (asp : Who × Aspect σ) : Bool × ServerTask σ :=
  let r := asp.2.before t.data
  (r.1, { t with data := r.2, log := t.log ++ [.before asp.1 r.1] })

/-- `asp->after(req, resp)` -/
def callAfter (t : ServerTask σ) (asp : Who × Aspect σ) : Bool × ServerTask σ :=
  let r := asp.2.after t.data
  (r.1, { t with data := r.2, log := t.log ++ [.after asp.1 r.1] })

/-- `HttpServerTask::add_callback` -/
def addCallback (t : ServerTask σ) (cb : Callback σ) : ServerTask σ :=
  { t with cbList := t.cbList ++ [cb] }

end ServerTask

/-- `aop_before`: `for_each` visits every aspect, and the lambda does nothing
once `ret` is false. -/
def aopBefore (tp : List (Who × Aspect σ)) (t : ServerTask σ) : Bool × ServerTask σ :=
  tp.foldl (fun r item => if r.1 then r.2.callBefore item else r) (true, t)

/-- `aop_after`, in the same way. -/
def aopAfter (tp : List (Who × Aspect σ)) (t : ServerTask σ) : Bool × ServerTask σ :=
  tp.foldl (fun r item => if r.1 then r.2.callAfter item else r) (true, t)

/-- The loop over the global aspects which returns at the first false. -/
def globalBefore : List (Who × Aspect σ) → ServerTask σ → Bool × ServerTask σ
  | [], t => (true, t)
  | asp :: aspects, t =>
    let r := t.callBefore asp
    if r.1 then globalBefore aspects r.2 else r

/-- The loop over the global aspects which ignores the verdicts. -/
def plainBefore (aspects : List (Who × Aspect σ)) (t : ServerTask σ) : ServerTask σ :=
  aspects.foldl (fun t asp => (t.callBefore asp).2) t

/-- The loop over the global aspects inside the callbacks. -/
def globalAfter (aspects : List (Who × Aspect σ)) (t : ServerTask σ) : ServerTask σ :=
  aspects.foldl (fun t asp => (t.callAfter asp).2) t

/-- A callback runs. -/
def Callback.run (globals : List (Aspect σ)) (cb : Callback σ) (t : ServerTask σ) :
    ServerTask σ :=
  match cb with
  | globalAfter => Wfrest.globalAfter (named Who.global globals) t
  | aopAfter tp =>
    Wfrest.globalAfter (named Who.global globals) (Wfrest.aopAfter (named Who.route tp) t).2

/-- The callback of the server task runs everything in `cb_list_`, in order. -/
def runCallbacks (globals : List (Aspect σ)) (cbList : List (Callback σ)) (t : ServerTask σ) :
    ServerTask σ :=
  cbList.foldl (fun t cb => cb.run globals t) t

/-! ### Running the handler -/

/-- `handler(req, resp)` -/
def runHandler (f : σ → σ) : S → ServerTask σ → ServerTask σ × Option (GoTask σ) :=
  fun _ t => ({ t with data := f t.data, log := t.log ++ [.handler] }, none)

/-- `handler(req, resp, series)` -/
def runSeriesHandler (f : S → σ → σ) : S → ServerTask σ → ServerTask σ × Option (GoTask σ) :=
  fun series t => ({ t with data := f series t.data, log := t.log ++ [.handler] }, none)

/-- `"wfrest" + std::to_string(compute_queue_id)` -/
def queueName (computeQueueId : Int) : Bytes := ascii "wfrest" ++ ascii (toString computeQueueId)

/-- `WFTaskFactory::create_go_task` with a `Handler`. -/
def createGoTask (computeQueueId : Int) (f : σ → σ) :
    S → ServerTask σ → ServerTask σ × Option (GoTask σ) :=
  fun _ t =>
    ({ t with log := t.log ++ [.createGoTask (queueName computeQueueId)] },
      some ⟨queueName computeQueueId, f⟩)

/-- `WFTaskFactory::create_go_task` with a `SeriesHandler`. -/
def createSeriesGoTask (computeQueueId : Int) (f : S → σ → σ) :
    S → ServerTask σ → ServerTask σ × Option (GoTask σ) :=
  fun series t =>
    ({ t with log := t.log ++ [.createGoTask (queueName computeQueueId)] },
      some ⟨queueName computeQueueId, f series⟩)

/-! ### The wrappers -/

/-- The lambda of the overloads without aspects. -/
def wrapPlain (run : S → ServerTask σ → ServerTask σ × Option (GoTask σ)) : WrapHandler σ S :=
  fun globals series t =>
    let t := plainBefore (named Who.global globals) t
    let r := run series t
    if globals.isEmpty then r else (r.1.addCallback .globalAfter, r.2)

/-- `detail::aop_process` and `detail::aop_compute_process`. -/
def wrapAop (tp : List (Aspect σ))
    (run : S → ServerTask σ → ServerTask σ × Option (GoTask σ)) : WrapHandler σ S :=
  fun globals series t =>
    let r := aopBefore (named Who.route tp) t
    if !r.1 then (r.2, none)
    else
      let r := globalBefore (named Who.global globals) r.2
      if !r.1 then (r.2, none)
      else
        let r := run series r.2
        (r.1.addCallback (.aopAfter tp), r.2)

/-- `ROUTE(route, Handler, verb)` -/
def routeHandler (f : σ → σ) : WrapHandler σ S := wrapPlain (runHandler f)

/-- `ROUTE(route, compute_queue_id, Handler, verb)` -/
def routeComputeHandler (computeQueueId : Int) (f : σ → σ) : WrapHandler σ S :=
  wrapPlain (createGoTask computeQueueId f)

/-- `ROUTE(route, SeriesHandler, verb)` -/
def routeSeriesHandler (f : S → σ → σ) : WrapHandler σ S := wrapPlain (runSeriesHandler f)

/-- `ROUTE(route, compute_queue_id, SeriesHandler, verb)` -/
def routeComputeSeriesHandler (computeQueueId : Int) (f : S → σ → σ) : WrapHandler σ S :=
  wrapPlain (createSeriesGoTask computeQueueId f)

/-- `ROUTE(route, Handler, verb, ap...)` -/
def routeHandlerAop (f : σ → σ) (ap : List (Aspect σ)) : WrapHandler σ S :=
  wrapAop ap (runHandler f)

/-- `ROUTE(route, compute_queue_id, Handler, verb, ap...)` -/
def routeComputeHandlerAop (computeQueueId : Int) (f : σ → σ) (ap : List (Aspect σ)) :
    WrapHandler σ S :=
  wrapAop ap (createGoTask computeQueueId f)

/-- `ROUTE(route, SeriesHandler, verb, ap...)` -/
def routeSeriesHandlerAop (f : S → σ → σ) (ap : List (Aspect σ)) : WrapHandler σ S :=
  wrapAop ap (runSeriesHandler f)

/-- `ROUTE(route, compute_queue_id, SeriesHandler, verb, ap...)` -/
def routeComputeSeriesHandlerAop (computeQueueId : Int) (f : S → σ → σ)
    (ap : List (Aspect σ)) : WrapHandler σ S :=
  wrapAop ap (createSeriesGoTask computeQueueId f)

/-- The arguments that select an overload. -/
structure RouteOverload (σ S : Type) where
  handler : UserHandler σ S
  computeQueueId : Option Int
  /-- `none`: an overload without aspects. -/
  ap : Option (List (Aspect σ))

namespace RouteOverload

/-- The wrapper that the overload builds. -/
def wrapHandler : RouteOverload σ S → WrapHandler σ S
  | ⟨.handler f, none, none⟩ => routeHandler f
  | ⟨.handler f, some queue, none⟩ => routeComputeHandler queue f
  | ⟨.seriesHandler f, none, none⟩ => routeSeriesHandler f
  | ⟨.seriesHandler f, some queue, none⟩ => routeComputeSeriesHandler queue f
  | ⟨.handler f, none, some ap⟩ => routeHandlerAop f ap
  | ⟨.handler f, some queue, some ap⟩ => routeComputeHandlerAop queue f ap
  | ⟨.seriesHandler f, none, some ap⟩ => routeSeriesHandlerAop f ap
  | ⟨.seriesHandler f, some queue, some ap⟩ => routeComputeSeriesHandlerAop queue f ap

/-- The last parameter of an overload: a verb, or a list of method names. -/
inductive Methods where
  | verb (verb : Verb)
  | methods (methods : List Bytes)

/-- The `Router::handle` calls of an overload. -/
def calls (o : RouteOverload σ S) (route : Bytes) : Methods → List (HandleCall (WrapHandler σ S))
  | .verb verb => [⟨route, o.computeQueueId.getD (-1), o.wrapHandler, verb⟩]
  | .methods methods =>
    methods.map fun m => ⟨route, o.computeQueueId.getD (-1), o.wrapHandler, strToVerb m⟩

theorem handler_of_mem_calls {o : RouteOverload σ S} {route : Bytes} {methods : Methods}
    {c : HandleCall (WrapHandler σ S)} (h : c ∈ o.calls route methods) :
    c.handler = o.wrapHandler := by
  cases methods with
  | verb verb => rw [List.mem_singleton.mp h]
  | methods ms =>
    obtain ⟨m, -, rfl⟩ := List.mem_map.mp h
    rfl

/-- The way the overload runs the user's handler. -/
def run : RouteOverload σ S → S → ServerTask σ → ServerTask σ × Option (GoTask σ)
  | ⟨.handler f, none, _⟩ => runHandler f
  | ⟨.handler f, some queue, _⟩ => createGoTask queue f
  | ⟨.seriesHandler f, none, _⟩ => runSeriesHandler f
  | ⟨.seriesHandler f, some queue, _⟩ => createSeriesGoTask queue f

/-- The eight wrappers have two shapes. -/
theorem wrapHandler_eq (o : RouteOverload σ S) :
    o.wrapHandler =
      match o.ap with
      | none => wrapPlain o.run
      | some ap => wrapAop ap o.run := by
  obtain ⟨h, queue, ap⟩ := o
  cases h <;> cases queue <;> cases ap <;> rfl

/-- The overload with a pack of aspects, empty if it had none. -/
def withPack (o : RouteOverload σ S) : RouteOverload σ S := { o with ap := some (o.ap.getD []) }

@[simp] theorem run_withPack (o : RouteOverload σ S) : o.withPack.run = o.run := by
  obtain ⟨h, queue, ap⟩ := o
  cases h <;> cases queue <;> rfl

end RouteOverload

end Wfrest
