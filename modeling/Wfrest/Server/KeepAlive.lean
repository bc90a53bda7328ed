import Wfrest.Base.StrUtil

/-!
# Keep-Alive

`HttpServerTask::message_out` reads how long a connection is kept from the `Keep-Alive`
header of the request. It takes the first `timeout` and the first `max` of the parameters,
multiplies the timeout by 1000 in an `int`, and looks at the sign and at the limit only after
that: a product that wraps around to a small number is taken for that number. And
`HttpServerTask::handle` has looked for the header only if the request is to be kept alive
itself, so a handler that keeps the connection of another request does so for the configured
time (`negotiates_iff`).

Splitting and stripping are Workflow's `StringUtil`, and parameters here.
-/

namespace Wfrest

/-- The digits of a number. -/
def decimal (digits : Bytes) : Nat := digits.foldl (fun n d => 10 * n + (d.toNat - 48)) 0

/-- `atoi`. What does not fit is not defined. -/
def atoi (s : Bytes) : Int :=
  let s := (cStr s).dropWhile isspace
  let neg := s.head? = some hyphen
  let s := if neg ∨ s.head? = some 43 then s.tail else s
  let n : Int := decimal (s.takeWhile fun b => 48 ≤ b ∧ b ≤ 57)
  toInt (if neg then -n else n)

/-- Workflow's `StringUtil`, as far as it is used. -/
structure StringUtil where
  split : Bytes → UInt8 → List Bytes
  strip : Bytes → Bytes

/-- `split` cuts at every separator, and `strip` drops the white space at both ends. -/
structure StringUtil.Documented (util : StringUtil) : Prop where
  split_eq : ∀ s sep, util.split s sep = s.splitOn sep
  strip_eq : ∀ s, util.strip s = (s.dropWhile isspace).rdropWhile isspace

namespace KeepAlive

/-- `HTTP_KEEPALIVE_MAX` -/
def HTTP_KEEPALIVE_MAX : Int := 300 * 1000

variable (util : StringUtil)

/-- The key and the value of a parameter. -/
def keyVal (kv : Bytes) : Bytes × Bytes :=
  let arr := util.split kv equals
  let arr := if arr.length < 2 then arr ++ [ascii "0"] else arr
  (util.strip (arr.getD 0 []), util.strip (arr.getD 1 []))

/-- The loop over the parameters: the two bits of `flag`, and `keep_alive_timeo`. -/
def scanParams (seq : Int) (timeoutSeen maxSeen : Bool) (timeo : Int) : List Bytes → Int
  | [] => timeo
  | kv :: params =>
    let (key, val) := keyVal util kv
    if !timeoutSeen && strcaseeq key (ascii "timeout") then
      let timeo := toInt (1000 * atoi val)
      -- `flag == 3`
      if maxSeen then timeo else scanParams seq true maxSeen timeo params
    else if !maxSeen && strcaseeq key (ascii "max") then
      if atoi val ≤ seq then 0
      else if timeoutSeen then timeo
      else scanParams seq timeoutSeen true timeo params
    else scanParams seq timeoutSeen maxSeen timeo params

/-- The comparison with `HTTP_KEEPALIVE_MAX` as an `unsigned int`. -/
def clamp (timeo : Int) : Int :=
  if HTTP_KEEPALIVE_MAX < timeo % 2 ^ 32 then HTTP_KEEPALIVE_MAX else timeo

/-- What `handle` and the part of `message_out` about the connection read. -/
structure Reply where
  /-- `resp->has_connection_header()`, and then `resp->is_keep_alive()`. -/
  connection : Option Bool
  /-- `req.is_keep_alive()` -/
  reqIsAlive : Bool
  /-- The header of the request, if there is one. -/
  keepAliveHeader : Option Bytes
  seq : Int
  /-- An `int`. -/
  keepAliveTimeo : Int
  fits : -2 ^ 31 ≤ keepAliveTimeo ∧ keepAliveTimeo < 2 ^ 31

/-- `req_keep_alive_` after `handle`, if `req_has_keep_alive_header_`. -/
def Reply.reqKeepAlive (r : Reply) : Option Bytes :=
  if r.reqIsAlive then r.keepAliveHeader else none

/-- Whether the connection is to be kept. -/
def Reply.isAlive (r : Reply) : Bool := r.connection.getD r.reqIsAlive

/-- `keep_alive_timeo` after `message_out`. -/
def Reply.timeo (r : Reply) : Int :=
  if !r.isAlive then 0
  else
    clamp <|
      match r.reqKeepAlive with
      | some header =>
        scanParams util r.seq false false r.keepAliveTimeo (util.split header comma)
      | none => r.keepAliveTimeo

/-- The header `Connection` that `message_out` adds. -/
def Reply.connectionHeader (r : Reply) : Option Bytes :=
  match r.connection with
  | some _ => none
  | none => some (if r.timeo util = 0 then ascii "close" else ascii "Keep-Alive")

/-! ### What is negotiated -/

/-- A parameter `name=value`, with a number below `2 ^ 31` as its value. There may be white
space around both. -/
structure Param where
  name : Bytes
  before : Bytes
  digits : Bytes
  after : Bytes
  name_ok : comma ∉ name ∧ equals ∉ name
  blank : ∀ b ∈ before ++ after, isspace b = true
  digits_ne_nil : digits ≠ []
  digits_ok : ∀ d ∈ digits, 48 ≤ d ∧ d ≤ 57
  small : decimal digits < 2 ^ 31

namespace Param

def text (p : Param) : Bytes := p.name ++ equals :: (p.before ++ p.digits ++ p.after)

def value (p : Param) : Int := decimal p.digits

/-- The name without the white space around it. -/
def key (p : Param) : Bytes := (p.name.dropWhile isspace).rdropWhile isspace

def isTimeout (p : Param) : Bool := strcaseeq p.key (ascii "timeout")

def isMax (p : Param) : Bool := strcaseeq p.key (ascii "max")

end Param

/-- A `Keep-Alive` header with these parameters. -/
def header (ps : List Param) : Bytes := [comma].intercalate (ps.map Param.text)

/-- The limit of the connection is reached: the first `max` is not above `seq`. -/
def Reached (seq : Int) (ps : List Param) : Prop :=
  ∃ m ∈ ps.find? Param.isMax, m.value ≤ seq

instance (seq : Int) (ps : List Param) : Decidable (Reached seq ps) :=
  decidable_of_iff ((ps.find? Param.isMax).any fun m => m.value ≤ seq) (by
    cases hm : ps.find? Param.isMax <;> simp [Reached, hm])

/-- A configured time, where a negative number stands for infinity, with the limit. -/
def limited (configured : Int) : Int :=
  if configured < 0 then HTTP_KEEPALIVE_MAX else min configured HTTP_KEEPALIVE_MAX

/-- What `keep_alive_timeo` should be: 0 behind the last request, else the first timeout in
milliseconds, else what is configured; and at most `HTTP_KEEPALIVE_MAX`. -/
def expected (seq configured : Int) (ps : List Param) : Int :=
  if Reached seq ps then 0
  else
    match ps.find? Param.isTimeout with
    | some t => min (1000 * t.value) HTTP_KEEPALIVE_MAX
    | none => limited configured

/-- The product for the first timeout counts, is too large, and wraps around to one that is
not. -/
def Wraps (seq : Int) (ps : List Param) : Prop :=
  ¬ Reached seq ps ∧ ∃ t ∈ ps.find? Param.isTimeout,
    HTTP_KEEPALIVE_MAX < 1000 * t.value ∧ 1000 * t.value % 2 ^ 32 < HTTP_KEEPALIVE_MAX

/-- The parameters ask for the time that is configured: for none if that is 0 and the limit of
the connection is reached, and otherwise in the first timeout, if there is one. -/
def AsksConfigured (seq configured : Int) (ps : List Param) : Prop :=
  if Reached seq ps then configured = 0
  else
    ∀ t ∈ ps.find? Param.isTimeout, min (1000 * t.value) HTTP_KEEPALIVE_MAX = limited configured

/-! ### A parameter -/

private theorem digit_spec : ∀ d : UInt8, 48 ≤ d ∧ d ≤ 57 →
    isspace d = false ∧ d ≠ 0 ∧ d ≠ hyphen ∧ d ≠ 43 ∧ d ≠ comma ∧ d ≠ equals :=
  forall_byte (by decide +kernel)

theorem atoi_of_digits {digits : Bytes} (hne : digits ≠ [])
    (hok : ∀ d ∈ digits, 48 ≤ d ∧ d ≤ 57) (hsmall : decimal digits < 2 ^ 31) :
    atoi digits = decimal digits := by
  obtain ⟨d, ds, rfl⟩ := List.exists_cons_of_ne_nil hne
  obtain ⟨hspace, hzero, hminus, hplus, -, -⟩ := digit_spec d (hok d List.mem_cons_self)
  have hnul : 0 ∉ d :: ds := fun h => (digit_spec 0 (hok 0 h)).2.1 rfl
  have hminus' : ¬ (d :: ds).head? = some hyphen := by simpa using hminus
  have hplus' : ¬ (d :: ds).head? = some 43 := by simpa using hplus
  have hall : (d :: ds).takeWhile (fun b => 48 ≤ b ∧ b ≤ 57) = d :: ds := by
    refine List.takeWhile_eq_self_iff.mpr fun b hb => ?_
    exact decide_eq_true (hok b hb)
  unfold atoi
  rw [cStr_eq_self hnul, List.dropWhile_cons_of_neg (by simp [hspace])]
  simp only [hminus', hplus', or_self, if_false, hall]
  exact toInt_of_lt hsmall

/-- The white space around a value is stripped. -/
private theorem strip_value (p : Param) :
    ((p.before ++ p.digits ++ p.after).dropWhile isspace).rdropWhile isspace = p.digits := by
  have hblank := p.blank
  simp only [List.forall_mem_append] at hblank
  obtain ⟨d, ds, hds⟩ := List.exists_cons_of_ne_nil p.digits_ne_nil
  have hfront : (p.before ++ p.digits ++ p.after).dropWhile isspace = p.digits ++ p.after := by
    have hd := (digit_spec d (p.digits_ok d (by rw [hds]; exact List.mem_cons_self))).1
    rw [List.append_assoc, List.dropWhile_append_of_pos hblank.1, hds, List.cons_append,
      List.dropWhile_cons_of_neg (by simp [hd])]
  have hback : p.digits.reverse.dropWhile isspace = p.digits.reverse := by
    refine List.dropWhile_eq_self_iff.mpr fun hpos => ?_
    have hmem : p.digits.reverse[0] ∈ p.digits := List.mem_reverse.mp (List.getElem_mem hpos)
    exact Bool.eq_false_iff.mp (digit_spec _ (p.digits_ok _ hmem)).1
  rw [hfront, List.rdropWhile, List.reverse_append,
    List.dropWhile_append_of_pos fun b hb => hblank.2 b (List.mem_reverse.mp hb), hback,
    List.reverse_reverse]

private theorem notMem_value {sep : UInt8} (hspace : isspace sep = false)
    (hdigit : ¬ (48 ≤ sep ∧ sep ≤ 57)) (p : Param) :
    sep ∉ p.before ++ p.digits ++ p.after := by
  intro h
  rcases List.mem_append.mp h with h | h
  · rcases List.mem_append.mp h with h | h
    · exact absurd (p.blank sep (List.mem_append_left _ h)) (by simp [hspace])
    · exact hdigit (p.digits_ok sep h)
  · exact absurd (p.blank sep (List.mem_append_right _ h)) (by simp [hspace])

theorem comma_notMem_text (p : Param) : comma ∉ p.text := by
  intro h
  rcases List.mem_append.mp h with h | h
  · exact p.name_ok.1 h
  · rcases List.mem_cons.mp h with h | h
    · exact absurd h (by decide)
    · exact notMem_value (by decide) (by decide) p h

section
variable {util : StringUtil} (hutil : util.Documented)
include hutil

theorem keyVal_text (p : Param) : keyVal util p.text = (p.key, p.digits) := by
  have hsplit : util.split p.text equals = [p.name, p.before ++ p.digits ++ p.after] := by
    rw [hutil.split_eq, Param.text, List.splitOn_append_cons_self_of_not_mem p.name_ok.2,
      List.splitOn_eq_singleton (notMem_value (by decide) (by decide) p)]
  unfold keyVal
  rw [hsplit]
  change (util.strip p.name, util.strip (p.before ++ p.digits ++ p.after)) = _
  rw [hutil.strip_eq, hutil.strip_eq, strip_value]
  rfl

/-- An empty header is one parameter without a name. -/
theorem split_header (ps : List Param) :
    util.split (header ps) comma = if ps = [] then [[]] else ps.map Param.text := by
  rw [hutil.split_eq, header]
  split_ifs with hps
  · rw [hps]
    rfl
  · refine List.splitOn_intercalate comma (fun text htext => ?_) (by simpa using hps)
    obtain ⟨p, -, rfl⟩ := List.mem_map.mp htext
    exact comma_notMem_text p

end

theorem not_isMax_of_isTimeout {p : Param} (h : p.isTimeout = true) : p.isMax = false := by
  rw [Param.isTimeout, strcaseeq, decide_eq_true_iff] at h
  rw [Param.isMax, strcaseeq, decide_eq_false_iff_not, h]
  decide

/-! ### The loop -/

theorem reached_cons_of_isMax {seq : Int} {p : Param} {ps : List Param} (h : p.isMax = true) :
    Reached seq (p :: ps) ↔ p.value ≤ seq := by
  simp [Reached, List.find?_cons_of_pos h]

theorem reached_cons_of_not {seq : Int} {p : Param} {ps : List Param} (h : p.isMax = false) :
    Reached seq (p :: ps) ↔ Reached seq ps := by
  rw [Reached, List.find?_cons_of_neg (by simp [h])]
  rfl

/-- The timeout that a scan ends with, unless it ends at a `max`. -/
def scannedTimeo (timeo : Int) (ps : List Param) : Int :=
  match ps.find? Param.isTimeout with
  | some t => toInt (1000 * t.value)
  | none => timeo

section
variable {util : StringUtil} (hutil : util.Documented)
include hutil

/-- **What the loop computes**: each of the two bits closes its half. -/
theorem scanParams_eq (seq : Int) (ps : List Param) (timeoutSeen maxSeen : Bool) (timeo : Int) :
    scanParams util seq timeoutSeen maxSeen timeo (ps.map Param.text) =
      if maxSeen = false ∧ Reached seq ps then 0
      else if timeoutSeen then timeo else scannedTimeo timeo ps := by
  -- for any bits, since a round sets one of them
  induction ps generalizing timeoutSeen maxSeen timeo with
  | nil => simp [scanParams, scannedTimeo, Reached]
  | cons p ps ih =>
    have hatoi : atoi p.digits = p.value := atoi_of_digits p.digits_ne_nil p.digits_ok p.small
    rw [List.map_cons, scanParams, keyVal_text hutil]
    simp only [hatoi]
    change (if (!timeoutSeen && p.isTimeout) = true then _
      else if (!maxSeen && p.isMax) = true then _ else _) = _
    cases hT : p.isTimeout with
    | true =>
      have hM := not_isMax_of_isTimeout hT
      have hfind : scannedTimeo timeo (p :: ps) = toInt (1000 * p.value) := by
        rw [scannedTimeo, List.find?_cons_of_pos hT]
      simp only [hM, reached_cons_of_not hM, hfind]
      cases timeoutSeen <;> cases maxSeen <;> simp [ih]
    | false =>
      have hfind : ∀ timeo, scannedTimeo timeo (p :: ps) = scannedTimeo timeo ps := by
        intro timeo
        rw [scannedTimeo, List.find?_cons_of_neg (by simp [hT])]
        rfl
      rw [hfind]
      cases hM : p.isMax with
      | true =>
        simp only [reached_cons_of_isMax hM]
        cases timeoutSeen <;> cases maxSeen <;> simp [ih]
      | false =>
        simp only [reached_cons_of_not hM]
        cases timeoutSeen <;> cases maxSeen <;> simp [ih]

/-- The one parameter of an empty header has no name. -/
private theorem scanParams_nil (seq timeo : Int) :
    scanParams util seq false false timeo [[]] = timeo := by
  have hkey : (keyVal util []).1 = [] := by
    have hsplit : util.split [] equals = [[]] := hutil.split_eq [] equals
    unfold keyVal
    rw [hsplit]
    exact hutil.strip_eq []
  have htimeout : strcaseeq [] (ascii "timeout") = false := by decide
  have hmax : strcaseeq [] (ascii "max") = false := by decide
  simp only [scanParams, hkey, htimeout, hmax, Bool.and_false, Bool.false_eq_true, if_false]

/-- The loop over the header of a parameter list. -/
theorem scanParams_header (seq timeo : Int) (ps : List Param) :
    scanParams util seq false false timeo (util.split (header ps) comma) =
      if Reached seq ps then 0 else scannedTimeo timeo ps := by
  rw [split_header hutil]
  by_cases hps : ps = []
  · subst hps
    have hreached : ¬ Reached seq [] := by simp [Reached]
    rw [if_pos rfl, scanParams_nil hutil, if_neg hreached]
    rfl
  · rw [if_neg hps, scanParams_eq hutil]
    simp

end

/-! ### The limit -/

/-- Of what is stored in an `int`, the clamp sees the remainder. -/
theorem clamp_toInt (n : Int) :
    clamp (toInt n) =
      if HTTP_KEEPALIVE_MAX < n % 2 ^ 32 then HTTP_KEEPALIVE_MAX else n % 2 ^ 32 := by
  obtain ⟨q, hq, hlow, hhigh⟩ := toInt_spec n
  have hmod : toInt n % 2 ^ 32 = n % 2 ^ 32 := by omega
  unfold clamp
  rw [hmod]
  unfold HTTP_KEEPALIVE_MAX
  split_ifs <;> omega

theorem clamp_toInt_eq_min_iff {n : Int} (hn : 0 ≤ n) :
    clamp (toInt n) = min n HTTP_KEEPALIVE_MAX ↔
      ¬ (HTTP_KEEPALIVE_MAX < n ∧ n % 2 ^ 32 < HTTP_KEEPALIVE_MAX) := by
  rw [clamp_toInt]
  unfold HTTP_KEEPALIVE_MAX
  split_ifs
  · omega
  · omega

theorem clamp_configured {timeo : Int} (hfits : -2 ^ 31 ≤ timeo ∧ timeo < 2 ^ 31) :
    clamp timeo = limited timeo := by
  unfold clamp limited HTTP_KEEPALIVE_MAX
  split_ifs <;> omega

theorem limited_eq_zero_iff {configured : Int} : limited configured = 0 ↔ configured = 0 := by
  unfold limited HTTP_KEEPALIVE_MAX
  split_ifs <;> omega

/-! ### The negotiation -/

/-- The reply to a request with a `Keep-Alive` header of these parameters. -/
def Reply.asked (r : Reply) (ps : List Param) : Reply :=
  { r with keepAliveHeader := some (header ps) }

/-- The value of the first parameter of a kind. -/
def firstValue (kind : Param → Bool) (ps : List Param) : Option Int :=
  (ps.find? kind).map Param.value

/-- **What is promised** of the reply to a request with these parameters. -/
structure Negotiates (util : StringUtil) (r : Reply) (ps : List Param) : Prop where
  timeo_eq : (r.asked ps).timeo util = expected r.seq r.keepAliveTimeo ps
  /-- Only the first timeout and the first max count, not which of them comes first. -/
  order : ∀ qs, firstValue Param.isTimeout qs = firstValue Param.isTimeout ps →
    firstValue Param.isMax qs = firstValue Param.isMax ps →
    (r.asked qs).timeo util = (r.asked ps).timeo util
  /-- Unless the handler has set the header. -/
  connection : r.connection = none →
    ((r.asked ps).connectionHeader util = some (ascii "close") ↔ (r.asked ps).timeo util = 0)

theorem reached_iff_firstValue {seq : Int} {ps : List Param} :
    Reached seq ps ↔ ∃ m ∈ firstValue Param.isMax ps, m ≤ seq := by
  simp [Reached, firstValue]

theorem scannedTimeo_eq (timeo : Int) (ps : List Param) :
    scannedTimeo timeo ps =
      match firstValue Param.isTimeout ps with
      | some t => toInt (1000 * t)
      | none => timeo := by
  unfold scannedTimeo firstValue
  cases ps.find? Param.isTimeout <;> rfl

section
variable {util : StringUtil} (hutil : util.Documented) {r : Reply}
include hutil

theorem timeo_asked (halive : r.isAlive = true) (hreq : r.reqIsAlive = true) (ps : List Param) :
    (r.asked ps).timeo util =
      if Reached r.seq ps then 0 else clamp (scannedTimeo r.keepAliveTimeo ps) := by
  have halive' : (r.asked ps).isAlive = true := halive
  have hheader : (r.asked ps).reqKeepAlive = some (header ps) := if_pos hreq
  unfold Reply.timeo
  rw [halive', hheader]
  change clamp (scanParams util r.seq false false r.keepAliveTimeo _) = _
  rw [scanParams_header hutil]
  split_ifs
  · rfl
  · rfl

omit hutil in
/-- The header of a request that is not to be kept alive is not read. -/
theorem timeo_asked_of_not (halive : r.isAlive = true) (hreq : r.reqIsAlive = false)
    (ps : List Param) : (r.asked ps).timeo util = limited r.keepAliveTimeo := by
  have halive' : (r.asked ps).isAlive = true := halive
  have hheader : (r.asked ps).reqKeepAlive = none :=
    if_neg (Bool.eq_false_iff.mp hreq)
  unfold Reply.timeo
  rw [halive', hheader]
  exact clamp_configured r.fits

theorem timeo_asked_order (halive : r.isAlive = true) {ps qs : List Param}
    (htimeout : firstValue Param.isTimeout qs = firstValue Param.isTimeout ps)
    (hmax : firstValue Param.isMax qs = firstValue Param.isMax ps) :
    (r.asked qs).timeo util = (r.asked ps).timeo util := by
  cases hreq : r.reqIsAlive with
  | false => rw [timeo_asked_of_not halive hreq, timeo_asked_of_not halive hreq]
  | true =>
    have hreached : Reached r.seq qs ↔ Reached r.seq ps := by
      rw [reached_iff_firstValue, reached_iff_firstValue, hmax]
    rw [timeo_asked hutil halive hreq, timeo_asked hutil halive hreq]
    simp only [hreached, scannedTimeo_eq, htimeout]

omit hutil in
theorem connectionHeader_eq_close_iff (hnone : r.connection = none) :
    r.connectionHeader util = some (ascii "close") ↔ r.timeo util = 0 := by
  have hne : ascii "Keep-Alive" ≠ ascii "close" := by decide
  unfold Reply.connectionHeader
  rw [hnone]
  split_ifs with h
  · exact iff_of_true rfl h
  · exact iff_of_false (fun h' => hne (Option.some.inj h')) h

/-- With a header that is read, only the product can go wrong. -/
theorem timeo_eq_expected_iff (halive : r.isAlive = true) (hreq : r.reqIsAlive = true)
    (ps : List Param) :
    (r.asked ps).timeo util = expected r.seq r.keepAliveTimeo ps ↔ ¬ Wraps r.seq ps := by
  rw [timeo_asked hutil halive hreq]
  unfold expected Wraps scannedTimeo
  by_cases hreached : Reached r.seq ps
  · simp [hreached]
  · cases hfind : ps.find? Param.isTimeout with
    | none => simpa [hreached, hfind] using clamp_configured r.fits
    | some t =>
      have hnonneg : 0 ≤ 1000 * t.value := by
        have hvalue : 0 ≤ t.value := Int.natCast_nonneg _
        omega
      simpa [hreached, hfind] using clamp_toInt_eq_min_iff hnonneg

omit hutil in
theorem limited_eq_expected_iff (seq configured : Int) (ps : List Param) :
    limited configured = expected seq configured ps ↔ AsksConfigured seq configured ps := by
  unfold expected AsksConfigured
  split_ifs
  · exact limited_eq_zero_iff
  · cases ps.find? Param.isTimeout with
    | none => simp
    | some t => simp [eq_comm]

/-- **When the negotiation does what it should**: if the header is read, unless the product of
the timeout wraps around; and if it is not read, when it asks for what is configured. -/
theorem negotiates_iff (halive : r.isAlive = true) (ps : List Param) :
    Negotiates util r ps ↔
      if r.reqIsAlive then ¬ Wraps r.seq ps
      else AsksConfigured r.seq r.keepAliveTimeo ps := by
  have htimeo : (r.asked ps).timeo util = expected r.seq r.keepAliveTimeo ps ↔
      if r.reqIsAlive then ¬ Wraps r.seq ps
      else AsksConfigured r.seq r.keepAliveTimeo ps := by
    split_ifs with hreq
    · exact timeo_eq_expected_iff hutil halive hreq ps
    · rw [timeo_asked_of_not halive (Bool.eq_false_iff.mpr hreq)]
      exact limited_eq_expected_iff r.seq r.keepAliveTimeo ps
  constructor
  · intro h
    exact htimeo.mp h.timeo_eq
  · intro h
    exact ⟨htimeo.mpr h, fun qs htimeout hmax => timeo_asked_order hutil halive htimeout hmax,
      fun hnone => connectionHeader_eq_close_iff hnone⟩

end

/-- `StringUtil` as it is documented. -/
def documentedUtil : StringUtil where
  split s sep := s.splitOn sep
  strip s := (s.dropWhile isspace).rdropWhile isspace

theorem documented_documentedUtil : documentedUtil.Documented := ⟨fun _ _ => rfl, fun _ => rfl⟩

/-- The first reply on a connection that is kept for a minute. -/
def firstReply : Reply where
  connection := none
  reqIsAlive := true
  keepAliveHeader := none
  seq := 0
  keepAliveTimeo := 60000
  fits := by decide

/-- `timeout=5` -/
def timeoutFive : Param where
  name := ascii "timeout"
  before := []
  digits := ascii "5"
  after := []
  name_ok := by decide
  blank := nofun
  digits_ne_nil := by decide
  digits_ok := forall_mem_of_all (by decide)
  small := by decide

theorem negotiates_five : Negotiates documentedUtil firstReply [timeoutFive] := by
  have hreq : firstReply.reqIsAlive = true := by decide
  rw [negotiates_iff documented_documentedUtil (by decide) [timeoutFive], if_pos hreq]
  rintro ⟨-, t, ht, hlarge, -⟩
  obtain rfl : timeoutFive = t := Option.some.inj ht
  exact absurd hlarge (by decide)

/-- `timeout=4294968` -/
def timeoutLong : Param where
  name := ascii "timeout"
  before := []
  digits := ascii "4294968"
  after := []
  name_ok := by decide
  blank := nofun
  digits_ne_nil := by decide
  digits_ok := forall_mem_of_all (by decide)
  small := by decide

/-- Fifty days become 704 milliseconds. -/
theorem not_negotiates_long :
    ¬ ∀ (util : StringUtil), util.Documented → ∀ r : Reply, r.isAlive = true →
      ∀ ps, Negotiates util r ps := by
  intro hall
  have htimeo := (hall documentedUtil documented_documentedUtil firstReply (by decide)
    [timeoutLong]).timeo_eq
  have hreached : ¬ Reached firstReply.seq [timeoutLong] := by decide
  have hfind : [timeoutLong].find? Param.isTimeout = some timeoutLong :=
    List.find?_cons_of_pos (by decide)
  have hvalue : timeoutLong.value = 4294968 := by decide
  have hproduct : toInt (1000 * 4294968) = 704 :=
    toInt_eq_of (q := 1) (by decide) (by decide) (by decide)
  rw [timeo_asked documented_documentedUtil (by decide) rfl, if_neg hreached, scannedTimeo,
    hfind] at htimeo
  simp only [expected, hreached, hfind, hvalue, if_false] at htimeo
  rw [hproduct] at htimeo
  exact absurd htimeo (by decide)

end KeepAlive

end Wfrest
