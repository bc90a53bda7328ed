import Wfrest.Compare.DirAttr
import Wfrest.Lib.Row
import Mathlib.Data.List.InsertIdx

/-!
# The directory report

For each directory of a task `exe_sql_job_for_single_item_dir1` writes an array with an
entry for the standard server and one for each other server that failed or differs from
it. An entry names its server, unless the server failed. So what the loop over the other
servers writes is a printed row in the sense of `Cell`: equal servers are blank, failed
ones anonymous (`otherServers_iff`), and an entry tells its cell (`entryJson_injective`).
-/

namespace Wfrest

/-! ### Entries -/

/-- The two fields of a failure; `none` when the message of the code is null. -/
def setError (json : Json) (code : DcCommonCode) : Option Json :=
  (dcCommonCodeMsg code).map fun msg =>
    (json.set "errno" (codeJson code)).set "error" (.str msg)

/-- `assign_attr_to_json` -/
def assignAttrToJson (json : Json) (centerName : Bytes) (attr : FileAttr) : Json :=
  let json := json.set "server_name" (.str centerName)
  let json := if 0 ≤ attr.fSize then json.set "size" (.num attr.fSize) else json
  let json := json.set "owner" (.str attr.fOwner)
  let json := json.set "last_updated" (.str attr.fLastUpdated)
  json.set "mode" (.str attr.fMode)

/-- `compare_assign_attr_to_json`: the inner `none` when nothing was added, the outer
one when a message is null. -/
def compareAssignAttrToJson (std other : FileAttr) (json : Json) (centerName : Bytes) :
    Option (Option Json) :=
  if other.fCode ≠ .S_SUCCESS then (setError json other.fCode).map some
  else if std.fCode ≠ .S_SUCCESS then some (some (assignAttrToJson json centerName other))
  else if std.compare other then some none
  else
    let json := json.set "server_name" (.str centerName)
    let json := if std.fSize ≠ other.fSize then json.set "size" (.num other.fSize) else json
    let json := if std.fOwner ≠ other.fOwner then json.set "owner" (.str other.fOwner) else json
    let json :=
      if std.fLastUpdated ≠ other.fLastUpdated then
        json.set "last_updated" (.str other.fLastUpdated)
      else json
    let json := if std.fMode ≠ other.fMode then json.set "mode" (.str other.fMode) else json
    some (some json)

/-! ### The report -/

/-- What has been collected about a server: its name in the task, and its elements of
`dir_attr_list` and `has_failed`. -/
structure ServerResult where
  cCenter : Bytes
  dirAttrs : List FileAttr
  hasFailed : DcCommonCode

/-- The entry of a server that is not the standard one. -/
def otherServer (std : FileAttr) (dirIdx : Nat) (r : ServerResult) : Option (Option Json) :=
  match r.dirAttrs[dirIdx]? with
  | none => (setError .null r.hasFailed).map some
  | some attr => compareAssignAttrToJson std attr .null r.cCenter

/-- The loop over the servers, from index `serverIdx` on. -/
def otherServers (std : FileAttr) (stdIdx : Int) (dirIdx serverIdx : Nat) :
    List ServerResult → Option (List Json)
  | [] => some []
  | r :: rs =>
    if (serverIdx : Int) = stdIdx then otherServers std stdIdx dirIdx (serverIdx + 1) rs
    else do
      let entry ← otherServer std dirIdx r
      let entries ← otherServers std stdIdx dirIdx (serverIdx + 1) rs
      return entry.toList ++ entries

/-- The array `servers` of a directory. `none` when an assertion fails or a message is
null. -/
def serversOf (stdIdx : Int) (rs : List ServerResult) (dirIdx : Nat) : Option (List Json) := do
  if stdIdx < 0 then none
  let r ← rs[stdIdx.toNat]?
  let json := Json.null.set "is_standard" (.bool true)
  match r.dirAttrs[dirIdx]? with
  | none =>
    let json ← setError json r.hasFailed
    let entries ← otherServers { fCode := r.hasFailed } stdIdx dirIdx 0 rs
    return json :: entries
  | some attr =>
    let entries ← otherServers attr stdIdx dirIdx 0 rs
    return assignAttrToJson json r.cCenter attr :: entries

theorem serversOf_of_none {stdIdx : Int} {rs : List ServerResult} {dirIdx : Nat}
    {r : ServerResult} (hneg : ¬ stdIdx < 0) (hr : rs[stdIdx.toNat]? = some r)
    (hattr : r.dirAttrs[dirIdx]? = none) :
    serversOf stdIdx rs dirIdx =
      (setError (Json.null.set "is_standard" (.bool true)) r.hasFailed).bind fun json =>
        (otherServers { fCode := r.hasFailed } stdIdx dirIdx 0 rs).bind fun es =>
          some (json :: es) := by
  unfold serversOf
  simp only [if_neg hneg, hr, hattr, Option.bind_eq_bind, Option.bind_some, Option.pure_def]

theorem serversOf_of_some {stdIdx : Int} {rs : List ServerResult} {dirIdx : Nat}
    {r : ServerResult} {attr : FileAttr} (hneg : ¬ stdIdx < 0)
    (hr : rs[stdIdx.toNat]? = some r) (hattr : r.dirAttrs[dirIdx]? = some attr) :
    serversOf stdIdx rs dirIdx =
      (otherServers attr stdIdx dirIdx 0 rs).bind fun es =>
        some
          (assignAttrToJson (Json.null.set "is_standard" (.bool true)) r.cCenter attr :: es) := by
  unfold serversOf
  simp only [if_neg hneg, hr, hattr, Option.bind_eq_bind, Option.bind_some, Option.pure_def]

/-- What one server answers for a list of directories: a code for the whole list, or
one record per directory. -/
abbrev DirListResult := Except DcCommonCode (List FileAttr)

/-- What is collected from an answer. -/
def collected (cCenter : Bytes) : DirListResult → ServerResult
  | .error code => ⟨cCenter, [], code⟩
  | .ok attrs => ⟨cCenter, attrs, .S_SUCCESS⟩

/-- The code for a whole list is a failure; the records are one per directory, without
a size. -/
def WellFormed (dirs : Nat) : DirListResult → Prop
  | .error code => code ≠ .S_SUCCESS
  | .ok attrs => attrs.length = dirs ∧ ∀ attr ∈ attrs, attr.fSize = -1

/-! ### Facts -/

/-- The attributes of a directory that a report is about. -/
@[ext]
structure DirAttrs where
  mode : Bytes
  owner : Bytes
  lastUpdated : Bytes
  deriving DecidableEq

/-- What a server says about a directory: its failure, or the attributes. -/
abbrev Fact := Except DcCommonCode DirAttrs

/-- The attributes in a record. -/
def FileAttr.attrs (attr : FileAttr) : DirAttrs := ⟨attr.fMode, attr.fOwner, attr.fLastUpdated⟩

/-- What a record says. -/
def FileAttr.fact (attr : FileAttr) : Fact :=
  if attr.fCode = .S_SUCCESS then .ok attr.attrs else .error attr.fCode

/-- The record of an answer for one directory. -/
def itemAt (dirIdx : Nat) (r : DirListResult) : Except DcCommonCode FileAttr :=
  r.map fun attrs => attrs.getD dirIdx {}

/-- What an answer says about one directory. -/
def factAt (dirIdx : Nat) (r : DirListResult) : Fact := itemAt dirIdx r >>= FileAttr.fact

/-! ### The array as a printed row -/

/-- The fields of an entry that names its server. -/
@[ext]
structure DirFields where
  mode : Option Bytes
  owner : Option Bytes
  lastUpdated : Option Bytes
  deriving DecidableEq

/-- All fields. -/
def DirAttrs.full (x : DirAttrs) : DirFields := ⟨some x.mode, some x.owner, some x.lastUpdated⟩

/-- The fields in which `x` is not like the standard. -/
def DirAttrs.diff (std x : DirAttrs) : DirFields where
  mode := if std.mode ≠ x.mode then some x.mode else none
  owner := if std.owner ≠ x.owner then some x.owner else none
  lastUpdated := if std.lastUpdated ≠ x.lastUpdated then some x.lastUpdated else none

/-- The attributes of the standard server that the others are compared with, none when
it failed. -/
def FileAttr.view (std : FileAttr) : Option DirAttrs :=
  if std.fCode = .S_SUCCESS then some std.attrs else none

/-- The cell of a server that says `fact`. -/
def cellOf (view : Option DirAttrs) : Fact → Cell DcCommonCode DirFields
  | .error code => .anon code
  | .ok x =>
    match view with
    | none => .named x.full
    | some std => if std = x then .blank else .named (std.diff x)

/-- Add a field that may be missing. -/
def Json.setOpt (j : Json) (key : String) : Option Bytes → Json
  | none => j
  | some b => j.set key (.str b)

/-- The entry of a printed cell. -/
def entryJson : DcCommonCode ⊕ Bytes × DirFields → Json
  | .inl code =>
    (Json.null.set "errno" (codeJson code)).set "error" (.str ((dcCommonCodeMsg code).getD []))
  | .inr (center, f) =>
    (((Json.null.set "server_name" (.str center)).setOpt "owner" f.owner).setOpt
      "last_updated" f.lastUpdated).setOpt "mode" f.mode

/-- A failure is reported when its code has a message. -/
def Reportable : Fact → Prop
  | .error code => dcCommonCodeMsg code ≠ none
  | .ok _ => True

theorem Json.get?_setOpt (j : Json) (key key' : String) (b : Option Bytes) :
    (j.setOpt key b).get? key' =
      if ascii key' = ascii key then (b.map .str).or (j.get? key') else j.get? key' := by
  cases b with
  | none => split <;> rfl
  | some b =>
    rw [setOpt, get?_set]
    rfl

/-- A failure, or nothing to be seen but the attributes: an answer is read off its cell. -/
theorem cellOf_injective (view : Option DirAttrs) : Function.Injective (cellOf view) := by
  intro f g h
  cases f with
  | error code =>
    cases g with
    | error code' => rw [Cell.anon.inj h]
    | ok y =>
      cases view with
      | none => cases h
      | some std =>
        simp only [cellOf] at h
        split at h <;> cases h
  -- a failure has an anonymous cell, a record a blank or a named one
  | ok x =>
    cases g with
    | error code =>
      cases view with
      | none => cases h
      | some std =>
        simp only [cellOf] at h
        split at h <;> cases h
    | ok y =>
      cases view with
      | none =>
        -- without a standard all fields are given
        have hfull := DirFields.mk.inj (Cell.named.inj h)
        congr 1
        ext1
        · exact Option.some.inj hfull.1
        · exact Option.some.inj hfull.2.1
        · exact Option.some.inj hfull.2.2
      | some std =>
        -- a field that is left out is that of the standard
        have hread : ∀ {a b c : Bytes},
            (if a ≠ b then some b else none) = (if a ≠ c then some c else none) → b = c := by
          intro a b c heq
          by_cases hb : a = b <;> by_cases hc : a = c <;> simp_all
        simp only [cellOf] at h
        split at h
        next hx =>
          split at h
          next hy => rw [← hx, ← hy]
          · cases h
        · split at h
          · cases h
          · have hdiff := DirFields.mk.inj (Cell.named.inj h)
            congr 1
            ext1
            · exact hread hdiff.1
            · exact hread hdiff.2.1
            · exact hread hdiff.2.2

/-- What can be read in an entry that names its server. -/
private theorem get?_entryJson_inr (center : Bytes) (f : DirFields) :
    (entryJson (.inr (center, f))).get? "server_name" = some (.str center) ∧
      (entryJson (.inr (center, f))).get? "owner" = f.owner.map .str ∧
      (entryJson (.inr (center, f))).get? "last_updated" = f.lastUpdated.map .str ∧
      (entryJson (.inr (center, f))).get? "mode" = f.mode.map .str := by
  obtain ⟨mode, owner, lastUpdated⟩ := f
  simp only [entryJson, Json.get?_setOpt, Json.get?_set]
  refine ⟨rfl, ?_, ?_, ?_⟩
  · cases owner <;> rfl
  · cases lastUpdated <;> rfl
  · cases mode <;> rfl

/-- An entry tells its printed cell. -/
theorem entryJson_injective : Function.Injective entryJson := by
  -- only an entry without a name is a failure, and then `errno` is its code
  have hinl : ∀ code, (entryJson (.inl code)).get? "server_name" = none ∧
      (entryJson (.inl code)).get? "errno" = some (codeJson code) := by
    intro code
    simp only [entryJson, Json.get?_set]
    exact ⟨rfl, rfl⟩
  have hmap : Function.Injective (Option.map Json.str) :=
    Option.map_injective fun _ _ h => Json.str.inj h
  intro p q h
  cases p with
  | inl code =>
    cases q with
    | inl code' =>
      have herrno := (hinl code).2
      rw [h, (hinl code').2] at herrno
      rw [codeJson_injective (Option.some.inj herrno)]
    | inr q =>
      have hname := (hinl code).1
      rw [h, (get?_entryJson_inr q.1 q.2).1] at hname
      cases hname
  | inr p =>
    obtain ⟨hname, howner, htime, hmode⟩ := get?_entryJson_inr p.1 p.2
    cases q with
    | inl code =>
      rw [h, (hinl code).1] at hname
      cases hname
    | inr q =>
      obtain ⟨hname', howner', htime', hmode'⟩ := get?_entryJson_inr q.1 q.2
      rw [h] at hname howner htime hmode
      have hcenter := Json.str.inj (Option.some.inj (hname.symm.trans hname'))
      have hfields : p.2 = q.2 := by
        ext1
        · exact hmap (hmode.symm.trans hmode')
        · exact hmap (howner.symm.trans howner')
        · exact hmap (htime.symm.trans htime')
      exact congrArg Sum.inr (Prod.ext hcenter hfields)

/-! ### What is written -/

/-- The entry of the standard server. -/
def stdJson (center : Bytes) : Except DcCommonCode FileAttr → Option Json
  | .error code => setError (Json.null.set "is_standard" (.bool true)) code
  | .ok attr => some (assignAttrToJson (Json.null.set "is_standard" (.bool true)) center attr)

/-- The standard that the others are compared with. -/
def viewOf : Except DcCommonCode FileAttr → Option DirAttrs
  | .error _ => none
  | .ok attr => attr.view

theorem setError_null_eq_some_iff {code : DcCommonCode} {json : Json} :
    setError .null code = some json ↔
      dcCommonCodeMsg code ≠ none ∧ json = entryJson (.inl code) := by
  unfold setError entryJson
  cases hmsg : dcCommonCodeMsg code with
  | none => simp
  | some msg => simp [hmsg, eq_comm]

/-- All fields are written, or those that differ. -/
private theorem setOpt_eq {json : Json} {key : String} {p : Prop} [Decidable p] {b : Bytes} :
    (if p then json.set key (.str b) else json) = json.setOpt key (if p then some b else none) := by
  split <;> rfl

theorem compare_eq_true_iff {std other : FileAttr} (hstd : std.fSize = -1)
    (hother : other.fSize = -1) (hscode : std.fCode = .S_SUCCESS)
    (hocode : other.fCode = .S_SUCCESS) :
    std.compare other = true ↔ std.attrs = other.attrs := by
  unfold FileAttr.compare FileAttr.attrs
  rw [hstd, hother, hscode, hocode, DirAttrs.mk.injEq]
  simp

private theorem wrote_iff {json : Json} {x : DirAttrs} {es : List Json} :
    (some (some json)).map Option.toList = some es ↔ Reportable (.ok x) ∧ es = [json] :=
  ⟨fun h => ⟨trivial, (Option.some.inj h).symm⟩, fun h => congrArg some h.2.symm⟩

/-- A failure writes its code, if the code has a message. -/
private theorem wroteError_iff {code : DcCommonCode} {view : Option DirAttrs} {center : Bytes}
    {es : List Json} :
    ((setError .null code).map some).map Option.toList = some es ↔
      Reportable (.error code) ∧
        es = (Cell.print [center] [cellOf view (.error code)]).map entryJson := by
  have herr := @setError_null_eq_some_iff code
  cases hset : setError .null code with
  | none =>
    have hmsg : dcCommonCodeMsg code = none := by
      by_contra hne
      have := herr.mpr ⟨hne, rfl⟩
      rw [hset] at this
      cases this
    simp [Reportable, hmsg]
  | some json =>
    obtain ⟨hmsg, rfl⟩ := herr.mp hset
    simp [Reportable, hmsg, cellOf, eq_comm]

/-- The comparison writes the cell of the other server. -/
theorem compareAssignAttrToJson_iff {std other : FileAttr} (hstd : std.fSize = -1)
    (hother : other.fSize = -1) (center : Bytes) {es : List Json} :
    (compareAssignAttrToJson std other .null center).map Option.toList = some es ↔
      Reportable other.fact ∧
        es = (Cell.print [center] [cellOf std.view other.fact]).map entryJson := by
  unfold compareAssignAttrToJson FileAttr.fact FileAttr.view
  by_cases hocode : other.fCode = .S_SUCCESS
  · rw [if_neg (not_not.mpr hocode), if_pos hocode]
    by_cases hscode : std.fCode = .S_SUCCESS
    · rw [if_neg (not_not.mpr hscode), if_pos hscode]
      by_cases heq : std.attrs = other.attrs
      · -- equal: nothing is written
        have hcompare := (compare_eq_true_iff hstd hother hscode hocode).mpr heq
        have hcell : cellOf (some std.attrs) (.ok other.attrs) = .blank := if_pos heq
        rw [if_pos hcompare, hcell]
        simp [Reportable, eq_comm]
      · have hcompare : ¬ std.compare other = true := fun h =>
          -- different: the fields that differ are written under the name of the server
          heq ((compare_eq_true_iff hstd hother hscode hocode).mp h)
        have hcell : cellOf (some std.attrs) (.ok other.attrs) =
            .named (std.attrs.diff other.attrs) := if_neg heq
        have hsize : ¬ std.fSize ≠ other.fSize := by simp [hstd, hother]
        rw [if_neg hcompare, hcell]
        simp only [if_neg hsize, setOpt_eq]
        exact wrote_iff
    · rw [if_pos hscode, if_neg hscode]
      -- the standard server failed: the record is written in full
      have hsize : ¬ 0 ≤ other.fSize := by simp [hother]
      simp only [assignAttrToJson, if_neg hsize]
      exact wrote_iff
  · rw [if_pos hocode, if_neg hocode]
    exact wroteError_iff

variable {dirs dirIdx : Nat} {std : FileAttr}

/-- The record of a well-formed answer has no size. -/
theorem fSize_of_itemAt (hd : dirIdx < dirs) {r : DirListResult} (hr : WellFormed dirs r)
    {attr : FileAttr} (h : itemAt dirIdx r = .ok attr) :
    attr.fSize = -1 ∧ ∀ attrs, r = .ok attrs → attrs[dirIdx]? = some attr := by
  cases r with
  | error code => cases h
  | ok attrs =>
    obtain ⟨hlen, hsize⟩ := hr
    have hlt : dirIdx < attrs.length := hlen ▸ hd
    obtain rfl : attrs[dirIdx] = attr := by
      rw [← Except.ok.inj h]
      change _ = attrs.getD dirIdx {}
      rw [List.getD_eq_getElem?_getD, List.getElem?_eq_getElem hlt]
      rfl
    refine ⟨hsize _ (List.getElem_mem hlt), fun attrs' heq => ?_⟩
    cases heq
    exact List.getElem?_eq_getElem hlt

/-- An entry is the printed cell of its server. -/
theorem otherServer_iff (hstd : std.fSize = -1) (hd : dirIdx < dirs) {r : DirListResult}
    (hr : WellFormed dirs r) (center : Bytes) {es : List Json} :
    (otherServer std dirIdx (collected center r)).map Option.toList = some es ↔
      Reportable (factAt dirIdx r) ∧
        es = (Cell.print [center] [cellOf std.view (factAt dirIdx r)]).map entryJson := by
  cases hitem : itemAt dirIdx r with
  | error code =>
    have hfact : factAt dirIdx r = .error code := by
      unfold factAt
      rw [hitem]
      rfl
    obtain rfl : r = .error code := by
      cases r with
      | error c => rw [Except.error.inj hitem]
      | ok attrs => cases hitem
    rw [hfact]
    exact wroteError_iff
  | ok attr =>
    obtain ⟨hsize, hget⟩ := fSize_of_itemAt hd hr hitem
    have hfact : factAt dirIdx r = attr.fact := by
      unfold factAt
      rw [hitem]
      rfl
    cases r with
    | error code => cases hitem
    | ok attrs =>
      rw [hfact]
      unfold otherServer collected
      rw [hget attrs rfl]
      exact compareAssignAttrToJson_iff hstd hsize center

/-- One round of the loop for a server that is not the standard one. -/
private theorem otherServers_cons_iff {stdIdx : Int} {i : Nat} (hi : (i : Int) ≠ stdIdx)
    {r : ServerResult} {rs : List ServerResult} {es : List Json} :
    otherServers std stdIdx dirIdx i (r :: rs) = some es ↔
      ∃ es₁ es₂, (otherServer std dirIdx r).map Option.toList = some es₁ ∧
        otherServers std stdIdx dirIdx (i + 1) rs = some es₂ ∧ es = es₁ ++ es₂ := by
  rw [otherServers, if_neg hi]
  cases otherServer std dirIdx r with
  | none => simp
  | some entry =>
    cases otherServers std stdIdx dirIdx (i + 1) rs with
    | none => simp
    | some entries => simp [eq_comm]

/-- The loop prints the row of the other servers. `skip` is where the standard server is
in what is left, or past its end. -/
theorem otherServers_iff (hstd : std.fSize = -1) (hd : dirIdx < dirs) {stdIdx : Int} {i : Nat}
    {centers : List Bytes} {rs : List DirListResult} (hlen : centers.length = rs.length)
    (hrs : ∀ r ∈ rs, WellFormed dirs r) {skip : Nat}
    (hskip : ∀ j < rs.length, (↑(i + j) = stdIdx ↔ j = skip)) {es : List Json} :
    otherServers std stdIdx dirIdx i (centers.zipWith collected rs) = some es ↔
      (∀ r ∈ rs.eraseIdx skip, Reportable (factAt dirIdx r)) ∧
        es = (Cell.print (centers.eraseIdx skip)
          ((rs.eraseIdx skip).map fun r => cellOf std.view (factAt dirIdx r))).map entryJson := by
  -- on the servers that are left; `skip` moves towards the front with them
  induction rs generalizing i centers skip es with
  | nil =>
    rw [List.length_eq_zero_iff.mp hlen]
    simp [otherServers, eq_comm]
  | cons r rs ih =>
    obtain ⟨center, centers, rfl⟩ := List.exists_cons_of_length_eq_add_one hlen
    obtain ⟨hr, hrs⟩ := List.forall_mem_cons.mp hrs
    have hl : centers.length = rs.length := by simpa using hlen
    rw [List.zipWith_cons_cons]
    by_cases hi : (i : Int) = stdIdx
    · -- the standard server is passed over
      obtain rfl : 0 = skip := (hskip 0 (by simp)).mp (by simpa using hi)
      have hrest : ∀ j < rs.length, (↑(i + 1 + j) = stdIdx ↔ j = rs.length) := by
        intro j hj
        omega
      rw [otherServers, if_pos hi, ih hl hrs hrest, List.eraseIdx_of_length_le le_rfl,
        List.eraseIdx_of_length_le hl.le]
      rfl
    -- any other server writes its cell, and the standard one is still to come
    · obtain ⟨k, rfl⟩ : ∃ k, skip = k + 1 := by
        cases skip with
        | zero => exact absurd (by simpa using (hskip 0 (by simp)).mpr rfl) hi
        | succ k => exact ⟨k, rfl⟩
      have hrest : ∀ j < rs.length, (↑(i + 1 + j) = stdIdx ↔ j = k) := by
        intro j hj
        have := hskip (j + 1) (by simpa using hj)
        omega
      rw [otherServers_cons_iff hi, List.eraseIdx_cons_succ, List.eraseIdx_cons_succ,
        List.map_cons, Cell.print_cons, List.map_append, List.forall_mem_cons]
      constructor
      · rintro ⟨es₁, es₂, h₁, h₂, rfl⟩
        obtain ⟨hrep, rfl⟩ := (otherServer_iff hstd hd hr center).mp h₁
        obtain ⟨hreps, rfl⟩ := (ih hl hrs hrest).mp h₂
        exact ⟨⟨hrep, hreps⟩, rfl⟩
      · rintro ⟨⟨hrep, hreps⟩, rfl⟩
        exact ⟨_, _, (otherServer_iff hstd hd hr center).mpr ⟨hrep, rfl⟩,
          (ih hl hrs hrest).mpr ⟨hreps, rfl⟩, rfl⟩

end Wfrest
