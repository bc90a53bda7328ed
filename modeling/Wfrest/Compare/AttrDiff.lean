import Wfrest.Compare.Report

/-!
# Reports of one attribute record

`compare_assign_attr_to_json` writes what is to be said about a server whose record is
compared with that of the standard. There are two overloads, and the second one also gets
the MD5 sums of the two files. `ReportsDifferences` is what both are for: a server is left
out when nothing differs, and otherwise the attributes that differ are given.

The first overload does that (`compareAssignAttrToJson_reports`). The second one leaves the
server out on the word of `dc_file_attr::compare`, before it looks at the sums, so a file
that differs in its sum alone is lost (`reports_iff`).
-/

namespace Wfrest

/-! ### The overload with sums -/

/-- `assign_attr_to_json`, the overload with a sum. -/
def assignAttrToJsonMd5 (json : Json) (centerName : Bytes) (attr : FileAttr) (md5 : Bytes) :
    Json :=
  let json := json.set "server_name" (.str centerName)
  let json := if 0 ≤ attr.fSize then json.set "size" (.num attr.fSize) else json
  let json := json.set "owner" (.str attr.fOwner)
  let json := json.set "last_updated" (.str attr.fLastUpdated)
  let json := json.set "mode" (.str attr.fMode)
  json.set "md5" (.str md5)

/-- `compare_assign_attr_to_json`, the overload with sums. -/
def compareAssignAttrToJsonMd5 (std other : FileAttr) (json : Json)
    (centerName stdMd5 otherMd5 : Bytes) : Option (Option Json) :=
  if other.fCode ≠ .S_SUCCESS then (setError json other.fCode).map some
  else if std.fCode ≠ .S_SUCCESS then
    some (some (assignAttrToJsonMd5 json centerName other otherMd5))
  -- the sums have not been compared yet
  else if std.compare other then some none
  else
    let json := json.set "server_name" (.str centerName)
    let json := if std.fSize ≠ other.fSize then json.set "size" (.num other.fSize) else json
    let json := if std.fOwner ≠ other.fOwner then json.set "owner" (.str other.fOwner) else json
    let json :=
      if std.fLastUpdated ≠ other.fLastUpdated then
        json.set "last_updated" (.str other.fLastUpdated)
      else json
    let json := if std.fMode ≠ other.fMode then json.set "mode" (.str other.fMode) else json
    let json := if stdMd5 ≠ otherMd5 then json.set "md5" (.str otherMd5) else json
    some (some json)

/-! ### What a report is for -/

/-- What a report can say about a file. -/
inductive Attribute where
  | size
  | owner
  | lastUpdated
  | mode
  | md5
  deriving DecidableEq, Repr

/-- The field of a report. -/
def Attribute.key : Attribute → String
  | size => "size"
  | owner => "owner"
  | lastUpdated => "last_updated"
  | mode => "mode"
  | md5 => "md5"

/-- The value of an attribute. A record comes with a sum or without one. -/
def FileAttr.value (attr : FileAttr) (sum : Option Bytes) : Attribute → Option Json
  | .size => some (.num attr.fSize)
  | .owner => some (.str attr.fOwner)
  | .lastUpdated => some (.str attr.fLastUpdated)
  | .mode => some (.str attr.fMode)
  | .md5 => sum.map .str

/-- The report names its server, and gives the attributes in `given` and nothing else. -/
structure Gives (json : Json) (center : Bytes) (attr : FileAttr) (sum : Option Bytes)
    (given : Attribute → Prop) : Prop where
  name : json.get? "server_name" = some (.str center)
  value : ∀ a, given a → json.get? a.key = attr.value sum a
  absent : ∀ a, ¬ given a → json.get? a.key = none
  nothingElse : ∀ key, json.get? key ≠ none →
    ascii key = ascii "server_name" ∨ ∃ a : Attribute, ascii key = ascii a.key

/-- The answer is a report of the differences between `other` and the standard. -/
structure ReportsDifferences (std other : FileAttr) (stdSum otherSum : Option Bytes)
    (center : Bytes) (answer : Option (Option Json)) : Prop where
  leftOut : answer = some none → std.fCode = .S_SUCCESS ∧ other.fCode = .S_SUCCESS ∧
    ∀ a, std.value stdSum a = other.value otherSum a
  differing : std.fCode = .S_SUCCESS → other.fCode = .S_SUCCESS →
    ∀ json, answer = some (some json) →
      Gives json center other otherSum fun a => std.value stdSum a ≠ other.value otherSum a
  stdFailed : std.fCode ≠ .S_SUCCESS → other.fCode = .S_SUCCESS →
    ∃ json, answer = some (some json) ∧
      Gives json center other otherSum fun a => a = .size → 0 ≤ other.fSize

/-! ### The fields of a report -/

theorem Attribute.ascii_key_inj {a b : Attribute} : ascii a.key = ascii b.key ↔ a = b := by
  constructor
  · cases a <;> cases b <;> decide
  · rintro rfl
    rfl

theorem Attribute.ascii_key_ne (a : Attribute) : ascii a.key ≠ ascii "server_name" := by
  cases a <;> decide

section
variable (attr : FileAttr) (sum : Option Bytes) (given : Attribute → Bool)

/-- Add the attribute `a` if it is given. -/
def Json.addAttr (j : Json) (a : Attribute) : Json :=
  match attr.value sum a with
  | some v => if given a then j.set a.key v else j
  | none => j

theorem Json.get?_addAttr (j : Json) (a : Attribute) (key : String) :
    (j.addAttr attr sum given a).get? key =
      if ascii key = ascii a.key ∧ given a = true then (attr.value sum a).or (j.get? key)
      else j.get? key := by
  unfold addAttr
  cases attr.value sum a with
  | none => simp
  | some v =>
    by_cases hgiven : given a = true
    · simp [hgiven, get?_set]
    · simp [hgiven]

/-- All attributes, in the order in which they are written. -/
def Attribute.all : List Attribute := [size, owner, lastUpdated, mode, md5]

/-- The report of the given attributes, on a fresh value. -/
def reportJson (center : Bytes) : Json :=
  Attribute.all.foldl (Json.addAttr attr sum given)
    (Json.null.set "server_name" (.str center))

private theorem get?_foldl_addAttr (as : List Attribute) (j : Json) (b : Attribute) :
    (as.foldl (Json.addAttr attr sum given) j).get? b.key =
      if b ∈ as ∧ given b = true then (attr.value sum b).or (j.get? b.key)
      else j.get? b.key := by
  induction as generalizing j with
  | nil => simp
  | cons a as ih =>
    rw [List.foldl_cons, ih]
    simp only [Json.get?_addAttr, Attribute.ascii_key_inj, List.mem_cons]
    by_cases hab : b = a
    · -- a repeated attribute is written with the same value
      subst hab
      cases given b <;> cases attr.value sum b <;> simp
    · simp [hab]

private theorem get?_foldl_addAttr_of_ne (as : List Attribute) (j : Json) {key : String}
    (h : ∀ a : Attribute, ascii key ≠ ascii a.key) :
    (as.foldl (Json.addAttr attr sum given) j).get? key = j.get? key := by
  induction as generalizing j with
  | nil => rfl
  | cons a as ih => rw [List.foldl_cons, ih, Json.get?_addAttr, if_neg fun h' => h a h'.1]

/-- The report gives what it is to give. -/
theorem gives_reportJson (center : Bytes) :
    Gives (reportJson attr sum given center) center attr sum fun a => given a = true := by
  have hall : ∀ a, a ∈ Attribute.all := by
    intro a
    cases a <;> decide
  have hfresh : ∀ a : Attribute,
      (Json.null.set "server_name" (.str center)).get? a.key = none := by
    intro a
    rw [Json.get?_set, if_neg a.ascii_key_ne]
    rfl
  constructor
  · rw [reportJson, get?_foldl_addAttr_of_ne _ _ _ _ _ fun a => a.ascii_key_ne.symm,
      Json.get?_set_self]
  · intro a ha
    rw [reportJson, get?_foldl_addAttr, if_pos ⟨hall a, ha⟩, hfresh, Option.or_none]
  · intro a ha
    rw [reportJson, get?_foldl_addAttr, if_neg fun h => ha h.2, hfresh]
  · intro key hkey
    by_contra hno
    rw [not_or, not_exists] at hno
    rw [reportJson, get?_foldl_addAttr_of_ne _ _ _ _ _ hno.2, Json.get?_set, if_neg hno.1] at hkey
    exact hkey rfl

end

/-- Reports of the same attributes. -/
theorem Gives.congr {json : Json} {center : Bytes} {attr : FileAttr} {sum : Option Bytes}
    {p q : Attribute → Prop} (h : Gives json center attr sum p) (hpq : ∀ a, p a ↔ q a) :
    Gives json center attr sum q :=
  ⟨h.name, fun a ha => h.value a ((hpq a).mpr ha),
    fun a ha => h.absent a fun hp => ha ((hpq a).mp hp), h.nothingElse⟩

/-! ### The two overloads -/

/-- The attributes that differ. -/
def FileAttr.differs (std other : FileAttr) (stdSum otherSum : Option Bytes) : Attribute → Bool
  | .size => std.fSize ≠ other.fSize
  | .owner => std.fOwner ≠ other.fOwner
  | .lastUpdated => std.fLastUpdated ≠ other.fLastUpdated
  | .mode => std.fMode ≠ other.fMode
  | .md5 => stdSum ≠ otherSum

theorem differs_iff {std other : FileAttr} {stdSum otherSum : Option Bytes} (a : Attribute) :
    std.differs other stdSum otherSum a = true ↔
      std.value stdSum a ≠ other.value otherSum a := by
  have hinj : Function.Injective (Option.map Json.str) :=
    Option.map_injective fun _ _ h => Json.str.inj h
  cases a <;> simp [FileAttr.differs, FileAttr.value, hinj.eq_iff]

theorem assignAttrToJson_eq (center : Bytes) (other : FileAttr) :
    assignAttrToJson .null center other =
      reportJson other none (fun a => a ≠ .size ∨ 0 ≤ other.fSize) center := by
  by_cases hsize : 0 ≤ other.fSize <;>
    simp [assignAttrToJson, reportJson, Attribute.all, Json.addAttr, FileAttr.value,
      Attribute.key, hsize]

theorem assignAttrToJsonMd5_eq (center : Bytes) (other : FileAttr) (md5 : Bytes) :
    assignAttrToJsonMd5 .null center other md5 =
      reportJson other (some md5) (fun a => a ≠ .size ∨ 0 ≤ other.fSize) center := by
  by_cases hsize : 0 ≤ other.fSize <;>
    simp [assignAttrToJsonMd5, reportJson, Attribute.all, Json.addAttr, FileAttr.value,
      Attribute.key, hsize]

/-- What both overloads do, apart from the test for equality. -/
theorem reportsDifferences_of {std other : FileAttr} {stdSum otherSum : Option Bytes}
    {center : Bytes} {same : Bool} {answer : Option (Option Json)}
    (hanswer : answer =
      if other.fCode ≠ .S_SUCCESS then (setError .null other.fCode).map some
      else if std.fCode ≠ .S_SUCCESS then
        some (some (reportJson other otherSum (fun a => a ≠ .size ∨ 0 ≤ other.fSize) center))
      else if same then some none
      else some (some (reportJson other otherSum (std.differs other stdSum otherSum) center))) :
    ReportsDifferences std other stdSum otherSum center answer ↔
      (std.fCode = .S_SUCCESS → other.fCode = .S_SUCCESS → same = true →
        ∀ a, std.value stdSum a = other.value otherSum a) := by
  subst hanswer
  by_cases hother : other.fCode = .S_SUCCESS
  swap
  · -- a failure is always reported
    refine iff_of_true ⟨?_, fun _ h => absurd h hother, fun _ h => absurd h hother⟩
      fun _ h => absurd h hother
    rw [if_pos hother]
    intro h
    obtain ⟨json, -, hjson⟩ := Option.map_eq_some_iff.mp h
    cases hjson
  rw [if_neg fun h => h hother]
  by_cases hstd : std.fCode = .S_SUCCESS
  swap
  · rw [if_pos hstd]
    refine iff_of_true ⟨fun h => absurd h (by simp), fun h => absurd h hstd, fun _ _ => ?_⟩
      fun h => absurd h hstd
    refine ⟨_, rfl, (gives_reportJson _ _ _ _).congr fun a => ?_⟩
    rw [decide_eq_true_eq, or_iff_not_imp_left, not_not]
  rw [if_neg fun h => h hstd]
  cases same with
  | true =>
    rw [if_pos rfl]
    constructor
    · intro h _ _ _
      exact (h.leftOut rfl).2.2
    · intro h
      exact ⟨fun _ => ⟨hstd, hother, h hstd hother rfl⟩,
        fun _ _ json hj => absurd hj (by simp), fun hne => absurd hstd hne⟩
  | false =>
    rw [if_neg Bool.false_ne_true]
    refine iff_of_true ⟨fun h => absurd h (by simp), fun _ _ json hj => ?_,
      fun hne => absurd hstd hne⟩ fun _ _ h => absurd h Bool.false_ne_true
    obtain rfl := Option.some.inj (Option.some.inj hj)
    exact (gives_reportJson _ _ _ _).congr differs_iff

theorem compareAssignAttrToJson_eq (std other : FileAttr) (center : Bytes) :
    compareAssignAttrToJson std other .null center =
      if other.fCode ≠ .S_SUCCESS then (setError .null other.fCode).map some
      else if std.fCode ≠ .S_SUCCESS then
        some (some (reportJson other none (fun a => a ≠ .size ∨ 0 ≤ other.fSize) center))
      else if std.compare other then some none
      else some (some (reportJson other none (std.differs other none none) center)) := by
  rw [compareAssignAttrToJson, assignAttrToJson_eq]
  simp [reportJson, Attribute.all, Json.addAttr, FileAttr.value, FileAttr.differs, Attribute.key]

theorem compareAssignAttrToJsonMd5_eq (std other : FileAttr) (center stdMd5 otherMd5 : Bytes) :
    compareAssignAttrToJsonMd5 std other .null center stdMd5 otherMd5 =
      if other.fCode ≠ .S_SUCCESS then (setError .null other.fCode).map some
      else if std.fCode ≠ .S_SUCCESS then
        some (some
          (reportJson other (some otherMd5) (fun a => a ≠ .size ∨ 0 ≤ other.fSize) center))
      else if std.compare other then some none
      else some (some
        (reportJson other (some otherMd5) (std.differs other (some stdMd5) (some otherMd5))
          center)) := by
  rw [compareAssignAttrToJsonMd5, assignAttrToJsonMd5_eq]
  simp [reportJson, Attribute.all, Json.addAttr, FileAttr.value, FileAttr.differs, Attribute.key]

/-- What `compare` says about the attributes of two records without failures. -/
theorem value_eq_of_compare {std other : FileAttr} (h : std.compare other = true)
    (stdSum otherSum : Option Bytes) (hsum : stdSum = otherSum) (a : Attribute) :
    std.value stdSum a = other.value otherSum a := by
  obtain ⟨-, -, hsize, hmode, howner, htime⟩ := of_decide_eq_true h
  cases a <;> simp [FileAttr.value, *]

/-- **The overload without sums** reports the differences. -/
theorem compareAssignAttrToJson_reports (std other : FileAttr) (center : Bytes) :
    ReportsDifferences std other none none center
      (compareAssignAttrToJson std other .null center) := by
  rw [reportsDifferences_of (compareAssignAttrToJson_eq std other center)]
  exact fun _ _ h => value_eq_of_compare h none none rfl

/-- **The overload with sums** reports the differences, unless the sums differ and the
records do not. -/
theorem compareAssignAttrToJsonMd5_reports_iff (std other : FileAttr)
    (center stdMd5 otherMd5 : Bytes) :
    ReportsDifferences std other (some stdMd5) (some otherMd5) center
        (compareAssignAttrToJsonMd5 std other .null center stdMd5 otherMd5) ↔
      (std.compare other = true → stdMd5 = otherMd5) := by
  rw [reportsDifferences_of (compareAssignAttrToJsonMd5_eq std other center stdMd5 otherMd5)]
  constructor
  · intro h hsame
    obtain ⟨hstd, hother, -⟩ := of_decide_eq_true hsame
    exact Json.str.inj (Option.some.inj (h hstd hother hsame .md5))
  · intro h _ _ hsame
    exact value_eq_of_compare hsame _ _ (congrArg some (h hsame))

/-- **Only equal servers are left out**: always by the overload without sums, and by the
one with sums unless the records are equal and the sums differ. -/
theorem reports_iff (std other : FileAttr) (center stdMd5 otherMd5 : Bytes) :
    ReportsDifferences std other none none center
        (compareAssignAttrToJson std other .null center) ∧
      (ReportsDifferences std other (some stdMd5) (some otherMd5) center
          (compareAssignAttrToJsonMd5 std other .null center stdMd5 otherMd5) ↔
        ¬ (std.fCode = .S_SUCCESS ∧ other.fCode = .S_SUCCESS ∧ std.fSize = other.fSize ∧
          std.fMode = other.fMode ∧ std.fOwner = other.fOwner ∧
          std.fLastUpdated = other.fLastUpdated ∧ stdMd5 ≠ otherMd5)) := by
  refine ⟨compareAssignAttrToJson_reports std other center, ?_⟩
  rw [compareAssignAttrToJsonMd5_reports_iff, FileAttr.compare, decide_eq_true_eq]
  tauto

/-- A file of the same size, mode, owner and time with another sum is left out. -/
theorem not_reports_otherMd5 :
    ¬ ReportsDifferences { fSize := 3 } { fSize := 3 } (some (ascii "6a")) (some (ascii "6b"))
      (ascii "beijing")
      (compareAssignAttrToJsonMd5 { fSize := 3 } { fSize := 3 } .null (ascii "beijing")
        (ascii "6a") (ascii "6b")) := by
  intro h
  have hsum := (h.leftOut rfl).2.2 .md5
  exact absurd (Json.str.inj (Option.some.inj hsum)) (by decide)

end Wfrest
