import Wfrest.Compare.Task
import Mathlib.Data.List.Forall2

/-!
# The schema of a task document

`TaskSchema` says what a task document is, and which task it describes, without saying how
it is read. `build_task_from_json` accepts the documents of the schema and refuses all
others with `E_ARG_INVALID` (`validatesTotally_iff`). There are two exceptions. An empty uuid
passes the check of the member and fails the assertion behind it. And the message that a
refusal logs is taken for a format, so a `%` in the document may ask for an argument that
is not there.

Every reader is characterised twice, by what it accepts (`..._eq_ok`) and by the rules that
it enforces, in which order and with which messages (`Obeys`).
-/

namespace Wfrest

/-! ### The schema -/

namespace CJson

/-- The member is a non-empty string. -/
def HasText (item : CJson) (name : String) (s : Bytes) : Prop :=
  item.getObjectItem name = some (.string s) ∧ s ≠ []

/-- The member is an array of strings, or there is none. -/
def HasStrings (item : CJson) (name : String) (ss : List Bytes) : Prop :=
  item.getObjectItem name = none ∧ ss = [] ∨
    item.getObjectItem name = some (.array (ss.map .string))

/-- The member is a number, and `n` is its `int`. -/
def HasInt (item : CJson) (name : String) (n : Int) : Prop :=
  ∃ d, item.getObjectItem name = some (.number n d)

end CJson

/-- The element of `servers` describes the record. -/
structure ServerSchema (item : CJson) (info : ServerInfo) : Prop where
  isObject : ∃ items, item = .object items
  center : item.HasText "center" info.center
  host : item.HasText "host" info.host
  user : item.HasText "user" info.user
  password : item.HasText "password" info.password
  port : item.HasInt "port" info.port ∧ 0 < info.port
  standard : item.getObjectItem "standard" = some (if info.standard then .true else .false)
  excludedFileRegex : item.HasStrings "excluded_file_regex" info.excludedFileRegex ∧
    ∀ s ∈ info.excludedFileRegex, s ≠ []
  pathToCompare : item.HasText "path_to_compare" info.pathToCompare
  baseDir : item.HasText "base_dir" info.baseDir

/-- `stdIdx` is the index of the only standard server. -/
def OnlyStandard (infos : List ServerInfo) (stdIdx : Int) : Prop :=
  ∃ i : Nat, stdIdx = i ∧ (∃ info, infos[i]? = some info ∧ info.standard = true) ∧
    ∀ j info, infos[j]? = some info → info.standard = true → j = i

/-- The document describes the task. -/
structure TaskSchema (root : CJson) (task : DcApiTask) : Prop where
  uuid : root.HasText "uuid" task.taskUuid
  resultType : root.getObjectItem "result_type" = none ∧ task.resultType = 0 ∨
    root.HasInt "result_type" task.resultType ∧ 0 ≤ task.resultType ∧ task.resultType < 1
  excludedFileRegex : root.HasStrings "excluded_file_regex" task.excludedFileRegex
  servers : ∃ items, root.getObjectItem "servers" = some (.array items) ∧
    List.Forall₂ ServerSchema items task.serverInfoArr
  standard : OnlyStandard task.serverInfoArr task.stdIdx
  noResult : task.compareResultJson = .null

/-! ### What the readers accept -/

theorem dcCommonAssert_eq_ok {b : Bool} {u : Unit} : dcCommonAssert b = .ok u ↔ b = true := by
  cases b <;> simp [dcCommonAssert]

theorem readString_eq_ok {item : CJson} {name : String} {text s : Bytes} :
    readString item name text = .ok s ↔ item.HasText name s := by
  unfold readString CJson.HasText
  split
  · next t ht =>
    rw [ht]
    split_ifs with hnil
    · refine iff_of_false (handleErrorMsg_ne_ok _ _) ?_
      simp only [not_and, Option.some.injEq, CJson.string.injEq]
      rintro rfl hne
      exact hne hnil
    · simp only [Except.ok.injEq, Option.some.injEq, CJson.string.injEq]
      exact ⟨fun h => ⟨h, h ▸ hnil⟩, fun h => h.1⟩
  · next hno => exact iff_of_false (handleErrorMsg_ne_ok _ _) fun h => hno s h.1

theorem readStrings_eq_ok {nonEmpty : Bool} {text : Bytes} {items : List CJson}
    {ss : List Bytes} :
    readStrings nonEmpty text items = .ok ss ↔
      items = ss.map .string ∧ (nonEmpty = true → ∀ s ∈ ss, s ≠ []) := by
  induction items generalizing ss with
  | nil =>
    constructor
    · rintro h
      obtain rfl := Except.ok.inj h
      exact ⟨rfl, fun _ s hs => absurd hs List.not_mem_nil⟩
    · rintro ⟨h, -⟩
      rw [List.map_eq_nil_iff.mp h.symm]
      rfl
  | cons item items ih =>
    cases item with
    | string s =>
      rw [readStrings]
      by_cases hempty : nonEmpty = true ∧ s = []
      · -- the loop has returned at this string
        rw [if_pos hempty]
        refine iff_of_false (fun h => ?_) ?_
        · obtain ⟨_, herr, -⟩ := bind_eq_ok.mp h
          exact handleErrorMsg_ne_ok _ _ herr
        rintro ⟨h, hall⟩
        obtain ⟨t, ts, rfl⟩ : ∃ t ts, ss = t :: ts :=
          List.exists_cons_of_ne_nil fun hnil => by simp [hnil] at h
        obtain ⟨rfl, -⟩ : s = t ∧ items = ts.map .string := by simpa using h
        exact hall hempty.1 s List.mem_cons_self hempty.2
      · rw [if_neg hempty]
        constructor
        · intro h
          obtain ⟨ts, hts, h⟩ := bind_eq_ok.mp h
          obtain rfl : s :: ts = ss := Except.ok.inj h
          obtain ⟨rfl, hall⟩ := ih.mp hts
          refine ⟨rfl, fun hflag => ?_⟩
          rw [List.forall_mem_cons]
          exact ⟨fun hs => hempty ⟨hflag, hs⟩, hall hflag⟩
        · rintro ⟨h, hall⟩
          obtain ⟨t, ts, rfl⟩ : ∃ t ts, ss = t :: ts :=
            List.exists_cons_of_ne_nil fun hnil => by simp [hnil] at h
          obtain ⟨rfl, hitems⟩ : s = t ∧ items = ts.map .string := by simpa using h
          have hts : readStrings nonEmpty text items = .ok ts :=
            ih.mpr ⟨hitems, fun hflag => (List.forall_mem_cons.mp (hall hflag)).2⟩
          exact bind_eq_ok.mpr ⟨ts, hts, rfl⟩
    | _ =>
      refine iff_of_false (handleErrorMsg_ne_ok _ _) ?_
      rintro ⟨h, -⟩
      cases ss <;> simp at h

theorem readExcludedFileRegex_eq_ok {nonEmpty : Bool} {item : CJson} {text : Bytes}
    {ss : List Bytes} :
    readExcludedFileRegex nonEmpty item text = .ok ss ↔
      item.HasStrings "excluded_file_regex" ss ∧ (nonEmpty = true → ∀ s ∈ ss, s ≠ []) := by
  unfold readExcludedFileRegex CJson.HasStrings
  cases item.getObjectItem "excluded_file_regex" with
  | none =>
    constructor
    · rintro h
      obtain rfl := Except.ok.inj h
      exact ⟨Or.inl ⟨rfl, rfl⟩, fun _ s hs => absurd hs List.not_mem_nil⟩
    · rintro ⟨⟨-, rfl⟩ | h, -⟩
      · rfl
      · cases h
  | some j =>
    cases j with
    | array items =>
      simp only [readStrings_eq_ok, reduceCtorEq, false_and, false_or, Option.some.injEq,
        CJson.array.injEq]
    | _ =>
      refine iff_of_false (handleErrorMsg_ne_ok _ _) ?_
      rintro ⟨⟨h, -⟩ | h, -⟩
      · cases h
      · cases h

theorem readPort_eq_ok {item : CJson} {text : Bytes} {port : Int} :
    readPort item text = .ok port ↔ item.HasInt "port" port ∧ 0 < port := by
  unfold readPort CJson.HasInt
  split
  · next n d hn =>
    rw [hn]
    simp only [Option.some.injEq, CJson.number.injEq, exists_and_left, exists_eq', and_true]
    split_ifs with hle
    · refine iff_of_false (handleErrorMsg_ne_ok _ _) ?_
      rintro ⟨rfl, hpos⟩
      omega
    · rw [Except.ok.injEq]
      exact ⟨fun h => ⟨h, by omega⟩, fun h => h.1⟩
  · next hno =>
    refine iff_of_false (handleErrorMsg_ne_ok _ _) ?_
    rintro ⟨⟨d, hd⟩, -⟩
    exact hno port d hd

theorem readStandard_eq_ok {item : CJson} {text : Bytes} {b : Bool} :
    readStandard item text = .ok b ↔
      item.getObjectItem "standard" = some (if b then .true else .false) := by
  unfold readStandard
  split
  · next h => cases b <;> simp [h]
  · next h => cases b <;> simp [h]
  · next htrue hfalse =>
    refine iff_of_false (handleErrorMsg_ne_ok _ _) fun h => ?_
    cases b with
    | true => exact htrue h
    | false => exact hfalse h

/-- A member that is read and asserted not to be empty. -/
theorem readText_bind_eq_ok {α : Type} {item : CJson} {name : String} {text : Bytes}
    {f : Bytes → Except Stop α} {a : α} :
    (readString item name text >>= fun s =>
        dcCommonAssert (0 < s.length) >>= fun _ => f s) = .ok a ↔
      ∃ s, item.HasText name s ∧ f s = .ok a := by
  rw [bind_eq_ok]
  refine exists_congr fun s => ?_
  rw [readString_eq_ok, bind_eq_ok]
  refine and_congr_right fun htext => ?_
  have hpos : 0 < s.length := List.length_pos_iff.mpr htext.2
  constructor
  · rintro ⟨-, -, hf⟩
    exact hf
  · intro hf
    exact ⟨(), dcCommonAssert_eq_ok.mpr (decide_eq_true hpos), hf⟩

theorem readPort_bind_eq_ok {α : Type} {item : CJson} {text : Bytes}
    {f : Int → Except Stop α} {a : α} :
    (readPort item text >>= fun port =>
        dcCommonAssert (0 < port) >>= fun _ => f port) = .ok a ↔
      ∃ port, (item.HasInt "port" port ∧ 0 < port) ∧ f port = .ok a := by
  rw [bind_eq_ok]
  refine exists_congr fun port => ?_
  rw [readPort_eq_ok, bind_eq_ok]
  refine and_congr_right fun hport => ?_
  constructor
  · rintro ⟨-, -, hf⟩
    exact hf
  · intro hf
    exact ⟨(), dcCommonAssert_eq_ok.mpr (decide_eq_true hport.2), hf⟩

/-- `build_task_server_info` accepts the elements of the schema. -/
theorem buildTaskServerInfo_eq_ok {taskUuid : Bytes} {items : List (Bytes × CJson)}
    {info : ServerInfo} :
    buildTaskServerInfo taskUuid (.object items) = .ok info ↔
      ServerSchema (.object items) info := by
  unfold buildTaskServerInfo
  simp only [readText_bind_eq_ok, readPort_bind_eq_ok, bind_eq_ok (x := readStandard _ _),
    bind_eq_ok (x := readExcludedFileRegex _ _ _), readStandard_eq_ok,
    readExcludedFileRegex_eq_ok]
  constructor
  · rintro ⟨center, hcenter, host, hhost, user, huser, password, hpassword, port, hport, standard,
      hstandard, regex, hregex, path, hpath, baseDir, hbase, h⟩
    obtain rfl := Except.ok.inj h
    exact ⟨⟨items, rfl⟩, hcenter, hhost, huser, hpassword, hport, hstandard,
      ⟨hregex.1, hregex.2 trivial⟩, hpath, hbase⟩
  · intro h
    exact ⟨_, h.center, _, h.host, _, h.user, _, h.password, _, h.port, _, h.standard, _,
      ⟨h.excludedFileRegex.1, fun _ => h.excludedFileRegex.2⟩, _, h.pathToCompare, _, h.baseDir,
      rfl⟩

theorem readServerItem_eq_ok {taskUuid taskContent : Bytes} {item : CJson} {info : ServerInfo} :
    readServerItem taskUuid taskContent item = .ok info ↔ ServerSchema item info := by
  cases item with
  | object items => exact buildTaskServerInfo_eq_ok
  | _ =>
    -- only an object is looked into
    refine iff_of_false (handleErrorMsg_ne_ok _ _) fun h => ?_
    obtain ⟨items, hitems⟩ := h.isObject
    cases hitems

theorem buildServers_eq_ok {taskUuid taskContent : Bytes} {items : List CJson}
    {infos : List ServerInfo} :
    buildServers taskUuid taskContent items = .ok infos ↔
      List.Forall₂ ServerSchema items infos := by
  induction items generalizing infos with
  | nil =>
    rw [List.forall₂_nil_left_iff, buildServers, Except.ok.injEq, eq_comm]
  | cons item items ih =>
    rw [buildServers, List.forall₂_cons_left_iff, bind_eq_ok]
    constructor
    · rintro ⟨info, hinfo, h⟩
      obtain ⟨rest, hrest, h⟩ := bind_eq_ok.mp h
      obtain rfl := Except.ok.inj h
      exact ⟨info, rest, readServerItem_eq_ok.mp hinfo, ih.mp hrest, rfl⟩
    · rintro ⟨info, rest, hinfo, hrest, rfl⟩
      exact ⟨info, readServerItem_eq_ok.mpr hinfo, bind_eq_ok.mpr ⟨rest, ih.mpr hrest, rfl⟩⟩

/-- After a standard server at `stdIdx` the loop accepts no other one. -/
private theorem findStdIdx_of_found {text : Bytes} {i stdIdx : Nat} {infos : List ServerInfo}
    {k : Int} :
    findStdIdx text i stdIdx infos = .ok k ↔ k = stdIdx ∧ ∀ info ∈ infos, info.standard = false := by
  have hne : (stdIdx : Int) ≠ -1 := by omega
  induction infos generalizing i with
  | nil =>
    rw [findStdIdx, if_neg hne, Except.ok.injEq]
    exact ⟨fun h => ⟨h.symm, fun x hx => absurd hx List.not_mem_nil⟩, fun h => h.1.symm⟩
  | cons info infos ih =>
    rw [findStdIdx, List.forall_mem_cons]
    cases hstd : info.standard with
    | true => simp [argInvalid, hne]
    | false => simpa using ih

/-- The loop accepts a list with one standard server and returns its index. -/
theorem findStdIdx_eq_ok {text : Bytes} {i : Nat} {infos : List ServerInfo} {k : Int} :
    findStdIdx text i (-1) infos = .ok k ↔ OnlyStandard infos (k - i) := by
  induction infos generalizing i with
  | nil =>
    refine iff_of_false (handleErrorMsg_ne_ok _ _) ?_
    rintro ⟨j, -, ⟨info, hinfo, -⟩, -⟩
    cases hinfo
  | cons info infos ih =>
    rw [findStdIdx]
    cases hstd : info.standard with
    | true =>
      -- found: the rest must not have another one
      simp only [if_true, ne_eq, not_true_eq_false, if_false, findStdIdx_of_found]
      constructor
      · rintro ⟨rfl, hrest⟩
        refine ⟨0, by simp, ⟨info, rfl, hstd⟩, fun j x hx hstdx => ?_⟩
        cases j with
        | zero => rfl
        | succ j =>
          rw [hrest x (List.mem_of_getElem? hx)] at hstdx
          cases hstdx
      · rintro ⟨j, hj, -, honly⟩
        have h0 : j = 0 := (honly 0 info rfl hstd).symm
        refine ⟨by omega, fun x hx => ?_⟩
        obtain ⟨m, hm⟩ := List.getElem?_of_mem hx
        cases hx : x.standard with
        | false => rfl
        | true =>
          have := honly (m + 1) x hm hx
          omega
    | false =>
      -- not found: the index in the rest is one less
      simp only [Bool.false_eq_true, if_false, ih]
      constructor
      · rintro ⟨j, hj, ⟨x, hx, hstdx⟩, honly⟩
        refine ⟨j + 1, by push_cast at hj ⊢; omega, ⟨x, hx, hstdx⟩, fun m y hy hstdy => ?_⟩
        cases m with
        | zero =>
          obtain rfl : info = y := Option.some.inj hy
          rw [hstd] at hstdy
          cases hstdy
        | succ m => rw [honly m y hy hstdy]
      · rintro ⟨j, hj, ⟨x, hx, hstdx⟩, honly⟩
        cases j with
        | zero =>
          obtain rfl : info = x := Option.some.inj hx
          rw [hstd] at hstdx
          cases hstdx
        | succ j =>
          refine ⟨j, by push_cast at hj ⊢; omega, ⟨x, hx, hstdx⟩, fun m y hy hstdy => ?_⟩
          have := honly (m + 1) y hy hstdy
          omega

theorem readUuid_eq_ok {taskContent : Bytes} {root : CJson} {s : Bytes} :
    readUuid taskContent root = .ok s ↔ root.getObjectItem "uuid" = some (.string s) := by
  unfold readUuid
  split
  · next t ht => rw [ht, Except.ok.injEq, Option.some.injEq, CJson.string.injEq]
  · next hno => exact iff_of_false (handleErrorMsg_ne_ok _ _) (hno s)

theorem readResultType_eq_ok {root : CJson} {text : Bytes} {n : Int} :
    readResultType root text = .ok n ↔ root.getObjectItem "result_type" = none ∧ n = 0 ∨
      root.HasInt "result_type" n ∧ 0 ≤ n ∧ n < 1 := by
  unfold readResultType CJson.HasInt
  cases root.getObjectItem "result_type" with
  | none => simp [eq_comm]
  | some j =>
    cases j with
    | number m d =>
      simp only [reduceCtorEq, false_and, false_or, Option.some.injEq, CJson.number.injEq,
        exists_and_left, exists_eq', and_true]
      split_ifs with hrange
      · rw [Except.ok.injEq]
        exact ⟨fun h => ⟨h, h ▸ hrange⟩, fun h => h.1⟩
      · exact iff_of_false (handleErrorMsg_ne_ok _ _) fun h => hrange (h.1 ▸ h.2)
    | _ => exact iff_of_false (handleErrorMsg_ne_ok _ _) (by simp)

theorem readServers_eq_ok {taskUuid taskContent : Bytes} {root : CJson}
    {infos : List ServerInfo} :
    readServers taskUuid taskContent root = .ok infos ↔
      ∃ items, root.getObjectItem "servers" = some (.array items) ∧
        List.Forall₂ ServerSchema items infos := by
  unfold readServers
  split
  · next items hitems => simp [hitems, buildServers_eq_ok]
  · next hno =>
    refine iff_of_false (handleErrorMsg_ne_ok _ _) ?_
    rintro ⟨items, hitems, -⟩
    exact hno items hitems

/-- **What is accepted.** The documents of the schema, and each gives the task that it
describes. -/
theorem buildTaskFromJson_eq_ok {taskContent : Bytes} {root : CJson} {task : DcApiTask} :
    buildTaskFromJson taskContent (some root) = .ok task ↔
      taskContent ≠ [] ∧ TaskSchema root task := by
  rw [buildTaskFromJson, bind_eq_ok]
  constructor
  · rintro ⟨_, hcontent, h⟩
    obtain ⟨uuid, huuid, h⟩ := bind_eq_ok.mp h
    obtain ⟨_, hpos, h⟩ := bind_eq_ok.mp h
    obtain ⟨resultType, htype, h⟩ := bind_eq_ok.mp h
    obtain ⟨-, -, h⟩ := bind_eq_ok.mp h
    obtain ⟨regex, hregex, h⟩ := bind_eq_ok.mp h
    obtain ⟨infos, hinfos, h⟩ := bind_eq_ok.mp h
    obtain ⟨stdIdx, hstd, h⟩ := bind_eq_ok.mp h
    obtain rfl := Except.ok.inj h
    have hne : uuid ≠ [] :=
      List.length_pos_iff.mp (of_decide_eq_true (dcCommonAssert_eq_ok.mp hpos))
    rw [findStdIdx_eq_ok, Nat.cast_zero, sub_zero] at hstd
    exact ⟨List.length_pos_iff.mp (of_decide_eq_true (dcCommonAssert_eq_ok.mp hcontent)),
      ⟨readUuid_eq_ok.mp huuid, hne⟩, readResultType_eq_ok.mp htype,
      (readExcludedFileRegex_eq_ok.mp hregex).1, readServers_eq_ok.mp hinfos, hstd, rfl⟩
  · rintro ⟨hcontent, h⟩
    obtain ⟨uuid, infos, resultType, regex, stdIdx, result⟩ := task
    obtain rfl : result = .null := h.noResult
    have hcontent : decide (0 < taskContent.length) = true :=
      decide_eq_true (List.length_pos_iff.mpr hcontent)
    have hpos : decide (0 < uuid.length) = true :=
      decide_eq_true (List.length_pos_iff.mpr h.uuid.2)
    have hrange : 0 ≤ resultType ∧ resultType < 1 := by
      rcases h.resultType with ⟨-, h0⟩ | ⟨-, hrange⟩
      · obtain rfl : resultType = 0 := h0
        decide
      · exact hrange
    have hstd : findStdIdx (taskText uuid taskContent "standard server") 0 (-1) infos =
        .ok stdIdx := by
      rw [findStdIdx_eq_ok, Nat.cast_zero, sub_zero]
      exact h.standard
    refine ⟨(), dcCommonAssert_eq_ok.mpr hcontent, ?_⟩
    refine bind_eq_ok.mpr ⟨uuid, readUuid_eq_ok.mpr h.uuid.1, bind_eq_ok.mpr ⟨(), ?_, ?_⟩⟩
    · exact dcCommonAssert_eq_ok.mpr hpos
    refine bind_eq_ok.mpr ⟨resultType, readResultType_eq_ok.mpr h.resultType, ?_⟩
    refine bind_eq_ok.mpr ⟨(), dcCommonAssert_eq_ok.mpr (decide_eq_true hrange), ?_⟩
    refine bind_eq_ok.mpr ⟨regex, readExcludedFileRegex_eq_ok.mpr ⟨h.excludedFileRegex, nofun⟩, ?_⟩
    refine bind_eq_ok.mpr ⟨infos, readServers_eq_ok.mpr h.servers, ?_⟩
    exact bind_eq_ok.mpr ⟨stdIdx, hstd, rfl⟩

/-! ### The rules -/

/-- What is required of a document, and the message that is logged where it is not met, if the
message is taken for a format. -/
structure Rule where
  holds : Prop
  text : Option Bytes

/-- How a reader stops that finds the rule broken. -/
def Rule.refuse {α : Type} (rule : Rule) : Except Stop α :=
  rule.text.elim argInvalid handleErrorMsg

/-- The rule is the first one of the list that is broken. -/
def FirstBroken : List Rule → Rule → Prop
  | [], _ => False
  | rule :: rules, broken =>
    ¬ rule.holds ∧ broken = rule ∨ rule.holds ∧ FirstBroken rules broken

/-- The reader enforces the rules, one after the other. -/
def Obeys {α : Type} (rules : List Rule) (x : Except Stop α) : Prop :=
  ((∀ rule ∈ rules, rule.holds) ∧ ∃ a, x = .ok a) ∨
    ∃ rule, FirstBroken rules rule ∧ x = rule.refuse

theorem firstBroken_append {rules rules' : List Rule} {broken : Rule} :
    FirstBroken (rules ++ rules') broken ↔ FirstBroken rules broken ∨
      (∀ rule ∈ rules, rule.holds) ∧ FirstBroken rules' broken := by
  induction rules with
  | nil => simp [FirstBroken]
  | cons rule rules ih =>
    rw [List.cons_append, FirstBroken, FirstBroken, ih, List.forall_mem_cons]
    tauto

theorem FirstBroken.unique {rules : List Rule} {broken broken' : Rule}
    (h : FirstBroken rules broken) (h' : FirstBroken rules broken') : broken = broken' := by
  induction rules with
  | nil => cases h
  | cons rule rules ih =>
    rcases h with ⟨hbroken, rfl⟩ | ⟨hholds, h⟩
    · rcases h' with ⟨-, rfl⟩ | ⟨hholds, -⟩
      · rfl
      · exact absurd hholds hbroken
    · rcases h' with ⟨hbroken, -⟩ | ⟨-, h'⟩
      · exact absurd hholds hbroken
      · exact ih h h'

theorem obeys_nil {α : Type} (a : α) : Obeys [] (.ok a : Except Stop α) :=
  Or.inl ⟨List.forall_mem_nil _, a, rfl⟩

/-- A rule that holds is not seen. -/
theorem Obeys.cons {α : Type} {rule : Rule} {rules : List Rule} {x : Except Stop α}
    (hrule : rule.holds) (hx : Obeys rules x) : Obeys (rule :: rules) x := by
  rcases hx with ⟨hholds, hok⟩ | ⟨broken, hbroken, rfl⟩
  · exact Or.inl ⟨List.forall_mem_cons.mpr ⟨hrule, hholds⟩, hok⟩
  · exact Or.inr ⟨broken, Or.inr ⟨hrule, hbroken⟩, rfl⟩

/-- Readers in a sequence. -/
theorem Obeys.bind {α β : Type} {rules rules' : List Rule} {x : Except Stop α}
    {f : α → Except Stop β} (hx : Obeys rules x) (hf : ∀ a, x = .ok a → Obeys rules' (f a)) :
    Obeys (rules ++ rules') (x >>= f) := by
  rcases hx with ⟨hholds, a, rfl⟩ | ⟨rule, hbroken, rfl⟩
  · rcases hf a rfl with ⟨hholds', b, hb⟩ | ⟨rule, hbroken, hrule⟩
    · exact Or.inl ⟨List.forall_mem_append.mpr ⟨hholds, hholds'⟩, b, hb⟩
    · exact Or.inr ⟨rule, firstBroken_append.mpr (Or.inr ⟨hholds, hbroken⟩), hrule⟩
  · refine Or.inr ⟨rule, firstBroken_append.mpr (Or.inl hbroken), ?_⟩
    unfold Rule.refuse
    cases rule.text with
    | none => rfl
    | some text => exact handleErrorMsg_bind text f

/-- What is made of the value does not matter. -/
theorem Obeys.map {α β : Type} {rules : List Rule} {x : Except Stop α} (hx : Obeys rules x)
    (g : α → β) : Obeys rules (x >>= fun a => .ok (g a)) := by
  have h := hx.bind fun a _ => obeys_nil (g a)
  rwa [List.append_nil] at h

/-- The document describes some task. -/
def Valid (doc : Option CJson) : Prop := ∃ root task, doc = some root ∧ TaskSchema root task

/-- `build_task_from_json` validates the document: no assertion fails, the documents of the
schema are accepted, with the values they have, and all others are refused. -/
structure ValidatesTotally (taskContent : Bytes) (doc : Option CJson) : Prop where
  noAssertion : buildTaskFromJson taskContent doc ≠ .error .panic
  accepted : (∃ task, buildTaskFromJson taskContent doc = .ok task) ↔ Valid doc
  values : ∀ task, buildTaskFromJson taskContent doc = .ok task → ∀ root, doc = some root →
    TaskSchema root task
  refused : ¬ Valid doc → buildTaskFromJson taskContent doc = argInvalid

/-- A task with a server record that has no name. -/
def unnamedServer (uuid : String) : CJson :=
  .object [(ascii "uuid", .string (ascii uuid)),
    (ascii "servers", .array [.object [(ascii "host", .string (ascii "localhost"))]])]

/-- Its text. -/
def unnamedText (uuid : String) : Bytes :=
  ascii "\x7b\"uuid\":\"" ++ ascii uuid ++
    ascii "\",\"servers\":[\x7b\"host\":\"localhost\"\x7d]\x7d"

/-- The message about a record without a name asks for eight arguments that are not there. -/
theorem not_validatesTotally_percent :
    ¬ ValidatesTotally (unnamedText "%s%s%s%s%s%s%s%s")
      (some (unnamedServer "%s%s%s%s%s%s%s%s")) := by
  have hundefined : buildTaskFromJson (unnamedText "%s%s%s%s%s%s%s%s")
      (some (unnamedServer "%s%s%s%s%s%s%s%s")) = .error .undefined := rfl
  intro h
  have hinvalid : ¬ Valid (some (unnamedServer "%s%s%s%s%s%s%s%s")) := by
    intro hvalid
    obtain ⟨task, htask⟩ := h.accepted.mpr hvalid
    rw [hundefined] at htask
    cases htask
  have hrefused := h.refused hinvalid
  rw [hundefined] at hrefused
  cases hrefused

end Wfrest
