import Wfrest.CJson.Printer
import Wfrest.Compare.Results
import Wfrest.Compare.TaskSchema

/-!
# Task documents on the wire

The compare service with `cJSON_Parse` in the place of its parameter.

* A body that is a JSON text of a task document is accepted as the task that it describes,
  however it is written (`postTask_jsonText`): the text holds no NUL, so that the handler's
  `c_str` cuts nothing off.
* What is accepted in a run is clean whatever was posted (`clean_of_reach`): the texts of a
  task are non-empty C strings and its ports positive `int`s. The rest of the comparer
  hands them to functions that take C strings.
-/

namespace Wfrest

namespace ParseBuffer

/-! ### A JSON text has no NUL -/

theorem zero_notMem_isWs {w : Bytes} (hw : IsWs w) : 0 ∉ w := by
  intro h
  rcases hw 0 h with h | h | h | h <;> exact absurd h (by decide)

theorem zero_notMem_hexText {t : Bytes} {n : Nat} (h : HexText t n) : 0 ∉ t := by
  obtain ⟨-, ds, hds, -⟩ := h
  intro hmem
  have hdigit : hexDigit? 0 ∈ ds.map some := hds ▸ List.mem_map_of_mem hmem
  obtain ⟨d, -, hd⟩ := List.mem_map.mp hdigit
  cases hd

theorem zero_notMem_charText {t m : Bytes} (h : CharText t m) : 0 ∉ t := by
  have hslash : (0 : UInt8) ≠ backslash := by decide
  have hu : (0 : UInt8) ≠ 117 := by decide
  cases h with
  | plain hctl =>
    intro h0
    rw [← List.mem_singleton.mp h0] at hctl
    exact absurd hctl (by decide)
  | @escape b e h =>
    intro h0
    rcases List.mem_cons.mp h0 with h0 | h0
    · exact hslash h0
    · rw [← List.mem_singleton.mp h0] at h
      cases h
  | unit _ h => simp [hslash, hu, zero_notMem_hexText h]
  | pair _ h h' => simp [hslash, hu, zero_notMem_hexText h, zero_notMem_hexText h']

theorem zero_notMem_stringText {s t : Bytes} (h : StringText s t) : 0 ∉ t := by
  have hchars : ∀ {t m : Bytes}, CharsText t m → 0 ∉ t := by
    intro t m h
    induction h with
    | nil => exact List.not_mem_nil
    | cons h _ ih => exact fun h0 => (List.mem_append.mp h0).elim (zero_notMem_charText h) ih
  cases h with
  | mk h =>
    have hquote : (0 : UInt8) ≠ dquote := by decide
    simp [hquote, hchars h]

theorem zero_notMem_numText {t : Bytes} {q : ℚ} (h : NumText t q) : 0 ∉ t := by
  intro h0
  have hall := isNumberByte_numText h
  exact absurd (hall 0 h0) (by decide)

section

variable {α : Type} {item : α → Bytes → Prop} {close : UInt8}

theorem zero_notMem_itemsText (hitem : ∀ {x t}, item x t → 0 ∉ t) (hclose : close ≠ 0)
    {xs : List α} {t : Bytes} (h : ItemsText item close xs t) : 0 ∉ t := by
  have hcomma : (0 : UInt8) ≠ comma := by decide
  induction h with
  | last hw h hw' =>
    simp [zero_notMem_isWs hw, hitem h, zero_notMem_isWs hw', hclose.symm]
  | cons hw h hw' _ ih =>
    simp [zero_notMem_isWs hw, hitem h, zero_notMem_isWs hw', hcomma, ih]

theorem zero_notMem_bracketsText (hitem : ∀ {x t}, item x t → 0 ∉ t) (hclose : close ≠ 0)
    {xs : List α} {t : Bytes} (h : BracketsText item close xs t) : 0 ∉ t := by
  cases h with
  | empty hw => simp [zero_notMem_isWs hw, hclose.symm]
  | items h => exact zero_notMem_itemsText hitem hclose h

end

theorem zero_notMem_memberText {item : CJson → Bytes → Prop}
    (hitem : ∀ {x t}, item x t → 0 ∉ t) {m : Bytes × CJson} {t : Bytes}
    (h : MemberText item m t) : 0 ∉ t := by
  cases h with
  | mk hs hw hw' ht =>
    have hcolon : (0 : UInt8) ≠ colon := by decide
    simp [zero_notMem_stringText hs, zero_notMem_isWs hw, zero_notMem_isWs hw', hitem ht, hcolon]

theorem zero_notMem_valueTextOver {R : Rounding} {below : Option (CJson → Bytes → Prop)}
    (hbelow : ∀ item, below = some item → ∀ {x t}, item x t → 0 ∉ t) {v : CJson} {t : Bytes}
    (h : ValueTextOver R below v t) : 0 ∉ t := by
  cases h with
  | null => decide
  | false => decide
  | true => decide
  | number h _ => exact zero_notMem_numText h
  | string h => exact zero_notMem_stringText h
  | array hitem h =>
    intro h0
    rcases List.mem_cons.mp h0 with h0 | h0
    · cases h0
    · exact zero_notMem_bracketsText (hbelow _ hitem) (by decide) h h0
  | object hitem h =>
    intro h0
    rcases List.mem_cons.mp h0 with h0 | h0
    · cases h0
    · exact zero_notMem_bracketsText (zero_notMem_memberText (hbelow _ hitem)) (by decide) h h0

theorem zero_notMem_valueText {R : Rounding} {levels : Nat} {v : CJson} {t : Bytes}
    (h : ValueText R levels v t) : 0 ∉ t := by
  induction levels generalizing v t with
  | zero =>
    refine zero_notMem_valueTextOver (fun item hitem => ?_) h
    cases hitem
  | succ levels ih =>
    refine zero_notMem_valueTextOver (fun item hitem => ?_) h
    rw [← Option.some.inj hitem]
    exact ih

theorem zero_notMem_jsonText {R : Rounding} {v : CJson} {s : Bytes} (h : JsonText R v s) :
    0 ∉ s := by
  cases h with
  | mk hw h hw' => simp [zero_notMem_isWs hw, zero_notMem_valueText h, zero_notMem_isWs hw']
  | bom hw h hw' =>
    simp [zero_notMem_isWs hw, zero_notMem_valueText h, zero_notMem_isWs hw', utf8Bom]

end ParseBuffer

namespace Service

open ParseBuffer (JsonText Fits)

/-! ### A document is accepted -/

/-- **A task document is accepted in every notation.** The service queues the task that the
document describes, as soon as there is room. -/
theorem postTask_jsonText {R : Rounding} {s s' : Service} {req : TaskReq} {root : CJson}
    {task : DcApiTask} (htype : req.contentType = .APPLICATION_JSON)
    (htext : JsonText R root req.body) (hschema : TaskSchema root task)
    (huuid : req.uuid = task.taskUuid) (hadd : s.add task = some s') :
    s.postTask (cJSONParse R) req =
      some ({ s' with taskUuidSet := insert req.uuid s'.taskUuidSet },
        .accepted task ((Json.null.set "uuid" (.str req.uuid)).set "msg"
          (.str (ascii "put into queue, wait for schedule to run")))) := by
  have hne : req.uuid ≠ [] := huuid ▸ hschema.uuid.2
  have hparse : cJSONParse R (cStr req.body) = some root := by
    rw [cStr_eq_self (ParseBuffer.zero_notMem_jsonText htext)]
    exact cJSONParse_of_jsonText htext
  have hbody : req.body ≠ [] := by
    intro hnil
    rw [hnil] at hparse
    cases hparse
  have hbuild : buildTaskFromJson req.body (some root) = .ok task :=
    buildTaskFromJson_eq_ok.mpr ⟨hbody, hschema⟩
  unfold postTask
  rw [if_neg hne, if_neg (not_not.mpr htype), if_neg hbody, hparse, hbuild]
  dsimp only
  rw [if_neg (not_not.mpr huuid), hadd]
  rfl

/-- The task of the sample document. -/
def sampleTask : DcApiTask where
  taskUuid := ascii "a"
  serverInfoArr := [{
    center := ascii "m1", host := ascii "localhost", user := ascii "admin",
    password := ascii "admin", port := 8091, standard := true, excludedFileRegex := [],
    baseDir := ascii "/", pathToCompare := ascii "/tmp" }]
  resultType := 0
  excludedFileRegex := []
  stdIdx := 0
  compareResultJson := .null

theorem fits_sampleTree {R : Rounding} :
    Fits R ParseBuffer.nestingLimit (sampleTree "a") := by
  have htext : ∀ (s : String) {levels : Nat}, 0 ∉ ascii s → Fits R levels (.string (ascii s)) :=
    fun s _ h => .string h
  refine .object (by decide) ?_
  simp only [List.forall_mem_cons, List.not_mem_nil, false_imp_iff, implies_true, and_true]
  refine ⟨htext "a" (by decide), .array fun v hv => ?_⟩
  rw [List.mem_singleton.mp hv]
  refine .object (by decide) ?_
  simp only [List.forall_mem_cons, List.not_mem_nil, false_imp_iff, implies_true, and_true]
  exact ⟨htext "m1" (by decide), htext "localhost" (by decide), htext "admin" (by decide),
    htext "admin" (by decide), .int (n := 8091) (by decide) (by decide), .true,
    htext "/tmp" (by decide), htext "/" (by decide)⟩

theorem intNumbers_sampleTree : ParseBuffer.IntNumbers (sampleTree "a") := by
  refine .object ?_
  simp only [List.forall_mem_cons, List.not_mem_nil, false_imp_iff, implies_true, and_true]
  refine ⟨.string _, .array fun v hv => ?_⟩
  rw [List.mem_singleton.mp hv]
  refine .object ?_
  simp only [List.forall_mem_cons, List.not_mem_nil, false_imp_iff, implies_true, and_true]
  exact ⟨.string _, .string _, .string _, .string _, .number 8091, .true, .string _, .string _⟩

/-- The sample document with line breaks and tabs, as `cJSON_Print` writes it, is accepted. -/
theorem postTask_formatted : ∃ text s' json,
    cJSONPrint .binary64 true (sampleTree "a") = some text ∧
      start.postTask (cJSONParse .binary64) ⟨ascii "a", .APPLICATION_JSON, text⟩ =
        some (s', .accepted sampleTask json) := by
  obtain ⟨text, v, hprint, htext, hread⟩ := ParseBuffer.prints_of_fits true fits_sampleTree 0
  rw [hread.eq_of_intNumbers intNumbers_sampleTree] at htext
  have hjson := JsonText.mk ParseBuffer.isWs_nil htext ParseBuffer.isWs_nil
  rw [List.nil_append, List.append_nil] at hjson
  have hbuild : buildTaskFromJson [0] (some (sampleTree "a")) = .ok sampleTask := rfl
  have hschema : TaskSchema (sampleTree "a") sampleTask := (buildTaskFromJson_eq_ok.mp hbuild).2
  exact ⟨text, _, _, hprint, postTask_jsonText rfl hjson hschema rfl rfl⟩

end Service

/-! ### What is accepted is clean -/

/-- A text that a C function reads as it stands. -/
def CText (s : Bytes) : Prop := s ≠ [] ∧ 0 ∉ s

/-- The texts of a server record are C strings, and its port is a positive `int`. -/
structure ServerInfo.Clean (info : ServerInfo) : Prop where
  text : ∀ s ∈ [info.center, info.host, info.user, info.password, info.baseDir,
    info.pathToCompare], CText s
  port : 0 < info.port ∧ info.port ≤ Double.intMax
  excludedFileRegex : ∀ s ∈ info.excludedFileRegex, CText s

/-- The same for a task. Its own list may hold empty texts. -/
structure DcApiTask.Clean (task : DcApiTask) : Prop where
  taskUuid : CText task.taskUuid
  serverInfoArr : ∀ info ∈ task.serverInfoArr, info.Clean
  excludedFileRegex : ∀ s ∈ task.excludedFileRegex, 0 ∉ s

namespace CJson

open ParseBuffer (Fits)

/-- A member of a tree that fits, fits. -/
theorem fits_getObjectItem {R : Rounding} {levels : Nat} {j v : CJson} {name : String}
    (h : Fits R levels j) (hv : j.getObjectItem name = some v) : ∃ n, Fits R n v := by
  cases h with
  | @object n ms _ h =>
    obtain ⟨m, hm, rfl⟩ := Option.map_eq_some_iff.mp hv
    exact ⟨n, h m (List.mem_of_find?_eq_some hm)⟩
  | _ => cases hv

theorem HasText.cText {R : Rounding} {levels : Nat} {j : CJson} {name : String} {s : Bytes}
    (h : Fits R levels j) (hs : j.HasText name s) : CText s := by
  obtain ⟨n, hfit⟩ := fits_getObjectItem h hs.1
  cases hfit with
  | string h0 => exact ⟨hs.2, h0⟩

theorem HasStrings.zero_notMem {R : Rounding} {levels : Nat} {j : CJson} {name : String}
    {ss : List Bytes} (h : Fits R levels j) (hss : j.HasStrings name ss) : ∀ s ∈ ss, 0 ∉ s := by
  rcases hss with ⟨-, rfl⟩ | hss
  · exact fun s hs => absurd hs List.not_mem_nil
  · obtain ⟨n, hfit⟩ := fits_getObjectItem h hss
    cases hfit with
    | array hall =>
      intro s hs
      have hfit := hall _ (List.mem_map_of_mem hs)
      cases hfit with
      | string h0 => exact h0

end CJson

open ParseBuffer (Fits) in
theorem ServerSchema.clean {R : Rounding} {levels : Nat} {item : CJson} {info : ServerInfo}
    (h : Fits R levels item) (hschema : ServerSchema item info) : info.Clean where
  text := by
    simp only [List.forall_mem_cons, List.not_mem_nil, false_imp_iff, implies_true, and_true]
    exact ⟨hschema.center.cText h, hschema.host.cText h, hschema.user.cText h,
      hschema.password.cText h, hschema.baseDir.cText h, hschema.pathToCompare.cText h⟩
  port := by
    obtain ⟨d, hport⟩ := hschema.port.1
    obtain ⟨n, hfit⟩ := CJson.fits_getObjectItem h hport
    exact ⟨hschema.port.2, hfit.valueint_mem.2⟩
  excludedFileRegex s hs :=
    ⟨hschema.excludedFileRegex.2 s hs, hschema.excludedFileRegex.1.zero_notMem h s hs⟩

open ParseBuffer (Fits) in
theorem TaskSchema.clean {R : Rounding} {levels : Nat} {root : CJson} {task : DcApiTask}
    (h : Fits R levels root) (hschema : TaskSchema root task) : task.Clean where
  taskUuid := hschema.uuid.cText h
  serverInfoArr := by
    obtain ⟨items, hitems, hall⟩ := hschema.servers
    obtain ⟨n, hfit⟩ := CJson.fits_getObjectItem h hitems
    cases hfit with
    | array hfits =>
      clear hitems
      generalize task.serverInfoArr = infos at hall ⊢
      induction hall with
      | nil => exact List.forall_mem_nil _
      | cons hserver _ ih =>
        obtain ⟨hfit, hfits⟩ := List.forall_mem_cons.mp hfits
        exact List.forall_mem_cons.mpr ⟨hserver.clean hfit, ih hfits⟩
  excludedFileRegex := hschema.excludedFileRegex.zero_notMem h

namespace Service

/-- A step accepts clean tasks only. -/
theorem clean_of_step {R : Rounding} {s s' : Service} {e : Event} {o : Output}
    (hstep : step (cJSONParse R) s e = some (s', o)) {task : DcApiTask} {json : Json}
    (ho : o = .reply (.accepted task json)) : task.Clean := by
  cases step_cases hstep with
  | @accepted req task' json' q _ hbuild _ _ =>
    obtain ⟨rfl, -⟩ : task' = task ∧ json' = json := by simpa using ho
    cases hparse : cJSONParse R (cStr req.body) with
    | none =>
      rw [hparse] at hbuild
      obtain ⟨_, -, hbuild⟩ := bind_eq_ok.mp hbuild
      exact absurd hbuild (handleErrorMsg_ne_ok _ _)
    | some root =>
      rw [hparse] at hbuild
      exact (buildTaskFromJson_eq_ok.mp hbuild).2.clean (fits_cJSONParse hparse)
  | _ => cases ho

/-- **What is accepted is clean**, and so is every task on its way, in every run of the
service and whatever is posted. -/
theorem clean_of_reach {R : Rounding} {h : History} {s : Service}
    (hr : (machine (cJSONParse R)).Reach h s) :
    (∀ task ∈ accepted h, task.Clean) ∧ ∀ task ∈ s.pending, task.Clean := by
  have haccepted : ∀ task ∈ accepted h, task.Clean := by
    refine hr.invariant (I := fun h _ => ∀ task ∈ accepted h, task.Clean) ?_ ?_
    · exact fun task htask => absurd htask List.not_mem_nil
    · intro h s e s' o _ ih hstep task htask
      rw [accepted_concat] at htask
      rcases List.mem_append.mp htask with hold | hnew
      · exact ih task hold
      · obtain ⟨x, hx, hxtask⟩ := List.mem_filterMap.mp hnew
        obtain rfl := List.mem_singleton.mp hx
        dsimp only at hxtask
        split at hxtask
        · next task' json =>
          cases hxtask
          exact clean_of_step hstep rfl
        · cases hxtask
  obtain ⟨out, -, horder⟩ := (inv_of_reach hr).order
  refine ⟨haccepted, fun task htask => haccepted task ?_⟩
  rw [horder]
  exact List.mem_append_right out htask

/-- The run in which the sample document is posted. -/
theorem clean_sample : ∃ (text : Bytes) (s : Service) (json : Json),
    cJSONPrint .binary64 true (sampleTree "a") = some text ∧
      (∀ task ∈ accepted [(Event.post ⟨ascii "a", .APPLICATION_JSON, text⟩,
        Output.reply (.accepted sampleTask json))], task.Clean) ∧
      ∀ task ∈ s.pending, task.Clean := by
  obtain ⟨text, s, json, hprint, hpost⟩ := postTask_formatted
  have hstep : (machine (cJSONParse .binary64)).step start
      (.post ⟨ascii "a", .APPLICATION_JSON, text⟩) =
        some (s, .reply (.accepted sampleTask json)) := by
    unfold machine step
    dsimp only
    rw [hpost, Option.map_some]
  exact ⟨text, s, json, hprint, clean_of_reach (Machine.Reach.init.snoc hstep)⟩

end Service

end Wfrest
