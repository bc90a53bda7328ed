import Wfrest.Compare.FileContent
import Wfrest.Compare.Report

/-!
# The walk of a compare job

`exe_sql_job1` walks the directory to compare. Every entry goes to `diffs`; a directory
also goes to `dir_q_`, with its index, and is given its `servers` later: when the queue has
got longer than `dir_batch_size`, and at the end.

The end is not always reached. A failing `stat` leaves the loop over the directory it is in;
what that means further up is only logged, but at the top `exe_sql_job1` returns with it,
and what is queued at that moment stays (`dirQ_eq_nil_iff`). The next task then begins with
a failing assertion.

What the file system says during one walk is a `Listing`. Every stream of it is read once.
-/

namespace Wfrest

/-! ### What is found -/

/-- What a directory stream yields from some entry on. -/
inductive Listing where
  /-- `readdir` returns null. -/
  | done
  /-- `DT_LNK` -/
  | link (rest : Listing)
  /-- `DT_DIR`. Does `opendir` succeed on it, and what does its stream yield then? -/
  | dir (name : Bytes) (opens : Bool) (sub : Listing) (rest : Listing)
  /-- Any other type. `stat` fails, or says whether this is a regular file. -/
  | other (name : Bytes) (isReg : Option Bool) (rest : Listing)

/-- What `stat` says about the path to compare. -/
inductive PathKind where
  | missing
  | regular
  | directory (opens : Bool) (listing : Listing)
  | special

/-- How one content answers a list of directories. -/
structure ListAnswer where
  /-- `do_dir_list_attr` -/
  doRet : DcCommonCode
  /-- The first answer of `get_dir_list_attr` that is not `E_DC_CONTENT_RETRY`; none if the
  polling never ends. -/
  getRet : Option DcCommonCode
  /-- What has been appended to its element of `dir_attr_list`. -/
  dirAttrs : List FileAttr

/-- A `dc_content_t` of a job. It may answer every list in another way. -/
structure Content where
  cCenter : Bytes
  answer : Nat → List Bytes → ListAnswer

/-- The part of a task that the walk uses, and its contents. -/
structure CompareJob where
  stdIdx : Int
  contents : List Content

/-- `t_compare_result_json["diffs"]`, `dir_q_`, and the number of lists sent out. -/
structure Walk where
  diffs : List Json
  dirQ : List (Bytes × Int)
  flushes : Nat

/-- A job begins with an empty array. -/
def Walk.fresh (dirQ : List (Bytes × Int)) : Walk := ⟨[], dirQ, 0⟩

/-! ### Giving the directories their servers -/

/-- The two loops over the contents, for one of them. -/
def Content.collect (c : Content) (n : Nat) (dirList : List Bytes) : Option ServerResult :=
  let a := c.answer n dirList
  if a.doRet ≠ .S_SUCCESS then some ⟨c.cCenter, a.dirAttrs, a.doRet⟩
  else a.getRet.map fun ret => ⟨c.cCenter, a.dirAttrs, ret⟩

/-- `ret_json["servers"] = server_json_list`, after the assertions on the index. -/
def setServers (servers : List Json) (jsonIdx : Int) (diffs : List Json) : Option (List Json) :=
  if 0 ≤ jsonIdx ∧ jsonIdx < toInt diffs.length then
    some (diffs.modify jsonIdx.toNat fun json => json.set "servers" (.arr servers))
  else none

/-- The loop over `dir_q_`, from index `dirIdx` on. -/
def fillServers (stdIdx : Int) (rs : List ServerResult) (dirIdx : Nat) :
    List (Bytes × Int) → List Json → Option (List Json)
  | [], diffs => some diffs
  | e :: dirQ, diffs => do
    let servers ← serversOf stdIdx rs dirIdx
    let diffs ← setServers servers e.2 diffs
    fillServers stdIdx rs (dirIdx + 1) dirQ diffs

/-- `exe_sql_job_for_single_item_dir1`. Its code is always `S_SUCCESS`; `none` when an
assertion fails, or when it does not return. -/
def exeSqlJobForSingleItemDir1 (job : CompareJob) (w : Walk) : Option Walk :=
  if w.dirQ = [] then some w
  else do
    let rs ← job.contents.mapM fun c => c.collect w.flushes (w.dirQ.map Prod.fst)
    let diffs ← fillServers job.stdIdx rs 0 w.dirQ w.diffs
    return ⟨diffs, [], w.flushes + 1⟩

/-- `dir_q_.size() > dir_batch_size` -/
def overBatch (size : Nat) : Bool := 1000 < size

/-- `exe_sql_job_for_single_item_dir`. When to send out the list is a parameter: the code
does it `overBatch`. -/
def exeSqlJobForSingleItemDir (full : Nat → Bool) (job : CompareJob) (dirFullPath : Bytes)
    (jsonIdx : Int) (w : Walk) : Option Walk :=
  let w := { w with dirQ := w.dirQ ++ [(dirFullPath, jsonIdx)] }
  if full w.dirQ.length then exeSqlJobForSingleItemDir1 job w else some w

/-! ### The walk -/

/-- `get_parent_dir` -/
def getParentDir (depth : Nat) (path : Bytes) : Bytes :=
  if depth = 0 then [dot]
  else
    let parentDir := if path.getLast? = some slash then path.dropLast else path
    if slash ∈ parentDir then slash :: parentDir.rtakeWhile (· ≠ slash) else parentDir

/-- The entry of a directory. -/
def dirEntry (name dir : Bytes) : Json :=
  ((Json.null.set "name" (.str name)).set "dir" (.str dir)).set "is_dir" (.bool true)

/-- The entry of a regular file. -/
def fileEntry (name dir path : Bytes) : Json :=
  (((Json.null.set "name" (.str name)).set "dir" (.str dir)).set "is_dir" (.bool false)).set
    "path" (.str path)

/-- `json_array.emplace_back()`, and the members that are set after it. -/
def Walk.emplaceBack (w : Walk) (json : Json) : Walk := { w with diffs := w.diffs ++ [json] }

/-- The loop of `exe_sql_job_for_dir`. The codes of what is below a directory are only
logged. -/
def readLoop (full : Nat → Bool) (job : CompareJob) :
    Listing → Bytes → Nat → Walk → Option (DcCommonCode × Walk)
  | .done, _, _, w => some (.S_SUCCESS, w)
  | .link rest, path, depth, w => readLoop full job rest path depth w
  | .dir name opens sub rest, path, depth, w =>
    if name = [dot] ∨ name = [dot, dot] then readLoop full job rest path depth w
    else
      let newPath := path ++ slash :: name
      let w := w.emplaceBack (dirEntry name (getParentDir depth path))
      (exeSqlJobForSingleItemDir full job newPath (toInt (w.diffs.length - 1 : Nat)) w).bind
        fun w =>
          -- `exe_sql_job_for_dir` on the new path
          (if opens then readLoop full job sub newPath (depth + 1) w
            else some (.E_OS_ENV_OPEN, w)).bind fun r => readLoop full job rest path depth r.2
  | .other _ none _, _, _, w => some (.E_OS_ENV_STAT, w)
  | .other _ (some false) rest, path, depth, w => readLoop full job rest path depth w
  | .other name (some true) rest, path, depth, w =>
    readLoop full job rest path depth
      (w.emplaceBack (fileEntry name (getParentDir depth path) (path ++ slash :: name)))

/-- `exe_sql_job_for_dir` -/
def exeSqlJobForDir (full : Nat → Bool) (job : CompareJob) (opens : Bool) (listing : Listing)
    (path : Bytes) (depth : Nat) (w : Walk) : Option (DcCommonCode × Walk) :=
  if opens then readLoop full job listing path depth w else some (.E_OS_ENV_OPEN, w)

/-- What `exe_sql_job1` does after the walk. -/
def afterWalk (job : CompareJob) (r : DcCommonCode × Walk) : Option (DcCommonCode × Walk) :=
  if logCheckErr r.1 then some r
  else if 0 < r.2.dirQ.length then
    (exeSqlJobForSingleItemDir1 job r.2).map fun w => (.S_SUCCESS, w)
  else some r

/-- `exe_sql_job1`, and `exe_sql_job` around it. -/
def exeSqlJob (full : Nat → Bool) (job : CompareJob) (path : Bytes) :
    PathKind → Walk → Option (DcCommonCode × Walk)
  | .missing, w => some (.E_OS_ENV_STAT, w)
  -- the null that has just been added is converted to an index, and this throws
  | .regular, _ => none
  | .directory opens listing, w =>
    (exeSqlJobForDir full job opens listing (cStr path) 0 w).bind (afterWalk job)
  | .special, w => some (.E_NOT_SUPPORT_FILE_TYPE, w)

/-! ### What stays in the queue -/

namespace Listing

/-- The loop over this stream ends with a failing `stat`. -/
def stops : Listing → Bool
  | done => false
  | link rest => rest.stops
  | dir _ _ _ rest => rest.stops
  | other _ none _ => true
  | other _ (some _) rest => rest.stops

/-- The number of directories that are queued before the loop over this stream ends, those
below them included. -/
def dirCount : Listing → Nat
  | done => 0
  | link rest => rest.dirCount
  | dir name opens sub rest =>
    if name = [dot] ∨ name = [dot, dot] then rest.dirCount
    else 1 + (if opens then sub.dirCount else 0) + rest.dirCount
  | other _ none _ => 0
  | other _ (some _) rest => rest.dirCount

end Listing

/-- Sending out the list empties the queue. -/
theorem dirQ_of_singleItemDir1 {job : CompareJob} {w w' : Walk}
    (h : exeSqlJobForSingleItemDir1 job w = some w') : w'.dirQ = [] := by
  unfold exeSqlJobForSingleItemDir1 at h
  split at h
  · next hnil => exact Option.some.inj h ▸ hnil
  · simp only [Option.bind_eq_bind, Option.bind_eq_some_iff, Option.pure_def] at h
    obtain ⟨rs, -, diffs, -, h⟩ := h
    rw [← Option.some.inj h]

/-- One directory more: the queue counts up to the size of a batch. -/
theorem length_dirQ_of_singleItemDir {job : CompareJob} {path : Bytes} {jsonIdx : Int}
    {w w' : Walk} (hw : w.dirQ.length ≤ 1000)
    (h : exeSqlJobForSingleItemDir overBatch job path jsonIdx w = some w') :
    w'.dirQ.length = (w.dirQ.length + 1) % 1001 := by
  unfold exeSqlJobForSingleItemDir at h
  simp only [List.length_append, List.length_singleton, overBatch, decide_eq_true_eq] at h
  split at h
  · rw [dirQ_of_singleItemDir1 h, List.length_nil]
    omega
  · rw [← Option.some.inj h, List.length_append, List.length_singleton]
    omega

/-- `.` and `..` are passed over. -/
theorem readLoop_dots {full : Nat → Bool} {job : CompareJob} {name : Bytes} {opens : Bool}
    {sub rest : Listing} (hdots : name = [dot] ∨ name = [dot, dot]) (path : Bytes) (depth : Nat)
    (w : Walk) : readLoop full job (.dir name opens sub rest) path depth w =
      readLoop full job rest path depth w := by
  rw [readLoop, if_pos hdots]

/-- A directory goes to the array and to the queue, then what is below it is walked, and then
what is behind it. -/
theorem readLoop_dir {full : Nat → Bool} {job : CompareJob} {name : Bytes} {opens : Bool}
    {sub rest : Listing} {path : Bytes} {depth : Nat} {w : Walk} {r : DcCommonCode × Walk}
    (hdots : ¬ (name = [dot] ∨ name = [dot, dot]))
    (h : readLoop full job (.dir name opens sub rest) path depth w = some r) :
    ∃ json w₁ r₁, json = dirEntry name (getParentDir depth path) ∧
      exeSqlJobForSingleItemDir full job (path ++ slash :: name)
        (toInt ((w.emplaceBack json).diffs.length - 1 : Nat)) (w.emplaceBack json) = some w₁ ∧
      exeSqlJobForDir full job opens sub (path ++ slash :: name) (depth + 1) w₁ = some r₁ ∧
      readLoop full job rest path depth r₁.2 = some r := by
  rw [readLoop, if_neg hdots] at h
  obtain ⟨w₁, hqueue, h⟩ := Option.bind_eq_some_iff.mp h
  obtain ⟨r₁, hsub, h⟩ := Option.bind_eq_some_iff.mp h
  exact ⟨_, w₁, r₁, rfl, hqueue, hsub, h⟩

/-- The code of a walk: only a failing `stat` of its own loop is passed up. -/
theorem ret_of_readLoop {full : Nat → Bool} {job : CompareJob} {listing : Listing}
    {path : Bytes} {depth : Nat} {w w' : Walk} {ret : DcCommonCode}
    (h : readLoop full job listing path depth w = some (ret, w')) :
    ret = if listing.stops then .E_OS_ENV_STAT else .S_SUCCESS := by
  induction listing generalizing path depth w with
  | done => exact (Prod.mk.inj (Option.some.inj h)).1.symm
  | link rest ih => exact ih h
  | dir name opens sub rest ihsub ihrest =>
    by_cases hdots : name = [dot] ∨ name = [dot, dot]
    · rw [readLoop_dots hdots] at h
      exact ihrest h
    · obtain ⟨_, _, _, -, -, -, h⟩ := readLoop_dir hdots h
      exact ihrest h
  | other name isReg rest ih =>
    cases isReg with
    | none => exact (Prod.mk.inj (Option.some.inj h)).1.symm
    | some isReg =>
      cases isReg with
      | false => exact ih h
      | true => exact ih (w := w.emplaceBack _) h

/-- **The queue after a walk** has the directories that are left over from full batches. -/
theorem length_dirQ_of_readLoop {job : CompareJob} {listing : Listing} {path : Bytes}
    {depth : Nat} {w w' : Walk} {ret : DcCommonCode} (hw : w.dirQ.length ≤ 1000)
    (h : readLoop overBatch job listing path depth w = some (ret, w')) :
    w'.dirQ.length = (w.dirQ.length + listing.dirCount) % 1001 := by
  induction listing generalizing path depth w ret w' with
  | done =>
    obtain ⟨rfl, rfl⟩ := Prod.mk.inj (Option.some.inj h)
    exact (Nat.mod_eq_of_lt (Nat.lt_succ_of_le hw)).symm
  | link rest ih => exact ih hw h
  | dir name opens sub rest ihsub ihrest =>
    unfold Listing.dirCount
    by_cases hdots : name = [dot] ∨ name = [dot, dot]
    · rw [readLoop_dots hdots] at h
      rw [if_pos hdots]
      exact ihrest hw h
    · rw [if_neg hdots]
      -- one more directory here, then those below it, then those behind it
      obtain ⟨json, w₁, r, -, hqueue, hsub, h⟩ := readLoop_dir hdots h
      have h₁ := length_dirQ_of_singleItemDir (w := w.emplaceBack json) hw hqueue
      change w₁.dirQ.length = (w.dirQ.length + 1) % 1001 at h₁
      have h₂ : r.2.dirQ.length =
          (w₁.dirQ.length + if opens then sub.dirCount else 0) % 1001 := by
        cases opens with
        | true => exact ihsub (by omega) hsub
        | false =>
          rw [← Option.some.inj hsub]
          have hlt : w₁.dirQ.length + 0 < 1001 := by omega
          exact (Nat.mod_eq_of_lt hlt).symm
      rw [ihrest (by omega) h, h₂, h₁]
      omega
  | other name isReg rest ih =>
    cases isReg with
    | none =>
      obtain ⟨rfl, rfl⟩ := Prod.mk.inj (Option.some.inj h)
      exact (Nat.mod_eq_of_lt (Nat.lt_succ_of_le hw)).symm
    | some isReg =>
      cases isReg with
      | false => exact ih hw h
      | true => exact ih (w := w.emplaceBack _) hw h

theorem exeSqlJob_directory (full : Nat → Bool) (job : CompareJob) (path : Bytes) (opens : Bool)
    (listing : Listing) (w : Walk) :
    exeSqlJob full job path (.directory opens listing) w =
      (exeSqlJobForDir full job opens listing (cStr path) 0 w).bind (afterWalk job) := rfl

/-- After a walk without an error the rest of the queue is sent out. -/
theorem dirQ_of_afterWalk {job : CompareJob} {w w' : Walk} {ret : DcCommonCode}
    (h : afterWalk job (.S_SUCCESS, w) = some (ret, w')) : w'.dirQ = [] := by
  unfold afterWalk at h
  rw [if_neg (by decide : ¬ logCheckErr .S_SUCCESS = true)] at h
  split at h
  · obtain ⟨w₁, hsend, heq⟩ := Option.map_eq_some_iff.mp h
    rw [← (Prod.mk.inj heq).2]
    exact dirQ_of_singleItemDir1 hsend
  · next hempty =>
    rw [← (Prod.mk.inj (Option.some.inj h)).2]
    exact List.length_eq_zero_iff.mp (Nat.eq_zero_of_not_pos hempty)

/-- **When a job leaves nothing behind.** A job that begins with an empty queue and returns
has an empty queue exactly if no `stat` failed in the loop over the directory to compare, or
the directories queued by then filled whole batches. -/
theorem dirQ_eq_nil_iff {job : CompareJob} {path : Bytes} {opens : Bool} {listing : Listing}
    {ret : DcCommonCode} {w' : Walk}
    (h : exeSqlJob overBatch job path (.directory opens listing) (Walk.fresh []) =
      some (ret, w')) :
    w'.dirQ = [] ↔
      (opens = true → listing.stops = true → listing.dirCount % 1001 = 0) := by
  rw [exeSqlJob_directory, exeSqlJobForDir] at h
  cases opens with
  | false =>
    -- nothing has been queued
    obtain ⟨-, rfl⟩ := Prod.mk.inj (Option.some.inj h)
    exact iff_of_true rfl fun hopens => absurd hopens Bool.false_ne_true
  | true =>
    rw [if_pos rfl, Option.bind_eq_some_iff] at h
    obtain ⟨⟨ret₁, w₁⟩, hloop, h⟩ := h
    have hret := ret_of_readLoop hloop
    have hlen := length_dirQ_of_readLoop (Nat.zero_le _) hloop
    change w₁.dirQ.length = (0 + listing.dirCount) % 1001 at hlen
    rw [Nat.zero_add] at hlen
    cases hstops : listing.stops with
    | true =>
      rw [if_pos hstops] at hret
      subst hret
      obtain ⟨-, rfl⟩ := Prod.mk.inj (Option.some.inj h)
      rw [← List.length_eq_zero_iff, hlen]
      simp
    | false =>
      rw [hstops, if_neg Bool.false_ne_true] at hret
      subst hret
      refine iff_of_true ?_ (by simp)
      exact dirQ_of_afterWalk h

/-- A readable directory, and behind it an entry on which `stat` fails. -/
def stale : Listing := .dir (ascii "a") true .done (.other (ascii "b") none .done)

/-- A job on a server that answers every list. -/
def localJob : CompareJob := ⟨0, [⟨ascii "a", fun _ _ => ⟨.S_SUCCESS, some .S_SUCCESS, []⟩⟩]⟩

/-- The same with a record for every directory. -/
def recordingJob : CompareJob :=
  ⟨0, [⟨ascii "a", fun _ dirList => ⟨.S_SUCCESS, some .S_SUCCESS, dirList.map fun _ => {}⟩⟩]⟩

/-- Three directories, one of which cannot be opened, and a `stat` that fails in the first one
of them. -/
def staleBelow : Listing :=
  .dir (ascii "a") true (.dir (ascii "c") true .done (.other (ascii "b") none .done))
    (.dir (ascii "d") false .done .done)

/-- A `stat` that fails further down leaves nothing: the three directories are sent out. -/
theorem dirQ_staleBelow :
    ∃ ret w', exeSqlJob overBatch recordingJob (ascii "/data") (.directory true staleBelow)
        (Walk.fresh []) = some (ret, w') ∧
      w'.diffs.length = 3 ∧ w'.flushes = 1 ∧ w'.dirQ = [] := by
  have hrun : (exeSqlJob overBatch recordingJob (ascii "/data") (.directory true staleBelow)
      (Walk.fresh [])).any (fun r => decide (r.2.diffs.length = 3 ∧ r.2.flushes = 1)) = true := by
    decide
  obtain ⟨⟨ret, w'⟩, hjob, hcheck⟩ := (Option.any_eq_true ..).mp hrun
  obtain ⟨hdiffs, hflushes⟩ := of_decide_eq_true hcheck
  exact ⟨ret, w', hjob, hdiffs, hflushes, (dirQ_eq_nil_iff hjob).mpr (by decide)⟩

/-- The job returns with the first directory still queued. -/
theorem dirQ_stale :
    (exeSqlJob overBatch localJob (ascii "/data") (.directory true stale)
        (Walk.fresh [])).map (fun r => (r.1, r.2.dirQ)) =
      some (.E_OS_ENV_STAT, [(ascii "/data/a", 0)]) := by
  decide

end Wfrest
