import Wfrest.Compare.Walk

/-!
# Batches cannot be seen

When every server answers a list with one record for each directory, and the record depends
on the directory alone, it does not matter when the lists are sent out. `Listing.report` is
the array that a walk is about, with the `servers` of each directory in their place; a walk
that sends its lists whenever it likes leaves that array (`diffs_eq_report`).

What carries the proof is `completed`: the array as it would be if the queue were sent out
now. Sending the queue out does not change it, and one more directory adds its entry with
its servers.

The indexes in the queue are of type `int`, and they are asserted to be smaller than the
size of the array, as an `int`. So the array has to stay smaller than `2 ^ 31`
(`servers_overflow`).
-/

namespace Wfrest

/-! ### Servers that answer -/

/-- A content that answers every list with a record for each directory. -/
def Content.steady (server : Bytes × (Bytes → FileAttr)) : Content where
  cCenter := server.1
  answer _ dirList := ⟨.S_SUCCESS, some .S_SUCCESS, dirList.map server.2⟩

/-- A job on such contents. -/
def steadyJob (stdIdx : Int) (servers : List (Bytes × (Bytes → FileAttr))) : CompareJob :=
  ⟨stdIdx, servers.map .steady⟩

/-- What is collected for a list of directories. -/
def steadyResults (servers : List (Bytes × (Bytes → FileAttr))) (dirs : List Bytes) :
    List ServerResult :=
  servers.map fun server => ⟨server.1, dirs.map server.2, .S_SUCCESS⟩

/-- The array `servers` of a directory, from the attributes of its own path. -/
def serversAt (stdIdx : Int) (servers : List (Bytes × (Bytes → FileAttr))) (path : Bytes) :
    Option (List Json) :=
  serversOf stdIdx (steadyResults servers [path]) 0

theorem collect_steady (stdIdx : Int) (servers : List (Bytes × (Bytes → FileAttr))) (n : Nat)
    (dirs : List Bytes) :
    (steadyJob stdIdx servers).contents.mapM (fun c => c.collect n dirs) =
      some (steadyResults servers dirs) := by
  unfold steadyJob steadyResults
  induction servers with
  | nil => rfl
  | cons server servers ih =>
    rw [List.map_cons, List.mapM_cons, ih]
    rfl

theorem otherServers_steady {dirs : List Bytes} {i : Nat} {path : Bytes}
    (hpath : dirs[i]? = some path) (std : FileAttr) (stdIdx : Int) (serverIdx : Nat)
    (servers : List (Bytes × (Bytes → FileAttr))) :
    otherServers std stdIdx i serverIdx (steadyResults servers dirs) =
      otherServers std stdIdx 0 serverIdx (steadyResults servers [path]) := by
  induction servers generalizing serverIdx with
  | nil => rfl
  | cons server servers ih =>
    have hentry : otherServer std i ⟨server.1, dirs.map server.2, .S_SUCCESS⟩ =
        otherServer std 0 ⟨server.1, [path].map server.2, .S_SUCCESS⟩ := by
      unfold otherServer
      rw [List.getElem?_map, hpath]
      rfl
    change otherServers std stdIdx i serverIdx (_ :: steadyResults servers dirs) =
      otherServers std stdIdx 0 serverIdx (_ :: steadyResults servers [path])
    unfold otherServers
    rw [ih, hentry]

/-- **The servers of a directory** do not depend on the list that it was sent in. -/
theorem serversOf_steady {dirs : List Bytes} {i : Nat} {path : Bytes}
    (hpath : dirs[i]? = some path) (stdIdx : Int)
    (servers : List (Bytes × (Bytes → FileAttr))) :
    serversOf stdIdx (steadyResults servers dirs) i = serversAt stdIdx servers path := by
  unfold serversAt
  -- `serversAt` is what a list of the one path gives, and its record is the same there
  by_cases hneg : stdIdx < 0
  · unfold serversOf
    rw [if_pos hneg, if_pos hneg]
    rfl
  cases hstd : servers[stdIdx.toNat]? with
  | none =>
    have hnone : ∀ ds, (steadyResults servers ds)[stdIdx.toNat]? = none := by
      intro ds
      rw [steadyResults, List.getElem?_map, hstd]
      rfl
    unfold serversOf
    rw [if_neg hneg, if_neg hneg, hnone, hnone]
    rfl
  | some server =>
    have hsome : ∀ ds, (steadyResults servers ds)[stdIdx.toNat]? =
        some ⟨server.1, ds.map server.2, .S_SUCCESS⟩ := by
      intro ds
      rw [steadyResults, List.getElem?_map, hstd]
      rfl
    have hattr : (dirs.map server.2)[i]? = some (server.2 path) := by
      rw [List.getElem?_map, hpath]
      rfl
    rw [serversOf_of_some hneg (hsome dirs) hattr,
      serversOf_of_some hneg (hsome [path]) (List.getElem?_cons_zero ..),
      otherServers_steady hpath]

/-! ### The completed array -/

section Fill

variable (servers : Bytes → Option (List Json))

/-- Give the directories of a queue their servers. -/
def fill : List (Bytes × Int) → List Json → Option (List Json)
  | [], diffs => some diffs
  | e :: dirQ, diffs =>
    (servers e.1).bind fun js =>
      fill dirQ (diffs.modify e.2.toNat fun json => json.set "servers" (.arr js))

/-- The array as it would be if the queue were sent out now. -/
def completed (w : Walk) : Option (List Json) := fill servers w.dirQ w.diffs

/-- Every index in the queue points into the array. -/
def Aligned (dirQ : List (Bytes × Int)) (size : Nat) : Prop :=
  ∀ e ∈ dirQ, 0 ≤ e.2 ∧ e.2 < size

variable {servers}

theorem length_fill {dirQ : List (Bytes × Int)} {diffs diffs' : List Json}
    (h : fill servers dirQ diffs = some diffs') : diffs'.length = diffs.length := by
  induction dirQ generalizing diffs with
  | nil => rw [Option.some.inj h]
  | cons e dirQ ih =>
    obtain ⟨js, -, h⟩ := Option.bind_eq_some_iff.mp h
    rw [ih h, List.length_modify]

theorem modify_concat_of_lt {α : Type} {l : List α} {i : Nat} (hi : i < l.length) (f : α → α)
    (x : α) : (l ++ [x]).modify i f = l.modify i f ++ [x] := by
  have hi' : i < (l ++ [x]).length := by
    rw [List.length_append]
    omega
  rw [List.modify_eq_take_cons_drop hi, List.modify_eq_take_cons_drop hi',
    List.take_append_of_le_length hi.le, List.drop_append_of_le_length hi,
    List.getElem_append_left hi, List.append_assoc]
  rfl

theorem modify_concat_length {α : Type} (l : List α) (f : α → α) (x : α) :
    (l ++ [x]).modify l.length f = l ++ [f x] := by
  have hi : l.length < (l ++ [x]).length := by
    rw [List.length_append]
    exact Nat.lt_succ_self _
  rw [List.modify_eq_take_cons_drop hi]
  simp

/-- An entry behind the array is not touched. -/
theorem fill_concat_diffs {dirQ : List (Bytes × Int)} {diffs : List Json}
    (h : Aligned dirQ diffs.length) (json : Json) :
    fill servers dirQ (diffs ++ [json]) = (fill servers dirQ diffs).map (· ++ [json]) := by
  induction dirQ generalizing diffs with
  | nil => rfl
  | cons e dirQ ih =>
    obtain ⟨⟨hnonneg, hlt⟩, hrest⟩ := List.forall_mem_cons.mp h
    have hidx : e.2.toNat < diffs.length := by omega
    unfold fill
    rw [Option.map_bind]
    refine Option.bind_congr fun js _ => ?_
    rw [modify_concat_of_lt hidx]
    exact ih (by rw [List.length_modify]; exact hrest)

theorem fill_concat_queue (dirQ : List (Bytes × Int)) (e : Bytes × Int) (diffs : List Json) :
    fill servers (dirQ ++ [e]) diffs = (fill servers dirQ diffs).bind (fill servers [e]) := by
  induction dirQ generalizing diffs with
  | nil => rfl
  | cons e' dirQ ih =>
    rw [List.cons_append, fill, fill, Option.bind_assoc]
    exact Option.bind_congr fun js _ => ih _

/-- **One more directory**: its entry comes with its servers. -/
theorem completed_queue {w : Walk} (hw : Aligned w.dirQ w.diffs.length) (json : Json)
    (path : Bytes) :
    completed servers ⟨w.diffs ++ [json], w.dirQ ++ [(path, (w.diffs.length : Int))], w.flushes⟩ =
      (completed servers w).bind fun diffs =>
        (servers path).map fun js => diffs ++ [json.set "servers" (.arr js)] := by
  unfold completed
  dsimp only
  rw [fill_concat_queue, fill_concat_diffs hw, Option.bind_map]
  refine Option.bind_congr fun diffs hdiffs => ?_
  -- the entries before have got their `servers`; the last one is still at its index
  have hlen := length_fill hdiffs
  rw [Function.comp_apply, fill, Option.map_eq_bind]
  refine Option.bind_congr fun js _ => ?_
  dsimp only
  rw [Int.toNat_natCast, ← hlen, modify_concat_length]
  rfl

end Fill

namespace Listing

/-- The entries that a walk adds for this stream, in order: a directory with its servers,
and then what is below it. -/
def report (servers : Bytes → Option (List Json)) : Listing → Bytes → Nat → Option (List Json)
  | done, _, _ => some []
  | link rest, path, depth => rest.report servers path depth
  | dir name opens sub rest, path, depth =>
    if name = [dot] ∨ name = [dot, dot] then rest.report servers path depth
    else
      let newPath := path ++ slash :: name
      (servers newPath).bind fun js =>
        (if opens then sub.report servers newPath (depth + 1) else some []).bind fun below =>
          (rest.report servers path depth).map fun behind =>
            (dirEntry name (getParentDir depth path)).set "servers" (.arr js) ::
              (below ++ behind)
  | other _ none _, _, _ => some []
  | other _ (some false) rest, path, depth => rest.report servers path depth
  | other name (some true) rest, path, depth =>
    (rest.report servers path depth).map fun behind =>
      fileEntry name (getParentDir depth path) (path ++ slash :: name) :: behind

/-- The number of entries that a walk adds for this stream. -/
def entries : Listing → Nat
  | done => 0
  | link rest => rest.entries
  | dir name opens sub rest =>
    if name = [dot] ∨ name = [dot, dot] then rest.entries
    else 1 + (if opens then sub.entries else 0) + rest.entries
  | other _ none _ => 0
  | other _ (some false) rest => rest.entries
  | other _ (some true) rest => 1 + rest.entries

end Listing

/-! ### Sending out the queue -/

section Steady

variable {stdIdx : Int} {servers : List (Bytes × (Bytes → FileAttr))}

/-- The loop over the queue is `fill`. -/
theorem fillServers_steady {dirs : List Bytes} {i : Nat} {dirQ : List (Bytes × Int)}
    {diffs : List Json} (hdirs : dirs.drop i = dirQ.map Prod.fst)
    (hq : Aligned dirQ diffs.length) (hsize : diffs.length < 2 ^ 31) :
    fillServers stdIdx (steadyResults servers dirs) i dirQ diffs =
      fill (serversAt stdIdx servers) dirQ diffs := by
  induction dirQ generalizing i diffs with
  | nil => rfl
  | cons e dirQ ih =>
    -- the index of the queue is inside the array, so the source does not write past it
    obtain ⟨⟨hnonneg, hlt⟩, hrest⟩ := List.forall_mem_cons.mp hq
    have hpath : dirs[i]? = some e.1 := by
      rw [← List.head?_drop, hdirs]
      rfl
    have hdrop : dirs.drop (i + 1) = dirQ.map Prod.fst := by
      rw [← List.tail_drop, hdirs]
      rfl
    rw [fillServers, fill, serversOf_steady hpath]
    refine Option.bind_congr fun js _ => ?_
    have hset : setServers js e.2 diffs =
        some (diffs.modify e.2.toNat fun json => json.set "servers" (.arr js)) := by
      unfold setServers
      rw [toInt_of_lt hsize, if_pos ⟨hnonneg, hlt⟩]
    rw [hset, Option.bind_eq_bind, Option.bind_some]
    refine ih hdrop ?_ ?_
    · rw [List.length_modify]
      exact hrest
    · rw [List.length_modify]
      exact hsize

/-- **Sending out the queue** does not change the completed array. -/
theorem completed_singleItemDir1 {w : Walk} (hw : Aligned w.dirQ w.diffs.length)
    (hsize : w.diffs.length < 2 ^ 31) :
    (exeSqlJobForSingleItemDir1 (steadyJob stdIdx servers) w).bind
        (completed (serversAt stdIdx servers)) = completed (serversAt stdIdx servers) w := by
  unfold exeSqlJobForSingleItemDir1
  split
  · rfl
  · rw [collect_steady, Option.bind_eq_bind, Option.bind_some,
      fillServers_steady List.drop_zero hw hsize, Option.bind_eq_bind, Option.bind_assoc]
    exact Option.bind_fun_some _

theorem length_fillServers {rs : List ServerResult} {i : Nat} {dirQ : List (Bytes × Int)}
    {diffs diffs' : List Json} (h : fillServers stdIdx rs i dirQ diffs = some diffs') :
    diffs'.length = diffs.length := by
  induction dirQ generalizing i diffs with
  | nil => rw [Option.some.inj h]
  | cons e dirQ ih =>
    simp only [fillServers, Option.bind_eq_bind, Option.bind_eq_some_iff] at h
    obtain ⟨js, -, diffs₁, hset, h⟩ := h
    have hlen : diffs₁.length = diffs.length := by
      unfold setServers at hset
      split at hset
      · rw [← Option.some.inj hset, List.length_modify]
      · cases hset
    rw [ih h, hlen]

theorem length_diffs_of_singleItemDir1 {job : CompareJob} {w w' : Walk}
    (h : exeSqlJobForSingleItemDir1 job w = some w') : w'.diffs.length = w.diffs.length := by
  unfold exeSqlJobForSingleItemDir1 at h
  split at h
  · rw [Option.some.inj h]
  · simp only [Option.bind_eq_bind, Option.bind_eq_some_iff, Option.pure_def] at h
    obtain ⟨rs, -, diffs, hfill, h⟩ := h
    rw [← Option.some.inj h]
    exact length_fillServers hfill

theorem length_emplaceBack (w : Walk) (json : Json) :
    (w.emplaceBack json).diffs.length = w.diffs.length + 1 := List.length_append ..

theorem aligned_emplaceBack {w : Walk} (hw : Aligned w.dirQ w.diffs.length) (json : Json) :
    Aligned (w.emplaceBack json).dirQ (w.emplaceBack json).diffs.length := by
  rw [length_emplaceBack]
  intro e he
  have hold := hw e he
  omega

theorem Aligned.concat {dirQ : List (Bytes × Int)} {size : Nat} (h : Aligned dirQ size)
    (path : Bytes) : Aligned (dirQ ++ [(path, (size : Int))]) (size + 1) := by
  rintro e he
  rcases List.mem_append.mp he with he | he
  · have hold := h e he
    omega
  · rw [List.mem_singleton.mp he]
    dsimp only
    omega

/-- A directory is met: the array gets its entry, and the queue its path. -/
theorem completed_singleItemDir {full : Nat → Bool} {w : Walk}
    (hw : Aligned w.dirQ w.diffs.length) (hsize : w.diffs.length + 1 < 2 ^ 31) (json : Json)
    (path : Bytes) :
    (exeSqlJobForSingleItemDir full (steadyJob stdIdx servers) path
        (toInt ((w.emplaceBack json).diffs.length - 1 : Nat)) (w.emplaceBack json)).bind
        (completed (serversAt stdIdx servers)) =
      (completed (serversAt stdIdx servers) w).bind fun diffs =>
        (serversAt stdIdx servers path).map fun js => diffs ++ [json.set "servers" (.arr js)] := by
  have hlen := length_emplaceBack w json
  have hidx : toInt ((w.emplaceBack json).diffs.length - 1 : Nat) = w.diffs.length := by
    rw [hlen, Nat.add_sub_cancel]
    exact toInt_of_lt (Nat.lt_of_succ_lt hsize)
  rw [← completed_queue hw, hidx]
  unfold exeSqlJobForSingleItemDir
  dsimp only
  -- sent out now or later, the entry gets the same `servers`
  split
  · refine completed_singleItemDir1 ?_ ?_
    · rw [hlen]
      exact hw.concat path
    · rw [hlen]
      exact hsize
  · rfl

theorem aligned_of_singleItemDir {full : Nat → Bool} {job : CompareJob} {w w' : Walk}
    (hw : Aligned w.dirQ w.diffs.length) (hsize : w.diffs.length + 1 < 2 ^ 31) {json : Json}
    {path : Bytes}
    (h : exeSqlJobForSingleItemDir full job path
      (toInt ((w.emplaceBack json).diffs.length - 1 : Nat)) (w.emplaceBack json) = some w') :
    Aligned w'.dirQ w'.diffs.length ∧ w'.diffs.length = w.diffs.length + 1 := by
  have hlen := length_emplaceBack w json
  have hidx : toInt ((w.emplaceBack json).diffs.length - 1 : Nat) = w.diffs.length := by
    rw [hlen, Nat.add_sub_cancel]
    exact toInt_of_lt (Nat.lt_of_succ_lt hsize)
  rw [hidx] at h
  unfold exeSqlJobForSingleItemDir at h
  dsimp only at h
  split at h
  · rw [dirQ_of_singleItemDir1 h, length_diffs_of_singleItemDir1 h]
    exact ⟨fun e he => absurd he List.not_mem_nil, hlen⟩
  · rw [← Option.some.inj h]
    exact ⟨hlen.symm ▸ hw.concat path, hlen⟩

/-- A file is met: the array gets its entry. -/
theorem completed_emplaceBack {servers : Bytes → Option (List Json)} {w : Walk}
    (hw : Aligned w.dirQ w.diffs.length) (json : Json) :
    completed servers (w.emplaceBack json) = (completed servers w).map (· ++ [json]) :=
  fill_concat_diffs hw json

/-- What holds of the walk of a stream holds below a directory, or there is nothing below. -/
theorem aligned_below {full : Nat → Bool} {job : CompareJob} {opens : Bool} {listing : Listing}
    (hloop : ∀ {path : Bytes} {depth : Nat} {w : Walk} {r : DcCommonCode × Walk},
      Aligned w.dirQ w.diffs.length → w.diffs.length + listing.entries < 2 ^ 31 →
      readLoop full job listing path depth w = some r →
      Aligned r.2.dirQ r.2.diffs.length ∧ r.2.diffs.length = w.diffs.length + listing.entries)
    {path : Bytes} {depth : Nat} {w : Walk} {r : DcCommonCode × Walk}
    (hw : Aligned w.dirQ w.diffs.length)
    (hsize : w.diffs.length + (if opens then listing.entries else 0) < 2 ^ 31)
    (h : exeSqlJobForDir full job opens listing path depth w = some r) :
    Aligned r.2.dirQ r.2.diffs.length ∧
      r.2.diffs.length = w.diffs.length + if opens then listing.entries else 0 := by
  cases opens with
  | true => exact hloop hw hsize h
  | false =>
    rw [← Option.some.inj h]
    exact ⟨hw, rfl⟩

/-- What a walk leaves is aligned again, and longer by the entries of the stream. -/
theorem aligned_of_readLoop {full : Nat → Bool} {job : CompareJob} {listing : Listing}
    {path : Bytes} {depth : Nat} {w : Walk} {r : DcCommonCode × Walk}
    (hw : Aligned w.dirQ w.diffs.length) (hsize : w.diffs.length + listing.entries < 2 ^ 31)
    (h : readLoop full job listing path depth w = some r) :
    Aligned r.2.dirQ r.2.diffs.length ∧ r.2.diffs.length = w.diffs.length + listing.entries := by
  induction listing generalizing path depth w r with
  | done =>
    rw [← Option.some.inj h]
    exact ⟨hw, rfl⟩
  | link rest ih => exact ih hw hsize h
  | dir name opens sub rest ihsub ihrest =>
    unfold Listing.entries at hsize ⊢
    by_cases hdots : name = [dot] ∨ name = [dot, dot]
    · rw [readLoop_dots hdots] at h
      rw [if_pos hdots] at hsize ⊢
      exact ihrest hw hsize h
    · rw [if_neg hdots] at hsize ⊢
      -- the directory is queued, its own stream is read, and the loop goes on behind it
      obtain ⟨json, w₁, r₁, -, hqueue, hsub, h⟩ := readLoop_dir hdots h
      obtain ⟨hw₁, hlen₁⟩ := aligned_of_singleItemDir hw (by omega) hqueue
      obtain ⟨hw₂, hlen₂⟩ := aligned_below ihsub hw₁ (by omega) hsub
      obtain ⟨hw₃, hlen₃⟩ := ihrest hw₂ (by omega) h
      exact ⟨hw₃, by omega⟩
  | other name isReg rest ih =>
    cases isReg with
    | none =>
      rw [← Option.some.inj h]
      exact ⟨hw, rfl⟩
    | some isReg =>
      cases isReg with
      | false => exact ih hw hsize h
      | true =>
        -- a file has no entry in the queue, only one in the array
        unfold Listing.entries at hsize ⊢
        obtain ⟨hw₁, hlen₁⟩ := ih (aligned_emplaceBack hw _)
          (by rw [length_emplaceBack]; omega) h
        rw [length_emplaceBack] at hlen₁
        exact ⟨hw₁, by omega⟩

theorem aligned_of_below {full : Nat → Bool} {job : CompareJob} {opens : Bool}
    {listing : Listing} {path : Bytes} {depth : Nat} {w : Walk} {r : DcCommonCode × Walk}
    (hw : Aligned w.dirQ w.diffs.length)
    (hsize : w.diffs.length + (if opens then listing.entries else 0) < 2 ^ 31)
    (h : exeSqlJobForDir full job opens listing path depth w = some r) :
    Aligned r.2.dirQ r.2.diffs.length ∧
      r.2.diffs.length = w.diffs.length + if opens then listing.entries else 0 :=
  aligned_below aligned_of_readLoop hw hsize h

/-- The walk of a stream adds its report to the completed array. -/
def Adds (full : Nat → Bool) (stdIdx : Int) (servers : List (Bytes × (Bytes → FileAttr)))
    (listing : Listing) (path : Bytes) (depth : Nat) : Prop :=
  ∀ w : Walk, Aligned w.dirQ w.diffs.length → w.diffs.length + listing.entries < 2 ^ 31 →
    (readLoop full (steadyJob stdIdx servers) listing path depth w).bind
        (fun r => completed (serversAt stdIdx servers) r.2) =
      (completed (serversAt stdIdx servers) w).bind fun diffs =>
        (listing.report (serversAt stdIdx servers) path depth).map (diffs ++ ·)

/-- What is below a directory adds its report, or nothing if `opendir` fails. -/
theorem Adds.below {full : Nat → Bool} {listing : Listing} {path : Bytes} {depth : Nat}
    (h : Adds full stdIdx servers listing path depth) {opens : Bool} {w : Walk}
    (hw : Aligned w.dirQ w.diffs.length)
    (hsize : w.diffs.length + (if opens then listing.entries else 0) < 2 ^ 31) :
    (exeSqlJobForDir full (steadyJob stdIdx servers) opens listing path depth w).bind
        (fun r => completed (serversAt stdIdx servers) r.2) =
      (completed (serversAt stdIdx servers) w).bind fun diffs =>
        (if opens then listing.report (serversAt stdIdx servers) path depth else some []).map
          (diffs ++ ·) := by
  cases opens with
  | true => exact h w hw hsize
  | false => simp [exeSqlJobForDir]

/-- A directory adds its entry, what is below it, and what is behind it. -/
theorem Adds.dir {full : Nat → Bool} {name : Bytes} {opens : Bool} {sub rest : Listing}
    {path : Bytes} {depth : Nat} (hname : ¬ (name = [dot] ∨ name = [dot, dot]))
    (hsub : Adds full stdIdx servers sub (path ++ slash :: name) (depth + 1))
    (hrest : Adds full stdIdx servers rest path depth) :
    Adds full stdIdx servers (.dir name opens sub rest) path depth := by
  intro w hw hsize
  unfold Listing.entries at hsize
  rw [if_neg hname] at hsize
  unfold readLoop Listing.report
  rw [if_neg hname, if_neg hname]
  dsimp only
  -- once the directory is queued, the sub-walk and the rest of the loop add their reports
  have hbehind : ∀ w₁ : Walk, Aligned w₁.dirQ w₁.diffs.length →
      w₁.diffs.length = w.diffs.length + 1 →
      ((exeSqlJobForDir full (steadyJob stdIdx servers) opens sub (path ++ slash :: name)
          (depth + 1) w₁).bind fun r =>
        readLoop full (steadyJob stdIdx servers) rest path depth r.2).bind
          (fun r => completed (serversAt stdIdx servers) r.2) =
        (completed (serversAt stdIdx servers) w₁).bind fun diffs =>
          (if opens then sub.report (serversAt stdIdx servers) (path ++ slash :: name)
            (depth + 1) else some []).bind fun below =>
              (rest.report (serversAt stdIdx servers) path depth).map
                fun behind => diffs ++ (below ++ behind) := by
    intro w₁ hw₁ hlen₁
    have hnext : ∀ r, exeSqlJobForDir full (steadyJob stdIdx servers) opens sub
        (path ++ slash :: name) (depth + 1) w₁ = some r →
        (readLoop full (steadyJob stdIdx servers) rest path depth r.2).bind
            (fun r => completed (serversAt stdIdx servers) r.2) =
          (completed (serversAt stdIdx servers) r.2).bind fun diffs =>
            (rest.report (serversAt stdIdx servers) path depth).map (diffs ++ ·) := by
      intro r hr
      obtain ⟨hw₂, hlen₂⟩ := aligned_of_below hw₁ (by omega) hr
      exact hrest r.2 hw₂ (by omega)
    rw [Option.bind_assoc, Option.bind_congr hnext, ← Option.bind_assoc,
      hsub.below hw₁ (by omega), Option.bind_assoc]
    refine Option.bind_congr fun diffs _ => ?_
    rw [Option.bind_map]
    refine Option.bind_congr fun below _ => ?_
    exact Option.map_congr fun behind _ => List.append_assoc ..
  rw [Option.bind_assoc]
  refine (Option.bind_congr fun w₁ hqueue => hbehind w₁
    (aligned_of_singleItemDir hw (by omega) hqueue).1
    (aligned_of_singleItemDir hw (by omega) hqueue).2).trans ?_
  rw [← Option.bind_assoc, completed_singleItemDir hw (by omega), Option.bind_assoc]
  refine Option.bind_congr fun diffs _ => ?_
  rw [Option.bind_map, Option.map_bind]
  refine Option.bind_congr fun js _ => ?_
  rw [Function.comp_apply, Function.comp_apply, Option.map_bind]
  refine Option.bind_congr fun below _ => ?_
  rw [Function.comp_apply, Option.map_map]
  exact Option.map_congr fun behind _ => List.append_assoc ..

/-- **A walk adds its report**, whenever it sends out the queue. -/
theorem adds_readLoop (full : Nat → Bool) (listing : Listing) (path : Bytes) (depth : Nat) :
    Adds full stdIdx servers listing path depth := by
  induction listing generalizing path depth with
  | done =>
    intro w hw hsize
    simp [readLoop, Listing.report]
  | link rest ih => exact ih path depth
  | dir name opens sub rest ihsub ihrest =>
    by_cases hname : name = [dot] ∨ name = [dot, dot]
    · intro w hw hsize
      unfold Listing.entries at hsize
      rw [if_pos hname] at hsize
      unfold Listing.report
      rw [readLoop_dots hname, if_pos hname]
      exact ihrest path depth w hw hsize
    · exact Adds.dir hname (ihsub _ _) (ihrest _ _)
  | other name isReg rest ih =>
    cases isReg with
    | none =>
      intro w hw hsize
      -- a `stat` that fails ends the loop and the report of this stream
      simp [readLoop, Listing.report]
    | some isReg =>
      cases isReg with
      | false => exact ih path depth
      | true =>
        intro w hw hsize
        unfold Listing.entries at hsize
        unfold readLoop Listing.report
        rw [ih _ _ _ (aligned_emplaceBack hw _) (by rw [length_emplaceBack]; omega),
          completed_emplaceBack hw, Option.bind_map]
        refine Option.bind_congr fun diffs _ => ?_
        rw [Option.map_map]
        exact Option.map_congr fun behind _ => List.append_assoc ..

/-- The array at the end of a walk: the rest of the queue is sent out. -/
theorem afterWalk_completed {w : Walk} (hw : Aligned w.dirQ w.diffs.length)
    (hsize : w.diffs.length < 2 ^ 31) :
    (afterWalk (steadyJob stdIdx servers) (.S_SUCCESS, w)).map (fun r => r.2.diffs) =
      completed (serversAt stdIdx servers) w := by
  unfold afterWalk
  rw [if_neg (by decide : ¬ logCheckErr .S_SUCCESS = true)]
  -- the end of the walk sends out what is left, if anything
  split
  · rw [← completed_singleItemDir1 hw hsize, Option.map_map, Option.map_eq_bind]
    refine Option.bind_congr fun w' hsend => ?_
    rw [completed, dirQ_of_singleItemDir1 hsend]
    rfl
  · next hempty =>
    have hnil : w.dirQ = [] := List.length_eq_zero_iff.mp (Nat.eq_zero_of_not_pos hempty)
    rw [completed, hnil]
    rfl

/-- **The array of a job** is the report of what it has found, whenever it sends out the
queue. -/
theorem diffs_eq_report (full : Nat → Bool) (path : Bytes) {listing : Listing}
    (hstops : listing.stops = false) (hsize : listing.entries < 2 ^ 31) :
    (exeSqlJob full (steadyJob stdIdx servers) path (.directory true listing)
        (Walk.fresh [])).map (fun r => r.2.diffs) =
      listing.report (serversAt stdIdx servers) (cStr path) 0 := by
  have haligned : Aligned (Walk.fresh []).dirQ (Walk.fresh []).diffs.length :=
    fun e he => absurd he List.not_mem_nil
  have hsize₀ : (Walk.fresh []).diffs.length + listing.entries < 2 ^ 31 := by
    rw [Walk.fresh, List.length_nil, Nat.zero_add]
    exact hsize
  have hadds : Adds full stdIdx servers listing (cStr path) 0 :=
    adds_readLoop full listing (cStr path) 0
  have hreport := hadds (Walk.fresh []) haligned hsize₀
  rw [exeSqlJob_directory, exeSqlJobForDir, if_pos rfl, Option.map_bind]
  refine (Option.bind_congr fun r hr => ?_).trans (hreport.trans ?_)
  · obtain ⟨hw, hlen⟩ := aligned_of_readLoop haligned hsize₀ hr
    have hret : r.1 = .S_SUCCESS := by
      rw [ret_of_readLoop hr, hstops]
      rfl
    obtain ⟨ret, w⟩ := r
    obtain rfl : ret = .S_SUCCESS := hret
    exact afterWalk_completed hw (by rw [hlen]; exact hsize₀)
  · exact Option.map_id' ..

/-- **Batches cannot be seen.** Sent out in batches or at once, the directories of a walk
in which no `stat` failed get the same array, in which each has the servers of its own
path. -/
theorem batches_invisible (stdIdx : Int) (servers : List (Bytes × (Bytes → FileAttr)))
    (path : Bytes) (listing : Listing) (hstops : listing.stops = false)
    (hsize : listing.entries < 2 ^ 31) :
    let diffs := fun full : Nat → Bool =>
      (exeSqlJob full (steadyJob stdIdx servers) path (.directory true listing)
        (Walk.fresh [])).map fun r => r.2.diffs
    diffs overBatch = diffs (fun _ => false) ∧
      diffs overBatch = listing.report (serversAt stdIdx servers) (cStr path) 0 := by
  intro diffs
  have hreport : ∀ full, diffs full = listing.report (serversAt stdIdx servers) (cStr path) 0 :=
    fun full => diffs_eq_report full path hstops hsize
  exact ⟨(hreport _).trans (hreport _).symm, hreport _⟩

end Steady

/-- Three bytes that number a directory. -/
def dirName (n : Nat) : Bytes :=
  [UInt8.ofNat (97 + n % 26), UInt8.ofNat (97 + n / 26 % 26), UInt8.ofNat (97 + n / 676 % 26)]

/-- So many empty directories, and then the rest. -/
def emptyDirs : Nat → Listing → Listing
  | 0, rest => rest
  | n + 1, rest => .dir (dirName n) true .done (emptyDirs n rest)

theorem dirName_ne_dots (n : Nat) : ¬ (dirName n = [dot] ∨ dirName n = [dot, dot]) := by
  simp [dirName]

theorem entries_emptyDirs (n : Nat) (rest : Listing) :
    (emptyDirs n rest).entries = n + rest.entries := by
  induction n with
  | zero => exact (Nat.zero_add _).symm
  | succ n ih =>
    rw [emptyDirs, Listing.entries, if_neg (dirName_ne_dots n), ih, if_pos rfl, Listing.entries]
    omega

/-- With servers that have an answer for every path, the report has all entries. -/
theorem exists_report {servers : Bytes → Option (List Json)}
    (hservers : ∀ path, ∃ js, servers path = some js) (listing : Listing) (path : Bytes)
    (depth : Nat) :
    ∃ ds, listing.report servers path depth = some ds ∧ ds.length = listing.entries := by
  induction listing generalizing path depth with
  | done => exact ⟨[], rfl, rfl⟩
  | link rest ih => exact ih path depth
  | dir name opens sub rest ihsub ihrest =>
    unfold Listing.report Listing.entries
    split_ifs with hdots hopens
    · exact ihrest path depth
    · obtain ⟨js, hjs⟩ := hservers (path ++ slash :: name)
      obtain ⟨below, hbelow, hlen⟩ := ihsub (path ++ slash :: name) (depth + 1)
      obtain ⟨behind, hbehind, hlen'⟩ := ihrest path depth
      refine ⟨_, by simp only [hjs, hbelow, hbehind, Option.bind_some, Option.map_some]; rfl, ?_⟩
      rw [List.length_cons, List.length_append, hlen, hlen']
      omega
    · obtain ⟨js, hjs⟩ := hservers (path ++ slash :: name)
      obtain ⟨behind, hbehind, hlen'⟩ := ihrest path depth
      refine ⟨_, by simp only [hjs, hbehind, Option.bind_some, Option.map_some]; rfl, ?_⟩
      rw [List.length_cons, List.nil_append, hlen']
      omega
  | other name isReg rest ih =>
    match isReg with
    | none => exact ⟨[], rfl, rfl⟩
    | some false => exact ih path depth
    | some true =>
      obtain ⟨behind, hbehind, hlen⟩ := ih path depth
      refine ⟨_, by rw [Listing.report, hbehind, Option.map_some], ?_⟩
      rw [List.length_cons, hlen, Listing.entries, Nat.add_comm]

/-- Two servers whose records depend on the path; every path has the same size on both, and
its own owner on the second one. -/
def recording : List (Bytes × (Bytes → FileAttr)) :=
  [(ascii "a", fun path => { fSize := path.length }),
    (ascii "b", fun path => { fSize := path.length, fOwner := path })]

theorem serversAt_recording (path : Bytes) : ∃ js, serversAt 0 recording path = some js := by
  have hother : ∃ j, otherServer { fSize := path.length } 0
      ⟨ascii "b", [{ fSize := path.length, fOwner := path }], .S_SUCCESS⟩ = some j := by
    simp only [otherServer, List.getElem?_cons_zero, compareAssignAttrToJson]
    split_ifs <;> simp_all
  obtain ⟨j, hj⟩ := hother
  rw [← Option.isSome_iff_exists]
  unfold serversAt
  rw [serversOf_of_some (by decide) (List.getElem?_cons_zero ..) (List.getElem?_cons_zero ..)]
  simp [steadyResults, recording, otherServers, hj]

/-- More than one batch: a directory, a thousand and one of them in it, and a file. -/
def manyDirs : Listing :=
  .dir (ascii "a") true (emptyDirs 1001 .done) (.other (ascii "f") (some true) .done)

/-- The 1002 directories are sent out in two lists, and the array has an entry for each. -/
theorem batches_manyDirs :
    let diffs := fun full : Nat → Bool =>
      (exeSqlJob full (steadyJob 0 recording) (ascii "/data") (.directory true manyDirs)
        (Walk.fresh [])).map fun r => r.2.diffs
    diffs overBatch = diffs (fun _ => false) ∧
      diffs overBatch = manyDirs.report (serversAt 0 recording) (cStr (ascii "/data")) 0 ∧
      ∃ ds, diffs overBatch = some ds ∧ ds.length = 1003 := by
  have hentries : manyDirs.entries = 1003 := by
    rw [manyDirs, Listing.entries, if_neg (by decide), entries_emptyDirs]
    rfl
  obtain ⟨hsame, hreport⟩ := batches_invisible 0 recording (ascii "/data") manyDirs rfl
    (by rw [hentries]; decide)
  obtain ⟨ds, hds, hlen⟩ :=
    exists_report serversAt_recording manyDirs (cStr (ascii "/data")) 0
  exact ⟨hsame, hreport, ds, hreport.trans hds, hlen.trans hentries⟩
/-! ### Too many entries -/

/-- So many regular files, and then the rest. -/
def files (name : Bytes) : Nat → Listing → Listing
  | 0, rest => rest
  | n + 1, rest => .other name (some true) (files name n rest)

theorem readLoop_files (full : Nat → Bool) (job : CompareJob) (name : Bytes) (n : Nat)
    (rest : Listing) (path : Bytes) (depth : Nat) (w : Walk) :
    readLoop full job (files name n rest) path depth w =
      readLoop full job rest path depth ⟨w.diffs ++ List.replicate n
        (fileEntry name (getParentDir depth path) (path ++ slash :: name)), w.dirQ, w.flushes⟩ := by
  induction n generalizing w with
  | zero => simp [files]
  | succ n ih =>
    rw [files, readLoop, ih, List.replicate_succ, Walk.emplaceBack]
    simp

theorem report_files (servers : Bytes → Option (List Json)) (name : Bytes) (n : Nat)
    (rest : Listing) (path : Bytes) (depth : Nat) :
    (files name n rest).report servers path depth =
      (rest.report servers path depth).map (List.replicate n
        (fileEntry name (getParentDir depth path) (path ++ slash :: name)) ++ ·) := by
  induction n with
  | zero => exact (Option.map_id' ..).symm
  | succ n ih =>
    rw [files, Listing.report, ih, Option.map_map]
    rfl

/-- The size of the array, as an `int`, is not larger than any index. -/
theorem singleItemDir1_overflow {job : CompareJob} {w : Walk} (hq : w.dirQ ≠ [])
    (hsize : toInt w.diffs.length ≤ 0) : exeSqlJobForSingleItemDir1 job w = none := by
  obtain ⟨e, dirQ, hcons⟩ := List.exists_cons_of_ne_nil hq
  have hset : ∀ js, setServers js e.2 w.diffs = none := fun js => if_neg (by omega)
  unfold exeSqlJobForSingleItemDir1
  rw [if_neg hq, hcons]
  simp [fillServers, hset]

theorem afterWalk_overflow {job : CompareJob} {w : Walk} (hq : w.dirQ ≠ [])
    (hsize : toInt w.diffs.length ≤ 0) : afterWalk job (.S_SUCCESS, w) = none := by
  unfold afterWalk
  rw [if_neg (by decide : ¬ logCheckErr .S_SUCCESS = true), if_pos (List.length_pos_iff.mpr hq),
    singleItemDir1_overflow hq hsize]
  rfl

theorem stops_files (name : Bytes) (n : Nat) (rest : Listing) :
    (files name n rest).stops = rest.stops := by
  induction n with
  | zero => rfl
  | succ n ih => exact ih

/-- A job whose only directory comes behind `n` files, when `n + 1` is no positive `int`. -/
theorem exeSqlJob_overflow (job : CompareJob) (path : Bytes) {n : Nat}
    (hsize : toInt (n + 1 : Nat) ≤ 0) :
    exeSqlJob overBatch job path
      (.directory true (files (ascii "f") n (.dir (ascii "d") true .done .done)))
      (Walk.fresh []) = none := by
  have hdot : ¬ (ascii "d" = [dot] ∨ ascii "d" = [dot, dot]) := by decide
  rw [exeSqlJob_directory, exeSqlJobForDir, if_pos rfl, readLoop_files, readLoop, if_neg hdot]
  -- one directory does not fill a batch, so it is still queued at the end
  have hfull : overBatch 1 = false := by decide
  simp only [exeSqlJobForSingleItemDir, Walk.emplaceBack, Walk.fresh, List.nil_append,
    List.length_singleton, hfull, readLoop, Option.bind_some, if_true, Bool.false_eq_true,
    if_false]
  refine afterWalk_overflow (List.cons_ne_nil _ _) ?_
  rw [List.length_append, List.length_replicate]
  exact hsize

/-- A server that has read every directory. -/
def readable : Bytes × (Bytes → FileAttr) := (ascii "a", fun _ => {})

/-- A directory behind `2 ^ 31 - 1` files: the report has its servers, and the job stops in
an assertion. -/
theorem servers_overflow :
    let listing := files (ascii "f") (2 ^ 31 - 1) (.dir (ascii "d") true .done .done)
    exeSqlJob overBatch (steadyJob 0 [readable]) (ascii "/data") (.directory true listing)
        (Walk.fresh []) = none ∧
      listing.stops = false ∧
      (listing.report (serversAt 0 [readable]) (cStr (ascii "/data")) 0).isSome := by
  refine ⟨exeSqlJob_overflow _ _ (by decide), stops_files .., ?_⟩
  rw [report_files, Option.isSome_map]
  rfl

end Wfrest
