import Wfrest.Compare.Report

/-!
# What a directory report tells

The array of a directory tells what each server said about it exactly when
`Reversible` holds (`lossless_iff`). When it does not, two servers can say other things
and the array stays the same:

* a failed server and an equal one that are neighbours among the other servers exchange
  their answers (`print_swap`), since the entry of a failed server has no name;
* an error of the standard server about the single directory does not show at all, so it
  may be any other error;
* that the standard server had no error shows only in the entry of a server that is equal
  or shares a field with it.
-/

namespace Wfrest

/-- The answers of the servers of a task for a list of `dirs` directories. -/
structure Answers (servers dirs : Nat) where
  results : List DirListResult
  length_eq : results.length = servers
  wellFormed : ∀ r ∈ results, WellFormed dirs r

/-- The names of the servers. -/
def DcApiTask.centers (task : DcApiTask) : List Bytes := task.serverInfoArr.map ServerInfo.center

/-- The array `servers` that the answers `v` give for the directory `dirIdx`. -/
def report (task : DcApiTask) {dirs : Nat} (v : Answers task.serverInfoArr.length dirs)
    (dirIdx : Nat) : Option (List Json) :=
  serversOf task.stdIdx (task.centers.zipWith collected v.results) dirIdx

/-- What the servers say about a directory, in the order of the task. -/
def facts {servers dirs : Nat} (v : Answers servers dirs) (dirIdx : Nat) : List Fact :=
  v.results.map (factAt dirIdx)

/-- **The report is lossless** for these answers: an array is written, and other
answers for the same task and the same number of directories that give this array say
the same about every server. -/
def Lossless (task : DcApiTask) {dirs : Nat} (v : Answers task.serverInfoArr.length dirs)
    (dirIdx : Nat) : Prop :=
  ∃ arr, report task v dirIdx = some arr ∧
    ∀ w : Answers task.serverInfoArr.length dirs, report task w dirIdx = some arr →
      facts w dirIdx = facts v dirIdx

/-- A server says of the directory that it failed. -/
def Failed (f : Fact) : Prop := ∃ code, f = .error code

/-- Neither of two neighbours failed while the other is equal to the standard. -/
def Tellable (std : DirAttrs) (f g : Fact) : Prop :=
  ¬ (Failed f ∧ g = .ok std) ∧ ¬ (f = .ok std ∧ Failed g)

/-- No field is that of the standard. -/
def DiffersInAll (std x : DirAttrs) : Prop :=
  std.mode ≠ x.mode ∧ std.owner ≠ x.owner ∧ std.lastUpdated ≠ x.lastUpdated

/-- What the other servers say, in the order of the task. -/
def otherFacts (task : DcApiTask) {dirs : Nat} (v : Answers task.serverInfoArr.length dirs)
    (dirIdx : Nat) : List Fact := (facts v dirIdx).eraseIdx task.stdIdx.toNat

/-- The record of the standard server. -/
def stdItem (task : DcApiTask) {dirs : Nat} (v : Answers task.serverInfoArr.length dirs)
    (dirIdx : Nat) : Except DcCommonCode FileAttr :=
  itemAt dirIdx (v.results.getD task.stdIdx.toNat (.error .S_SUCCESS))

/-- **The array can be read back.** The codes that are reported have messages. Unless
the standard server failed for the whole list, it did not fail for the directory, some
other server shares a field with it, and no failed server is a neighbour of an equal one
among the other servers. -/
def Reversible (task : DcApiTask) {dirs : Nat} (v : Answers task.serverInfoArr.length dirs)
    (dirIdx : Nat) : Prop :=
  (∀ f ∈ facts v dirIdx, Reportable f) ∧
    match stdItem task v dirIdx with
    | .error _ => True
    | .ok std =>
      std.fCode = .S_SUCCESS ∧
        (∃ x, .ok x ∈ otherFacts task v dirIdx ∧ ¬ DiffersInAll std.attrs x) ∧
        (otherFacts task v dirIdx).IsChain (Tellable std.attrs)

/-! ### The parts of the answers -/

variable {task : DcApiTask} {dirs dirIdx k : Nat} {a : DirListResult} {os : List DirListResult}

/-- The answers with `a` for the server at `k` and `os` for the others. -/
def Answers.insert {servers : Nat} (k : Nat) (a : DirListResult) (os : List DirListResult)
    (hk : k ≤ os.length) (hlen : os.length + 1 = servers) (ha : WellFormed dirs a)
    (hos : ∀ r ∈ os, WellFormed dirs r) : Answers servers dirs where
  results := os.insertIdx k a
  length_eq := (List.length_insertIdx_of_le_length hk a).trans hlen
  wellFormed := fun r hr => by
    rcases (List.mem_insertIdx hk).mp hr with rfl | hr
    · exact ha
    · exact hos r hr

/-- All answers arise so. -/
theorem Answers.exists_eq_insert {servers : Nat} (v : Answers servers dirs) (hk : k < servers) :
    ∃ (a : DirListResult) (os : List DirListResult),
      v.results = os.insertIdx k a ∧ k ≤ os.length ∧ os.length + 1 = servers ∧
        WellFormed dirs a ∧ ∀ r ∈ os, WellFormed dirs r := by
  have hlt : k < v.results.length := by
    rw [v.length_eq]
    exact hk
  have hlen : (v.results.eraseIdx k).length + 1 = servers := by
    rw [List.length_eraseIdx_of_lt hlt, v.length_eq]
    omega
  exact ⟨v.results[k], v.results.eraseIdx k, (List.insertIdx_eraseIdx_getElem hlt).symm,
    by omega, hlen, v.wellFormed _ (List.getElem_mem hlt),
    fun r hr => v.wellFormed r (List.mem_of_mem_eraseIdx hr)⟩

theorem facts_eq_insertIdx {servers : Nat} {v : Answers servers dirs}
    (hv : v.results = os.insertIdx k a) :
    facts v dirIdx = (os.map (factAt dirIdx)).insertIdx k (factAt dirIdx a) := by
  unfold facts
  rw [hv, List.map_insertIdx]

/-- Answers that say the same about every server agree on the standard one and on the
others. -/
theorem facts_inj {servers : Nat} {v w : Answers servers dirs} {b : DirListResult}
    {os' : List DirListResult} (hv : v.results = os.insertIdx k a) (hk : k ≤ os.length)
    (hw : w.results = os'.insertIdx k b) (hk' : k ≤ os'.length)
    (h : facts w dirIdx = facts v dirIdx) :
    factAt dirIdx b = factAt dirIdx a ∧ os'.map (factAt dirIdx) = os.map (factAt dirIdx) := by
  rw [facts_eq_insertIdx hv, facts_eq_insertIdx hw] at h
  have hmap := congrArg (fun l => l.eraseIdx k) h
  simp only [List.eraseIdx_insertIdx_self] at hmap
  have hat := congrArg (fun l => l[k]?) h
  simp only [List.getElem?_insertIdx_self, List.length_map, if_pos hk, if_pos hk',
    Option.some.injEq] at hat
  exact ⟨hat, hmap⟩

/-- **What the report writes**, as a printed row after the entry of the standard
server. -/
theorem report_iff {v : Answers task.serverInfoArr.length dirs} (hstd : task.stdIdx = k)
    (hv : v.results = os.insertIdx k a) (hk : k ≤ os.length) (hd : dirIdx < dirs)
    {arr : List Json} :
    report task v dirIdx = some arr ↔
      ∃ json, stdJson (task.centers.getD k []) (itemAt dirIdx a) = some json ∧
        (∀ r ∈ os, Reportable (factAt dirIdx r)) ∧
        arr = json :: (Cell.print (task.centers.eraseIdx k)
          ((os.map (factAt dirIdx)).map (cellOf (viewOf (itemAt dirIdx a))))).map entryJson := by
  have hlen : task.centers.length = v.results.length := by
    rw [v.length_eq, DcApiTask.centers, List.length_map]
  have hlt : k < v.results.length := by
    rw [hv, List.length_insertIdx_of_le_length hk]
    omega
  have hcenter : task.centers[k]? = some (task.centers.getD k []) := by
    rw [List.getD_eq_getElem?_getD, List.getElem?_eq_getElem (hlen ▸ hlt)]
    rfl
  have hanswer : v.results[k]? = some a := by
    rw [hv, List.getElem?_insertIdx_self, if_pos hk]
  have hneg : ¬ task.stdIdx < 0 := by omega
  have hnat : task.stdIdx.toNat = k := by omega
  have hrow : (task.centers.zipWith collected v.results)[task.stdIdx.toNat]? =
      some (collected (task.centers.getD k []) a) := by
    rw [hnat, List.getElem?_zipWith, hcenter, hanswer]
  have hskip : ∀ j < v.results.length, (↑(0 + j) = task.stdIdx ↔ j = k) := by
    intro j _
    omega
  have herase : v.results.eraseIdx k = os := by
    rw [hv, List.eraseIdx_insertIdx_self]
  -- the loop skips the standard server and prints the row of the others
  have hloop : ∀ {std : FileAttr}, std.fSize = -1 → ∀ {es : List Json},
      otherServers std task.stdIdx dirIdx 0 (task.centers.zipWith collected v.results) = some es ↔
        (∀ r ∈ os, Reportable (factAt dirIdx r)) ∧
          es = (Cell.print (task.centers.eraseIdx k)
            ((os.map (factAt dirIdx)).map (cellOf std.view))).map entryJson := by
    intro std hsize es
    rw [otherServers_iff hsize hd hlen v.wellFormed hskip, herase, List.map_map]
    rfl
  have ha : WellFormed dirs a :=
    -- the standard entry: the failure of its list, or its record whatever its code
    v.wellFormed a (hv ▸ (List.mem_insertIdx hk).mpr (Or.inl rfl))
  cases a with
  | error code =>
    have hview : ({ fCode := code } : FileAttr).view = none := if_neg ha
    have hloop' := @hloop { fCode := code } rfl
    simp only [hview] at hloop'
    rw [report, serversOf_of_none hneg hrow (List.getElem?_nil ..)]
    constructor
    · intro h
      obtain ⟨json, hjson, h⟩ := Option.bind_eq_some_iff.mp h
      obtain ⟨es, hes, h⟩ := Option.bind_eq_some_iff.mp h
      obtain ⟨hrep, rfl⟩ := hloop'.mp hes
      exact ⟨json, hjson, hrep, (Option.some.inj h).symm⟩
    · rintro ⟨json, hjson, hrep, rfl⟩
      exact Option.bind_eq_some_iff.mpr ⟨json, hjson,
        Option.bind_eq_some_iff.mpr ⟨_, hloop'.mpr ⟨hrep, rfl⟩, rfl⟩⟩
  | ok attrs =>
    obtain ⟨attr, hitem⟩ : ∃ attr, itemAt dirIdx (.ok attrs) = .ok attr := ⟨_, rfl⟩
    obtain ⟨hsize, hget⟩ := fSize_of_itemAt hd ha hitem
    have hloop' := @hloop attr hsize
    rw [report, serversOf_of_some hneg hrow (hget attrs rfl), hitem]
    constructor
    · intro h
      obtain ⟨es, hes, h⟩ := Option.bind_eq_some_iff.mp h
      obtain ⟨hrep, rfl⟩ := hloop'.mp hes
      exact ⟨_, rfl, hrep, (Option.some.inj h).symm⟩
    · rintro ⟨json, hjson, hrep, rfl⟩
      obtain rfl := Option.some.inj hjson
      exact Option.bind_eq_some_iff.mpr ⟨_, hloop'.mpr ⟨hrep, rfl⟩, rfl⟩

/-! ### What the entry of the standard server tells -/

/-- The attributes can be read in the entry, and there is no `errno`. -/
private theorem get?_assignAttrToJson (center : Bytes) (attr : FileAttr) :
    let json := assignAttrToJson (Json.null.set "is_standard" (.bool true)) center attr
    json.get? "errno" = none ∧ json.get? "mode" = some (.str attr.fMode) ∧
      json.get? "owner" = some (.str attr.fOwner) ∧
      json.get? "last_updated" = some (.str attr.fLastUpdated) := by
  unfold assignAttrToJson
  by_cases hsize : 0 ≤ attr.fSize
  · simp only [if_pos hsize, Json.get?_set]
    exact ⟨rfl, rfl, rfl, rfl⟩
  · simp only [if_neg hsize, Json.get?_set]
    exact ⟨rfl, rfl, rfl, rfl⟩

/-- Equal entries of the standard server: the same failure for the whole list, or the
same attributes. Its code for the directory is not told. -/
theorem stdJson_inj {center : Bytes} {x y : Except DcCommonCode FileAttr} {json : Json}
    (hx : stdJson center x = some json) (hy : stdJson center y = some json) :
    (∃ code, x = .error code ∧ y = .error code) ∨
      ∃ s t, x = .ok s ∧ y = .ok t ∧ s.attrs = t.attrs := by
  -- only a failure of the list has an `errno`, and it is the code
  have herror : ∀ {code : DcCommonCode}, stdJson center (.error code) = some json →
      json.get? "errno" = some (codeJson code) := by
    intro code h
    obtain ⟨msg, -, rfl⟩ := Option.map_eq_some_iff.mp h
    simp only [Json.get?_set]
    rfl
  cases x with
  | error code =>
    cases y with
    | error code' =>
      have hcode := (herror hx).symm.trans (herror hy)
      rw [codeJson_injective (Option.some.inj hcode)]
      exact Or.inl ⟨code', rfl, rfl⟩
    | ok t =>
      obtain rfl := Option.some.inj hy
      have herrno := herror hx
      rw [(get?_assignAttrToJson center t).1] at herrno
      cases herrno
  | ok s =>
    obtain rfl := Option.some.inj hx
    obtain ⟨herrno, hmode, howner, htime⟩ := get?_assignAttrToJson center s
    cases y with
    | error code =>
      rw [herror hy] at herrno
      cases herrno
    | ok t =>
      obtain ⟨-, hmode', howner', htime'⟩ := get?_assignAttrToJson center t
      have hjson := Option.some.inj hy
      rw [hjson] at hmode' howner' htime'
      refine Or.inr ⟨s, t, rfl, rfl, ?_⟩
      unfold FileAttr.attrs
      rw [Json.str.inj (Option.some.inj (hmode.symm.trans hmode')),
        Json.str.inj (Option.some.inj (howner.symm.trans howner')),
        Json.str.inj (Option.some.inj (htime.symm.trans htime'))]

/-! ### Cells and facts -/

/-- Without a standard there is no blank cell. -/
theorem isChain_cellOf_none (fs : List Fact) :
    (fs.map (cellOf none)).IsChain Cell.Apart := by
  refine (List.isChain_map _).mpr (List.isChain_iff_forall_rel_of_append_cons_cons.mpr ?_)
  intro f g _ _ _
  cases f <;> cases g <;> trivial

/-- Cells can be told apart when what they stand for can. -/
theorem apart_cellOf_iff (std : DirAttrs) (f g : Fact) :
    Cell.Apart (cellOf (some std) f) (cellOf (some std) g) ↔ Tellable std f g := by
  -- the cell of a record is blank if it is equal to the standard, and named otherwise
  have hok : ∀ x : DirAttrs, cellOf (some std) (.ok x) = .blank ∧ std = x ∨
      (∃ y, cellOf (some std) (.ok x) = .named y) ∧ std ≠ x := by
    intro x
    by_cases h : std = x
    · exact Or.inl ⟨if_pos h, h⟩
    · exact Or.inr ⟨⟨_, if_neg h⟩, h⟩
  unfold Tellable Failed
  cases f with
  | error c =>
    cases g with
    | error c' => simp [cellOf, Cell.Apart]
    | ok y =>
      rcases hok y with ⟨hcell, rfl⟩ | ⟨⟨z, hcell⟩, hne⟩
      · rw [hcell]
        simp [cellOf, Cell.Apart]
      · rw [hcell]
        simp [cellOf, Cell.Apart, hne.symm]
  | ok x =>
    cases g with
    | error c' =>
      rcases hok x with ⟨hcell, rfl⟩ | ⟨⟨z, hcell⟩, hne⟩
      · rw [hcell]
        simp [cellOf, Cell.Apart]
      · rw [hcell]
        simp [Cell.Apart, hne.symm]
    | ok y =>
      refine iff_of_true ?_ (by simp)
      rcases hok x with ⟨hx, -⟩ | ⟨⟨_, hx⟩, -⟩ <;>
        rcases hok y with ⟨hy, -⟩ | ⟨⟨_, hy⟩, -⟩ <;> rw [hx, hy] <;> trivial

/-- All fields are written for a server that shares none with the standard. -/
theorem diff_eq_full_iff (std x : DirAttrs) : std.diff x = x.full ↔ DiffersInAll std x := by
  unfold DirAttrs.diff DirAttrs.full DiffersInAll
  rw [DirFields.mk.injEq]
  simp

/-- A server has the same cell with and without a standard when it failed or shares no
field with it. -/
theorem cellOf_some_eq_none_iff (std : DirAttrs) (f : Fact) :
    cellOf (some std) f = cellOf none f ↔ ∀ x, f = .ok x → DiffersInAll std x := by
  cases f with
  | error c => simp [cellOf]
  | ok x =>
    constructor
    · intro h y hy
      obtain rfl := Except.ok.inj hy
      by_cases heq : std = x
      · rw [show cellOf (some std) (.ok x) = .blank from if_pos heq] at h
        cases h
      · rw [show cellOf (some std) (.ok x) = .named (std.diff x) from if_neg heq] at h
        exact (diff_eq_full_iff std x).mp (Cell.named.inj h)
    · intro h
      have hall := h x rfl
      have hne : std ≠ x := fun heq => hall.1 (congrArg DirAttrs.mode heq)
      rw [show cellOf (some std) (.ok x) = .named (std.diff x) from if_neg hne,
        (diff_eq_full_iff std x).mpr hall]
      rfl

/-! ### The report and the facts -/

/-- An entry is written for the standard server unless its failure has no message. -/
theorem exists_stdJson (center : Bytes) {x : Except DcCommonCode FileAttr}
    (h : ∀ code, x = .error code → dcCommonCodeMsg code ≠ none) :
    ∃ json, stdJson center x = some json := by
  cases x with
  | error code =>
    obtain ⟨msg, hmsg⟩ := Option.ne_none_iff_exists'.mp (h code rfl)
    exact ⟨_, by rw [stdJson, setError, hmsg]; rfl⟩
  | ok attr => exact ⟨_, rfl⟩

theorem factAt_of_itemAt {r : DirListResult} {x : Except DcCommonCode FileAttr}
    (h : itemAt dirIdx r = x) : factAt dirIdx r = x >>= FileAttr.fact := by
  rw [factAt, h]

/-- The answer of the standard server with another code for the directory. -/
theorem exists_itemAt_code (ha : WellFormed dirs a) (hd : dirIdx < dirs) {std : FileAttr}
    (hitem : itemAt dirIdx a = .ok std) (code : DcCommonCode) :
    ∃ b, WellFormed dirs b ∧ itemAt dirIdx b = .ok { std with fCode := code } := by
  cases a with
  | error c => cases hitem
  | ok attrs =>
    obtain ⟨hstd, -⟩ := fSize_of_itemAt hd ha hitem
    obtain ⟨hlen, hsize⟩ := ha
    refine ⟨.ok (attrs.set dirIdx { std with fCode := code }), ⟨?_, fun attr hmem => ?_⟩, ?_⟩
    · rw [List.length_set, hlen]
    · rcases List.mem_or_eq_of_mem_set hmem with hmem | rfl
      · exact hsize attr hmem
      · exact hstd
    · change Except.ok ((attrs.set dirIdx { std with fCode := code }).getD dirIdx {}) = _
      rw [List.getD_eq_getElem?_getD, List.getElem?_set_self (hlen ▸ hd)]
      rfl

section Main

variable {v w : Answers task.serverInfoArr.length dirs} {b : DirListResult}
  {os' : List DirListResult}

theorem stdItem_eq (hstd : task.stdIdx = k) (hv : v.results = os.insertIdx k a)
    (hk : k ≤ os.length) : stdItem task v dirIdx = itemAt dirIdx a := by
  have hnat : task.stdIdx.toNat = k := by omega
  unfold stdItem
  rw [hnat, hv, List.getD_eq_getElem?_getD, List.getElem?_insertIdx_self, if_pos hk]
  rfl

theorem otherFacts_eq (hstd : task.stdIdx = k) (hv : v.results = os.insertIdx k a) :
    otherFacts task v dirIdx = os.map (factAt dirIdx) := by
  have hnat : task.stdIdx.toNat = k := by omega
  unfold otherFacts
  rw [hnat, facts_eq_insertIdx hv, List.eraseIdx_insertIdx_self]

theorem mem_facts_iff (hv : v.results = os.insertIdx k a) (hk : k ≤ os.length) (f : Fact) :
    f ∈ facts v dirIdx ↔ f = factAt dirIdx a ∨ f ∈ os.map (factAt dirIdx) := by
  rw [facts_eq_insertIdx hv]
  exact List.mem_insertIdx (by rw [List.length_map]; exact hk)

/-- There is one name for each of the other servers. -/
theorem length_erase_centers (hlt : k < task.serverInfoArr.length) :
    (task.centers.eraseIdx k).length + 1 = task.serverInfoArr.length := by
  have hc : task.centers.length = task.serverInfoArr.length := List.length_map _
  rw [List.length_eraseIdx_of_lt (hc ▸ hlt), hc]
  omega

/-- A row of cells that may stand next to each other is read back from the array. -/
theorem facts_eq_of_print {view : Option DirAttrs} (hnodup : task.centers.Nodup)
    (hlt : k < task.serverInfoArr.length) {fs gs : List Fact}
    (hfs : fs.length + 1 = task.serverInfoArr.length)
    (hgs : gs.length + 1 = task.serverInfoArr.length) {view' : Option DirAttrs}
    (hchain : (fs.map (cellOf view)).IsChain Cell.Apart)
    (hprint : Cell.print (task.centers.eraseIdx k) (fs.map (cellOf view)) =
      Cell.print (task.centers.eraseIdx k) (gs.map (cellOf view'))) :
    fs.map (cellOf view) = gs.map (cellOf view') := by
  have hlen : (task.centers.eraseIdx k).length + 1 = task.serverInfoArr.length :=
    length_erase_centers hlt
  -- the names are distinct and there are as many as cells, on both sides
  refine Cell.print_injective (hnodup.sublist (List.eraseIdx_sublist _ _)) ?_ ?_ hchain hprint
  · rw [List.length_map]
    omega
  · rw [List.length_map]
    omega

/-- An entry in full is of a server that shares no field with the standard. -/
theorem differsInAll_of_cellOf {std x : DirAttrs} {g : Fact}
    (h : cellOf none g = cellOf (some std) (.ok x)) : DiffersInAll std x := by
  by_cases hne : std = x
  -- a cell of a row without standard is never blank
  · rw [show cellOf (some std) (.ok x) = .blank from if_pos hne] at h
    cases g <;> cases h
  · rw [show cellOf (some std) (.ok x) = .named (std.diff x) from if_neg hne] at h
    cases g with
    | error c => cases h
    | ok y =>
      -- every field of `g` is given, so every field of `x` differs from the standard
      obtain ⟨hmode, howner, htime⟩ := DirFields.mk.inj (Cell.named.inj h)
      refine ⟨fun heq => ?_, fun heq => ?_, fun heq => ?_⟩
      · rw [if_neg (not_not.mpr heq)] at hmode
        cases hmode
      · rw [if_neg (not_not.mpr heq)] at howner
        cases howner
      · rw [if_neg (not_not.mpr heq)] at htime
        cases htime

/-- **Reversible answers are told.** Other answers with the same array say the same. -/
theorem lossless_of_reversible (hnodup : task.centers.Nodup) (hstd : task.stdIdx = k)
    (hlt : k < task.serverInfoArr.length) (hd : dirIdx < dirs) (h : Reversible task v dirIdx) :
    Lossless task v dirIdx := by
  obtain ⟨a, os, hv, hk, hlen, -, -⟩ := v.exists_eq_insert hlt
  obtain ⟨hrep, hmatch⟩ := h
  rw [stdItem_eq hstd hv hk, otherFacts_eq hstd hv] at hmatch
  have hmem : ∀ f, f ∈ facts v dirIdx ↔ f = factAt dirIdx a ∨ f ∈ os.map (factAt dirIdx) :=
    mem_facts_iff hv hk
  -- the array is written
  obtain ⟨json, hjson⟩ :
      ∃ json, stdJson (task.centers.getD k []) (itemAt dirIdx a) = some json := by
    refine exists_stdJson _ fun code hcode => ?_
    have hcode' := hrep _ ((hmem _).mpr (Or.inl rfl))
    rw [factAt_of_itemAt hcode] at hcode'
    exact hcode'
  have hreport := (report_iff hstd hv hk hd).mpr ⟨json, hjson, fun r hr =>
    hrep _ ((hmem _).mpr (Or.inr (List.mem_map_of_mem hr))), rfl⟩
  refine ⟨_, hreport, fun w hw => ?_⟩
  -- the entries of the others are the printed row on both sides
  obtain ⟨b, os', hw', hk', hlen', -, -⟩ := w.exists_eq_insert hlt
  obtain ⟨json', hjson', -, harr⟩ := (report_iff hstd hw' hk' hd).mp hw
  obtain ⟨rfl, hprint⟩ := List.cons.inj harr
  have hprint := List.map_injective_iff.mpr entryJson_injective hprint
  have hfs : (os.map (factAt dirIdx)).length + 1 = task.serverInfoArr.length := by
    rw [List.length_map, hlen]
  have hgs : (os'.map (factAt dirIdx)).length + 1 = task.serverInfoArr.length := by
    rw [List.length_map, hlen']
  rw [facts_eq_insertIdx hv, facts_eq_insertIdx hw']
  rcases stdJson_inj hjson hjson' with ⟨code, hx, hy⟩ | ⟨s, t, hx, hy, hst⟩
  · -- the standard server failed: there are no blank cells
    rw [hx, hy] at hprint
    have hcells := facts_eq_of_print hnodup hlt hfs hgs (isChain_cellOf_none _) hprint
    rw [List.map_injective_iff.mpr (cellOf_injective none) hcells, factAt_of_itemAt hx,
      factAt_of_itemAt hy]
  · rw [hx] at hmatch
    obtain ⟨hscode, ⟨x, hxmem, hdiffers⟩, hchain⟩ := hmatch
    have hview : viewOf (.ok s) = some s.attrs := if_pos hscode
    rw [hx, hy, hview] at hprint
    by_cases htcode : t.fCode = .S_SUCCESS
    · have hview' : viewOf (.ok t) = some s.attrs := (if_pos htcode).trans (congrArg some hst.symm)
      rw [hview'] at hprint
      -- both standards are records, and they are equal
      have hapart : ((os.map (factAt dirIdx)).map (cellOf (some s.attrs))).IsChain Cell.Apart :=
        (List.isChain_map _).mpr (hchain.imp fun f g => (apart_cellOf_iff s.attrs f g).mpr)
      have hcells := facts_eq_of_print hnodup hlt hfs hgs hapart hprint
      have hfact : factAt dirIdx b = factAt dirIdx a := by
        rw [factAt_of_itemAt hx, factAt_of_itemAt hy]
        change FileAttr.fact t = FileAttr.fact s
        rw [FileAttr.fact, if_pos htcode, FileAttr.fact, if_pos hscode, hst]
      rw [List.map_injective_iff.mpr (cellOf_injective _) hcells, hfact]
    · -- without a standard every entry is in full, but that of `x` is not
      have hview' : viewOf (.ok t) = none := if_neg htcode
      rw [hview'] at hprint
      have hcells := facts_eq_of_print hnodup hlt hgs hfs (isChain_cellOf_none _) hprint.symm
      have hxcell : cellOf (some s.attrs) (.ok x) ∈ (os'.map (factAt dirIdx)).map (cellOf none) :=
        hcells ▸ List.mem_map_of_mem hxmem
      obtain ⟨g, -, hg⟩ := List.mem_map.mp hxcell
      exact absurd (differsInAll_of_cellOf hg) hdiffers

/-- Another code of the standard server for the directory is not told when it leaves
the entries of the others as they are. -/
theorem not_lossless_of_code (hstd : task.stdIdx = k) (hv : v.results = os.insertIdx k a)
    (hk : k ≤ os.length) (hlen : os.length + 1 = task.serverInfoArr.length)
    (ha : WellFormed dirs a) (hos : ∀ r ∈ os, WellFormed dirs r) (hd : dirIdx < dirs)
    {s : FileAttr} (hitem : itemAt dirIdx a = .ok s) {code : DcCommonCode}
    (hcode : code ≠ .S_SUCCESS) (hne : code ≠ s.fCode)
    (hcells : (os.map (factAt dirIdx)).map (cellOf s.view) =
      (os.map (factAt dirIdx)).map (cellOf none)) :
    ¬ Lossless task v dirIdx := by
  rintro ⟨arr, harr, hall⟩
  -- the standard server with `code` for the directory, everything else as it is
  obtain ⟨b, hb, hitem'⟩ := exists_itemAt_code ha hd hitem code
  let w : Answers task.serverInfoArr.length dirs := .insert k b os hk hlen hb hos
  have hw : w.results = os.insertIdx k b := rfl
  have hview' : viewOf (itemAt dirIdx b) = none := by
    rw [hitem']
    exact if_neg hcode
  have hview : viewOf (itemAt dirIdx a) = s.view := by rw [hitem]; rfl
  obtain ⟨json, hjson, hrep, rfl⟩ := (report_iff hstd hv hk hd).mp harr
  have hreport : report task w dirIdx = some _ := (report_iff hstd hw hk hd).mpr
    -- `assign_attr_to_json` does not look at the code, so the array is the same
    ⟨json, by rw [hitem'] ; rw [hitem] at hjson; exact hjson, hrep, by
      rw [hview', ← hcells, ← hview]⟩
  have hfact := (facts_inj hv hk hw hk (hall w hreport)).1
  rw [factAt_of_itemAt hitem, factAt_of_itemAt hitem'] at hfact
  change FileAttr.fact { s with fCode := code } = s.fact at hfact
  rw [FileAttr.fact, if_neg hcode, FileAttr.fact] at hfact
  split at hfact
  · cases hfact
  · exact hne (Except.error.inj hfact)

/-- Only reversible answers are told. -/
theorem reversible_of_lossless (hstd : task.stdIdx = k) (hlt : k < task.serverInfoArr.length)
    (hd : dirIdx < dirs) (h : Lossless task v dirIdx) : Reversible task v dirIdx := by
  obtain ⟨a, os, hv, hk, hlen, ha, hos⟩ := v.exists_eq_insert hlt
  obtain ⟨arr, harr, hall⟩ := id h
  obtain ⟨json, hjson, hrep, rfl⟩ := (report_iff hstd hv hk hd).mp harr
  have hmem : ∀ f, f ∈ facts v dirIdx ↔ f = factAt dirIdx a ∨ f ∈ os.map (factAt dirIdx) :=
    mem_facts_iff hv hk
  -- the array was written, so every code of the others has its message
  have hothers : ∀ f ∈ os.map (factAt dirIdx), Reportable f := by
    intro f hf
    obtain ⟨r, hr, rfl⟩ := List.mem_map.mp hf
    exact hrep r hr
  unfold Reversible
  rw [stdItem_eq hstd hv hk, otherFacts_eq hstd hv]
  cases hitem : itemAt dirIdx a with
  | error code =>
    refine ⟨fun f hf => ?_, trivial⟩
    rcases (hmem f).mp hf with rfl | hf
    · rw [factAt_of_itemAt hitem]
      rw [hitem] at hjson
      obtain ⟨msg, hmsg, -⟩ := Option.map_eq_some_iff.mp hjson
      exact fun hnone => by rw [hnone] at hmsg; cases hmsg
    · exact hothers f hf
  | ok s =>
    have hcode : s.fCode = .S_SUCCESS := by
      by_contra hne
      -- any other error of the standard server looks the same
      obtain ⟨code, hcode, hcode'⟩ : ∃ code : DcCommonCode, code ≠ .S_SUCCESS ∧ code ≠ s.fCode := by
        by_cases hretry : s.fCode = .E_RETRY
        · exact ⟨.E_ASSERT, by decide, by rw [hretry]; decide⟩
        · exact ⟨.E_RETRY, by decide, Ne.symm hretry⟩
      refine not_lossless_of_code hstd hv hk hlen ha hos hd hitem hcode hcode' ?_ h
      rw [FileAttr.view, if_neg hne]
    have hview : s.view = some s.attrs := if_pos hcode
    refine ⟨fun f hf => ?_, hcode, ?_, ?_⟩
    · rcases (hmem f).mp hf with rfl | hf
      · rw [factAt_of_itemAt hitem]
        change Reportable s.fact
        rw [FileAttr.fact, if_pos hcode]
        trivial
      · exact hothers f hf
    · by_contra hnone
      -- an error of the standard server looks the same
      have hretry : DcCommonCode.E_RETRY ≠ .S_SUCCESS := by decide
      refine not_lossless_of_code hstd hv hk hlen ha hos hd hitem hretry (by rw [hcode]; decide)
        ?_ h
      refine List.map_congr_left fun f hf => ?_
      rw [hview]
      refine (cellOf_some_eq_none_iff s.attrs f).mpr fun x hx => ?_
      by_contra hdiffers
      exact hnone ⟨x, hx ▸ hf, hdiffers⟩
    · refine (List.isChain_map _).mpr
        (List.isChain_iff_forall_rel_of_append_cons_cons.mpr fun x y l t hsplit => ?_)
      by_contra htell
      -- the neighbours exchange their answers
      have hmem' : ∀ r ∈ l ++ y :: x :: t, WellFormed dirs r := by
        intro r hr
        refine hos r ?_
        rw [hsplit]
        simp only [List.mem_append, List.mem_cons] at hr ⊢
        tauto
      have hlen' : (l ++ y :: x :: t).length = os.length := by
        rw [hsplit]
        simp
      let w : Answers task.serverInfoArr.length dirs :=
        .insert k a (l ++ y :: x :: t) (hlen' ▸ hk) (hlen' ▸ hlen) ha hmem'
      have hw : w.results = (l ++ y :: x :: t).insertIdx k a := rfl
      have hapart : ¬ Cell.Apart (cellOf (some s.attrs) (factAt dirIdx x))
          (cellOf (some s.attrs) (factAt dirIdx y)) :=
        fun hap => htell ((apart_cellOf_iff _ _ _).mp hap)
      have hnames : (task.centers.eraseIdx k).length = os.length := by
        have herase : (task.centers.eraseIdx k).length + 1 = task.serverInfoArr.length :=
          length_erase_centers hlt
        omega
      have hreport : report task w dirIdx = some _ := (report_iff hstd hw (hlen' ▸ hk) hd).mpr
        ⟨json, hjson, fun r hr => hrep r (by
          rw [hsplit]
          simp only [List.mem_append, List.mem_cons] at hr ⊢
          tauto), rfl⟩
      have hprint : Cell.print (task.centers.eraseIdx k)
            (((l ++ y :: x :: t).map (factAt dirIdx)).map (cellOf (viewOf (itemAt dirIdx a)))) =
          Cell.print (task.centers.eraseIdx k)
            ((os.map (factAt dirIdx)).map (cellOf (viewOf (itemAt dirIdx a)))) := by
        have hv' : viewOf (itemAt dirIdx a) = some s.attrs := by rw [hitem]; exact hview
        rw [hv', hsplit]
        simp only [List.map_append, List.map_cons]
        refine Cell.print_swap hapart ?_
        rw [hnames, hsplit]
        simp
      rw [hprint] at hreport
      have hfacts := (facts_inj hv hk hw (hlen' ▸ hk) (hall w hreport)).2
      rw [hsplit, List.map_append, List.map_append] at hfacts
      have hxy := (List.cons.inj (List.append_cancel_left hfacts)).1
      rw [hxy] at hapart
      refine hapart ((apart_cellOf_iff _ _ _).mpr ⟨?_, ?_⟩)
      · rintro ⟨⟨code, hc⟩, hok⟩
        rw [hc] at hok
        cases hok
      · rintro ⟨hok, ⟨code, hc⟩⟩
        rw [hc] at hok
        cases hok

end Main

/-- **Exactly the reversible answers are told.** For any number of servers with distinct
names, any number of directories and any answers: the array of a directory determines
what each server said about it if and only if the answers are reversible. -/
theorem lossless_iff (task : DcApiTask) (hnodup : task.centers.Nodup) (hstd : 0 ≤ task.stdIdx)
    (hlt : task.stdIdx < task.serverInfoArr.length) {dirs : Nat}
    (v : Answers task.serverInfoArr.length dirs) {dirIdx : Nat} (hd : dirIdx < dirs) :
    Lossless task v dirIdx ↔ Reversible task v dirIdx := by
  obtain ⟨k, hk⟩ : ∃ k : Nat, task.stdIdx = k := ⟨task.stdIdx.toNat, by omega⟩
  have hlt' : k < task.serverInfoArr.length := by omega
  exact ⟨reversible_of_lossless hk hlt' hd, lossless_of_reversible hnodup hk hlt' hd⟩

/-! ### Two tasks -/

/-- A server of the tasks below. -/
def sampleServer (center : String) (standard : Bool) : ServerInfo :=
  ⟨ascii center, ascii "h", ascii "u", ascii "p", 8091, standard, [], ascii "/", ascii "."⟩

/-- A task whose standard server is the first one. -/
def sampleTask (others : List String) : DcApiTask :=
  ⟨ascii "t", sampleServer "m1" true :: others.map fun c => sampleServer c false, 0, [], 0, .null⟩

/-- The record of a directory that is owned by `owner`. -/
def sampleAttr (owner : String) : FileAttr :=
  { fMode := ascii "755", fOwner := ascii owner, fLastUpdated := ascii "20240101000000" }

/-- Two servers with different owners: the report tells them. -/
theorem lossless_iff_owners : ∃ v : Answers (sampleTask ["m2"]).serverInfoArr.length 1,
    facts v 0 = [.ok (sampleAttr "a").attrs, .ok (sampleAttr "b").attrs] ∧
      Lossless (sampleTask ["m2"]) v 0 := by
  let v : Answers (sampleTask ["m2"]).serverInfoArr.length 1 :=
    ⟨[.ok [sampleAttr "a"], .ok [sampleAttr "b"]], rfl, by simp [WellFormed, sampleAttr]⟩
  have hfacts : facts v 0 = [.ok (sampleAttr "a").attrs, .ok (sampleAttr "b").attrs] := rfl
  refine ⟨v, hfacts, (lossless_iff (sampleTask ["m2"]) (by decide) (by decide) (by decide) v
    (by decide)).mpr ⟨?_, rfl, ⟨(sampleAttr "b").attrs, ?_, ?_⟩, ?_⟩⟩
  · rw [hfacts]
    intro f hf
    rcases List.mem_cons.mp hf with rfl | hf
    · trivial
    · rw [List.mem_singleton.mp hf]
      trivial
  · exact List.mem_singleton_self _
  · exact fun h => h.1 rfl
  · exact List.isChain_singleton _

/-- Of `m2` and `m3` one fails and the other is equal to the standard: the array is the
same for both cases. -/
theorem not_lossless_neighbours :
    ∃ v w : Answers (sampleTask ["m2", "m3"]).serverInfoArr.length 1,
      (sampleTask ["m2", "m3"]).centers.Nodup ∧
        (report (sampleTask ["m2", "m3"]) v 0).isSome = true ∧
        report (sampleTask ["m2", "m3"]) v 0 = report (sampleTask ["m2", "m3"]) w 0 ∧
        facts v 0 ≠ facts w 0 := by
  refine ⟨⟨[.ok [sampleAttr "a"], .error .E_OS_ENV_OPEN, .ok [sampleAttr "a"]], rfl, ?_⟩,
    ⟨[.ok [sampleAttr "a"], .ok [sampleAttr "a"], .error .E_OS_ENV_OPEN], rfl, ?_⟩,
    by decide, rfl, rfl, ?_⟩
  · simp [WellFormed, sampleAttr]
  · simp [WellFormed, sampleAttr]
  · intro h
    have hsecond := (List.cons.inj (List.cons.inj h).2).1
    cases hsecond

end Wfrest
