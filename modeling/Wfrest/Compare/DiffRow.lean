import Wfrest.Base.Bytes
import Wfrest.Lib.Run
import Mathlib.Data.List.Perm.Subperm

/-!
# The rows of one key

A `dc_diff_row_t` keeps the different rows that the servers have for one key, and for every
server the index of its row. `add_row` looks for a row that is the same; if there is none,
it stores a new one, which shares the columns that are the same with a row that is there.

Both times columns are compared with `strncmp`, which ends at a zero byte, so columns of
equal length that differ behind one are taken for the same. `faithful_iff` says which calls
this does no harm to; columns of text are among them (`always_faithful_of_text`).

* A pointer to a column is the bytes of the column that it points to. The claims on memory
  end with the rows, so no pointer dangles.
* A call that fails an assertion, writes past its memory, or does not return is no step.
-/

namespace Wfrest.DiffRow

/-- The arguments `cols_nr`, `length` and `cols` of a call. A column that is null has length
0. -/
abbrev Cols := List (Option Bytes)

/-- `length[i]` -/
def colLength : Option Bytes → Nat
  | none => 0
  | some bytes => bytes.length

/-- `dc_diff_single_row_t` -/
structure SingleRow where
  rLength : List Nat
  rCols : List (Option Bytes)
  deriving DecidableEq

namespace SingleRow

/-- `r_cols_nr` -/
def rColsNr (r : SingleRow) : Nat := r.rLength.length

/-- The columns with their lengths. -/
def cells (r : SingleRow) : List (Option Bytes × Nat) := r.rCols.zip r.rLength

end SingleRow

/-- `strncmp` -/
def strncmp : Nat → Bytes → Bytes → Int
  | 0, _, _ => 0
  | n + 1, a, b =>
    let x := a.headD 0
    let y := b.headD 0
    if x ≠ y then x.toNat - y.toNat else if x = 0 then 0 else strncmp n a.tail b.tail

/-- `dc_diff_str_cmp`. The lengths are narrowed to `uint32_t`. Equal pointers are equal
columns, so their case is no case of its own. -/
def dcDiffStrCmp (a : Bytes) (alen : Nat) (b : Bytes) (blen : Nat) : Int :=
  let alen := alen % 2 ^ 32
  let blen := blen % 2 ^ 32
  let r := strncmp (min alen blen) a b
  if r = 0 then if alen < blen then -1 else if blen < alen then 1 else 0 else r

/-! ### `is_same` -/

/-- A round of the loop of `is_same`. -/
def cellIsSame (cell : Option Bytes × Nat) (col : Option Bytes) : Bool :=
  match cell.1, col with
  | none, none => true
  | some a, some b => dcDiffStrCmp a cell.2 b b.length = 0
  | _, _ => false

/-- What `is_same` compares. -/
def SingleRow.sameAs (cols : Cols) (r : SingleRow) : Bool :=
  r.rLength = cols.map colLength &&
    (r.cells.zip cols).all fun p => cellIsSame p.1 p.2

/-- `dc_diff_single_row_t::is_same` -/
def SingleRow.isSame (cols : Cols) (r : SingleRow) : Option Bool :=
  if 0 < cols.length ∧ r.rColsNr = cols.length then some (r.sameAs cols) else none

/-! ### `build` -/

/-- The size of a row with `bytes` bytes of columns: two arrays in front of them. -/
def rowSize (cols : Cols) (bytes : Nat) : Nat := cols.length * 8 + cols.length * 8 + bytes

/-- The first `build`. `mem_bytes` is a `uint32_t`, and the row must fit into so many bytes. -/
def build (cols : Cols) : Option SingleRow :=
  let size := rowSize cols (cols.map colLength).sum
  if 0 < cols.length ∧ size ≤ size % 2 ^ 32 then some ⟨cols.map colLength, cols⟩ else none

/-- `col_is_same[i]` -/
def colIsSame (cell : Option Bytes × Nat) (col : Option Bytes) : Bool :=
  match cell.1, col with
  | some a, some b => dcDiffStrCmp b b.length a cell.2 = 0
  | _, _ => false

/-- The bytes of the columns that are not shared. -/
def ownBytes (row : SingleRow) (cols : Cols) : Nat :=
  (List.zipWith (fun cell col => if colIsSame cell col then 0 else colLength col)
    row.cells cols).sum

/-- The second `build`. `mem_bytes` is an `int`; for a negative one there is no memory. -/
def buildFrom (row : SingleRow) (cols : Cols) : Option SingleRow :=
  let size := rowSize cols (ownBytes row cols)
  if 0 < cols.length ∧ cols.length = row.rColsNr ∧ 0 ≤ toInt size ∧ (size : Int) ≤ toInt size then
    some ⟨cols.map colLength,
      List.zipWith (fun cell col => if colIsSame cell col then cell.1 else col) row.cells cols⟩
  else none

/-! ### `add_row` -/

/-- The part of a `dc_api_task_t` that a row reads. -/
structure RowTask where
  /-- The size of `t_server_info_arr`. -/
  servers : Nat
  tStdIdx : Nat
  stdIdx_lt : tStdIdx < servers
  servers_lt : servers < 2 ^ 31

/-- `dc_diff_row_t` -/
structure Rows where
  rRows : List SingleRow
  rIdxs : List Int
  deriving DecidableEq

/-- `all_rows_are_same` -/
def Rows.allRowsAreSame (s : Rows) : Bool := s.rRows.length = 1

/-- The loop of `find_same_row` from the row `i` on, a `uint32_t`. -/
def findSameRowFrom (cols : Cols) (i : Nat) : List SingleRow → Option Int
  | [] => some (-1)
  | r :: rows =>
    match r.isSame cols with
    | none => none
    | some true => some (toInt i)
    -- behind the last `uint32_t` the loop begins again
    | some false => if i + 1 = 2 ^ 32 then none else findSameRowFrom cols (i + 1) rows

/-- `find_same_row` -/
def Rows.findSameRow (s : Rows) (cols : Cols) : Option Int := findSameRowFrom cols 0 s.rRows

variable (task : RowTask)

/-- The row that a new one is built from. -/
def Rows.stdRow (s : Rows) : Option SingleRow :=
  s.rIdxs[task.tStdIdx]?.bind fun stdRowIdx =>
    if stdRowIdx = -1 then s.rRows[0]?
    else if 0 ≤ stdRowIdx then s.rRows[stdRowIdx.toNat]? else none

/-- The new row. -/
def Rows.newRow (s : Rows) (cols : Cols) : Option SingleRow :=
  if s.rRows = [] then build cols
  else if s.rIdxs.length = task.servers then
    (s.stdRow task).bind fun row => buildFrom row cols
  else none

/-- `dc_diff_row_t::add_row` -/
def Rows.addRow (s : Rows) (idx : Nat) (cols : Cols) : Option Rows :=
  if idx < task.servers ∧ idx < s.rIdxs.length then
    (s.findSameRow cols).bind fun sameRowIndex =>
      if sameRowIndex ≠ -1 then some { s with rIdxs := s.rIdxs.set idx sameRowIndex }
      else
        (s.newRow task cols).map fun curRow =>
          { rRows := s.rRows ++ [curRow], rIdxs := s.rIdxs.set idx (toInt s.rRows.length) }
  else none

/-- A call of `add_row`. -/
structure AddRow where
  idx : Nat
  cols : Cols

/-- The calls on a row of `task.servers` servers. -/
def machine : Machine Rows AddRow Unit where
  init := ⟨[], List.replicate task.servers (-1)⟩
  step s e := (s.addRow task e.idx e.cols).map fun s' => (s', ())

/-! ### What is promised -/

/-- The row that has the lengths, the nulls and the bytes of some columns. -/
def ofCols (cols : Cols) : SingleRow := ⟨cols.map colLength, cols⟩

/-- What was last added for a server. -/
def lastAdded (h : List (AddRow × Unit)) (i : Nat) : Option Cols :=
  (h.filter fun x => x.1.idx = i).getLast?.map fun x => x.1.cols

/-- The index of a server is -1, or that of the row that was last added for it. -/
def IndexOf (h : List (AddRow × Unit)) (s : Rows) (i : Nat) (k : Int) : Prop :=
  (k = -1 ∧ lastAdded h i = none) ∨
    ∃ n : Nat, ∃ cols, k = n ∧ lastAdded h i = some cols ∧ s.rRows[n]? = some (ofCols cols)

/-- **The rows are faithful** to the calls. -/
structure Faithful (h : List (AddRow × Unit)) (s : Rows) : Prop where
  length_idxs : s.rIdxs.length = task.servers
  index : ∀ i k, s.rIdxs[i]? = some k → IndexOf h s i k
  nodup : s.rRows.Nodup
  all_same : s.allRowsAreSame = true ↔ ∀ x ∈ h, ∀ y ∈ h, x.1.cols = y.1.cols

/-- **Where the comparison is exact enough.** The row that is found has the columns that are
added. If none is found, the columns that are taken from another row are the ones that are
added, and an `int` can hold the new index. -/
def Rows.Exact (s : Rows) (cols : Cols) : Prop :=
  match s.rRows.find? (SingleRow.sameAs cols) with
  | some r => r.rCols = cols
  | none =>
    s.rRows.length < 2 ^ 31 ∧
      ∀ row ∈ s.stdRow task, ∀ p ∈ row.cells.zip cols,
        colIsSame p.1 p.2 = true → p.1.1 = p.2

/-- There is memory for the row, if it is a new one. -/
def Rows.Fits (s : Rows) (cols : Cols) : Prop :=
  (s.rRows.find? (SingleRow.sameAs cols)).isSome ∨
    (s.rRows = [] → rowSize cols (cols.map colLength).sum < 2 ^ 32) ∧
      ∀ row ∈ s.stdRow task, rowSize cols (ownBytes row cols) < 2 ^ 31

/-! ### The comparison -/

theorem strncmp_self (n : Nat) (a : Bytes) : strncmp n a a = 0 := by
  induction n generalizing a with
  | zero => rfl
  | succ n ih => simp [strncmp, ih]

theorem dcDiffStrCmp_self (a : Bytes) (n : Nat) : dcDiffStrCmp a n a n = 0 := by
  simp [dcDiffStrCmp, strncmp_self]

theorem cellIsSame_self (col : Option Bytes) : cellIsSame (col, colLength col) col = true := by
  cases col with
  | none => rfl
  | some bytes => simp [cellIsSame, colLength, dcDiffStrCmp_self]

theorem cells_ofCols (cols : Cols) :
    (ofCols cols).cells = cols.map fun col => (col, colLength col) := by
  have hzip := List.zip_map' (f := id) (g := colLength) (l := cols)
  rw [List.map_id] at hzip
  exact hzip

/-- A row is the same as itself. -/
theorem sameAs_ofCols (cols : Cols) : (ofCols cols).sameAs cols = true := by
  have hzip : (ofCols cols).cells.zip cols =
      cols.map fun col => ((col, colLength col), col) := by
    have hzip := List.zip_map' (f := fun col => (col, colLength col)) (g := id) (l := cols)
    rw [List.map_id] at hzip
    rw [cells_ofCols, hzip]
    rfl
  have hcells : (((ofCols cols).cells.zip cols).all fun p => cellIsSame p.1 p.2) = true := by
    refine List.all_eq_true.mpr fun p hp => ?_
    rw [hzip] at hp
    obtain ⟨col, -, rfl⟩ := List.mem_map.mp hp
    exact cellIsSame_self col
  rw [SingleRow.sameAs, hcells]
  simp [ofCols]

theorem ofCols_injective : Function.Injective ofCols := fun _ _ h => congrArg SingleRow.rCols h

/-- What is found has the lengths; so it is the row as soon as it has the bytes. -/
theorem eq_ofCols_iff {r : SingleRow} {cols : Cols} (h : r.sameAs cols = true) :
    r = ofCols cols ↔ r.rCols = cols := by
  rw [SingleRow.sameAs, Bool.and_eq_true, decide_eq_true_iff] at h
  obtain ⟨rLength, rCols⟩ := r
  simp only [ofCols, SingleRow.mk.injEq]
  exact and_iff_right h.1

/-! ### The search -/

private theorem exists_of_findIdx? {p : SingleRow → Bool} {rows : List SingleRow} {j : Nat}
    (h : rows.findIdx? p = some j) : ∃ r, rows[j]? = some r ∧ rows.find? p = some r := by
  obtain ⟨hlt, -⟩ := List.findIdx?_eq_some_iff_getElem.mp h
  refine ⟨rows[j], List.getElem?_eq_getElem hlt, ?_⟩
  rw [List.find?_eq_bind_findIdx?_getElem?, h]
  exact List.getElem?_eq_getElem hlt

theorem isSame_eq {cols : Cols} {r : SingleRow} (hpos : 0 < cols.length)
    (hnr : r.rColsNr = cols.length) : r.isSame cols = some (r.sameAs cols) :=
  if_pos ⟨hpos, hnr⟩

/-- The search in rows of the same number of columns, as long as an `int` can hold the
indices. -/
theorem findSameRowFrom_eq {cols : Cols} (hpos : 0 < cols.length) {rows : List SingleRow}
    (hnr : ∀ r ∈ rows, r.rColsNr = cols.length) {i : Nat} (hle : i + rows.length ≤ 2 ^ 31) :
    findSameRowFrom cols i rows =
      some (match rows.findIdx? (SingleRow.sameAs cols) with
        | some j => ((i + j : Nat) : Int)
        | none => -1) := by
  induction rows generalizing i with
  | nil => rfl
  | cons r rows ih =>
    rw [List.forall_mem_cons] at hnr
    rw [List.length_cons] at hle
    rw [findSameRowFrom, isSame_eq hpos hnr.1, List.findIdx?_cons]
    cases hsame : r.sameAs cols with
    | true =>
      simp only [if_true, Nat.add_zero]
      rw [toInt_of_lt (by omega)]
    | false =>
      have hne : ¬ i + 1 = 2 ^ 32 := by omega
      simp only [hne, if_false, Bool.false_eq_true]
      rw [ih hnr.2 (by omega)]
      cases rows.findIdx? (SingleRow.sameAs cols) with
      | none => rfl
      | some j => simp [Nat.add_assoc, Nat.add_comm 1 j]

/-- A search that ends has looked at the first row. -/
theorem colsNr_of_findSameRow {cols : Cols} {i : Nat} {r : SingleRow} {rows : List SingleRow}
    {k : Int} (h : findSameRowFrom cols i (r :: rows) = some k) :
    0 < cols.length ∧ r.rColsNr = cols.length := by
  by_contra hnot
  rw [findSameRowFrom, SingleRow.isSame, if_neg hnot] at h
  cases h

/-! ### The new row -/

/-- A row that is built has the columns that are added, unless a shared one differs. -/
theorem zipWith_shared_eq_iff {row : SingleRow} {cols : Cols}
    (hlen : row.cells.length = cols.length) :
    List.zipWith (fun cell col => if colIsSame cell col then cell.1 else col) row.cells cols =
        cols ↔
      ∀ p ∈ row.cells.zip cols, colIsSame p.1 p.2 = true → p.1.1 = p.2 := by
  generalize row.cells = cells at hlen ⊢
  induction cells generalizing cols with
  | nil =>
    obtain rfl : cols = [] := List.eq_nil_of_length_eq_zero hlen.symm
    simp
  | cons cell cells ih =>
    cases cols with
    | nil => cases hlen
    | cons col cols =>
      rw [List.zipWith_cons_cons, List.zip_cons_cons, List.forall_mem_cons, List.cons.injEq,
        ih (Nat.succ.inj hlen)]
      refine and_congr_left fun _ => ?_
      split_ifs with hsame
      · exact ⟨fun h _ => h, fun h => h hsame⟩
      · exact iff_of_true rfl fun h => absurd h hsame

theorem build_eq_some {cols : Cols} {cur : SingleRow} (h : build cols = some cur) :
    0 < cols.length ∧ cur = ofCols cols := by
  unfold build at h
  simp only [Option.ite_none_right_eq_some, Option.some.injEq] at h
  exact ⟨h.1.1, h.2.symm⟩

theorem buildFrom_eq_some {row : SingleRow} {cols : Cols} {cur : SingleRow}
    (h : buildFrom row cols = some cur) :
    cur = ⟨cols.map colLength,
      List.zipWith (fun cell col => if colIsSame cell col then cell.1 else col) row.cells
        cols⟩ := by
  unfold buildFrom at h
  simp only [Option.ite_none_right_eq_some, Option.some.injEq] at h
  exact h.2.symm

/-! ### The invariant -/

variable {task}

/-- **The invariant**: the rows are those that were added, each once. -/
structure Inv (task : RowTask) (h : List (AddRow × Unit)) (s : Rows) : Prop where
  length_idxs : s.rIdxs.length = task.servers
  index : ∀ i k, s.rIdxs[i]? = some k → IndexOf h s i k
  nodup : s.rRows.Nodup
  mem_iff : ∀ r, r ∈ s.rRows ↔ ∃ x ∈ h, r = ofCols x.1.cols
  length_rows : s.rRows.length ≤ 2 ^ 31
  colsNr : ∀ x ∈ h, ∀ y ∈ h, x.1.cols.length = y.1.cols.length

theorem inv_init : Inv task [] (machine task).init where
  length_idxs := List.length_replicate
  index i k hk := by
    exact Or.inl ⟨List.eq_of_mem_replicate (List.mem_of_getElem? hk), rfl⟩
  nodup := List.nodup_nil
  mem_iff r := by simp [machine]
  length_rows := Nat.zero_le _
  colsNr := nofun

section
variable {h : List (AddRow × Unit)} {s : Rows}

/-- The rows are equal exactly if the calls were. -/
theorem Inv.all_same (hinv : Inv task h s) (hne : h ≠ []) :
    s.allRowsAreSame = true ↔ ∀ x ∈ h, ∀ y ∈ h, x.1.cols = y.1.cols := by
  have hmem : ∀ x ∈ h, ofCols x.1.cols ∈ s.rRows := fun x hx => (hinv.mem_iff _).mpr ⟨x, hx, rfl⟩
  rw [Rows.allRowsAreSame, decide_eq_true_iff]
  constructor
  · intro hone x hx y hy
    obtain ⟨r, hr⟩ := List.length_eq_one_iff.mp hone
    have hxr := hmem x hx
    have hyr := hmem y hy
    rw [hr, List.mem_singleton] at hxr hyr
    exact ofCols_injective (hxr.trans hyr.symm)
  · intro hall
    obtain ⟨x, hx⟩ := List.exists_mem_of_ne_nil h hne
    have honly : ∀ r ∈ s.rRows, r = ofCols x.1.cols := by
      intro r hr
      obtain ⟨y, hy, rfl⟩ := (hinv.mem_iff r).mp hr
      rw [hall y hy x hx]
    have hnodup := hinv.nodup
    rw [List.eq_replicate_of_mem honly, List.nodup_replicate] at hnodup
    exact le_antisymm hnodup (List.length_pos_of_mem (hmem x hx))

theorem Inv.faithful (hinv : Inv task h s) (hne : h ≠ []) : Faithful task h s :=
  ⟨hinv.length_idxs, hinv.index, hinv.nodup, hinv.all_same hne⟩

/-- The rows have the number of columns of every call. -/
theorem Inv.colsNr_eq (hinv : Inv task h s) {r : SingleRow} (hr : r ∈ s.rRows)
    {x : AddRow × Unit} (hx : x ∈ h) : r.rColsNr = x.1.cols.length := by
  obtain ⟨y, hy, rfl⟩ := (hinv.mem_iff r).mp hr
  have hlen : (ofCols y.1.cols).rColsNr = y.1.cols.length := List.length_map _
  rw [hlen, hinv.colsNr y hy x hx]

/-- Before the first row the standard server has none. -/
theorem Inv.stdRow_eq_none (hinv : Inv task h s) (hrows : s.rRows = []) :
    s.stdRow task = none := by
  have hlt : task.tStdIdx < s.rIdxs.length := hinv.length_idxs ▸ task.stdIdx_lt
  have hk := List.getElem?_eq_getElem hlt
  rw [Rows.stdRow, hk]
  obtain ⟨hminus, -⟩ | ⟨n, cols, -, -, hn⟩ := hinv.index _ _ hk
  · rw [Option.bind_some, hminus, hrows]
    rfl
  · rw [hrows] at hn
    cases hn

/-- There is a row to build from as soon as there is a row. -/
theorem Inv.exists_stdRow (hinv : Inv task h s) (hrows : s.rRows ≠ []) :
    ∃ row ∈ s.rRows, s.stdRow task = some row := by
  have hlt : task.tStdIdx < s.rIdxs.length := hinv.length_idxs ▸ task.stdIdx_lt
  have hk := List.getElem?_eq_getElem hlt
  rw [Rows.stdRow, hk, Option.bind_some]
  obtain ⟨hminus, -⟩ | ⟨n, cols, hn, -, hrow⟩ := hinv.index _ _ hk
  · obtain ⟨row, rows, heq⟩ := List.exists_cons_of_ne_nil hrows
    rw [if_pos hminus, heq]
    exact ⟨row, List.mem_cons_self, rfl⟩
  · have hne : ¬ (n : Int) = -1 := by omega
    rw [hn, if_neg hne, if_pos (Int.natCast_nonneg n), Int.toNat_natCast]
    exact ⟨_, List.mem_of_getElem? hrow, hrow⟩

/-- The search finds the first row that is the same. -/
theorem Inv.findSameRow_eq (hinv : Inv task h s) {cols : Cols} (hpos : 0 < cols.length)
    (hnr : ∀ r ∈ s.rRows, r.rColsNr = cols.length) :
    s.findSameRow cols =
      some (match s.rRows.findIdx? (SingleRow.sameAs cols) with
        | some j => (j : Int)
        | none => -1) := by
  rw [Rows.findSameRow, findSameRowFrom_eq hpos hnr (by rw [Nat.zero_add]; exact hinv.length_rows)]
  simp only [Nat.zero_add]

/-- All rows have the same number of columns. -/
theorem Inv.colsNr_of_mem (hinv : Inv task h s) {r r' : SingleRow} (hr : r ∈ s.rRows)
    (hr' : r' ∈ s.rRows) : r'.rColsNr = r.rColsNr := by
  obtain ⟨x, hx, -⟩ := (hinv.mem_iff r).mp hr
  rw [hinv.colsNr_eq hr hx, hinv.colsNr_eq hr' hx]

/-- **What a call does.** -/
theorem Inv.addRow_cases (hinv : Inv task h s) {e : AddRow} {s' : Rows}
    (hstep : s.addRow task e.idx e.cols = some s') :
    e.idx < task.servers ∧ 0 < e.cols.length ∧ (∀ r ∈ s.rRows, r.rColsNr = e.cols.length) ∧
      ((∃ (j : Nat) (r : SingleRow), s.rRows[j]? = some r ∧
          s.rRows.find? (SingleRow.sameAs e.cols) = some r ∧
          s' = { s with rIdxs := s.rIdxs.set e.idx j }) ∨
        s.rRows.find? (SingleRow.sameAs e.cols) = none ∧
          ∃ cur, s.newRow task e.cols = some cur ∧
            s' = ⟨s.rRows ++ [cur], s.rIdxs.set e.idx (toInt s.rRows.length)⟩) := by
  unfold Rows.addRow at hstep
  split at hstep
  next hidx =>
    obtain ⟨k, hfind, hstep⟩ := Option.bind_eq_some_iff.mp hstep
    -- the assertions about the columns, in the search or, before the first row, in `build`
    have hcols : 0 < e.cols.length ∧ ∀ r ∈ s.rRows, r.rColsNr = e.cols.length := by
      cases hrows : s.rRows with
      | nil =>
        rw [Rows.findSameRow, hrows, findSameRowFrom] at hfind
        obtain rfl := Option.some.inj hfind
        obtain ⟨cur, hcur, -⟩ := Option.map_eq_some_iff.mp hstep
        rw [Rows.newRow, if_pos hrows] at hcur
        exact ⟨(build_eq_some hcur).1, nofun⟩
      | cons r rows =>
        rw [Rows.findSameRow, hrows] at hfind
        obtain ⟨hpos, hnr⟩ := colsNr_of_findSameRow hfind
        have hr : r ∈ s.rRows := hrows ▸ List.mem_cons_self
        refine ⟨hpos, fun r' hr' => ?_⟩
        rw [hinv.colsNr_of_mem hr (hrows ▸ hr'), hnr]
    refine ⟨hidx.1, hcols.1, hcols.2, ?_⟩
    rw [hinv.findSameRow_eq hcols.1 hcols.2] at hfind
    obtain rfl := Option.some.inj hfind
    cases hidx? : s.rRows.findIdx? (SingleRow.sameAs e.cols) with
    | some j =>
      obtain ⟨r, hj, hr⟩ := exists_of_findIdx? hidx?
      have hne : (j : Int) ≠ -1 := by omega
      simp only [hidx?, if_pos hne, Option.some.injEq] at hstep
      exact Or.inl ⟨j, r, hj, hr, hstep.symm⟩
    | none =>
      simp only [hidx?, ne_eq, not_true_eq_false, if_false] at hstep
      obtain ⟨cur, hcur, rfl⟩ := Option.map_eq_some_iff.mp hstep
      exact Or.inr ⟨List.find?_eq_none.mpr (by simpa using List.findIdx?_eq_none_iff.mp hidx?),
        cur, hcur, rfl⟩
  next => cases hstep

/-- A new row has what is added, unless a shared column differs. -/
theorem Inv.newRow_eq_iff (hinv : Inv task h s) {cols : Cols}
    (hnr : ∀ r ∈ s.rRows, r.rColsNr = cols.length) {cur : SingleRow}
    (hcur : s.newRow task cols = some cur) :
    cur = ofCols cols ↔
      ∀ row ∈ s.stdRow task, ∀ p ∈ row.cells.zip cols, colIsSame p.1 p.2 = true → p.1.1 = p.2 := by
  unfold Rows.newRow at hcur
  split_ifs at hcur with hrows hlen
  · rw [hinv.stdRow_eq_none hrows]
    exact iff_of_true (build_eq_some hcur).2 nofun
  · obtain ⟨row, hrow, hstd⟩ := hinv.exists_stdRow hrows
    rw [hstd, Option.bind_some] at hcur
    have hcells : row.cells.length = cols.length := by
      obtain ⟨x, hx, rfl⟩ := (hinv.mem_iff row).mp hrow
      rw [cells_ofCols, List.length_map, ← hnr _ hrow]
      exact (List.length_map _).symm
    rw [hstd, buildFrom_eq_some hcur]
    simp only [ofCols, SingleRow.mk.injEq, true_and, zipWith_shared_eq_iff hcells,
      Option.mem_def, Option.some.injEq, forall_eq']

theorem lastAdded_concat (h : List (AddRow × Unit)) (e : AddRow) (o : Unit) (i : Nat) :
    lastAdded (h ++ [(e, o)]) i = if e.idx = i then some e.cols else lastAdded h i := by
  unfold lastAdded
  rw [List.filter_append]
  split_ifs with hi
  · simp [hi]
  · simp [hi]

/-- The other servers keep their rows. -/
theorem IndexOf.concat {i : Nat} {k : Int} (hindex : IndexOf h s i k) {e : AddRow} {o : Unit}
    (hne : e.idx ≠ i) {s' : Rows} (hrows : s.rRows <+: s'.rRows) :
    IndexOf (h ++ [(e, o)]) s' i k := by
  unfold IndexOf
  rw [lastAdded_concat, if_neg hne]
  obtain hnone | ⟨n, cols, hk, hlast, hn⟩ := hindex
  · exact Or.inl hnone
  · obtain ⟨rest, hrest⟩ := hrows
    refine Or.inr ⟨n, cols, hk, hlast, ?_⟩
    rw [← hrest, List.getElem?_append_left (List.getElem?_eq_some_iff.mp hn).1, hn]

/-- The server of the call has its row. -/
theorem IndexOf.self {e : AddRow} {o : Unit} {s' : Rows} {n : Nat}
    (hn : s'.rRows[n]? = some (ofCols e.cols)) : IndexOf (h ++ [(e, o)]) s' e.idx n := by
  refine Or.inr ⟨n, e.cols, rfl, ?_, hn⟩
  rw [lastAdded_concat, if_pos rfl]

/-- The indices after a call. -/
theorem Inv.index_set (hinv : Inv task h s) {e : AddRow} {o : Unit} {s' : Rows} {n : Nat}
    (hrows : s.rRows <+: s'.rRows) (hidxs : s'.rIdxs = s.rIdxs.set e.idx n)
    (hn : s'.rRows[n]? = some (ofCols e.cols)) (i : Nat) (k : Int)
    (hk : s'.rIdxs[i]? = some k) : IndexOf (h ++ [(e, o)]) s' i k := by
  rw [hidxs, List.getElem?_set] at hk
  split_ifs at hk with hi hlt
  · obtain rfl := hi
    obtain rfl := Option.some.inj hk
    exact IndexOf.self hn
  · exact (hinv.index i k hk).concat hi hrows

theorem Inv.colsNr_concat (hinv : Inv task h s) {e : AddRow} {o : Unit}
    (hnr : ∀ r ∈ s.rRows, r.rColsNr = e.cols.length) :
    ∀ x ∈ h ++ [(e, o)], ∀ y ∈ h ++ [(e, o)], x.1.cols.length = y.1.cols.length := by
  have heq : ∀ x ∈ h ++ [(e, o)], x.1.cols.length = e.cols.length := by
    intro x hx
    rcases List.mem_append.mp hx with hx | hx
    · rw [← hnr _ ((hinv.mem_iff _).mpr ⟨x, hx, rfl⟩)]
      exact (List.length_map _).symm
    · rw [List.mem_singleton.mp hx]
  intro x hx y hy
  rw [heq x hx, heq y hy]

/-- **An exact call keeps the invariant.** -/
theorem Inv.step (hinv : Inv task h s) {e : AddRow} {s' : Rows}
    (hstep : s.addRow task e.idx e.cols = some s') (hexact : s.Exact task e.cols) (o : Unit) :
    Inv task (h ++ [(e, o)]) s' := by
  obtain ⟨-, -, hnr, hcases⟩ := hinv.addRow_cases hstep
  unfold Rows.Exact at hexact
  obtain ⟨j, r, hj, hfind, rfl⟩ | ⟨hfind, cur, hcur, rfl⟩ := hcases
  · rw [hfind] at hexact
    have hr : r = ofCols e.cols := (eq_ofCols_iff (List.find?_some hfind)).mpr hexact
    refine ⟨?_, ?_, hinv.nodup, fun r' => ?_, hinv.length_rows, hinv.colsNr_concat hnr⟩
    · exact (List.length_set ..).trans hinv.length_idxs
    · exact hinv.index_set (List.prefix_refl _) rfl (hr ▸ hj)
    · rw [hinv.mem_iff]
      constructor
      · rintro ⟨x, hx, hxr⟩
        exact ⟨x, List.mem_append_left _ hx, hxr⟩
      · rintro ⟨x, hx, hxr⟩
        rcases List.mem_append.mp hx with hx | hx
        · exact ⟨x, hx, hxr⟩
        · -- the row of the call was there
          rw [List.mem_singleton.mp hx, ← hr] at hxr
          rw [hxr]
          exact (hinv.mem_iff r).mp (List.mem_of_getElem? hj)
  · rw [hfind] at hexact
    obtain ⟨hlt, hshared⟩ := hexact
    obtain rfl := (hinv.newRow_eq_iff hnr hcur).mpr hshared
    have hnew : ofCols e.cols ∉ s.rRows := fun hmem =>
      List.find?_eq_none.mp hfind _ hmem (sameAs_ofCols e.cols)
    refine ⟨?_, ?_, ?_, fun r' => ?_, ?_, hinv.colsNr_concat hnr⟩
    · exact (List.length_set ..).trans hinv.length_idxs
    · refine hinv.index_set (List.prefix_append _ _) ?_ (List.getElem?_concat_length ..)
      rw [toInt_of_lt hlt]
    · refine List.nodup_append.mpr ⟨hinv.nodup, by simp, fun a ha b hb hab => hnew ?_⟩
      rw [← List.mem_singleton.mp hb, ← hab]
      exact ha
    · rw [List.mem_append, List.mem_singleton, hinv.mem_iff]
      constructor
      · rintro (⟨x, hx, hxr⟩ | rfl)
        · exact ⟨x, List.mem_append_left _ hx, hxr⟩
        · exact ⟨(e, o), List.mem_append_right _ List.mem_cons_self, rfl⟩
      · rintro ⟨x, hx, hxr⟩
        rcases List.mem_append.mp hx with hx | hx
        · exact Or.inl ⟨x, hx, hxr⟩
        · exact Or.inr (by rw [hxr, List.mem_singleton.mp hx])
    · rw [List.length_append]
      exact hlt

/-- What a call leaves for its server. -/
theorem Faithful.of_set {e : AddRow} {o : Unit} {s' : Rows}
    (hfaithful : Faithful task (h ++ [(e, o)]) s') {k : Int}
    (hk : s'.rIdxs[e.idx]? = some k) :
    ∃ n : Nat, k = n ∧ s'.rRows[n]? = some (ofCols e.cols) := by
  have hindex := hfaithful.index e.idx k hk
  rw [IndexOf, lastAdded_concat, if_pos rfl] at hindex
  obtain ⟨-, hnone⟩ | ⟨n, cols, hkn, hcols, hn⟩ := hindex
  · cases hnone
  · obtain rfl := Option.some.inj hcols
    exact ⟨n, hkn, hn⟩

/-- **Only exact calls are faithful.** -/
theorem Inv.exact_of_faithful (hinv : Inv task h s) {e : AddRow} {s' : Rows}
    (hstep : s.addRow task e.idx e.cols = some s') {o : Unit}
    (hfaithful : Faithful task (h ++ [(e, o)]) s') : s.Exact task e.cols := by
  obtain ⟨hidx, -, hnr, hcases⟩ := hinv.addRow_cases hstep
  have hlt : e.idx < s.rIdxs.length := hinv.length_idxs ▸ hidx
  unfold Rows.Exact
  obtain ⟨j, r, hj, hfind, rfl⟩ | ⟨hfind, cur, hcur, rfl⟩ := hcases
  · obtain ⟨n, hjn, hn⟩ := hfaithful.of_set (List.getElem?_set_self hlt)
    obtain rfl : j = n := by omega
    rw [hfind]
    change s.rRows[j]? = _ at hn
    rw [hj] at hn
    exact (eq_ofCols_iff (List.find?_some hfind)).mp (Option.some.inj hn)
  · obtain ⟨n, hlen, hn⟩ := hfaithful.of_set (List.getElem?_set_self hlt)
    rw [hfind]
    -- no row in front of the new one is the one that is added
    have hnew : ofCols e.cols ∉ s.rRows := fun hmem =>
      List.find?_eq_none.mp hfind _ hmem (sameAs_ofCols e.cols)
    have hn' : n = s.rRows.length := by
      by_contra hne
      change (s.rRows ++ [cur])[n]? = _ at hn
      obtain ⟨hle, -⟩ := List.getElem?_eq_some_iff.mp hn
      rw [List.length_append, List.length_singleton] at hle
      rw [List.getElem?_append_left (by omega)] at hn
      exact hnew (List.mem_of_getElem? hn)
    subst hn'
    obtain ⟨-, -, -, hbound⟩ := toInt_spec s.rRows.length
    refine ⟨by omega, (hinv.newRow_eq_iff hnr hcur).mp ?_⟩
    change (s.rRows ++ [cur])[s.rRows.length]? = _ at hn
    rw [List.getElem?_concat_length] at hn
    exact Option.some.inj hn

/-! ### The calls that return -/

omit task in
theorem isSome_build_iff {cols : Cols} (hpos : 0 < cols.length) :
    (∃ cur, build cols = some cur) ↔ rowSize cols (cols.map colLength).sum < 2 ^ 32 := by
  generalize hsize : rowSize cols (cols.map colLength).sum = size
  have hfits : size ≤ size % 2 ^ 32 ↔ size < 2 ^ 32 := by omega
  unfold build
  simpa [hsize, hpos] using hfits

theorem isSome_buildFrom_iff {row : SingleRow} {cols : Cols} (hpos : 0 < cols.length)
    (hnr : row.rColsNr = cols.length) :
    (∃ cur, buildFrom row cols = some cur) ↔ rowSize cols (ownBytes row cols) < 2 ^ 31 := by
  generalize hsize : rowSize cols (ownBytes row cols) = size
  obtain ⟨q, hq, hlow, hhigh⟩ := toInt_spec size
  have hfits : (0 ≤ toInt size ∧ (size : Int) ≤ toInt size) ↔ size < 2 ^ 31 := by
    constructor
    · omega
    · intro hlt
      rw [toInt_of_lt hlt]
      omega
  unfold buildFrom
  simp [hsize, hpos, hnr, hfits]

theorem Inv.isSome_newRow_iff (hinv : Inv task h s) {cols : Cols} (hpos : 0 < cols.length)
    (hnr : ∀ r ∈ s.rRows, r.rColsNr = cols.length) :
    (∃ cur, s.newRow task cols = some cur) ↔
      (s.rRows = [] → rowSize cols (cols.map colLength).sum < 2 ^ 32) ∧
        ∀ row ∈ s.stdRow task, rowSize cols (ownBytes row cols) < 2 ^ 31 := by
  unfold Rows.newRow
  by_cases hrows : s.rRows = []
  · rw [if_pos hrows, isSome_build_iff hpos, hinv.stdRow_eq_none hrows]
    simp [hrows]
  · obtain ⟨row, hrow, hstd⟩ := hinv.exists_stdRow hrows
    rw [if_neg hrows, if_pos hinv.length_idxs, hstd, Option.bind_some,
      isSome_buildFrom_iff hpos (hnr row hrow)]
    simp [hrows]

/-- **Which calls return.** -/
theorem Inv.isSome_addRow_iff (hinv : Inv task h s) (e : AddRow) :
    (∃ s', s.addRow task e.idx e.cols = some s') ↔
      e.idx < task.servers ∧ 0 < e.cols.length ∧
        (∀ x ∈ h, x.1.cols.length = e.cols.length) ∧ s.Fits task e.cols := by
  constructor
  · rintro ⟨s', hstep⟩
    obtain ⟨hidx, hpos, hnr, hcases⟩ := hinv.addRow_cases hstep
    refine ⟨hidx, hpos, fun x hx => ?_, ?_⟩
    · rw [← hnr _ ((hinv.mem_iff _).mpr ⟨x, hx, rfl⟩)]
      exact (List.length_map _).symm
    · obtain ⟨j, r, -, hfind, -⟩ | ⟨-, cur, hcur, -⟩ := hcases
      · exact Or.inl (by rw [hfind]; rfl)
      · exact Or.inr ((hinv.isSome_newRow_iff hpos hnr).mp ⟨cur, hcur⟩)
  · rintro ⟨hidx, hpos, hcols, hfits⟩
    have hnr : ∀ r ∈ s.rRows, r.rColsNr = e.cols.length := by
      intro r hr
      obtain ⟨x, hx, -⟩ := (hinv.mem_iff r).mp hr
      rw [hinv.colsNr_eq hr hx, hcols x hx]
    unfold Rows.addRow
    rw [if_pos ⟨hidx, hinv.length_idxs ▸ hidx⟩, hinv.findSameRow_eq hpos hnr, Option.bind_some]
    cases hidx? : s.rRows.findIdx? (SingleRow.sameAs e.cols) with
    | some j =>
      have hne : (j : Int) ≠ -1 := by omega
      exact ⟨_, if_pos hne⟩
    | none =>
      have hfind : s.rRows.find? (SingleRow.sameAs e.cols) = none :=
        List.find?_eq_none.mpr (by simpa using List.findIdx?_eq_none_iff.mp hidx?)
      obtain hsome | hnew := hfits
      · rw [hfind] at hsome
        cases hsome
      · obtain ⟨cur, hcur⟩ := (hinv.isSome_newRow_iff hpos hnr).mpr hnew
        simp [hcur]

end

/-! ### Runs -/

variable {h : List (AddRow × Unit)} {s : Rows}

theorem addRow_of_step {e : AddRow} {o : Unit} {s' : Rows}
    (hstep : (machine task).step s e = some (s', o)) : s.addRow task e.idx e.cols = some s' :=
  (Machine.eq_some_of_map hstep).1

/-- A run of exact calls keeps the invariant. -/
theorem inv_of_exact (hr : (machine task).Reach h s)
    (hexact : (machine task).Always (fun _ s e _ _ => s.Exact task e.cols) h) :
    Inv task h s := by
  induction hr with
  | init => exact inv_init
  | snoc hr hstep ih =>
    obtain ⟨hbefore, hlast⟩ := (Machine.always_snoc hr hstep).mp hexact
    exact (ih hbefore).step (addRow_of_step hstep) hlast _

theorem always_faithful_iff (hr : (machine task).Reach h s) :
    (machine task).Always (fun h _ e o s' => Faithful task (h ++ [(e, o)]) s') h ↔
      (machine task).Always (fun _ s e _ _ => s.Exact task e.cols) h := by
  induction hr with
  | init => exact iff_of_true Machine.always_nil Machine.always_nil
  | snoc hr hstep ih =>
    rw [Machine.always_snoc hr hstep, Machine.always_snoc hr hstep, ih]
    refine and_congr_right fun hexact => ?_
    have hinv := inv_of_exact hr hexact
    constructor
    · exact fun hfaithful => hinv.exact_of_faithful (addRow_of_step hstep) hfaithful
    · exact fun hlast =>
        (hinv.step (addRow_of_step hstep) hlast _).faithful (List.concat_ne_nil _ _)

/-- **When the rows are faithful**: after every call of a run exactly if every call is exact;
and in a run of exact calls a call with an index of a server and the number of columns of the
others returns exactly if the sizes fit. -/
theorem faithful_iff (hr : (machine task).Reach h s) :
    ((machine task).Always (fun h _ e o s' => Faithful task (h ++ [(e, o)]) s') h ↔
        (machine task).Always (fun _ s e _ _ => s.Exact task e.cols) h) ∧
      ((machine task).Always (fun _ s e _ _ => s.Exact task e.cols) h → ∀ e : AddRow,
        (∃ r, (machine task).step s e = some r) ↔
          e.idx < task.servers ∧ 0 < e.cols.length ∧
            (∀ x ∈ h, x.1.cols.length = e.cols.length) ∧ s.Fits task e.cols) := by
  refine ⟨always_faithful_iff hr, fun hexact e => ?_⟩
  rw [← (inv_of_exact hr hexact).isSome_addRow_iff e]
  constructor
  · rintro ⟨r, hstep⟩
    exact ⟨r.1, addRow_of_step hstep⟩
  · rintro ⟨s', hstep⟩
    exact ⟨(s', ()), Option.map_eq_some_iff.mpr ⟨s', hstep, rfl⟩⟩

/-- Three servers, the second of which is the standard. -/
def threeServers : RowTask := ⟨3, 1, by decide, by decide⟩

/-- A row with a null column. -/
def rowOfNull (idx : Nat) : AddRow := ⟨idx, [some (ascii "key"), none]⟩

/-- A row with the same first column. -/
def rowOfText (idx : Nat) : AddRow := ⟨idx, [some (ascii "key"), some (ascii "a")]⟩

/-- The rows after `rowOfNull 2`, with the index of the second server. -/
def nullRows (stdRowIdx : Int) : Rows := ⟨[ofCols (rowOfNull 2).cols], [-1, stdRowIdx, 0]⟩

/-- The rows after `rowOfNull 2`, `rowOfNull 1` and `rowOfText 0`. -/
def bothRows : Rows := ⟨[ofCols (rowOfNull 2).cols, ofCols (rowOfText 0).cols], [1, 0, 0]⟩

/-- A row, the same row again, and a row that shares a column with that of the standard
server: two rows are kept, faithfully after every call, and one more call returns. -/
theorem faithful_bothRows :
    (machine threeServers).Reach [(rowOfNull 2, ()), (rowOfNull 1, ()), (rowOfText 0, ())]
        bothRows ∧
      (machine threeServers).Always
        (fun h _ e o s' => Faithful threeServers (h ++ [(e, o)]) s')
        [(rowOfNull 2, ()), (rowOfNull 1, ()), (rowOfText 0, ())] ∧
      ∃ r, (machine threeServers).step bothRows (rowOfText 2) = some r := by
  have hfirst : (machine threeServers).step (machine threeServers).init (rowOfNull 2) =
      some (nullRows (-1), ()) := by decide +kernel
  have hsame : (machine threeServers).step (nullRows (-1)) (rowOfNull 1) =
      some (nullRows 0, ()) := by decide +kernel
  have hshared : (machine threeServers).step (nullRows 0) (rowOfText 0) =
      some (bothRows, ()) := by decide +kernel
  have hreach₁ := Machine.Reach.init.snoc hfirst
  have hreach₂ := hreach₁.snoc hsame
  have hreach₃ := hreach₂.snoc hshared
  have hexact₁ : (machine threeServers).init.Exact threeServers (rowOfNull 2).cols :=
    ⟨by decide, nofun⟩
  have hexact₂ : (nullRows (-1)).Exact threeServers (rowOfNull 1).cols := rfl
  have hexact₃ : (nullRows 0).Exact threeServers (rowOfText 0).cols := by
    refine ⟨by decide, ?_⟩
    decide
  have hexact : (machine threeServers).Always (fun _ s e _ _ => s.Exact threeServers e.cols)
      [(rowOfNull 2, ()), (rowOfNull 1, ()), (rowOfText 0, ())] :=
    (Machine.always_snoc hreach₂ hshared).mpr ⟨(Machine.always_snoc hreach₁ hsame).mpr
      ⟨(Machine.always_snoc .init hfirst).mpr ⟨Machine.always_nil, hexact₁⟩, hexact₂⟩, hexact₃⟩
  obtain ⟨hfaithful, hreturns⟩ := faithful_iff hreach₃
  exact ⟨hreach₃, hfaithful.mpr hexact, (hreturns hexact _).mpr
    ⟨by decide, by decide, by decide, Or.inl (by decide)⟩⟩
/-- Two servers, the first of which is the standard. -/
def twoServers : RowTask := ⟨2, 0, by decide, by decide⟩

/-- Two calls that differ behind a zero byte. -/
def endsInB : AddRow := ⟨0, [some [97, 0, 98]]⟩

def endsInC : AddRow := ⟨1, [some [97, 0, 99]]⟩

/-- The rows after the first call. -/
def oneRow : Rows := ⟨[ofCols endsInB.cols], [0, -1]⟩

theorem step_endsInB :
    (machine twoServers).step (machine twoServers).init endsInB = some (oneRow, ()) := by
  decide +kernel

/-- The second server has the row of the first. -/
theorem not_faithful_zeroByte :
    ¬ ∀ (task : RowTask) (h : List (AddRow × Unit)) (s : Rows), (machine task).Reach h s →
      (machine task).Always (fun h _ e o s' => Faithful task (h ++ [(e, o)]) s') h := by
  intro hall
  have hstep : (machine twoServers).step oneRow endsInC = some (⟨oneRow.rRows, [0, 0]⟩, ()) := by
    decide
  have hone := Machine.Reach.init.snoc step_endsInB
  have hlast := ((Machine.always_snoc hone hstep).mp (hall _ _ _ (hone.snoc hstep))).2
  -- its last columns are not those of the row
  obtain ⟨n, hn, hrow⟩ := hlast.of_set (k := 0) (by decide)
  obtain rfl : n = 0 := by omega
  exact absurd hrow (by decide)

/-! ### Text columns -/

private theorem strncmp_cons (n : Nat) (x y : UInt8) (a b : Bytes) :
    strncmp (n + 1) (x :: a) (y :: b) = 0 ↔ x = y ∧ (x = 0 ∨ strncmp n a b = 0) := by
  simp only [strncmp, List.headD_cons, List.tail_cons]
  by_cases hxy : x = y
  · subst hxy
    by_cases hx : x = 0
    · simp [hx]
    · simp [hx]
  · have hne : x.toNat ≠ y.toNat := fun h => hxy (UInt8.toNat_inj.mp h)
    simp only [ne_eq, hxy, not_false_eq_true, if_true, false_and, iff_false]
    omega

private theorem cStr_cons (x : UInt8) (a : Bytes) :
    cStr (x :: a) = if x = 0 then [] else x :: cStr a := by
  by_cases hx : x = 0
  · simp [cStr, hx]
  · simp [cStr, hx]

/-- `strncmp` compares up to the first zero byte. -/
theorem strncmp_eq_zero_iff {n : Nat} {a b : Bytes} (ha : n ≤ a.length) (hb : n ≤ b.length) :
    strncmp n a b = 0 ↔ cStr (a.take n) = cStr (b.take n) := by
  induction n generalizing a b with
  | zero => exact iff_of_true rfl rfl
  | succ n ih =>
    obtain ⟨x, a, rfl⟩ := List.exists_cons_of_length_pos (lt_of_lt_of_le n.succ_pos ha)
    obtain ⟨y, b, rfl⟩ := List.exists_cons_of_length_pos (lt_of_lt_of_le n.succ_pos hb)
    rw [strncmp_cons, ih (Nat.le_of_succ_le_succ ha) (Nat.le_of_succ_le_succ hb),
      List.take_succ_cons, List.take_succ_cons, cStr_cons, cStr_cons]
    by_cases hx : x = 0
    · by_cases hy : y = 0
      · simp [hx, hy]
      · simp [hx, hy, Ne.symm hy]
    · by_cases hy : y = 0
      · simp [hx, hy]
      · simp [hx, hy]

theorem dcDiffStrCmp_eq_zero_iff {a b : Bytes} {alen blen : Nat} :
    dcDiffStrCmp a alen b blen = 0 ↔
      alen % 2 ^ 32 = blen % 2 ^ 32 ∧
        strncmp (min (alen % 2 ^ 32) (blen % 2 ^ 32)) a b = 0 := by
  unfold dcDiffStrCmp
  simp only
  split_ifs with hr hlt hgt
  · exact iff_of_false (by decide) fun h => absurd h.1 (ne_of_lt hlt)
  · exact iff_of_false (by decide) fun h => absurd h.1 (ne_of_gt hgt)
  · exact iff_of_true rfl ⟨le_antisymm (not_lt.mp hgt) (not_lt.mp hlt), hr⟩
  · exact iff_of_false hr fun h => hr h.2

/-- Columns without zero bytes, of lengths that a `uint32_t` holds. -/
def TextCols (cols : Cols) : Prop := ∀ b, some b ∈ cols → 0 ∉ b ∧ b.length < 2 ^ 32

/-- On text the comparison is exact. -/
theorem dcDiffStrCmp_text_iff {a b : Bytes} (ha : 0 ∉ a ∧ a.length < 2 ^ 32)
    (hb : 0 ∉ b ∧ b.length < 2 ^ 32) : dcDiffStrCmp a a.length b b.length = 0 ↔ a = b := by
  rw [dcDiffStrCmp_eq_zero_iff, Nat.mod_eq_of_lt ha.2, Nat.mod_eq_of_lt hb.2]
  constructor
  · rintro ⟨hlen, hcmp⟩
    rw [strncmp_eq_zero_iff (min_le_left _ _) (min_le_right _ _)] at hcmp
    have htake : ∀ s : Bytes, s.length = a.length →
        s.take (min a.length b.length) = s := by
      intro s hs
      exact List.take_of_length_le (by omega)
    rwa [htake a rfl, htake b hlen.symm, cStr_eq_self ha.1, cStr_eq_self hb.1] at hcmp
  · rintro rfl
    exact ⟨rfl, strncmp_self _ _⟩

/-- On text both comparisons find only equal columns. -/
private theorem eq_of_alike {cols cols' : Cols} (ht : TextCols cols) (ht' : TextCols cols')
    {p : (Option Bytes × Nat) × Option Bytes} (hp : p ∈ (ofCols cols').cells.zip cols)
    (hsame : cellIsSame p.1 p.2 = true ∨ colIsSame p.1 p.2 = true) : p.1.1 = p.2 := by
  obtain ⟨cell, col⟩ := p
  obtain ⟨hcell, hcol⟩ := List.of_mem_zip hp
  rw [cells_ofCols] at hcell
  obtain ⟨col', hcol', rfl⟩ := List.mem_map.mp hcell
  cases col' with
  | none =>
    cases col with
    | none => rfl
    | some b => simp [cellIsSame, colIsSame] at hsame
  | some a =>
    cases col with
    | none => simp [cellIsSame, colIsSame] at hsame
    | some b =>
      have htext := ht b hcol
      have htext' := ht' a hcol'
      obtain hsame | hsame := hsame
      · rw [(dcDiffStrCmp_text_iff htext' htext).mp (of_decide_eq_true hsame)]
      · rw [(dcDiffStrCmp_text_iff htext htext').mp (of_decide_eq_true hsame)]

/-- On text the search finds only the row itself. -/
theorem eq_of_sameAs_text {cols cols' : Cols} (ht : TextCols cols) (ht' : TextCols cols')
    (hsame : (ofCols cols').sameAs cols = true) : cols' = cols := by
  rw [SingleRow.sameAs, Bool.and_eq_true, decide_eq_true_iff, List.all_eq_true] at hsame
  have hlen : cols'.length = cols.length := by
    simpa [ofCols] using congrArg List.length hsame.1
  refine List.ext_getElem hlen fun i hi hi' => ?_
  have hcells : i < (ofCols cols').cells.length := by rwa [cells_ofCols, List.length_map]
  have hmem : ((ofCols cols').cells[i], cols[i]) ∈ (ofCols cols').cells.zip cols := by
    rw [← List.getElem_zip (h := by rw [List.length_zip]; exact lt_min hcells hi')]
    exact List.getElem_mem _
  have heq := eq_of_alike ht ht' hmem (Or.inl (hsame.2 _ hmem))
  simpa [cells_ofCols] using heq

/-- **On text every call is exact.** -/
theorem Inv.exact_of_text (hinv : Inv task h s) (hrows : s.rRows.length < 2 ^ 31)
    (hh : ∀ x ∈ h, TextCols x.1.cols) {cols : Cols} (ht : TextCols cols) :
    s.Exact task cols := by
  unfold Rows.Exact
  cases hfind : s.rRows.find? (SingleRow.sameAs cols) with
  | some r =>
    obtain ⟨x, hx, rfl⟩ := (hinv.mem_iff r).mp (List.mem_of_find?_eq_some hfind)
    exact eq_of_sameAs_text ht (hh x hx) (List.find?_some hfind)
  | none =>
    refine ⟨hrows, fun row hrow p hp hsame => ?_⟩
    have hne : s.rRows ≠ [] := by
      intro hnil
      rw [hinv.stdRow_eq_none hnil] at hrow
      cases hrow
    obtain ⟨row', hmem, hstd⟩ := hinv.exists_stdRow hne
    obtain rfl : row' = row := Option.some.inj (hstd.symm.trans hrow)
    obtain ⟨x, hx, rfl⟩ := (hinv.mem_iff row').mp hmem
    exact eq_of_alike ht (hh x hx) hp (Or.inr hsame)

/-- There are no more rows than calls. -/
theorem Inv.length_le (hinv : Inv task h s) : s.rRows.length ≤ h.length := by
  have hsub : s.rRows ⊆ h.map fun x => ofCols x.1.cols := by
    intro r hr
    obtain ⟨x, hx, rfl⟩ := (hinv.mem_iff r).mp hr
    exact List.mem_map.mpr ⟨x, hx, rfl⟩
  simpa using (hinv.nodup.subperm hsub).length_le

/-- **Text is kept faithfully**, as long as an `int` can count the calls. -/
theorem always_faithful_of_text (hr : (machine task).Reach h s) (hlen : h.length ≤ 2 ^ 31)
    (hh : ∀ x ∈ h, TextCols x.1.cols) :
    (machine task).Always (fun h _ e o s' => Faithful task (h ++ [(e, o)]) s') h := by
  rw [always_faithful_iff hr]
  induction hr with
  | init => exact Machine.always_nil
  | snoc hr hstep ih =>
    rw [List.length_append, List.length_singleton] at hlen
    rw [List.forall_mem_append, List.forall_mem_singleton] at hh
    have hexact := ih (by omega) hh.1
    have hinv := inv_of_exact hr hexact
    have hle := hinv.length_le
    exact (Machine.always_snoc hr hstep).mpr
      ⟨hexact, hinv.exact_of_text (by omega) hh.1 hh.2⟩

end Wfrest.DiffRow
