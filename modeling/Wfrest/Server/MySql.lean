import Wfrest.Compare.Json

/-!
# MySQL results

`mysql_concat_json_res` turns the result sets of a MySQL task into JSON, and
`MySQLUtil::fields` and `MySQLUtil::data_type` list the columns of one. Workflow's task
and cursor are the data here that they deliver.

The dispatch of `mysql_concat_json_res` has no case for a date, though
`MySQLUtil::to_string` has: a date is left out of its row, and what stands behind it moves
up by one column. The two lists are created with one empty string for every column, and the
names and types are pushed behind these. `resultsAligned_iff` says what is left of the
alignment with the columns.
-/

namespace Wfrest

/-- `MySQLCell`. The types of the `float`s and the `double`s are `φ` and `δ`. -/
inductive MySQLCell (φ δ : Type) where
  | null
  | int (v : Int)
  | string (v : Bytes)
  | float (v : φ)
  | double (v : δ)
  | ulonglong (v : UInt64)
  | date (v : Bytes)
  | time (v : Bytes)
  | datetime (v : Bytes)

/-- What is used of Workflow and of the standard library: the texts of errors and types,
and of floating-point numbers, in JSON and as `std::to_string` writes them. -/
structure MySQLTexts (φ δ : Type) where
  errorString : Int → Int → Bytes
  datatype2str : Nat → Bytes
  floatJson : φ → Bytes
  doubleJson : δ → Bytes
  floatString : φ → Bytes
  doubleString : δ → Bytes

/-- `MySQLField` -/
structure MySQLField where
  name : Bytes
  db : Bytes
  table : Bytes
  dataType : Nat
  deriving DecidableEq

/-- `get_cursor_status()` -/
inductive MySQLStatus where
  | MYSQL_STATUS_OK
  | MYSQL_STATUS_GET_RESULT
  /-- An error, or the end. -/
  | other
  deriving DecidableEq

/-- What a cursor delivers of one result set. A row has a cell for every field. -/
structure MySQLResultSet (φ δ : Type) where
  status : MySQLStatus
  fields : List MySQLField
  rowsCount : Int
  rows : List (List (MySQLCell φ δ))
  rows_length : ∀ row ∈ rows, row.length = fields.length
  affectedRows : Nat
  warnings : Int
  insertId : Nat
  info : Bytes

/-- `get_packet_type()`, with what is read of the packet. -/
inductive MySQLPacket where
  | error (code : Int) (msg : Bytes)
  | ok (affectedRows : Nat) (warnings : Int) (lastInsertId : Nat) (info : Bytes)
  | other

/-- `WFMySQLTask`; the cursor stands at the first result set. -/
structure MySQLTask (φ δ : Type) where
  success : Bool
  state : Int
  error : Int
  first : MySQLResultSet φ δ
  rest : List (MySQLResultSet φ δ)
  packet : MySQLPacket

variable {φ δ : Type}

namespace MySQLUtil

/-- `MySQLUtil::fields` -/
def fields (rs : MySQLResultSet φ δ) : List Bytes :=
  rs.fields.foldl (fun names field => names ++ [field.name])
    (List.replicate rs.fields.length [])

variable (x : MySQLTexts φ δ)

/-- `MySQLUtil::data_type` -/
def dataType (rs : MySQLResultSet φ δ) : List Bytes :=
  rs.fields.foldl (fun types field => types ++ [x.datatype2str field.dataType])
    (List.replicate rs.fields.length [])

/-- `MySQLUtil::to_string` -/
def toString : MySQLCell φ δ → Bytes
  | .null => []
  | .int v => ascii (ToString.toString v)
  | .string v => v
  | .float v => x.floatString v
  | .double v => x.doubleString v
  | .ulonglong v => ascii (ToString.toString v.toNat)
  | .date v => v
  | .time v => v
  | .datetime v => v

end MySQLUtil

section
variable (x : MySQLTexts φ δ)

/-- The body of the loop over a row. -/
def pushCell (row : Json) : MySQLCell φ δ → Json
  | .string v => row.pushBack (.str v)
  | .time v => row.pushBack (.str (MySQLUtil.toString x (.time v)))
  | .datetime v => row.pushBack (.str (MySQLUtil.toString x (.datetime v)))
  | .null => row.pushBack (.str (ascii "NULL"))
  | .double v => row.pushBack (.real (x.doubleJson v))
  | .float v => row.pushBack (.real (x.floatJson v))
  | .int v => row.pushBack (.num v)
  | .ulonglong v => row.pushBack (.num v.toNat)
  -- no branch asks for `is_date`
  | .date _ => row

/-- The loop over a row. -/
def rowJson (cells : List (MySQLCell φ δ)) : Json := cells.foldl (pushCell x) .null

/-- What the branch of `MYSQL_STATUS_GET_RESULT` sets in front of the rows. -/
def fieldsJson (rs : MySQLResultSet φ δ) : Json :=
  let j := (Json.null.set "field_count" (.num rs.fields.length)).set "rows_count"
    (.num rs.rowsCount)
  let j :=
    match rs.fields with
    | [] => j
    | field :: _ =>
      (if field.db ≠ [] then j.set "database" (.str field.db) else j).set "table"
        (.str field.table)
  (j.set "fields_name" (.arr (rs.fields.map fun f => .str f.name))).set "fields_type"
    (.arr (rs.fields.map fun f => .str (x.datatype2str f.dataType)))

/-- The branch of `MYSQL_STATUS_GET_RESULT`. -/
def getResultJson (rs : MySQLResultSet φ δ) : Json :=
  rs.rows.foldl
    (fun j cells => j.set "rows" (((j.get? "rows").getD .null).pushBack (rowJson x cells)))
    (fieldsJson x rs)

/-- The branch of `MYSQL_STATUS_OK`. -/
def okJson (rs : MySQLResultSet φ δ) : Json :=
  ((((Json.null.set "status" (.str (ascii "OK"))).set "affected_rows"
    (.num rs.affectedRows)).set "warnings" (.num rs.warnings)).set "insert_id"
    (.num rs.insertId)).set "info" (.str rs.info)

/-- The `do` loop over the result sets. -/
def resultSets (json : Json) : List (MySQLResultSet φ δ) → Json
  | [] => json
  | rs :: rest =>
    match rs.status with
    | .other => json
    | .MYSQL_STATUS_GET_RESULT =>
      resultSets (json.set "result_set"
        (((json.get? "result_set").getD .null).pushBack (getResultJson x rs))) rest
    | .MYSQL_STATUS_OK =>
      resultSets (json.set "result_set"
        (((json.get? "result_set").getD .null).pushBack (okJson rs))) rest

/-- What is said about the last packet. -/
def packetJson (json : Json) : MySQLPacket → Json
  | .error code msg => (json.set "errcode" (.num code)).set "errmsg" (.str msg)
  | .ok affectedRows warnings lastInsertId info =>
    ((((json.set "status" (.str (ascii "OK"))).set "affected_rows" (.num affectedRows)).set
      "warnings" (.num warnings)).set "insert_id" (.num lastInsertId)).set "info" (.str info)
  | .other => json

/-- `mysql_concat_json_res` -/
def mysqlConcatJsonRes (t : MySQLTask φ δ) : Json :=
  if t.success then packetJson (resultSets x .null (t.first :: t.rest)) t.packet
  else Json.null.set "error" (.str (x.errorString t.state t.error))

end

/-! ### The alignment -/

/-- Whether the cell is one that `pushCell` leaves out. -/
def MySQLCell.isDate : MySQLCell φ δ → Bool
  | .date _ => true
  | _ => false

/-- The rows that are asked for. -/
def MySQLResultSet.reportedRows (rs : MySQLResultSet φ δ) : List (List (MySQLCell φ δ)) :=
  match rs.status with
  | .MYSQL_STATUS_GET_RESULT => rs.rows
  | _ => []

/-- The result sets that are asked for. -/
def MySQLTask.reported (t : MySQLTask φ δ) : List (MySQLResultSet φ δ) :=
  if t.success then (t.first :: t.rest).takeWhile fun rs => rs.status ≠ .other else []

/-- The elements of the rows in an answer, by result set. -/
def answerRows (json : Json) : List (List (List Json)) :=
  ((json.get? "result_set").getD .null).items.map fun rs =>
    ((rs.get? "rows").getD .null).items.map Json.items

section
variable (x : MySQLTexts φ δ)

/-- The element that belongs to a cell. -/
def MySQLCell.json : MySQLCell φ δ → Json
  | .null => .str (ascii "NULL")
  | .int v => .num v
  | .ulonglong v => .num v.toNat
  | .float v => .real (x.floatJson v)
  | .double v => .real (x.doubleJson v)
  | c => .str (MySQLUtil.toString x c)

/-- The rows of the answer have one element per column, each the one of its cell. -/
def RowsAligned (t : MySQLTask φ δ) : Prop :=
  answerRows (mysqlConcatJsonRes x t) =
    t.reported.map fun rs => rs.reportedRows.map fun row => row.map (MySQLCell.json x)

/-- `MySQLUtil::fields` has one name per column. -/
def FieldsAligned (rs : MySQLResultSet φ δ) : Prop :=
  MySQLUtil.fields rs = rs.fields.map MySQLField.name

/-- `MySQLUtil::data_type` has one type per column. -/
def TypesAligned (rs : MySQLResultSet φ δ) : Prop :=
  MySQLUtil.dataType x rs = rs.fields.map fun field => x.datatype2str field.dataType

/-- **The results are aligned with the columns.** -/
def ResultsAligned (t : MySQLTask φ δ) : Prop :=
  RowsAligned x t ∧ ∀ rs ∈ t.reported, FieldsAligned rs ∧ TypesAligned x rs

/-! #### The two lists -/

private theorem foldl_push {α : Type} (f : α → Bytes) (xs : List α) (acc : List Bytes) :
    xs.foldl (fun out a => out ++ [f a]) acc = acc ++ xs.map f := by
  induction xs generalizing acc with
  | nil => simp
  | cons a xs ih => simp [ih]

theorem fields_eq (rs : MySQLResultSet φ δ) :
    MySQLUtil.fields rs =
      List.replicate rs.fields.length [] ++ rs.fields.map MySQLField.name :=
  foldl_push _ _ _

theorem dataType_eq (rs : MySQLResultSet φ δ) :
    MySQLUtil.dataType x rs = List.replicate rs.fields.length [] ++
      rs.fields.map fun field => x.datatype2str field.dataType :=
  foldl_push _ _ _

/-- Empty strings in front of the list are too many, unless there are none. -/
private theorem replicate_append_eq_iff {α : Type} (xs : List α) (ys : List Bytes) :
    List.replicate xs.length [] ++ ys = ys ↔ xs = [] := by
  rw [List.append_left_eq_self, List.replicate_eq_nil_iff, List.length_eq_zero_iff]

theorem fieldsAligned_iff (rs : MySQLResultSet φ δ) : FieldsAligned rs ↔ rs.fields = [] := by
  rw [FieldsAligned, fields_eq, replicate_append_eq_iff]

theorem typesAligned_iff (rs : MySQLResultSet φ δ) : TypesAligned x rs ↔ rs.fields = [] := by
  rw [TypesAligned, dataType_eq, replicate_append_eq_iff]

/-! #### The rows -/

theorem items_pushCell (row : Json) (c : MySQLCell φ δ) :
    (pushCell x row c).items = if c.isDate then row.items else row.items ++ [c.json x] := by
  cases c <;> rfl

private theorem items_foldl_pushCell (cells : List (MySQLCell φ δ)) (row : Json) :
    (cells.foldl (pushCell x) row).items =
      row.items ++ (cells.filter fun c => !c.isDate).map (MySQLCell.json x) := by
  induction cells generalizing row with
  | nil => simp
  | cons c cells ih =>
    rw [List.foldl_cons, ih, items_pushCell]
    cases hc : c.isDate with
    | true => simp [hc]
    | false => simp [hc]

/-- A row of the answer has the elements of the cells that are no date. -/
theorem items_rowJson (cells : List (MySQLCell φ δ)) :
    (rowJson x cells).items =
      (cells.filter fun c => !c.isDate).map (MySQLCell.json x) :=
  items_foldl_pushCell x cells .null

/-- A row is aligned exactly if it has no date: it has too few elements else. -/
theorem items_rowJson_eq_iff (cells : List (MySQLCell φ δ)) :
    (rowJson x cells).items = cells.map (MySQLCell.json x) ↔ ∀ c ∈ cells, c.isDate = false := by
  rw [items_rowJson]
  constructor
  · intro h c hc
    have hlen := congrArg List.length h
    rw [List.length_map, List.length_map, List.length_filter_eq_length_iff] at hlen
    simpa using hlen c hc
  · intro h
    rw [List.filter_eq_self.mpr]
    intro c hc
    rw [h c hc]
    rfl

private theorem rows_foldl (rowss : List (List (MySQLCell φ δ))) (j : Json) :
    (((rowss.foldl (fun j cells =>
        j.set "rows" (((j.get? "rows").getD .null).pushBack (rowJson x cells))) j).get?
      "rows").getD .null).items =
      ((j.get? "rows").getD .null).items ++ rowss.map (rowJson x) := by
  induction rowss generalizing j with
  | nil => simp
  | cons cells rowss ih => simp [ih]

theorem get?_rows_fieldsJson (rs : MySQLResultSet φ δ) :
    (fieldsJson x rs).get? "rows" = none := by
  unfold fieldsJson
  rw [Json.get?_set_of_ne (by decide), Json.get?_set_of_ne (by decide)]
  split
  · rw [Json.get?_set_of_ne (by decide), Json.get?_set_of_ne (by decide)]
    rfl
  · rw [Json.get?_set_of_ne (by decide)]
    split_ifs
    · rw [Json.get?_set_of_ne (by decide), Json.get?_set_of_ne (by decide),
        Json.get?_set_of_ne (by decide)]
      rfl
    · rw [Json.get?_set_of_ne (by decide), Json.get?_set_of_ne (by decide)]
      rfl

theorem rows_getResultJson (rs : MySQLResultSet φ δ) :
    (((getResultJson x rs).get? "rows").getD .null).items = rs.rows.map (rowJson x) := by
  rw [getResultJson, rows_foldl, get?_rows_fieldsJson]
  rfl

theorem rows_okJson (rs : MySQLResultSet φ δ) :
    (((okJson rs).get? "rows").getD .null).items = [] := by
  simp only [okJson, Json.get?_set]
  rfl

/-- The elements that the loop over the result sets appends. -/
def resultSetJson (rs : MySQLResultSet φ δ) : Json :=
  match rs.status with
  | .MYSQL_STATUS_GET_RESULT => getResultJson x rs
  | _ => okJson rs

theorem items_resultSets (sets : List (MySQLResultSet φ δ)) (json : Json) :
    (((resultSets x json sets).get? "result_set").getD .null).items =
      ((json.get? "result_set").getD .null).items ++
        (sets.takeWhile fun rs => rs.status ≠ .other).map (resultSetJson x) := by
  induction sets generalizing json with
  | nil => simp [resultSets]
  | cons rs sets ih =>
    unfold resultSets
    cases hst : rs.status with
    | other => simp [hst]
    | MYSQL_STATUS_OK => simp [hst, ih, resultSetJson]
    | MYSQL_STATUS_GET_RESULT => simp [hst, ih, resultSetJson]

theorem get?_packetJson (json : Json) (packet : MySQLPacket) :
    (packetJson json packet).get? "result_set" = json.get? "result_set" := by
  cases packet with
  | error code msg =>
    rw [packetJson, Json.get?_set_of_ne (by decide), Json.get?_set_of_ne (by decide)]
  | ok affectedRows warnings lastInsertId info =>
    rw [packetJson, Json.get?_set_of_ne (by decide), Json.get?_set_of_ne (by decide),
      Json.get?_set_of_ne (by decide), Json.get?_set_of_ne (by decide),
      Json.get?_set_of_ne (by decide)]
  | other => rfl

/-- **The rows of an answer** are the rows of the result sets. -/
theorem answerRows_mysqlConcatJsonRes (t : MySQLTask φ δ) :
    answerRows (mysqlConcatJsonRes x t) =
      t.reported.map fun rs => rs.reportedRows.map fun row => (rowJson x row).items := by
  unfold answerRows mysqlConcatJsonRes MySQLTask.reported
  split_ifs
  · rw [get?_packetJson, items_resultSets]
    change List.map _ (List.map _ _) = _
    rw [List.map_map]
    refine List.map_congr_left fun rs _ => ?_
    unfold MySQLResultSet.reportedRows
    simp only [Function.comp_apply, resultSetJson]
    cases rs.status with
    | MYSQL_STATUS_GET_RESULT => rw [rows_getResultJson, List.map_map]; rfl
    | MYSQL_STATUS_OK => rw [rows_okJson]; rfl
    | other => rw [rows_okJson]; rfl
  · rfl

theorem rowsAligned_iff (t : MySQLTask φ δ) :
    RowsAligned x t ↔
      ∀ rs ∈ t.reported, ∀ row ∈ rs.reportedRows, ∀ c ∈ row, c.isDate = false := by
  rw [RowsAligned, answerRows_mysqlConcatJsonRes, List.map_inj_left]
  refine forall₂_congr fun rs _ => ?_
  rw [List.map_inj_left]
  exact forall₂_congr fun row _ => items_rowJson_eq_iff x row

/-- Without columns there are no cells. -/
theorem MySQLResultSet.eq_nil_of_mem {rs : MySQLResultSet φ δ} (hfields : rs.fields = [])
    {row : List (MySQLCell φ δ)} (hrow : row ∈ rs.reportedRows) : row = [] := by
  have hmem : row ∈ rs.rows := by
    unfold MySQLResultSet.reportedRows at hrow
    split at hrow
    · exact hrow
    · cases hrow
  have hlen := rs.rows_length row hmem
  rw [hfields] at hlen
  exact List.eq_nil_of_length_eq_zero hlen

/-- **What is aligned with the columns**: the rows, unless a cell is a date; the lists of the
names and of the types only where there is no column, and so the whole. -/
theorem resultsAligned_iff (t : MySQLTask φ δ) :
    (ResultsAligned x t ↔ ∀ rs ∈ t.reported, rs.fields = []) ∧
      (RowsAligned x t ↔
        ∀ rs ∈ t.reported, ∀ row ∈ rs.reportedRows, ∀ c ∈ row, c.isDate = false) ∧
      ∀ rs : MySQLResultSet φ δ,
        (FieldsAligned rs ↔ rs.fields = []) ∧ (TypesAligned x rs ↔ rs.fields = []) := by
  refine ⟨?_, rowsAligned_iff x t, fun rs => ⟨fieldsAligned_iff rs, typesAligned_iff x rs⟩⟩
  constructor
  · rintro ⟨-, hlists⟩ rs hrs
    exact (fieldsAligned_iff rs).mp (hlists rs hrs).1
  · intro hfields
    refine ⟨(rowsAligned_iff x t).mpr fun rs hrs row hrow c hc => ?_, fun rs hrs => ?_⟩
    · rw [MySQLResultSet.eq_nil_of_mem (hfields rs hrs) hrow] at hc
      cases hc
    · exact ⟨(fieldsAligned_iff rs).mpr (hfields rs hrs),
        (typesAligned_iff x rs).mpr (hfields rs hrs)⟩

end

/-- `SELECT id, born, name` with one row. -/
def bornSet : MySQLResultSet Unit Unit where
  status := .MYSQL_STATUS_GET_RESULT
  fields := [⟨ascii "id", ascii "db", ascii "t", 3⟩, ⟨ascii "born", ascii "db", ascii "t", 10⟩,
    ⟨ascii "name", ascii "db", ascii "t", 253⟩]
  rowsCount := 1
  rows := [[.int 7, .date (ascii "1999-12-31"), .string (ascii "Ann")]]
  rows_length := by
    intro row hrow
    obtain rfl := List.mem_singleton.mp hrow
    rfl
  affectedRows := 0
  warnings := 0
  insertId := 0
  info := []

/-- The name stands in the second column, where the date should be, and the list of the names
begins with three empty ones. -/
theorem not_resultsAligned_born :
    ¬ ∀ (x : MySQLTexts Unit Unit) (t : MySQLTask Unit Unit), ResultsAligned x t := by
  intro hall
  have hrows := (hall ⟨fun _ _ => [], fun _ => [], fun _ => [], fun _ => [], fun _ => [],
    fun _ => []⟩ ⟨true, 0, 0, bornSet, [], .other⟩).1
  rw [RowsAligned, answerRows_mysqlConcatJsonRes] at hrows
  -- two elements for three cells
  have hlen := congrArg (fun out => out.map fun rows => rows.map List.length) hrows
  exact absurd hlen (by decide)

end Wfrest
