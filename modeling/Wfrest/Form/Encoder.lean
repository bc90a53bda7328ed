import Wfrest.Base.ContentType
import Wfrest.Base.PathUtil

/-!
# `MultiPartEncoder` responses

`HttpResp::String(MultiPartEncoder *)` queues a `pread` task for every file of the
encoder and puts the params into `content`. The tasks run one after the other; the
callback of each appends a part to `content`, and the callback of the task that carries
`user_data` closes the body and appends it to the output.

Which task carries `user_data` is decided by a countdown that also counts the files
that are skipped, so it is the task of the last file in the list, if that one is queued
at all: `run_queueFiles` is the invariant, and `string_whole_iff` the consequence.
-/

namespace Wfrest

/-- `MultiPartForm::k_default_boundary` -/
def kDefaultBoundary : Bytes := ascii "----WebKitFormBoundary7MA4YWxkTrZu0gW"

/-- `MultiPartEncoder` -/
structure MultiPartEncoder where
  boundary : Bytes
  /-- Name and value. -/
  params : List (Bytes × Bytes)
  /-- Name and path. -/
  files : List (Bytes × Bytes)

/-- What the calls about one entry of the file list give. -/
structure FileProbe where
  /-- `PathUtil::is_file` -/
  isFile : Bool
  /-- `FileUtil::size`; `none` unless `StatusOK`. -/
  size : Option Nat
  /-- The bytes that the `pread` task delivers; `none` when it fails. -/
  pread : Option Bytes

/-- A queued `pread` task. -/
structure PreadTask where
  file : Bytes × Bytes
  retval : Option Bytes
  /-- Whether `user_data` is the response. -/
  userData : Bool

/-- What the callbacks of the series change: the context, and the calls of
`append_output_body_nocopy`. -/
structure SeriesState where
  content : Bytes
  outputBody : List Bytes

/-- A response with a form. -/
structure FormResponse where
  contentType : Bytes
  outputBody : List Bytes

namespace MultiPartEncoder

/-- `MultiPartEncoder()` -/
def new : MultiPartEncoder := ⟨kDefaultBoundary, [], []⟩

/-- `add_param` -/
def addParam (e : MultiPartEncoder) (name value : Bytes) : MultiPartEncoder :=
  { e with params := e.params ++ [(name, value)] }

/-- `add_file` -/
def addFile (e : MultiPartEncoder) (fileName filePath : Bytes) : MultiPartEncoder :=
  { e with files := e.files ++ [(fileName, filePath)] }

/-- `set_boundary` -/
def setBoundary (e : MultiPartEncoder) (boundary : Bytes) : MultiPartEncoder :=
  { e with boundary := boundary }

/-! ### The parts of the body -/

/-- What is appended for a param. -/
def paramPart (boundary : Bytes) (param : Bytes × Bytes) : Bytes :=
  ascii "\r\n--" ++ boundary ++ ascii "\r\nContent-Disposition: form-data; name=\"" ++
    param.1 ++ ascii "\"\r\n\r\n" ++ param.2

/-- What is appended for a file that was read. -/
def filePart (boundary : Bytes) (file : Bytes × Bytes) (buf : Bytes) : Bytes :=
  ascii "\r\n--" ++ boundary ++ ascii "\r\nContent-Disposition: form-data; name=\"" ++
    file.1 ++ ascii "\"; filename=\"" ++ PathUtil.base file.2 ++
    ascii "\"\r\nContent-Type: " ++ toStrBySuffix (PathUtil.suffix file.2) ++
    ascii "\r\n\r\n" ++ buf

/-- The closing delimiter. -/
def closing (boundary : Bytes) : Bytes := ascii "\r\n--" ++ boundary ++ ascii "--\r\n"

/-! ### `HttpResp::String` -/

/-- The loop over the file list, at index `i`. -/
def queueFiles (probe : Nat → FileProbe) (fileCnt i : Nat) :
    List (Bytes × Bytes) → List PreadTask
  | [] => []
  | file :: files =>
    let fileCnt := fileCnt - 1
    if (probe i).isFile = false then queueFiles probe fileCnt (i + 1) files
    else
      match (probe i).size with
      | none => queueFiles probe fileCnt (i + 1) files
      | some _ =>
        ⟨file, (probe i).pread, fileCnt = 0⟩ :: queueFiles probe fileCnt (i + 1) files

/-- The callback of a `pread` task. -/
def callback (boundary : Bytes) (s : SeriesState) (task : PreadTask) : SeriesState :=
  let content :=
    match task.retval with
    | none => s.content
    | some buf => s.content ++ filePart boundary task.file buf
  if task.userData then
    let content := content ++ closing boundary
    ⟨content, s.outputBody ++ [content]⟩
  else ⟨content, s.outputBody⟩

/-- `HttpResp::String(MultiPartEncoder *)`, and the callbacks of the queued tasks in
order. `probe i` is about entry `i` of the file list. -/
def string (e : MultiPartEncoder) (probe : Nat → FileProbe) : FormResponse :=
  let tasks := queueFiles probe e.files.length 0 e.files
  let content := e.params.foldl (fun content param => content ++ paramPart e.boundary param) []
  let s := tasks.foldl (callback e.boundary) ⟨content, []⟩
  ⟨ascii "multipart/form-data; boundary=" ++ e.boundary, s.outputBody⟩

/-! ### The whole body -/

/-- A task is queued for entry `i`. -/
def Queued (probe : Nat → FileProbe) (i : Nat) : Prop :=
  (probe i).isFile = true ∧ (probe i).size.isSome

instance (probe : Nat → FileProbe) (i : Nat) : Decidable (Queued probe i) :=
  inferInstanceAs (Decidable (_ ∧ _))

/-- The parts of the files from index `i` on that were read, in order. -/
def fileParts (boundary : Bytes) (probe : Nat → FileProbe) (i : Nat) :
    List (Bytes × Bytes) → Bytes
  | [] => []
  | file :: files =>
    (match (probe i).pread with
      | some buf => if Queued probe i then filePart boundary file buf else []
      | none => []) ++ fileParts boundary probe (i + 1) files

/-- All params, the files that were read, and the closing delimiter. -/
def wholeBody (e : MultiPartEncoder) (probe : Nat → FileProbe) : Bytes :=
  (e.params.map (paramPart e.boundary)).flatten ++ fileParts e.boundary probe 0 e.files ++
    closing e.boundary

variable {probe : Nat → FileProbe}

private theorem queueFiles_cons_of_queued {i fileCnt : Nat} (h : Queued probe i)
    (file : Bytes × Bytes) (files : List (Bytes × Bytes)) :
    queueFiles probe fileCnt i (file :: files) =
      ⟨file, (probe i).pread, fileCnt - 1 = 0⟩ ::
        queueFiles probe (fileCnt - 1) (i + 1) files := by
  obtain ⟨hfile, hsize⟩ := h
  obtain ⟨n, hn⟩ := Option.isSome_iff_exists.mp hsize
  simp [queueFiles, hfile, hn]

private theorem queueFiles_cons_of_not_queued {i fileCnt : Nat} (h : ¬ Queued probe i)
    (file : Bytes × Bytes) (files : List (Bytes × Bytes)) :
    queueFiles probe fileCnt i (file :: files) =
      queueFiles probe (fileCnt - 1) (i + 1) files := by
  rw [queueFiles]
  split_ifs with hfile
  · rfl
  · split
    · rfl
    next n hn =>
      have hfile' : (probe i).isFile = true := by simpa using hfile
      exact absurd ⟨hfile', by simp [hn]⟩ h

/-- **The chain of callbacks.** After the tasks of the files from index `i` on, `content`
has their parts, and the body was appended once if the last of these files was queued
and not at all otherwise. The countdown starts at the number of files left. -/
theorem run_queueFiles (boundary : Bytes) (probe : Nat → FileProbe)
    (files : List (Bytes × Bytes)) (i : Nat) (content : Bytes) (out : List Bytes) :
    ((queueFiles probe files.length i files).foldl (callback boundary) ⟨content, out⟩).outputBody =
      if files ≠ [] ∧ Queued probe (i + files.length - 1) then
        out ++ [content ++ fileParts boundary probe i files ++ closing boundary]
      else out := by
  -- on the files that are left, whose number is the countdown
  induction files generalizing i content with
  | nil => simp [queueFiles]
  | cons file files ih =>
    have hcnt : (file :: files).length - 1 = files.length := rfl
    have hidx : i + (file :: files).length - 1 = i + files.length := rfl
    by_cases hlast : files = []
    · -- the countdown is at 0
      subst hlast
      by_cases hq : Queued probe i
      · rw [queueFiles_cons_of_queued hq, if_pos ⟨List.cons_ne_nil _ _, hq⟩]
        cases hp : (probe i).pread <;> simp [queueFiles, callback, fileParts, hp, hq]
      · rw [queueFiles_cons_of_not_queued hq, if_neg fun h => hq h.2]
        rfl
    · have hpos : files.length ≠ 0 := fun h => hlast (List.length_eq_zero_iff.mp h)
      -- a file before the last adds its part at most, and appends no body
      have hnext : i + 1 + files.length - 1 = i + files.length := by omega
      have hcond : (file :: files ≠ [] ∧ Queued probe (i + (file :: files).length - 1)) ↔
          (files ≠ [] ∧ Queued probe (i + 1 + files.length - 1)) := by
        rw [hidx, hnext]
        simp [hlast]
      rw [if_congr hcond rfl rfl]
      by_cases hq : Queued probe i
      · rw [queueFiles_cons_of_queued hq, hcnt, List.foldl_cons]
        cases hp : (probe i).pread with
        | none =>
          have hstep : callback boundary ⟨content, out⟩ ⟨file, none, files.length = 0⟩ =
              ⟨content, out⟩ := by
            simp [callback, hpos]
          rw [hstep, ih]
          simp [fileParts, hp]
        | some buf =>
          have hstep : callback boundary ⟨content, out⟩ ⟨file, some buf, files.length = 0⟩ =
              ⟨content ++ filePart boundary file buf, out⟩ := by
            simp [callback, hpos]
          rw [hstep, ih]
          simp [fileParts, hp, hq]
      · rw [queueFiles_cons_of_not_queued hq, hcnt, ih]
        cases hp : (probe i).pread <;> simp [fileParts, hp, hq]

private theorem foldl_paramPart (boundary : Bytes) (params : List (Bytes × Bytes))
    (content : Bytes) :
    params.foldl (fun content param => content ++ paramPart boundary param) content =
      content ++ (params.map (paramPart boundary)).flatten := by
  induction params generalizing content with
  | nil => simp
  | cons param params ih =>
    rw [List.foldl_cons, ih]
    simp

/-- What the response puts out. -/
theorem outputBody_string (e : MultiPartEncoder) (probe : Nat → FileProbe) :
    (e.string probe).outputBody =
      if e.files ≠ [] ∧ Queued probe (e.files.length - 1) then [e.wholeBody probe] else [] := by
  have hrun := run_queueFiles e.boundary probe e.files 0
    (e.params.map (paramPart e.boundary)).flatten []
  rw [Nat.zero_add] at hrun
  rw [string, foldl_paramPart, List.nil_append]
  exact hrun

/-- **When a form is sent whole.** The body is appended exactly once, with all its
parts, if and only if there is a file and the last one of the list is a regular file
whose size can be determined. -/
theorem string_whole_iff (e : MultiPartEncoder) (probe : Nat → FileProbe) :
    (e.string probe).outputBody = [e.wholeBody probe] ↔
      ∃ n, e.files.length = n + 1 ∧ (probe n).isFile = true ∧ (probe n).size.isSome := by
  rw [outputBody_string]
  constructor
  · intro h
    split_ifs at h with hc
    obtain ⟨hne, hq⟩ := hc
    have hpos := List.length_pos_iff.mpr hne
    exact ⟨e.files.length - 1, by omega, hq⟩
  · rintro ⟨n, hlen, hq⟩
    have hne : e.files ≠ [] := fun h => by simp [h] at hlen
    rw [if_pos ⟨hne, by rw [hlen]; exact hq⟩]

/-- Without files not even the params are sent. -/
theorem not_string_whole_param :
    ¬ ∀ (e : MultiPartEncoder) (probe : Nat → FileProbe),
      (e.string probe).outputBody = [e.wholeBody probe] := by
  intro hall
  have h := hall (new.addParam (ascii "n") (ascii "v")) fun _ => ⟨false, none, none⟩
  cases h

end MultiPartEncoder

end Wfrest
