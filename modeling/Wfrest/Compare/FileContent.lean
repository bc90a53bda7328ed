import Wfrest.Base.StrUtil
import Wfrest.Compare.DirAttr

/-!
# Reading the content of a file

The worker half of `dc_content_local_t`: `thd_worker_file_content_prepare` opens the
file, and each `thd_worker_file_content_read` reads up to 16 MiB, hashes the lines
that end in them and keeps the unfinished one in `file_pre_line_`.

The answers of the operating system are arguments. `int` is 32 bits wide and wraps;
OpenSSL's digests are a parameter. Logging is left out.
-/

namespace Wfrest

def DC_CONTENT_FILE_READ_BUF : Nat := 16777216

/-- The digests that the readers use. -/
structure Digests where
  /-- `SHA1` -/
  sha1 : Bytes → Bytes
  /-- `MD5` -/
  md5 : Bytes → Bytes

/-- The part of `dc_content_local_t` that the worker uses on a file. -/
structure FileReader where
  filePath : Bytes
  /-- `file_read_buf_` is allocated. -/
  fileReadBuf : Bool
  filePreLine : Bytes
  fileReadFd : Int
  /-- `*lines_sha1_` -/
  linesSha1 : List Bytes
  /-- `*empty_lines_` -/
  emptyLines : Int
  md5 : Bytes

namespace FileReader

variable (D : Digests)

/-- A new reader that has been given a path and empty results. -/
def fresh (path : Bytes) : FileReader where
  filePath := path
  fileReadBuf := false
  filePreLine := []
  fileReadFd := -1
  linesSha1 := []
  emptyLines := 0
  md5 := List.replicate 16 0

/-- `thd_worker_clear_pre_line` -/
def clearPreLine (r : FileReader) : FileReader := { r with filePreLine := [] }

/-- `thd_worker_append_to_pre_line` -/
def appendToPreLine (r : FileReader) (s : Bytes) : Except Fault FileReader := do
  if s = [] then return r
  assertFault (s.length ≤ DC_CONTENT_FILE_READ_BUF)
  return { r with filePreLine := r.filePreLine ++ s }

/-- `thd_worker_check_is_empty_line` -/
def checkIsEmptyLine (s : Bytes) (len : Int) : Except Fault Bool := do
  assertFault (0 ≤ len)
  return (s.take len.toNat).all isspace

/-- The common end of the readers: count an empty line, or add the digest of another
one. `file_pre_line_` is cleared by `compute_sha1_of_single_line` in both cases. -/
def addLine (r : FileReader) (s : Bytes) (len : Int) (isEmpty : Bool) : FileReader :=
  if isEmpty then { r with emptyLines := toInt (r.emptyLines + 1) }
  else { r with linesSha1 := r.linesSha1 ++ [D.sha1 (s.take len.toNat)] }

/-- `thd_worker_compute_sha1_of_single_line` -/
def computeSha1OfSingleLine (r : FileReader) (s : Bytes) : Except Fault FileReader := do
  let r' ← if r.filePreLine = [] then .ok r else r.appendToPreLine s
  let (str, len) :=
    if r.filePreLine = [] then (s, (s.length : Int))
    else (r'.filePreLine, toInt r'.filePreLine.length)
  let isEmpty ← checkIsEmptyLine str len
  return (r'.addLine D str len isEmpty).clearPreLine

/-- The loop of `compute_sha1_by_lines` at index `i` of the buffer `buf`, of which
`rest` is what follows `i`, and then the tail. -/
def computeSha1ByLinesFrom (buf : Bytes) (r : FileReader) (curLineBegin i : Nat) :
    Bytes → Except Fault FileReader
  | [] =>
    if curLineBegin < i then r.appendToPreLine ((buf.take i).drop curLineBegin) else .ok r
  | c :: rest =>
    if c = lf then do
      let r ← r.computeSha1OfSingleLine D ((buf.take i).drop curLineBegin)
      computeSha1ByLinesFrom buf r (i + 1) (i + 1) rest
    else computeSha1ByLinesFrom buf r curLineBegin (i + 1) rest

/-- `compute_sha1_by_lines` -/
def computeSha1ByLines (r : FileReader) (buf : Bytes) : Except Fault FileReader := do
  assertFault (0 < buf.length)
  computeSha1ByLinesFrom D buf r 0 0 buf

/-- What both branches at the end of the file do with `file_pre_line_`. An empty line
stays in it. -/
def flushPreLine (r : FileReader) : Except Fault FileReader := do
  if r.filePreLine = [] then return r
  let isEmpty ← checkIsEmptyLine r.filePreLine (toInt r.filePreLine.length)
  let r' := r.addLine D r.filePreLine (r.filePreLine.length : Int) isEmpty
  return if isEmpty then r' else r'.clearPreLine

/-- `close(file_read_fd_)` -/
def close (r : FileReader) : FileReader := { r with fileReadFd := -1 }

/-- `thd_worker_file_content_prepare`. `memalign` says whether `posix_memalign` succeeds,
`fd` is what `open` returns, none when it fails. -/
def prepare (r : FileReader) (memalign : Bool) (fd : Option Nat) :
    Except Fault (FileReader × DcCommonCode) := do
  assertFault (0 < r.filePath.length)
  assertFault (r.linesSha1.length = 0)
  assertFault (r.emptyLines = 0)
  if ¬ r.fileReadBuf ∧ ¬ memalign then return (r, .E_OS_ENV_MEM)
  let r := { r with fileReadBuf := true }
  assertFault (r.fileReadFd = -1)
  match fd with
  | none => return ({ r with fileReadFd := -1 }, .E_OS_ENV_OPEN)
  | some fd => return ({ r with fileReadFd := fd }, .S_SUCCESS)

/-- `thd_worker_file_content_read`, where `read` delivers `buf`, or fails. -/
def fileContentRead (r : FileReader) (buf : Option Bytes) :
    Except Fault (FileReader × DcCommonCode) := do
  assertFault (0 < r.filePath.length)
  assertFault (0 ≤ r.fileReadFd)
  match buf with
  | none => return (r, .E_OS_ENV_READ)
  | some buf =>
    let r := { r with md5 := D.md5 buf }
    if buf.length = 0 then
      let r ← r.flushPreLine D
      return (r.close, .E_DC_CONTENT_OVER)
    else if buf.length < DC_CONTENT_FILE_READ_BUF then
      let r ← r.computeSha1ByLines D buf
      let r ← r.flushPreLine D
      return (r.close, .E_DC_CONTENT_OVER)
    else
      assertFault (buf.length = DC_CONTENT_FILE_READ_BUF)
      let r ← r.computeSha1ByLines D buf
      return (r, .S_SUCCESS)

/-! ### What the steps do to the descriptor -/

variable {D} {r r' : FileReader} {code : DcCommonCode}

theorem fileReadFd_appendToPreLine {s : Bytes} (h : r.appendToPreLine s = .ok r') :
    r'.fileReadFd = r.fileReadFd := by
  unfold appendToPreLine at h
  split at h
  · obtain rfl := Except.ok.inj h
    rfl
  · obtain ⟨-, -, h⟩ := bind_eq_ok.mp h
    obtain rfl := Except.ok.inj h
    rfl

theorem fileReadFd_addLine (s : Bytes) (len : Int) (isEmpty : Bool) :
    (r.addLine D s len isEmpty).fileReadFd = r.fileReadFd := by
  cases isEmpty <;> rfl

theorem fileReadFd_computeSha1OfSingleLine {s : Bytes}
    (h : r.computeSha1OfSingleLine D s = .ok r') : r'.fileReadFd = r.fileReadFd := by
  unfold computeSha1OfSingleLine at h
  split at h
  · obtain ⟨r₁, happ, h⟩ := bind_eq_ok.mp h
    obtain ⟨isEmpty, -, h⟩ := bind_eq_ok.mp h
    obtain rfl := Except.ok.inj happ
    obtain rfl := Except.ok.inj h
    exact fileReadFd_addLine _ _ isEmpty
  · obtain ⟨r₁, happ, h⟩ := bind_eq_ok.mp h
    obtain ⟨isEmpty, -, h⟩ := bind_eq_ok.mp h
    obtain rfl := Except.ok.inj h
    exact (fileReadFd_addLine _ _ isEmpty).trans (fileReadFd_appendToPreLine happ)

theorem fileReadFd_computeSha1ByLinesFrom {buf rest : Bytes} {curLineBegin i : Nat}
    (h : computeSha1ByLinesFrom D buf r curLineBegin i rest = .ok r') :
    r'.fileReadFd = r.fileReadFd := by
  induction rest generalizing r curLineBegin i with
  | nil =>
    unfold computeSha1ByLinesFrom at h
    split at h
    · exact fileReadFd_appendToPreLine h
    · obtain rfl := Except.ok.inj h
      rfl
  | cons c rest ih =>
    unfold computeSha1ByLinesFrom at h
    split at h
    · obtain ⟨r₁, hline, h⟩ := bind_eq_ok.mp h
      exact (ih h).trans (fileReadFd_computeSha1OfSingleLine hline)
    · exact ih h

/-- Hashing a buffer leaves the file open. -/
theorem fileReadFd_computeSha1ByLines {buf : Bytes} (h : r.computeSha1ByLines D buf = .ok r') :
    r'.fileReadFd = r.fileReadFd := by
  obtain ⟨-, -, h⟩ := bind_eq_ok.mp h
  exact fileReadFd_computeSha1ByLinesFrom h

theorem fileReadFd_flushPreLine (h : r.flushPreLine D = .ok r') :
    r'.fileReadFd = r.fileReadFd := by
  unfold flushPreLine at h
  split at h
  · obtain rfl := Except.ok.inj h
    rfl
  · obtain ⟨isEmpty, -, h⟩ := bind_eq_ok.mp h
    obtain rfl := Except.ok.inj h
    cases isEmpty <;> rfl

/-- A call of the operating system fails in `prepare`. -/
def PrepareFails (r : FileReader) (memalign : Bool) (fd : Option Nat) : Prop :=
  (r.fileReadBuf = false ∧ memalign = false) ∨ fd = none

/-- What `prepare` can do. -/
inductive PrepareCase (r : FileReader) (memalign : Bool) :
    Option Nat → FileReader → DcCommonCode → Prop
  | noMemory {fd : Option Nat} (hbuf : r.fileReadBuf = false) (hmem : memalign = false) :
      PrepareCase r memalign fd r .E_OS_ENV_MEM
  | notOpened :
      PrepareCase r memalign none { r with fileReadBuf := true, fileReadFd := -1 } .E_OS_ENV_OPEN
  | opened {fd : Nat} :
      PrepareCase r memalign (some fd) { r with fileReadBuf := true, fileReadFd := fd } .S_SUCCESS

/-- **Inversion.** -/
theorem prepareCase {memalign : Bool} {fd : Option Nat}
    (h : r.prepare memalign fd = .ok (r', code)) : PrepareCase r memalign fd r' code := by
  obtain ⟨-, -, h⟩ := bind_eq_ok.mp h
  obtain ⟨-, -, h⟩ := bind_eq_ok.mp h
  obtain ⟨-, -, h⟩ := bind_eq_ok.mp h
  split at h
  next hmem =>
    obtain ⟨rfl, rfl⟩ := Prod.mk.inj (Except.ok.inj h)
    obtain ⟨hbuf, hmem⟩ : r.fileReadBuf = false ∧ memalign = false := by simpa using hmem
    exact .noMemory hbuf hmem
  · obtain ⟨-, -, h⟩ := bind_eq_ok.mp h
    cases fd with
    | none =>
      obtain ⟨rfl, rfl⟩ := Prod.mk.inj (Except.ok.inj h)
      exact .notOpened
    | some fd =>
      obtain ⟨rfl, rfl⟩ := Prod.mk.inj (Except.ok.inj h)
      exact .opened

/-- `prepare` opens the file, or a call has failed and nothing is open. -/
theorem prepare_cases {memalign : Bool} {fd : Option Nat} (hfd : r.fileReadFd = -1)
    (h : r.prepare memalign fd = .ok (r', code)) :
    (code = .S_SUCCESS ∧ 0 ≤ r'.fileReadFd) ∨
      ((code = .E_OS_ENV_MEM ∨ code = .E_OS_ENV_OPEN) ∧ r'.fileReadFd = -1 ∧
        r.PrepareFails memalign fd) := by
  cases prepareCase h with
  | noMemory hbuf hmem => exact Or.inr ⟨Or.inl rfl, hfd, Or.inl ⟨hbuf, hmem⟩⟩
  | notOpened => exact Or.inr ⟨Or.inr rfl, rfl, Or.inr rfl⟩
  | @opened fd => exact Or.inl ⟨rfl, Int.natCast_nonneg fd⟩

/-- `prepare` does not touch the results. -/
theorem results_prepare {memalign : Bool} {fd : Option Nat}
    (h : r.prepare memalign fd = .ok (r', code)) :
    r'.linesSha1 = r.linesSha1 ∧ r'.emptyLines = r.emptyLines := by
  cases prepareCase h with
  | noMemory | notOpened | opened => exact ⟨rfl, rfl⟩

/-- The error of `open` comes from `open` alone. -/
theorem eq_none_of_prepare {memalign : Bool} {fd : Option Nat}
    (h : r.prepare memalign fd = .ok (r', .E_OS_ENV_OPEN)) : fd = none := by
  cases prepareCase h with
  | notOpened => rfl

/-- A read keeps the file open until its end, where it closes it. A read that fails
keeps it open. -/
theorem fileContentRead_cases {buf : Option Bytes} (h : r.fileContentRead D buf = .ok (r', code)) :
    0 ≤ r.fileReadFd ∧
      ((code = .S_SUCCESS ∧ r'.fileReadFd = r.fileReadFd) ∨
        (code = .E_DC_CONTENT_OVER ∧ r'.fileReadFd = -1) ∨
        (code = .E_OS_ENV_READ ∧ r'.fileReadFd = r.fileReadFd ∧ buf = none)) := by
  obtain ⟨-, -, h⟩ := bind_eq_ok.mp h
  obtain ⟨_, hopen, h⟩ := bind_eq_ok.mp h
  refine ⟨of_decide_eq_true (assertFault_eq_ok.mp hopen), ?_⟩
  cases buf with
  | none =>
    obtain ⟨rfl, rfl⟩ := Prod.mk.inj (Except.ok.inj h)
    exact Or.inr (Or.inr ⟨rfl, rfl, rfl⟩)
  | some buf =>
    dsimp only at h
    split at h
    -- no bytes, or a short read: the file is over and is closed
    · obtain ⟨r₁, -, h⟩ := bind_eq_ok.mp h
      obtain ⟨rfl, rfl⟩ := Prod.mk.inj (Except.ok.inj h)
      exact Or.inr (Or.inl ⟨rfl, rfl⟩)
    split at h
    · obtain ⟨r₁, -, h⟩ := bind_eq_ok.mp h
      obtain ⟨r₂, -, h⟩ := bind_eq_ok.mp h
      obtain ⟨rfl, rfl⟩ := Prod.mk.inj (Except.ok.inj h)
      exact Or.inr (Or.inl ⟨rfl, rfl⟩)
    · obtain ⟨-, -, h⟩ := bind_eq_ok.mp h
      obtain ⟨r₁, hsha, h⟩ := bind_eq_ok.mp h
      obtain ⟨rfl, rfl⟩ := Prod.mk.inj (Except.ok.inj h)
      have hfd := fileReadFd_computeSha1ByLines hsha
      exact Or.inl ⟨rfl, hfd⟩

end FileReader

end Wfrest
