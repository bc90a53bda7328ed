import Wfrest.Base.ContentType
import Wfrest.Base.PathUtil

/-!
# File ranges

`HttpFile::send_file` answers with the bytes `[start, end)` of a file. It narrows both
ends from `size_t` to `int`, and looks at the size of the file only for an end of `-1` or
a negative start. So nothing keeps the range inside the file: `sendFile_inside_iff` says
for which ends it is.
-/

namespace Wfrest

/-- The values of `ErrorCode` that `send_file` returns. -/
inductive ErrorCode where
  | StatusOK
  | StatusNotFound
  | StatusFileRangeInvalid
  deriving DecidableEq, Repr

/-- What the calls about the path give. -/
structure FileStat where
  /-- `PathUtil::is_file` -/
  isFile : Bool
  /-- `FileUtil::size`; `none` unless `StatusOK`. -/
  size : Option Nat

/-- A queued `pread` task. -/
structure FilePread where
  path : Bytes
  size : Nat
  offset : Int
  deriving DecidableEq

/-- The part of a response that `send_file` changes: the assignments to `headers`, and the
tasks of its series. -/
structure FileResponse where
  headers : List (Bytes × Bytes)
  tasks : List FilePread
  deriving DecidableEq

namespace HttpFile

/-- The value of `Content-Range`. -/
def contentRange (start stop : Int) (size : Nat) : Bytes :=
  ascii "bytes " ++ ascii (toString start) ++ ascii "-" ++ ascii (toString stop) ++ ascii "/" ++
    ascii (toString size)

/-- The value of `Content-Type`. -/
def contentTypeOf (path : Bytes) : Bytes :=
  let suffix := PathUtil.suffix path
  let contentType := if suffix ≠ [] then toEnumBySuffix suffix else .CONTENT_TYPE_NONE
  toStr (if contentType = .CONTENT_TYPE_NONE ∨ contentType = .CONTENT_TYPE_UNDEFINED then
    .APPLICATION_OCTET_STREAM else contentType)

/-- The two ends as `send_file` sets them; `none` when the size cannot be determined. The sum
of the size and the start is a `size_t`, which wraps at a multiple of `2 ^ 32`. -/
def ends (size : Option Nat) (fileStart fileEnd : Nat) : Option (Int × Int) :=
  let start := toInt fileStart
  let stop := toInt fileEnd
  if stop = -1 ∨ start < 0 then
    size.map fun (fileSize : Nat) =>
      (if start < 0 then toInt (fileSize + start) else start,
        if stop = -1 then toInt fileSize else stop)
  else some (start, stop)

/-- `HttpFile::send_file` -/
def sendFile (stat : FileStat) (path : Bytes) (fileStart fileEnd : Nat) (resp : FileResponse) :
    FileResponse × ErrorCode :=
  if stat.isFile = false then (resp, .StatusNotFound)
  else
    match ends stat.size fileStart fileEnd with
    | none => (resp, .StatusNotFound)
    | some (start, stop) =>
      if stop ≤ start then (resp, .StatusFileRangeInvalid)
      else
        let size := toSize (toInt (stop - start))
        ({ headers := resp.headers ++ [(ascii "Content-Type", contentTypeOf path),
            (ascii "Content-Range", contentRange start stop size)]
           tasks := resp.tasks ++ [⟨path, size, start⟩] }, .StatusOK)

/-- Without success nothing is added. -/
theorem sendFile_of_ne_ok {stat : FileStat} {path : Bytes} {fileStart fileEnd : Nat}
    {resp : FileResponse} (h : (sendFile stat path fileStart fileEnd resp).2 ≠ .StatusOK) :
    (sendFile stat path fileStart fileEnd resp).1 = resp := by
  unfold sendFile at h ⊢
  split
  · rfl
  next hfile =>
    rw [if_neg hfile] at h
    split
    · rfl
    next start stop hends =>
      rw [hends] at h
      dsimp only at h
      split
      · rfl
      next hlt =>
        rw [if_neg hlt] at h
        exact absurd rfl h

/-! ### The range that was asked for -/

/-- A start from `2 ^ 63` on is a negative one, which counts from the end of the file. -/
def requestedStart (n fileStart : Nat) : Int :=
  if fileStart < 2 ^ 63 then fileStart else n + fileStart - 2 ^ 64

/-- An end of `-1` is the end of the file. -/
def requestedEnd (n fileEnd : Nat) : Int := if fileEnd = 2 ^ 64 - 1 then n else fileEnd

/-- The number of bytes that a `pread` delivers from a file of `n` bytes. -/
def preadBytes (n : Nat) (task : FilePread) : Nat :=
  if task.offset < 0 then 0 else min task.size (n - task.offset.toNat)

/-- What `send_file` did with a regular file of `n` bytes: it added the headers and the task
of the range that was asked for, which is a part of the file, or nothing. -/
structure Inside (n : Nat) (path : Bytes) (fileStart fileEnd : Nat) (resp : FileResponse) :
    Prop where
  range : (sendFile ⟨true, some n⟩ path fileStart fileEnd resp).2 = .StatusOK →
    0 ≤ requestedStart n fileStart ∧ requestedStart n fileStart < requestedEnd n fileEnd ∧
      requestedEnd n fileEnd ≤ n
  sent : (sendFile ⟨true, some n⟩ path fileStart fileEnd resp).2 = .StatusOK →
    ∃ (contentType : Bytes) (task : FilePread),
      (sendFile ⟨true, some n⟩ path fileStart fileEnd resp).1 =
        { headers := resp.headers ++ [(ascii "Content-Type", contentType),
            (ascii "Content-Range", contentRange (requestedStart n fileStart)
              (requestedEnd n fileEnd) task.size)]
          tasks := resp.tasks ++ [task] } ∧
      task.path = path ∧ task.offset = requestedStart n fileStart ∧
      (task.size : Int) = requestedEnd n fileEnd - requestedStart n fileStart ∧
      (preadBytes n task : Int) = requestedEnd n fileEnd - requestedStart n fileStart
  nothing : (sendFile ⟨true, some n⟩ path fileStart fileEnd resp).2 ≠ .StatusOK →
    (sendFile ⟨true, some n⟩ path fileStart fileEnd resp).1 = resp

/-- The range is not empty, lies in the file and ends below `2 ^ 31`; and a start that counts
from the end is still negative as an `int`, or the size is a multiple of `2 ^ 32`. -/
structure Fits (n fileStart fileEnd : Nat) : Prop where
  nonneg : 0 ≤ requestedStart n fileStart
  lt : requestedStart n fileStart < requestedEnd n fileEnd
  le : requestedEnd n fileEnd ≤ n
  int : requestedEnd n fileEnd < 2 ^ 31
  narrow : fileStart < 2 ^ 63 ∨ toInt fileStart < 0 ∨ 2 ^ 32 ∣ n

/-- The range is empty when the numbers are taken as `int`s. -/
def EmptyAsInts (n fileStart fileEnd : Nat) : Prop :=
  (if toInt fileEnd = -1 then toInt n else toInt fileEnd) ≤
    if toInt fileStart < 0 then toInt (n + fileStart) else toInt fileStart

instance (n fileStart fileEnd : Nat) : Decidable (EmptyAsInts n fileStart fileEnd) := by
  unfold EmptyAsInts; infer_instance

theorem ends_eq (n fileStart fileEnd : Nat) :
    ends (some n) fileStart fileEnd =
      some (if toInt fileStart < 0 then toInt (n + fileStart) else toInt fileStart,
        if toInt fileEnd = -1 then toInt n else toInt fileEnd) := by
  have hsum : toInt (n + toInt fileStart) = toInt (n + fileStart) := Int.add_bmod_bmod
  unfold ends
  dsimp only
  split
  · rw [Option.map_some, hsum]
  next h =>
    obtain ⟨hstop, hstart⟩ := not_or.mp h
    rw [if_neg hstart, if_neg hstop]

/-- A range that fits is the one that is used. -/
theorem ends_of_fits {n fileStart fileEnd : Nat} (hstart : fileStart < 2 ^ 64)
    (hend : fileEnd < 2 ^ 64) (h : Fits n fileStart fileEnd) :
    ends (some n) fileStart fileEnd =
      some (requestedStart n fileStart, requestedEnd n fileEnd) := by
  obtain ⟨hnonneg, hlt, hle, hint, hnarrow⟩ := h
  rw [ends_eq]
  refine congrArg some (Prod.ext ?_ ?_)
  · dsimp only
    unfold requestedStart at hnonneg hlt ⊢
    by_cases hpos : fileStart < 2 ^ 63
    · rw [if_pos hpos] at hnonneg hlt ⊢
      have hself : toInt fileStart = fileStart := toInt_of_lt (by omega)
      rw [hself, if_neg (by omega)]
    · rw [if_neg hpos] at hnonneg hlt ⊢
      have hsum : toInt (n + fileStart) = n + fileStart - 2 ^ 64 :=
        toInt_eq_of (q := 2 ^ 32) (by omega) (by omega) (by omega)
      split
      · exact hsum
      · -- the start lost its sign, and the size does not matter
        obtain ⟨m, rfl⟩ := (hnarrow.resolve_left hpos).resolve_left ‹_›
        exact toInt_eq_of (q := 2 ^ 32 - m) (by push_cast; omega) (by omega) (by omega)
  · dsimp only
    unfold requestedEnd at hlt hle hint ⊢
    by_cases hminus : fileEnd = 2 ^ 64 - 1
    · rw [if_pos hminus] at hint ⊢
      have hself : toInt fileEnd = -1 :=
        toInt_eq_of (q := 2 ^ 32) (by omega) (by omega) (by omega)
      rw [if_pos hself]
      exact toInt_of_lt (by omega)
    · rw [if_neg hminus] at hint ⊢
      have hself : toInt fileEnd = fileEnd := toInt_of_lt (by omega)
      rw [hself, if_neg (by omega)]

/-- A range that is used where it lies in the file is the one that fits. -/
theorem fits_of_ends {n fileStart fileEnd : Nat}
    (hends : ends (some n) fileStart fileEnd =
      some (requestedStart n fileStart, requestedEnd n fileEnd))
    (hnonneg : 0 ≤ requestedStart n fileStart)
    (hlt : requestedStart n fileStart < requestedEnd n fileEnd)
    (hle : requestedEnd n fileEnd ≤ n) : Fits n fileStart fileEnd := by
  rw [ends_eq] at hends
  obtain ⟨hstart, hstop⟩ := Prod.mk.inj (Option.some.inj hends)
  have hint : requestedEnd n fileEnd < 2 ^ 31 := by
    rw [← hstop]
    split
    · exact (toInt_spec n).choose_spec.2.2
    · exact (toInt_spec fileEnd).choose_spec.2.2
  refine ⟨hnonneg, hlt, hle, hint, ?_⟩
  by_cases hpos : fileStart < 2 ^ 63
  · exact Or.inl hpos
  by_cases hneg : toInt fileStart < 0
  · exact Or.inr (Or.inl hneg)
  -- the start as an `int` is the one that was asked for, so the size is lost in it
  rw [if_neg hneg, requestedStart, if_neg hpos] at hstart
  obtain ⟨q, hq, -, -⟩ := toInt_spec fileStart
  refine Or.inr (Or.inr ?_)
  omega

/-- A range that is not empty as `int`s is sent. -/
theorem sendFile_of_ends {n fileStart fileEnd : Nat} {start stop : Int}
    (hends : ends (some n) fileStart fileEnd = some (start, stop)) (hlt : start < stop)
    (path : Bytes) (resp : FileResponse) :
    sendFile ⟨true, some n⟩ path fileStart fileEnd resp =
      ({ headers := resp.headers ++ [(ascii "Content-Type", contentTypeOf path),
          (ascii "Content-Range", contentRange start stop (toSize (toInt (stop - start))))]
         tasks := resp.tasks ++ [⟨path, toSize (toInt (stop - start)), start⟩] },
        .StatusOK) := by
  unfold sendFile
  split
  next hfile => exact absurd hfile Bool.true_eq_false.mp
  split
  next hnone => exact absurd (hends.symm.trans hnone) (Option.some_ne_none _)
  next hsome =>
    obtain ⟨rfl, rfl⟩ := Prod.mk.inj (Option.some.inj (hends.symm.trans hsome))
    exact if_neg (Int.not_le.mpr hlt)

/-- A range that is empty as `int`s is refused. -/
theorem sendFile_of_empty {n fileStart fileEnd : Nat} {start stop : Int}
    (hends : ends (some n) fileStart fileEnd = some (start, stop)) (hle : stop ≤ start)
    (path : Bytes) (resp : FileResponse) :
    sendFile ⟨true, some n⟩ path fileStart fileEnd resp = (resp, .StatusFileRangeInvalid) := by
  unfold sendFile
  split
  next hfile => exact absurd hfile Bool.true_eq_false.mp
  split
  next hnone => exact absurd (hends.symm.trans hnone) (Option.some_ne_none _)
  next hsome =>
    obtain ⟨rfl, rfl⟩ := Prod.mk.inj (Option.some.inj (hends.symm.trans hsome))
    exact if_pos hle

/-- A range that is used is inside if it is the one that was asked for. -/
theorem inside_iff_of_ends {n fileStart fileEnd : Nat} (hn : n < 2 ^ 63) {start stop : Int}
    (hends : ends (some n) fileStart fileEnd = some (start, stop)) (hlt : start < stop)
    (hhigh : stop < 2 ^ 31) (path : Bytes) (resp : FileResponse) :
    Inside n path fileStart fileEnd resp ↔
      start = requestedStart n fileStart ∧ stop = requestedEnd n fileEnd ∧ 0 ≤ start ∧
        stop ≤ n := by
  have hsend := sendFile_of_ends hends hlt path resp
  constructor
  · intro h
    have hok := congrArg Prod.snd hsend
    obtain ⟨hnonneg, hlt', hle⟩ := h.range hok
    obtain ⟨contentType, task, hresp, -, hoffset, hsize, -⟩ := h.sent hok
    rw [hsend] at hresp
    have htasks := congrArg FileResponse.tasks hresp
    obtain rfl := List.singleton_inj.mp (List.append_cancel_left htasks)
    dsimp only at hoffset hsize
    generalize requestedStart n fileStart = start' at *
    generalize requestedEnd n fileEnd = stop' at *
    -- a length that is negative as an `int` is larger than the file
    obtain ⟨q, hq, hlowLen, hhighLen⟩ := toInt_spec (stop - start)
    have hpos : 0 ≤ toInt (stop - start) := by
      by_contra hneg
      rw [toSize_of_neg (by omega) hlowLen] at hsize
      omega
    rw [toSize_of_nonneg hpos (by omega)] at hsize
    omega
  · rintro ⟨hstart, hstop, hnonneg, hle⟩
    have hlen : (toSize (toInt (stop - start)) : Int) = stop - start := by
      have hself : toInt (stop - start) = stop - start :=
        toInt_eq_of (q := 0) (by omega) (by omega) (by omega)
      rw [hself]
      exact toSize_of_nonneg (by omega) (by omega)
    generalize toSize (toInt (stop - start)) = len at hlen hsend
    refine ⟨fun _ => ?_, fun _ => ?_, fun hfail => ?_⟩
    · rw [← hstart, ← hstop]
      exact ⟨hnonneg, hlt, hle⟩
    · rw [← hstart, ← hstop, hsend]
      refine ⟨contentTypeOf path, ⟨path, len, start⟩, rfl, rfl, rfl, hlen, ?_⟩
      unfold preadBytes
      dsimp only
      rw [if_neg (Int.not_lt.mpr hnonneg)]
      omega
    · exact absurd (congrArg Prod.snd hsend) hfail

/-- **When a range stays inside the file.** For a regular file: exactly if the range that was
asked for lies in the file, is not empty, ends below `2 ^ 31` and has a start that survives
the narrowing, or is empty when its ends are narrowed. -/
theorem sendFile_inside_iff {n : Nat} (hn : n < 2 ^ 63) (path : Bytes) {fileStart fileEnd : Nat}
    (hstart : fileStart < 2 ^ 64) (hend : fileEnd < 2 ^ 64) (resp : FileResponse) :
    Inside n path fileStart fileEnd resp ↔
      Fits n fileStart fileEnd ∨ EmptyAsInts n fileStart fileEnd := by
  have hends := ends_eq n fileStart fileEnd
  by_cases hempty : EmptyAsInts n fileStart fileEnd
  · -- nothing is sent
    refine iff_of_true ?_ (Or.inr hempty)
    have hsend := sendFile_of_empty hends hempty path resp
    refine ⟨fun hok => ?_, fun hok => ?_, fun _ => congrArg Prod.fst hsend⟩
    · rw [hsend] at hok
      cases hok
    · rw [hsend] at hok
      cases hok
  rw [or_iff_left hempty]
  have hhigh : ∀ m : Int, toInt m < 2 ^ 31 := fun m => (toInt_spec m).choose_spec.2.2
  have hused := inside_iff_of_ends hn hends (Int.not_le.mp hempty)
    (by split <;> exact hhigh _) path resp
  rw [hused]
  constructor
  · rintro ⟨hs, he, hnonneg, hle⟩
    have hlt := Int.not_le.mp hempty
    rw [hs, he] at hends
    rw [hs] at hnonneg
    rw [he] at hle
    refine fits_of_ends hends hnonneg ?_ hle
    rw [← hs, ← he]
    exact hlt
  · intro hfits
    rw [ends_of_fits hstart hend hfits] at hends
    obtain ⟨hs, he⟩ := Prod.mk.inj (Option.some.inj hends)
    refine ⟨hs.symm, he.symm, ?_, ?_⟩
    · rw [← hs]
      exact hfits.nonneg
    · rw [← he]
      exact hfits.le

/-- The bytes from 2 to 5 of a file of 10. -/
theorem inside_ten : Inside 10 (ascii "f") 2 5 ⟨[], []⟩ :=
  (sendFile_inside_iff (by decide) (ascii "f") (by decide) (by decide) ⟨[], []⟩).mpr
    (Or.inl ⟨by decide, by decide, by decide, by decide, Or.inl (by decide)⟩)

/-- An end behind the end of the file is not looked at. -/
theorem not_inside_ten : ¬ ∀ (n : Nat) (path : Bytes) (fileStart fileEnd : Nat)
    (resp : FileResponse), n < 2 ^ 63 → fileStart < 2 ^ 64 → fileEnd < 2 ^ 64 →
      Inside n path fileStart fileEnd resp := by
  intro hall
  have hinside := hall 10 (ascii "f") 0 20 ⟨[], []⟩ (by decide) (by decide) (by decide)
  have hok : (sendFile ⟨true, some 10⟩ (ascii "f") 0 20 ⟨[], []⟩).2 = .StatusOK := by decide
  have hlong : ¬ requestedEnd 10 20 ≤ (10 : Nat) := by decide
  exact hlong (hinside.range hok).2.2

end HttpFile

end Wfrest
