import Wfrest.Compare.FileContent
import Wfrest.Lib.Lines

/-!
# Hashing a file by lines

A file that is longer than the buffer reaches the reader in several chunks, cut
without regard to its lines. The reader ends with what a pass over the lines of the
whole file gives, wherever the cuts fall (`readFile_spec`), and so does the
line-by-line reference of the tests (`computeFileSha1SkipEmptyLine_eq`).

Both count the empty lines in an `int`, so that the count of a file with `2 ^ 31` of
them is not their number (`emptyLines_overflow`).
-/

namespace Wfrest

open Lines

variable (D : Digests)

/-! ### The reference -/

/-- `std::getline`: the line and what is left, `none` at the end of the file. -/
def getline (s : Bytes) : Option (Bytes × Bytes) :=
  if s = [] then none else some (s.takeWhile (· ≠ lf), (s.dropWhile (· ≠ lf)).tail)

theorem length_getline {s line rest : Bytes} (h : getline s = some (line, rest)) :
    rest.length < s.length := by
  unfold getline at h
  split at h
  · cases h
  next hne =>
    obtain ⟨-, rfl⟩ := Prod.mk.inj (Option.some.inj h)
    have hdrop : (s.dropWhile (· ≠ lf)).length ≤ s.length := (List.dropWhile_sublist _).length_le
    have hpos : 0 < s.length := List.length_pos_iff.mpr hne
    rw [List.length_tail]
    omega

/-- The loop of `compute_file_sha1_skip_empty_line`, with the digests and the empty
lines so far. -/
def computeFileSha1Loop (linesSha1 : List Bytes) (emptyLines : Int) (s : Bytes) :
    List Bytes × Int :=
  match h : getline s with
  | none => (linesSha1, emptyLines)
  | some (line, rest) =>
    have : rest.length < s.length := length_getline h
    if line.length = 0 then computeFileSha1Loop linesSha1 (toInt (emptyLines + 1)) rest
    else
      let validCharNumber := if line.any (¬ isspace ·) then 1 else 0
      if validCharNumber = 0 then computeFileSha1Loop linesSha1 (toInt (emptyLines + 1)) rest
      else computeFileSha1Loop (linesSha1 ++ [D.sha1 line]) emptyLines rest
termination_by s.length

/-- `compute_file_sha1_skip_empty_line` on the content of a file that can be opened. -/
def computeFileSha1SkipEmptyLine (content : Bytes) : List Bytes × Int :=
  computeFileSha1Loop D [] 0 content

/-! ### A pass over the lines -/

/-- A line with no byte but spaces, or with none at all. -/
def allSpace (line : Bytes) : Bool := line.all isspace

/-- One line: count it when it is all space, else add its digest. -/
def countLine (acc : List Bytes × Int) (line : Bytes) : List Bytes × Int :=
  if allSpace line then (acc.1, toInt (acc.2 + 1)) else (acc.1 ++ [D.sha1 line], acc.2)

theorem toInt_toInt_add (m n : Int) : toInt (toInt m + n) = toInt (m + n) :=
  Int.bmod_add_bmod

/-- The pass gives the digests of the other lines in order, and the number of the
all-space ones as an `int`. -/
theorem foldl_countLine (ls : List Bytes) (ds : List Bytes) (n : Int) :
    ls.foldl (countLine D) (ds, toInt n) =
      (ds ++ (ls.filter (! allSpace ·)).map D.sha1, toInt (n + ls.countP allSpace)) := by
  induction ls generalizing ds n with
  | nil => simp
  | cons line ls ih =>
    rw [List.foldl_cons, countLine]
    by_cases h : allSpace line = true
    · rw [if_pos h, toInt_toInt_add, ih, List.countP_cons_of_pos h,
        List.filter_cons_of_neg (by simpa using h)]
      push_cast
      rw [Int.add_assoc, Int.add_comm 1]
    · rw [if_neg h, ih, List.countP_cons_of_neg h, List.filter_cons_of_pos (by simpa using h),
        List.map_cons, List.append_assoc]
      rfl

/-- The reference is the pass. -/
theorem computeFileSha1Loop_eq (ds : List Bytes) (n : Int) (s : Bytes) :
    computeFileSha1Loop D ds n s = (lines lf s).foldl (countLine D) (ds, n) := by
  induction hlen : s.length using Nat.strong_induction_on generalizing s ds n with
  | _ k ih =>
    subst hlen
    -- `getline` takes at least a byte, so the induction is on what is left of the file
    by_cases hs : s = []
    · subst hs
      rw [lines_nil]
      unfold computeFileSha1Loop
      rfl
    · have hline : getline s =
          some (s.takeWhile (· ≠ lf), (s.dropWhile (· ≠ lf)).tail) := if_neg hs
      have hrec := fun ds n => ih _ (length_getline hline) ds n _ rfl
      rw [lines_of_ne_nil hs, List.foldl_cons]
      unfold computeFileSha1Loop
      split
      next hnone => rw [hline] at hnone; cases hnone
      next line rest hsome =>
      rw [hline] at hsome
      obtain ⟨rfl, rfl⟩ := Prod.mk.inj (Option.some.inj hsome)
      generalize s.takeWhile (· ≠ lf) = line at *
      -- an all-space line is counted on either branch of the source, the empty one on the first
      by_cases hall : allSpace line = true
      · have hcount : countLine D (ds, n) line = (ds, toInt (n + 1)) := if_pos hall
        have hany : line.any (¬ isspace ·) = false := by
          simpa [allSpace, List.any_eq_false, List.all_eq_true] using hall
        rw [hcount, hany]
        split
        · exact hrec _ _
        · exact hrec _ _
      · have hcount : countLine D (ds, n) line = (ds ++ [D.sha1 line], n) := if_neg hall
        have hany : line.any (¬ isspace ·) = true := by
          simpa [allSpace, List.any_eq_true, List.all_eq_true] using hall
        have hne : ¬ line.length = 0 := fun h0 => hall (by
          rw [List.length_eq_zero_iff.mp h0]
          rfl)
        rw [hcount, hany, if_neg hne]
        exact hrec _ _

theorem computeFileSha1SkipEmptyLine_eq (content : Bytes) :
    computeFileSha1SkipEmptyLine D content =
      (((lines lf content).filter (! allSpace ·)).map D.sha1,
        toInt ((lines lf content).countP allSpace)) := by
  unfold computeFileSha1SkipEmptyLine
  have hzero : (0 : Int) = toInt 0 := rfl
  rw [computeFileSha1Loop_eq, hzero, foldl_countLine, List.nil_append, Int.zero_add]

/-! ### The reader -/

namespace FileReader

/-- The results so far. -/
def results (r : FileReader) : List Bytes × Int := (r.linesSha1, r.emptyLines)

/-- The reader after the lines `ls`, with the unfinished line `carry`. -/
def afterLines (r : FileReader) (ls : List Bytes) (carry : Bytes) : FileReader :=
  { r with
    filePreLine := carry
    linesSha1 := (ls.foldl (countLine D) r.results).1
    emptyLines := (ls.foldl (countLine D) r.results).2 }

theorem afterLines_afterLines (r : FileReader) (ls ls' : List Bytes) (carry carry' : Bytes) :
    (r.afterLines D ls carry).afterLines D ls' carry' = r.afterLines D (ls ++ ls') carry' := by
  unfold afterLines results
  rw [List.foldl_append]

/-- The reader after the `MD5` of a buffer. -/
def withMd5 (r : FileReader) (digest : Bytes) : FileReader := { r with md5 := digest }

@[simp] theorem withMd5_withMd5 (r : FileReader) (digest digest' : Bytes) :
    (r.withMd5 digest).withMd5 digest' = r.withMd5 digest' := rfl

@[simp] theorem withMd5_afterLines (r : FileReader) (ls : List Bytes) (carry digest : Bytes) :
    (r.afterLines D ls carry).withMd5 digest = (r.withMd5 digest).afterLines D ls carry := rfl

/-- The end of a file. -/
def finish (r : FileReader) : Except Fault (FileReader × DcCommonCode) := do
  let r ← r.flushPreLine D
  return (r.close, .E_DC_CONTENT_OVER)

/-- The bytes of a line that its length as an `int` covers. A negative length is refused. -/
def intPart (line : Bytes) : Except Fault Bytes := do
  assertFault (0 ≤ toInt line.length)
  return line.take (toInt line.length).toNat

theorem intPart_of_lt {line : Bytes} (h : line.length < 2 ^ 31) : intPart line = .ok line := by
  unfold intPart
  rw [toInt_of_lt h, assertFault_of (Int.natCast_nonneg _), Int.toNat_natCast, List.take_length]
  rfl

theorem mapM_intPart_of_lt {ls : List Bytes} (h : ∀ line ∈ ls, line.length < 2 ^ 31) :
    ls.mapM intPart = .ok ls := by
  induction ls with
  | nil => rfl
  | cons line ls ih =>
    obtain ⟨hline, hls⟩ := List.forall_mem_cons.mp h
    rw [List.mapM_cons, intPart_of_lt hline, ih hls]
    rfl

/-- Adding a part of a line is a step of the pass over the lines. -/
theorem addLine_take (r : FileReader) (s carry : Bytes) (len : Int) :
    { r.addLine D s len (allSpace (s.take len.toNat)) with filePreLine := carry } =
      r.afterLines D [s.take len.toNat] carry := by
  unfold addLine afterLines
  rw [List.foldl_cons, List.foldl_nil, countLine]
  split <;> rfl

theorem intPart_eq_ok {s line : Bytes} :
    intPart s = .ok line ↔ 0 ≤ toInt s.length ∧ line = s.take (toInt s.length).toNat := by
  unfold intPart
  generalize toInt s.length = len
  by_cases hlen : 0 ≤ len
  · rw [assertFault_of hlen, ok_bind]
    exact ⟨fun h => ⟨hlen, (Except.ok.inj h).symm⟩, fun h => congrArg Except.ok h.2.symm⟩
  · rw [assertFault_of_not hlen]
    exact ⟨nofun, fun h => absurd h.1 hlen⟩

/-- The check of a line looks at the part that its length covers. -/
theorem checkIsEmptyLine_toInt (s : Bytes) :
    checkIsEmptyLine s (toInt s.length) = intPart s >>= fun line => .ok (allSpace line) := by
  unfold checkIsEmptyLine intPart
  generalize toInt s.length = len
  rw [bind_assoc]
  rfl

/-- A line that ends in the buffer, after the carry. -/
theorem computeSha1OfSingleLine_eq {r : FileReader} {s : Bytes}
    (hs : s.length ≤ DC_CONTENT_FILE_READ_BUF) :
    r.computeSha1OfSingleLine D s =
      intPart (r.filePreLine ++ s) >>= fun line => .ok (r.afterLines D [line] []) := by
  -- the reader, the line and its length that the function goes on with
  have hgo : ∃ r' : FileReader, r'.afterLines D = r.afterLines D ∧
      r.computeSha1OfSingleLine D s = checkIsEmptyLine (r.filePreLine ++ s)
        (toInt (r.filePreLine ++ s).length) >>= fun isEmpty => .ok (r'.addLine D
          (r.filePreLine ++ s) (toInt (r.filePreLine ++ s).length) isEmpty).clearPreLine := by
    unfold computeSha1OfSingleLine
    by_cases hpre : r.filePreLine = []
    · -- the buffer is shorter than `2 ^ 31`, so that its line is the whole one
      have hlen : toInt s.length = s.length := toInt_of_lt (hs.trans_lt (by decide))
      refine ⟨r, rfl, ?_⟩
      simp only [ok_bind, hpre, List.nil_append, hlen]
      rfl
    · have happ : r.appendToPreLine s = .ok { r with filePreLine := r.filePreLine ++ s } := by
        unfold appendToPreLine
        by_cases hnil : s = []
        · rw [if_pos hnil, hnil, List.append_nil]
          rfl
        · rw [if_neg hnil, assertFault_of hs]
          rfl
      refine ⟨{ r with filePreLine := r.filePreLine ++ s }, rfl, ?_⟩
      simp only [if_neg hpre, happ, ok_bind]
      rfl
  obtain ⟨r', hr', hgo⟩ := hgo
  rw [hgo, checkIsEmptyLine_toInt, bind_assoc]
  cases hline : intPart (r.filePreLine ++ s) with
  | error => rfl
  | ok line =>
    have hadd := addLine_take D r' (r.filePreLine ++ s) [] (toInt (r.filePreLine ++ s).length)
    rw [← (intPart_eq_ok.mp hline).2, hr'] at hadd
    rw [ok_bind, ok_bind, ok_bind, ← hadd]
    rfl

/-- **The loop over a buffer is a feed.** At index `i` the line begun in the buffer is
what stands between `curLineBegin` and `i`. -/
theorem computeSha1ByLinesFrom_eq {buf : Bytes} (hbuf : buf.length ≤ DC_CONTENT_FILE_READ_BUF)
    (r : FileReader) (before : Bytes) (curLineBegin : Nat) {rest : Bytes}
    (hsplit : buf = before ++ rest) (hcur : curLineBegin ≤ before.length) :
    computeSha1ByLinesFrom D buf r curLineBegin before.length rest =
      (feed lf (r.filePreLine ++ before.drop curLineBegin) rest).1.mapM intPart >>= fun ls =>
        .ok (r.afterLines D ls (feed lf (r.filePreLine ++ before.drop curLineBegin) rest).2) := by
  have hslice : buf.take before.length = before := by
    rw [hsplit, List.take_left]
  have hle : before.length ≤ buf.length := by
    rw [hsplit, List.length_append]
    exact Nat.le_add_right _ _
  -- on what is left of the buffer; `before` is what the loop has passed
  induction rest generalizing r before curLineBegin with
  | nil =>
    rw [feed_nil, computeSha1ByLinesFrom, hslice]
    split
    next hlt =>
      -- the buffer ends within a line: what it holds of it goes to the carry
      have hne : before.drop curLineBegin ≠ [] := by
        rw [Ne, List.drop_eq_nil_iff]
        omega
      have hlen : (before.drop curLineBegin).length ≤ DC_CONTENT_FILE_READ_BUF := by
        rw [List.length_drop]
        omega
      unfold appendToPreLine
      rw [if_neg hne, assertFault_of hlen]
      rfl
    next hge =>
      -- the buffer ends at a newline: the carry stays as it is
      have hnil : before.drop curLineBegin = [] := List.drop_eq_nil_iff.mpr (by omega)
      rw [hnil, List.append_nil]
      rfl
  | cons c rest ih =>
    have hsplit' : buf = (before ++ [c]) ++ rest := by
      rw [hsplit, List.append_assoc]
      rfl
    have hslice' : buf.take (before ++ [c]).length = before ++ [c] := by
      rw [hsplit', List.take_left]
    have hle' : (before ++ [c]).length ≤ buf.length := by
      rw [hsplit']
      exact (List.prefix_append _ _).length_le
    have hnext : (before ++ [c]).length = before.length + 1 := by
      rw [List.length_append]
      rfl
    rw [computeSha1ByLinesFrom]
    by_cases hc : c = lf
    · -- the line ends here: hash it, and the next one begins after it
      subst hc
      have hlen : (before.drop curLineBegin).length ≤ DC_CONTENT_FILE_READ_BUF := by
        rw [List.length_drop]
        omega
      have hdrop : (before ++ [lf]).drop (before.length + 1) = [] :=
        List.drop_eq_nil_iff.mpr hnext.le
      rw [feed_cons_sep, if_pos rfl, hslice, computeSha1OfSingleLine_eq D hlen, List.mapM_cons]
      cases intPart (r.filePreLine ++ before.drop curLineBegin) with
      | error => rfl
      | ok line =>
        have hih := ih (r.afterLines D [line] []) (before ++ [lf]) (before.length + 1) hsplit'
          hnext.ge hslice' hle'
        have hcarry : (r.afterLines D [line] []).filePreLine ++ [] = [] := rfl
        rw [hdrop, hnext, hcarry] at hih
        refine Eq.trans hih ?_
        simp only [afterLines_afterLines]
        cases List.mapM intPart (feed lf [] rest).1 <;> rfl
    · have hdrop : (before ++ [c]).drop curLineBegin = before.drop curLineBegin ++ [c] :=
        -- any other byte extends the line begun in the buffer
        List.drop_append_of_le_length hcur
      have hih := ih r (before ++ [c]) curLineBegin hsplit' (by omega) hslice' hle'
      rw [hdrop, hnext, ← List.append_assoc] at hih
      rw [feed_cons_of_ne hc, if_neg hc]
      exact hih

theorem computeSha1ByLines_eq {r : FileReader} {buf : Bytes} (hne : buf ≠ [])
    (hbuf : buf.length ≤ DC_CONTENT_FILE_READ_BUF) :
    r.computeSha1ByLines D buf = (feed lf r.filePreLine buf).1.mapM intPart >>= fun ls =>
      .ok (r.afterLines D ls (feed lf r.filePreLine buf).2) := by
  have hcarry : r.filePreLine ++ ([] : Bytes).drop 0 = r.filePreLine := List.append_nil _
  have hloop := computeSha1ByLinesFrom_eq D hbuf r [] 0 rfl le_rfl
  rw [hcarry] at hloop
  unfold computeSha1ByLines
  rw [assertFault_of (List.length_pos_iff.mpr hne)]
  exact hloop

/-- At the end of the file the carry is the last line, if it is one. A line with a byte
that is no space is cleared. -/
theorem flushPreLine_eq {r : FileReader} (hlen : r.filePreLine.length < 2 ^ 31) :
    r.flushPreLine D = .ok (r.afterLines D (lastLine r.filePreLine)
      (if allSpace r.filePreLine then r.filePreLine else [])) := by
  unfold flushPreLine lastLine checkIsEmptyLine
  by_cases hpre : r.filePreLine = []
  · rw [if_pos hpre, if_pos hpre, hpre]
    obtain ⟨path, hasBuf, pre, fd, ls, n, m⟩ := r
    obtain rfl := hpre
    rfl
  have hadd := fun carry => addLine_take D r r.filePreLine carry r.filePreLine.length
  rw [Int.toNat_natCast, List.take_length] at hadd
  rw [if_neg hpre, if_neg hpre, toInt_of_lt hlen, assertFault_of (Int.natCast_nonneg _),
    Int.toNat_natCast, List.take_length, ← hadd]
  cases hspace : allSpace r.filePreLine <;>
    simp only [allSpace] at hspace <;> simp only [bind, Except.bind, pure, Except.pure, hspace] <;>
    rfl

variable {r : FileReader} {buf : Bytes}

/-- **A full read** leaves the carry of the buffer. -/
theorem fileContentRead_full (hpath : r.filePath ≠ []) (hfd : 0 ≤ r.fileReadFd)
    (hlen : buf.length = DC_CONTENT_FILE_READ_BUF) :
    r.fileContentRead D (some buf) = (feed lf r.filePreLine buf).1.mapM intPart >>= fun ls =>
      .ok ((r.withMd5 (D.md5 buf)).afterLines D ls (feed lf r.filePreLine buf).2,
        .S_SUCCESS) := by
  have hne : buf ≠ [] := fun h0 => by
    rw [h0] at hlen
    cases hlen
  have hsha := computeSha1ByLines_eq D (r := r.withMd5 (D.md5 buf)) hne hlen.le
  unfold withMd5 at hsha
  have hzero : ¬ buf.length = 0 := fun h0 => hne (List.length_eq_zero_iff.mp h0)
  unfold fileContentRead
  rw [assertFault_of (List.length_pos_iff.mpr hpath), assertFault_of hfd]
  simp only [ok_bind, if_neg hzero, if_neg hlen.not_lt, assertFault_of hlen, hsha, bind_assoc]
  rfl

/-- **A short read**, also one of no bytes, ends the file. -/
theorem fileContentRead_short (hpath : r.filePath ≠ []) (hfd : 0 ≤ r.fileReadFd)
    (hlen : buf.length < DC_CONTENT_FILE_READ_BUF) :
    r.fileContentRead D (some buf) = (feed lf r.filePreLine buf).1.mapM intPart >>= fun ls =>
      ((r.withMd5 (D.md5 buf)).afterLines D ls (feed lf r.filePreLine buf).2).finish D := by
  unfold fileContentRead
  rw [assertFault_of (List.length_pos_iff.mpr hpath), assertFault_of hfd]
  by_cases hzero : buf.length = 0
  · -- nothing was read: the carry alone is left
    obtain rfl := List.length_eq_zero_iff.mp hzero
    rfl
  · have hne : buf ≠ [] := fun h0 => hzero (by rw [h0]; rfl)
    have hsha := computeSha1ByLines_eq D (r := r.withMd5 (D.md5 buf)) hne hlen.le
    unfold withMd5 at hsha
    simp only [ok_bind, if_neg hzero, if_pos hlen, hsha, bind_assoc]
    rfl

/-! ### Whole files -/

/-- What the successive reads of a file with this content return. -/
def reads (content : Bytes) : List Bytes :=
  if content.length < DC_CONTENT_FILE_READ_BUF then [content]
  else content.take DC_CONTENT_FILE_READ_BUF :: reads (content.drop DC_CONTENT_FILE_READ_BUF)
termination_by content.length
decreasing_by
  rw [List.length_drop]
  simp only [DC_CONTENT_FILE_READ_BUF] at *
  omega

/-- Read until the code is not `S_SUCCESS`. -/
def readAll (r : FileReader) : List Bytes → Except Fault (FileReader × DcCommonCode)
  | [] => .ok (r, .S_SUCCESS)
  | buf :: bufs => do
    let (r, code) ← r.fileContentRead D (some buf)
    if code = .S_SUCCESS then readAll r bufs else return (r, code)

/-- A fresh reader that opens a file and reads it to its end. -/
def readFile (path : Bytes) (fd : Nat) (content : Bytes) :
    Except Fault (FileReader × DcCommonCode) := do
  let (r, _) ← (fresh path).prepare true (some fd)
  r.readAll D (reads content)

/-- What the last read of a file with this content returns. -/
def lastRead (content : Bytes) : Bytes :=
  content.drop (content.length / DC_CONTENT_FILE_READ_BUF * DC_CONTENT_FILE_READ_BUF)

theorem lastRead_of_lt {content : Bytes} (h : content.length < DC_CONTENT_FILE_READ_BUF) :
    lastRead content = content := by
  unfold lastRead
  rw [Nat.div_eq_of_lt h, Nat.zero_mul, List.drop_zero]

theorem lastRead_append {buf : Bytes} (h : buf.length = DC_CONTENT_FILE_READ_BUF)
    (rest : Bytes) : lastRead (buf ++ rest) = lastRead rest := by
  have hpos : 0 < DC_CONTENT_FILE_READ_BUF := by decide
  unfold lastRead
  rw [List.length_append, h, Nat.add_div_left _ hpos, Nat.succ_mul, Nat.add_comm, ← h,
    List.drop_length_add_append]

theorem readAll_short (hpath : r.filePath ≠ []) (hfd : 0 ≤ r.fileReadFd)
    (hlen : buf.length < DC_CONTENT_FILE_READ_BUF) :
    r.readAll D [buf] = (feed lf r.filePreLine buf).1.mapM intPart >>= fun ls =>
      ((r.withMd5 (D.md5 buf)).afterLines D ls (feed lf r.filePreLine buf).2).finish D := by
  have hover : ∀ r' : FileReader,
      (r'.finish D >>= fun x => if x.2 = .S_SUCCESS then readAll D x.1 [] else .ok x) =
        r'.finish D := by
    intro r'
    unfold finish
    rw [bind_assoc]
    rfl
  rw [readAll, fileContentRead_short D hpath hfd hlen, bind_assoc]
  exact congrArg _ (funext fun ls => hover _)

theorem readAll_full (hpath : r.filePath ≠ []) (hfd : 0 ≤ r.fileReadFd)
    (hlen : buf.length = DC_CONTENT_FILE_READ_BUF) (bufs : List Bytes) :
    r.readAll D (buf :: bufs) = (feed lf r.filePreLine buf).1.mapM intPart >>= fun ls =>
      ((r.withMd5 (D.md5 buf)).afterLines D ls (feed lf r.filePreLine buf).2).readAll D bufs := by
  rw [readAll, fileContentRead_full D hpath hfd hlen, bind_assoc]
  rfl

/-- The reads of a file, from any state of the reader: the carry goes before what is
left of the file, and the digest is that of the last read. -/
theorem readAll_reads (hpath : r.filePath ≠ []) (hfd : 0 ≤ r.fileReadFd) (content : Bytes) :
    r.readAll D (reads content) =
      (feed lf r.filePreLine content).1.mapM intPart >>= fun ls =>
        ((r.withMd5 (D.md5 (lastRead content))).afterLines D ls
          (feed lf r.filePreLine content).2).finish D := by
  induction hn : content.length using Nat.strong_induction_on generalizing r content with
  | _ n ih =>
    subst hn
    unfold reads
    split
    next hshort =>
      -- the last read, which flushes the carry
      rw [readAll_short D hpath hfd hshort, lastRead_of_lt hshort]
    next hfull =>
      generalize hbuf : content.take DC_CONTENT_FILE_READ_BUF = buf
      generalize hrest : content.drop DC_CONTENT_FILE_READ_BUF = rest
      have hsplit : content = buf ++ rest := by
        rw [← hbuf, ← hrest, List.take_append_drop]
      have hlen : buf.length = DC_CONTENT_FILE_READ_BUF := by
        rw [← hbuf, List.length_take]
        omega
      have hlt : rest.length < content.length := by
        rw [hsplit, List.length_append, hlen]
        exact Nat.lt_add_of_pos_left (by decide)
      -- a full buffer: feeding the file is feeding the buffer, then the rest
      rw [hsplit, lastRead_append hlen, feed_append, List.mapM_append,
        readAll_full D hpath hfd hlen, bind_assoc]
      refine congrArg _ (funext fun ls => ?_)
      have hih := ih rest.length hlt (r := (r.withMd5 (D.md5 buf)).afterLines D ls
        (feed lf r.filePreLine buf).2) hpath hfd rest rfl
      have hcarry : ((r.withMd5 (D.md5 buf)).afterLines D ls
        (feed lf r.filePreLine buf).2).filePreLine = (feed lf r.filePreLine buf).2 := rfl
      rw [hih, hcarry, bind_assoc]
      refine congrArg _ (funext fun ls' => ?_)
      rw [pure_bind, withMd5_afterLines, withMd5_withMd5, afterLines_afterLines]

/-- A reader with empty results opens the file. -/
theorem prepare_opens (hpath : r.filePath ≠ []) (hsha : r.linesSha1 = [])
    (hempty : r.emptyLines = 0) (hfd : r.fileReadFd = -1) (fd : Nat) :
    r.prepare true (some fd) =
      .ok ({ r with fileReadBuf := true, fileReadFd := fd }, .S_SUCCESS) := by
  unfold prepare
  rw [assertFault_of (List.length_pos_iff.mpr hpath), assertFault_of (by rw [hsha]; rfl),
    assertFault_of hempty, if_neg (by simp)]
  simp only [ok_bind, assertFault_of hfd]
  rfl

/-- **Chunks do not matter.** Reading a file to its end is one pass over its lines. -/
theorem readFile_eq {path : Bytes} (hpath : path ≠ []) (fd : Nat) (content : Bytes) :
    readFile D path fd content = (feed lf [] content).1.mapM intPart >>= fun ls =>
      ((({ fresh path with fileReadBuf := true, fileReadFd := fd } : FileReader).withMd5
        (D.md5 (lastRead content))).afterLines D ls (feed lf [] content).2).finish D := by
  let r₀ : FileReader := { fresh path with fileReadBuf := true, fileReadFd := fd }
  unfold readFile
  rw [prepare_opens (r := fresh path) hpath rfl rfl rfl]
  exact readAll_reads D (r := r₀) hpath (Int.natCast_nonneg fd) content

/-- A file whose lines fit an `int` is read to its end. -/
theorem readFile_of_lt {path : Bytes} (hpath : path ≠ []) (fd : Nat) {content : Bytes}
    (hlines : ∀ line ∈ lines lf content, line.length < 2 ^ 31) :
    readFile D path fd content =
      .ok ((((({ fresh path with fileReadBuf := true, fileReadFd := fd } : FileReader).withMd5
        (D.md5 (lastRead content))).afterLines D (lines lf content)
          (if allSpace (feed lf [] content).2 then (feed lf [] content).2 else []))).close,
        .E_DC_CONTENT_OVER) := by
  rw [lines_eq_feed] at hlines ⊢
  have hcarry : (feed lf [] content).2.length < 2 ^ 31 := by
    by_cases hnil : (feed lf [] content).2 = []
    · rw [hnil]
      exact Nat.two_pow_pos 31
    · refine hlines _ (List.mem_append_right _ ?_)
      rw [lastLine, if_neg hnil]
      exact List.mem_singleton_self _
  rw [readFile_eq D hpath, mapM_intPart_of_lt fun line hmem =>
    hlines line (List.mem_append_left _ hmem), ok_bind]
  unfold finish
  rw [flushPreLine_eq D hcarry, ok_bind, ← afterLines_afterLines D _ _ _ (feed lf [] content).2]
  rfl

/-- The results of a file whose lines fit an `int` are those of one pass over them. -/
theorem readFile_spec {path : Bytes} (hpath : path ≠ []) (fd : Nat) {content : Bytes}
    (hlines : ∀ line ∈ lines lf content, line.length < 2 ^ 31) :
    ∃ r, readFile D path fd content = .ok (r, .E_DC_CONTENT_OVER) ∧
      r.linesSha1 = ((lines lf content).filter (! allSpace ·)).map D.sha1 ∧
      r.emptyLines = toInt ((lines lf content).countP allSpace) := by
  refine ⟨_, readFile_of_lt D hpath fd hlines, ?_⟩
  have hpass := foldl_countLine D (lines lf content) [] 0
  rw [List.nil_append, Int.zero_add] at hpass
  exact Prod.mk.inj hpass

/-- **Chunked hashing is line-by-line hashing.** The digests are those of the lines with
a byte that is no space, in order; the count is the number of the other lines, as an
`int`; and both are the result of the reference. -/
theorem readFile_eq_reference {path : Bytes} (hpath : path ≠ []) (fd : Nat) {content : Bytes}
    (hlines : ∀ line ∈ lines lf content, line.length < 2 ^ 31) :
    ∃ r, readFile D path fd content = .ok (r, .E_DC_CONTENT_OVER) ∧
      r.linesSha1 = ((lines lf content).filter (! allSpace ·)).map D.sha1 ∧
      r.emptyLines = toInt ((lines lf content).countP allSpace) ∧
      ((lines lf content).countP allSpace < 2 ^ 31 →
        r.emptyLines = (lines lf content).countP allSpace) ∧
      (r.linesSha1, r.emptyLines) = computeFileSha1SkipEmptyLine D content := by
  obtain ⟨r, hread, hsha1, hempty⟩ := readFile_spec D hpath fd hlines
  refine ⟨r, hread, hsha1, hempty, fun hlt => hempty.trans (toInt_of_lt hlt), ?_⟩
  rw [computeFileSha1SkipEmptyLine_eq, hsha1, hempty]

/-- A file of a line, a line of one space and an unfinished line. -/
theorem readFile_eq_reference_three :
    ∃ r, readFile ⟨id, id⟩ (ascii "f") 3 (ascii "a\n \nb") = .ok (r, .E_DC_CONTENT_OVER) ∧
      r.linesSha1 = [ascii "a", ascii "b"] ∧ r.emptyLines = 1 := by
  have hpath : ascii "f" ≠ [] := by decide
  have hlines : ∀ line ∈ lines lf (ascii "a\n \nb"), line.length < 2 ^ 31 := by decide +kernel
  obtain ⟨r, hread, hsha1, hempty, -, -⟩ := readFile_eq_reference ⟨id, id⟩ hpath 3 hlines
  exact ⟨r, hread, hsha1.trans (by decide +kernel), hempty.trans (by decide +kernel)⟩

theorem lines_replicate_lf (n : Nat) : lines lf (List.replicate n lf) = List.replicate n [] := by
  have hfeed : feed lf [] (List.replicate n lf) = (List.replicate n [], []) := by
    induction n with
    | zero => rfl
    | succ n ih => rw [List.replicate_succ, feed_cons_sep, ih, List.replicate_succ]
  rw [lines_eq_feed, hfeed]
  exact List.append_nil _

/-- A file of `2 ^ 31` newlines has that many empty lines, and the count is negative. -/
theorem emptyLines_overflow :
    ∃ content : Bytes, (∀ line ∈ lines lf content, line.length < 2 ^ 31) ∧
      ∃ r, readFile ⟨id, id⟩ (ascii "f") 3 content = .ok (r, .E_DC_CONTENT_OVER) ∧
        r.emptyLines ≠ (lines lf content).countP allSpace := by
  have hshort : ∀ line ∈ lines lf (List.replicate (2 ^ 31) lf), line.length < 2 ^ 31 := by
    intro line hmem
    rw [lines_replicate_lf] at hmem
    rw [List.eq_of_mem_replicate hmem]
    exact Nat.two_pow_pos 31
  have hpath : ascii "f" ≠ [] := by decide
  obtain ⟨r, hread, -, hempty⟩ := readFile_spec ⟨id, id⟩ hpath 3 hshort
  refine ⟨List.replicate (2 ^ 31) lf, hshort, r, hread, fun heq => ?_⟩
  have hcount : (lines lf (List.replicate (2 ^ 31) lf)).countP allSpace = 2 ^ 31 := by
    have hspace : allSpace [] = true := rfl
    rw [lines_replicate_lf, List.countP_replicate, if_pos hspace]
  rw [hempty, hcount] at heq
  exact absurd heq (by decide)

end FileReader

end Wfrest
