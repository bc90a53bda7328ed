import Wfrest.Compare.LineHash

/-!
# Files one after the other

A `dc_content_local_t` reads many files, and `file_pre_line_` is the only state that a file
leaves to the next one. At the end of a file `thd_worker_file_content_read` clears it with
an unfinished line that has a digest, but not with one that is all space. So the files of a
run are read as by new readers exactly if none ends in such a line (`readAsAlone_iff`).
-/

namespace Wfrest

open Lines

/-- A file that is read, with the descriptor that `open` returns. -/
structure FileToRead where
  path : Bytes
  path_ne_nil : path ≠ []
  fd : Nat
  content : Bytes

namespace FileReader

variable (D : Digests)

/-- The unfinished line of a file: what follows its last newline. -/
def unfinished (content : Bytes) : Bytes := (feed lf [] content).2

/-- `do_file_content` with empty results, and the work on its commands. -/
def readNext (r : FileReader) (f : FileToRead) : Except Fault (FileReader × DcCommonCode) := do
  let (r, _) ← { r with filePath := f.path, linesSha1 := [], emptyLines := 0 }.prepare true
    (some f.fd)
  r.readAll D (reads f.content)

/-- Files read one after the other, with the reader and the code at the end of each. -/
def readInTurn (r : FileReader) : List FileToRead → Except Fault (List (FileReader × DcCommonCode))
  | [] => .ok []
  | f :: fs => do
    let (r, code) ← r.readNext D f
    let rs ← readInTurn r fs
    return (r, code) :: rs

/-- The file is over, nothing of it is left in `file_pre_line_`, and the results are those
of a new reader. -/
def ReadAsAlone (f : FileToRead) (x : FileReader × DcCommonCode) : Prop :=
  x.2 = .E_DC_CONTENT_OVER ∧ x.1.filePreLine = [] ∧
    ∃ r, readFile D f.path f.fd f.content = .ok (r, .E_DC_CONTENT_OVER) ∧
      x.1.linesSha1 = r.linesSha1 ∧ x.1.emptyLines = r.emptyLines

/-- The file ends at a newline, or its unfinished line is not taken for an empty one. -/
def CarryCleared (content : Bytes) : Prop :=
  unfinished content = [] ∨
    checkIsEmptyLine (unfinished content) (toInt (unfinished content).length) = .ok false

/-- An unfinished line that fits an `int` is cleared when it has a byte that is no space. -/
theorem carryCleared_iff_of_lt {content : Bytes} (h : (unfinished content).length < 2 ^ 31) :
    CarryCleared content ↔
      unfinished content = [] ∨ ∃ c ∈ unfinished content, isspace c = false := by
  unfold CarryCleared
  rw [checkIsEmptyLine_toInt, intPart_of_lt h, ok_bind, Except.ok.injEq, allSpace,
    List.all_eq_false]
  simp only [Bool.not_eq_true]

variable {D} {r r' : FileReader} {code : DcCommonCode}

/-- What the end of a file leaves in `file_pre_line_`. -/
theorem filePreLine_finish (h : r.finish D = .ok (r', code)) :
    code = .E_DC_CONTENT_OVER ∧ r'.fileReadFd = -1 ∧
      (r'.filePreLine = [] ↔ r.filePreLine = [] ∨
        checkIsEmptyLine r.filePreLine (toInt r.filePreLine.length) = .ok false) := by
  obtain ⟨r₁, hflush, h⟩ := bind_eq_ok.mp h
  obtain ⟨rfl, rfl⟩ := Prod.mk.inj (Except.ok.inj h)
  refine ⟨rfl, rfl, ?_⟩
  -- the carry is counted if it is empty, and only otherwise hashed and cleared
  unfold flushPreLine at hflush
  split at hflush
  next hpre =>
    obtain rfl := Except.ok.inj hflush
    exact iff_of_true hpre (Or.inl hpre)
  next hpre =>
    obtain ⟨isEmpty, hcheck, hflush⟩ := bind_eq_ok.mp hflush
    obtain rfl := Except.ok.inj hflush
    rw [hcheck]
    cases isEmpty with
    | true => exact iff_of_false hpre (not_or.mpr ⟨hpre, nofun⟩)
    | false => exact iff_of_true rfl (Or.inr rfl)

/-- **The carry of a file** is empty at its end exactly if it is cleared. -/
theorem filePreLine_readFile {path : Bytes} (hpath : path ≠ []) {fd : Nat} {content : Bytes}
    (h : readFile D path fd content = .ok (r, code)) :
    code = .E_DC_CONTENT_OVER ∧ r.fileReadFd = -1 ∧
      (r.filePreLine = [] ↔ CarryCleared content) := by
  rw [readFile_eq D hpath] at h
  obtain ⟨ls, -, h⟩ := bind_eq_ok.mp h
  exact filePreLine_finish h

/-- The reader for the next file, after its last read. -/
def opened (r : FileReader) (f : FileToRead) (digest : Bytes) : FileReader where
  filePath := f.path
  fileReadBuf := true
  filePreLine := r.filePreLine
  fileReadFd := f.fd
  linesSha1 := []
  emptyLines := 0
  md5 := digest

/-- The next file is read as if the carry stood before it. -/
theorem readNext_eq (hfd : r.fileReadFd = -1) (f : FileToRead) :
    r.readNext D f = (feed lf r.filePreLine f.content).1.mapM intPart >>= fun ls =>
      ((r.opened f (D.md5 (lastRead f.content))).afterLines D ls
        (feed lf r.filePreLine f.content).2).finish D := by
  let r₀ : FileReader := { r with filePath := f.path, linesSha1 := [], emptyLines := 0 }
  -- the `open` starts the digest again and keeps the carry
  have hopens := prepare_opens (r := r₀) f.path_ne_nil rfl rfl hfd f.fd
  unfold readNext
  rw [hopens, ok_bind]
  exact readAll_reads D (r := { r₀ with fileReadBuf := true, fileReadFd := f.fd }) f.path_ne_nil
    (Int.natCast_nonneg f.fd) f.content

/-- A reader without a carry reads like a new one. -/
theorem readNext_of_nil (hpre : r.filePreLine = []) (hfd : r.fileReadFd = -1)
    (f : FileToRead) : r.readNext D f = readFile D f.path f.fd f.content := by
  rw [readNext_eq hfd, readFile_eq D f.path_ne_nil, hpre]
  unfold opened
  rw [hpre]
  rfl

theorem readInTurn_cons {f : FileToRead} (h : r.readNext D f = .ok (r', code))
    (fs : List FileToRead) :
    r.readInTurn D (f :: fs) = r'.readInTurn D fs >>= fun rs => .ok ((r', code) :: rs) := by
  rw [readInTurn, h]
  rfl

/-- **When files do not affect each other.** Exactly if each file of the run ends at a
newline or in a line that is not taken for an empty one. -/
theorem readAsAlone_iff {fs : List FileToRead} {rs : List (FileReader × DcCommonCode)}
    (h : (fresh []).readInTurn D fs = .ok rs) :
    List.Forall₂ (ReadAsAlone D) fs rs ↔ ∀ f ∈ fs, CarryCleared f.content := by
  -- of the new reader only these two fields matter, and each file hands them on
  have hpre : (fresh []).filePreLine = [] := rfl
  have hfd : (fresh []).fileReadFd = -1 := rfl
  generalize fresh [] = r at h hpre hfd
  induction fs generalizing r rs with
  | nil =>
    obtain rfl := Except.ok.inj h
    simp
  | cons f fs ih =>
    obtain ⟨⟨r₁, code⟩, hnext, h⟩ := bind_eq_ok.mp h
    obtain ⟨rs₁, hrest, h⟩ := bind_eq_ok.mp h
    obtain rfl := Except.ok.inj h
    rw [readNext_of_nil hpre hfd] at hnext
    obtain ⟨rfl, hfd₁, hpre₁⟩ := filePreLine_readFile f.path_ne_nil hnext
    rw [List.forall₂_cons, List.forall_mem_cons]
    -- the file is read as by a new reader; what it leaves decides about the others
    by_cases hclear : CarryCleared f.content
    · have halone : ReadAsAlone D f (r₁, .E_DC_CONTENT_OVER) :=
        ⟨rfl, hpre₁.mpr hclear, r₁, hnext, rfl, rfl⟩
      have hrec := ih r₁ hrest (hpre₁.mpr hclear) hfd₁
      exact and_congr (iff_of_true halone hclear) hrec
    · exact iff_of_false (fun hall => hclear (hpre₁.mp hall.1.2.1)) fun hall => hclear hall.1

/-- Files whose lines fit an `int` are all read when each of them clears its carry. -/
theorem exists_readInTurn {fs : List FileToRead}
    (hlines : ∀ f ∈ fs, ∀ line ∈ lines lf f.content, line.length < 2 ^ 31)
    (hclear : ∀ f ∈ fs, CarryCleared f.content) :
    ∃ rs, (fresh []).readInTurn D fs = .ok rs := by
  have hpre : (fresh []).filePreLine = [] := rfl
  have hfd : (fresh []).fileReadFd = -1 := rfl
  generalize fresh [] = r at hpre hfd ⊢
  induction fs generalizing r with
  | nil => exact ⟨[], rfl⟩
  | cons f fs ih =>
    rw [List.forall_mem_cons] at hlines hclear
    obtain ⟨r₁, hread, -⟩ := readFile_spec D f.path_ne_nil f.fd hlines.1
    obtain ⟨-, hfd₁, hpre₁⟩ := filePreLine_readFile f.path_ne_nil hread
    obtain ⟨rs, hrest⟩ := ih hlines.2 hclear.2 r₁ (hpre₁.mpr hclear.1) hfd₁
    refine ⟨(r₁, .E_DC_CONTENT_OVER) :: rs, ?_⟩
    rw [readInTurn_cons ((readNext_of_nil hpre hfd f).trans hread), hrest]
    rfl

/-- A file that ends at a newline, and one that does not. -/
def twoFiles : List FileToRead :=
  [⟨ascii "f", by decide, 3, ascii "a\n \n"⟩, ⟨ascii "g", by decide, 4, ascii "b"⟩]

theorem readAsAlone_two : ∃ rs, (fresh []).readInTurn ⟨id, id⟩ twoFiles = .ok rs ∧
    List.Forall₂ (ReadAsAlone ⟨id, id⟩) twoFiles rs := by
  have hlines : ∀ f ∈ twoFiles, ∀ line ∈ lines lf f.content, line.length < 2 ^ 31 := by
    simp only [twoFiles, List.forall_mem_cons]
    refine ⟨?_, ?_, nofun⟩ <;> decide +kernel
  have hclear : ∀ f ∈ twoFiles, CarryCleared f.content := by
    simp only [twoFiles, List.forall_mem_cons]
    exact ⟨Or.inl rfl, (carryCleared_iff_of_lt (by decide)).mpr
      (Or.inr ⟨98, by decide, by decide⟩), nofun⟩
  obtain ⟨rs, hrun⟩ := exists_readInTurn (D := ⟨id, id⟩) hlines hclear
  exact ⟨rs, hrun, (readAsAlone_iff hrun).mpr hclear⟩

/-- Two spaces at the end of a file stand before the first line of the next one. -/
theorem not_readAsAlone_spaces : ¬ ∀ (D : Digests) (fs : List FileToRead)
    (rs : List (FileReader × DcCommonCode)), (fresh []).readInTurn D fs = .ok rs →
      List.Forall₂ (ReadAsAlone D) fs rs := by
  intro hall
  let D : Digests := ⟨id, id⟩
  let f : FileToRead := ⟨ascii "f", by decide, 3, ascii "  "⟩
  let g : FileToRead := ⟨ascii "g", by decide, 3, ascii "a\n"⟩
  have hf : ∃ r, (fresh []).readNext D f = .ok (r, .E_DC_CONTENT_OVER) ∧ r.fileReadFd = -1 ∧
      r.filePreLine = ascii "  " := by
    refine ⟨_, (readNext_of_nil rfl rfl f).trans (readFile_of_lt D f.path_ne_nil f.fd ?_), rfl, ?_⟩
    · decide +kernel
    · decide
  obtain ⟨r, hf, hfd, hpre⟩ := hf
  -- the spaces come before the `a`
  have hg : ∃ r', r.readNext D g = .ok (r', .E_DC_CONTENT_OVER) ∧
      r'.linesSha1 = [ascii "  a"] := by
    have hfeed : feed lf (ascii "  ") g.content = ([ascii "  a"], []) := by decide
    have hparts : [ascii "  a"].mapM intPart = .ok [ascii "  a"] :=
      mapM_intPart_of_lt (by decide)
    rw [readNext_eq hfd, hpre, hfeed, hparts, ok_bind]
    exact ⟨_, rfl, rfl⟩
  obtain ⟨r', hg, hsha1⟩ := hg
  have hrun : (fresh []).readInTurn D [f, g] =
      .ok [(r, .E_DC_CONTENT_OVER), (r', .E_DC_CONTENT_OVER)] := by
    rw [readInTurn_cons hf, readInTurn_cons hg]
    rfl
  have halone := hall D [f, g] _ hrun
  rw [List.forall₂_cons, List.forall₂_cons] at halone
  obtain ⟨-, ⟨-, -, r₀, hread, heq, -⟩, -⟩ := halone
  -- alone, the line is the `a` without them
  have hlines : ∀ line ∈ lines lf g.content, line.length < 2 ^ 31 := by decide +kernel
  obtain ⟨r₁, hread', hsha1', -⟩ := readFile_spec D g.path_ne_nil g.fd hlines
  rw [hread'] at hread
  obtain ⟨rfl, -⟩ := Prod.mk.inj (Except.ok.inj hread)
  rw [hsha1, hsha1'] at heq
  exact absurd heq (by decide)

end FileReader

end Wfrest
