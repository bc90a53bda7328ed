import Wfrest.Compare.LineHash

/-!
# Line endings

The interface asks that neither the `\n` nor the `\r` at the end of a line counts as its
content. The readers cut at `\n` alone, so a line that ends in `\r\n` is hashed with its
`\r`. Two files that differ only in the ends of their lines get the same digests exactly if
they differ only in lines that are all space (`sameHashes_iff`).

The length of a line is an `int`: of a line with more bytes than that the digest is that
of a beginning, or the reader stops (`intPart`).
-/

namespace Wfrest

open Lines

/-- The end of a line. -/
inductive LineEnd where
  | LF
  | CRLF
  deriving DecidableEq, Repr

/-- What stands in front of the `\n`. -/
def LineEnd.beforeLf : LineEnd → Bytes
  | .LF => []
  | .CRLF => [cr]

/-- A line of two files, with its end in each of them. -/
structure TwoEnds where
  text : Bytes
  lf_notMem : lf ∉ text
  cr_notMem : cr ∉ text
  fst : LineEnd
  snd : LineEnd

namespace TwoEnds

/-- The line up to the `\n`, in the first file and in the second. -/
def bytesFst (l : TwoEnds) : Bytes := l.text ++ l.fst.beforeLf

def bytesSnd (l : TwoEnds) : Bytes := l.text ++ l.snd.beforeLf

/-- The two files. -/
def fileFst (ls : List TwoEnds) : Bytes := ls.flatMap fun l => l.bytesFst ++ [lf]

def fileSnd (ls : List TwoEnds) : Bytes := ls.flatMap fun l => l.bytesSnd ++ [lf]

theorem lf_notMem_append (l : TwoEnds) (e : LineEnd) : lf ∉ l.text ++ e.beforeLf := by
  rw [List.mem_append, not_or]
  refine ⟨l.lf_notMem, ?_⟩
  cases e <;> decide

end TwoEnds

namespace FileReader

/-- What is hashed of the lines of a file: the parts that their lengths cover, without the
all-space ones. -/
def hashed (texts : List Bytes) : Except Fault (List Bytes) := do
  let parts ← texts.mapM intPart
  return parts.filter (! allSpace ·)

variable {D : Digests} {path : Bytes} {fd : Nat}

/-- Lines that end in `\n` leave no carry. -/
theorem feed_flatMap {texts : List Bytes} (h : ∀ text ∈ texts, lf ∉ text) :
    feed lf [] (texts.flatMap (· ++ [lf])) = (texts, []) := by
  induction texts with
  | nil => rfl
  | cons text texts ih =>
    rw [List.forall_mem_cons] at h
    rw [List.flatMap_cons, List.append_assoc, feed_append, feed_of_notMem h.1,
      List.singleton_append, feed_cons_sep, ih h.2]
    rfl

/-- A file of whole lines is read to its end if the lengths of the lines are accepted. -/
theorem readFile_flatMap (hpath : path ≠ []) {texts : List Bytes}
    (h : ∀ text ∈ texts, lf ∉ text) :
    readFile D path fd (texts.flatMap (· ++ [lf])) = texts.mapM intPart >>= fun parts =>
      .ok (((({ fresh path with fileReadBuf := true, fileReadFd := fd } : FileReader).withMd5
        (D.md5 (lastRead (texts.flatMap (· ++ [lf]))))).afterLines D parts []).close,
          .E_DC_CONTENT_OVER) := by
  rw [readFile_eq D hpath, feed_flatMap h]
  rfl

theorem length_of_mapM {texts parts : List Bytes} (h : texts.mapM intPart = .ok parts) :
    parts.length = texts.length := by
  induction texts generalizing parts with
  | nil =>
    obtain rfl := Except.ok.inj h
    rfl
  | cons text texts ih =>
    rw [List.mapM_cons] at h
    obtain ⟨part, -, h⟩ := bind_eq_ok.mp h
    obtain ⟨rest, hrest, h⟩ := bind_eq_ok.mp h
    obtain rfl := Except.ok.inj h
    rw [List.length_cons, List.length_cons, ih hrest]

/-- **The results of a file of whole lines** are the digests of what is hashed, and the
number of the other lines. -/
theorem exists_readFile_iff (hpath : path ≠ []) (fd : Nat) {texts : List Bytes}
    (h : ∀ text ∈ texts, lf ∉ text) (x : List Bytes × Int) :
    (∃ r, readFile D path fd (texts.flatMap (· ++ [lf])) = .ok (r, .E_DC_CONTENT_OVER) ∧
        r.results = x) ↔
      ∃ ps, hashed texts = .ok ps ∧ (ps.map D.sha1, toInt (texts.length - ps.length)) = x := by
  rw [readFile_flatMap hpath h]
  unfold hashed
  cases hparts : texts.mapM intPart with
  | error =>
    exact iff_of_false (fun ⟨r, hread, _⟩ => nomatch hread) fun ⟨ps, hps, _⟩ => nomatch hps
  | ok parts =>
    -- the lines that are not hashed are counted
    have hcount : (parts.countP allSpace : Int) =
        texts.length - (parts.filter (! allSpace ·)).length := by
      have hlen : parts.length =
          parts.countP allSpace + (parts.filter (! allSpace ·)).length := by
        rw [← List.countP_eq_length_filter]
        simpa using List.length_eq_countP_add_countP allSpace
      rw [length_of_mapM hparts] at hlen
      omega
    have hpass := foldl_countLine D parts [] 0
    rw [List.nil_append, Int.zero_add, hcount] at hpass
    rw [ok_bind, ok_bind]
    constructor
    · rintro ⟨r, hread, rfl⟩
      obtain ⟨rfl, -⟩ := Prod.mk.inj (Except.ok.inj hread)
      exact ⟨_, rfl, hpass.symm⟩
    · rintro ⟨ps, hps, rfl⟩
      obtain rfl := Except.ok.inj hps
      exact ⟨_, rfl, hpass⟩

/-! ### Two files with the same lines -/

/-- Both files are read to their ends, with the same results. -/
def SameHashes (path : Bytes) (fd : Nat) (ls : List TwoEnds) : Prop :=
  ∀ D : Digests, ∃ r r', readFile D path fd (TwoEnds.fileFst ls) = .ok (r, .E_DC_CONTENT_OVER) ∧
    readFile D path fd (TwoEnds.fileSnd ls) = .ok (r', .E_DC_CONTENT_OVER) ∧
    r.linesSha1 = r'.linesSha1 ∧ r.emptyLines = r'.emptyLines

/-- The same is hashed of both files. -/
def HashedAlike (ls : List TwoEnds) : Prop :=
  ∃ ps, hashed (ls.map TwoEnds.bytesFst) = .ok ps ∧ hashed (ls.map TwoEnds.bytesSnd) = .ok ps

theorem sameHashes_iff_hashedAlike (hpath : path ≠ []) (fd : Nat) (ls : List TwoEnds) :
    SameHashes path fd ls ↔ HashedAlike ls := by
  have hfst : ∀ text ∈ ls.map TwoEnds.bytesFst, lf ∉ text := by
    simp only [List.forall_mem_map]
    exact fun l _ => l.lf_notMem_append l.fst
  have hsnd : ∀ text ∈ ls.map TwoEnds.bytesSnd, lf ∉ text := by
    simp only [List.forall_mem_map]
    exact fun l _ => l.lf_notMem_append l.snd
  have hlen : (ls.map TwoEnds.bytesFst).length = (ls.map TwoEnds.bytesSnd).length := by
    rw [List.length_map, List.length_map]
  -- each file is its lines with `\n` behind them
  have hfileFst : TwoEnds.fileFst ls = (ls.map TwoEnds.bytesFst).flatMap (· ++ [lf]) := by
    rw [List.flatMap_map]
    rfl
  have hfileSnd : TwoEnds.fileSnd ls = (ls.map TwoEnds.bytesSnd).flatMap (· ++ [lf]) := by
    rw [List.flatMap_map]
    rfl
  unfold SameHashes HashedAlike
  rw [hfileFst, hfileSnd]
  constructor
  · intro h
    -- with the identity as `SHA1` the digests are what is hashed
    obtain ⟨r, r', hread, hread', hsha1, hempty⟩ := h ⟨id, id⟩
    obtain ⟨ps, hps, hx⟩ := (exists_readFile_iff hpath fd hfst r.results).mp ⟨r, hread, rfl⟩
    obtain ⟨ps', hps', hx'⟩ := (exists_readFile_iff hpath fd hsnd r'.results).mp ⟨r', hread', rfl⟩
    have heq : ps = ps' := by
      have h₁ := congrArg Prod.fst hx
      have h₂ := congrArg Prod.fst hx'
      simp only [List.map_id, results] at h₁ h₂
      rw [h₁, h₂, hsha1]
    exact ⟨ps, hps, heq ▸ hps'⟩
  · rintro ⟨ps, hps, hps'⟩ D
    obtain ⟨r, hread, hx⟩ := (exists_readFile_iff (D := D) hpath fd hfst _).mpr
      ⟨ps, hps, rfl⟩
    obtain ⟨r', hread', hx'⟩ := (exists_readFile_iff (D := D) hpath fd hsnd _).mpr
      ⟨ps, hps', rfl⟩
    have heq : r.results = r'.results := by rw [hx, hx', hlen]
    exact ⟨r, r', hread, hread', Prod.mk.inj heq⟩

theorem allSpace_append (text : Bytes) (e : LineEnd) :
    allSpace (text ++ e.beforeLf) = allSpace text := by
  unfold allSpace
  rw [List.all_append]
  cases e with
  | LF => exact Bool.and_true _
  | CRLF => exact Bool.and_true _

/-- A `\r` is hashed with the line if the line is. -/
theorem filter_eq_iff (ls : List TwoEnds) :
    (ls.map TwoEnds.bytesFst).filter (! allSpace ·) =
        (ls.map TwoEnds.bytesSnd).filter (! allSpace ·) ↔
      ∀ l ∈ ls, l.fst = l.snd ∨ allSpace l.text := by
  have hinj : ∀ l : TwoEnds, l.bytesFst = l.bytesSnd ↔ l.fst = l.snd := by
    intro l
    unfold TwoEnds.bytesFst TwoEnds.bytesSnd
    rw [List.append_cancel_left_eq]
    cases l.fst <;> cases l.snd <;> decide
  -- a `\r` does not make a line all-space or take it from the others
  induction ls with
  | nil => simp
  | cons l ls ih =>
    have hfst : allSpace l.bytesFst = allSpace l.text := allSpace_append l.text l.fst
    have hsnd : allSpace l.bytesSnd = allSpace l.text := allSpace_append l.text l.snd
    rw [List.map_cons, List.map_cons, List.filter_cons, List.filter_cons, hfst, hsnd,
      List.forall_mem_cons]
    cases hspace : allSpace l.text with
    | true => simpa using ih
    | false => simp [hinj, ih]

/-- In lines that fit an `int` with their `\r`, the ends of the lines that are not all space
decide. -/
theorem hashedAlike_iff_of_lt {ls : List TwoEnds}
    (hlen : ∀ l ∈ ls, l.text.length + 1 < 2 ^ 31) :
    HashedAlike ls ↔ ∀ l ∈ ls, l.fst = l.snd ∨ allSpace l.text := by
  -- so the lengths are the numbers of bytes in both files
  have hle : ∀ (l : TwoEnds) (e : LineEnd),
      (l.text ++ e.beforeLf).length ≤ l.text.length + 1 := by
    intro l e
    rw [List.length_append]
    cases e <;> simp [LineEnd.beforeLf]
  have hfst : (ls.map TwoEnds.bytesFst).mapM intPart = .ok (ls.map TwoEnds.bytesFst) := by
    refine mapM_intPart_of_lt ?_
    simp only [List.forall_mem_map]
    exact fun l hl => (hle l l.fst).trans_lt (hlen l hl)
  have hsnd : (ls.map TwoEnds.bytesSnd).mapM intPart = .ok (ls.map TwoEnds.bytesSnd) := by
    refine mapM_intPart_of_lt ?_
    simp only [List.forall_mem_map]
    exact fun l hl => (hle l l.snd).trans_lt (hlen l hl)
  unfold HashedAlike hashed
  rw [hfst, hsnd, ok_bind, ok_bind, ← filter_eq_iff]
  exact ⟨fun ⟨ps, h, h'⟩ => (Except.ok.inj h).trans (Except.ok.inj h').symm,
    fun h => ⟨_, rfl, congrArg Except.ok h.symm⟩⟩

/-- **When line endings do not matter.** Exactly if the same is hashed of both files: where
all lines fit an `int`, if the files differ only in the ends of all-space lines. -/
theorem sameHashes_iff (hpath : path ≠ []) (fd : Nat) (ls : List TwoEnds) :
    (SameHashes path fd ls ↔ HashedAlike ls) ∧
      ((∀ l ∈ ls, l.text.length + 1 < 2 ^ 31) →
        (SameHashes path fd ls ↔ ∀ l ∈ ls, l.fst = l.snd ∨ allSpace l.text)) := by
  have hsame := sameHashes_iff_hashedAlike hpath fd ls
  exact ⟨hsame, fun hlen => hsame.trans (hashedAlike_iff_of_lt hlen)⟩

/-- A line that ends in the same way twice, and an all-space one that does not. -/
theorem sameHashes_two : SameHashes (ascii "f") 3
    [⟨ascii "a", by decide, by decide, .CRLF, .CRLF⟩,
      ⟨ascii " ", by decide, by decide, .LF, .CRLF⟩] :=
  ((sameHashes_iff (by decide) 3 _).2 (by decide)).mpr (by decide)

/-- The digest of a line with a `\r\n` is that of the line with its `\r`. -/
theorem not_sameHashes_letter : ¬ ∀ (path : Bytes) (fd : Nat) (ls : List TwoEnds), path ≠ [] →
    SameHashes path fd ls := by
  intro hall
  have hsame := hall (ascii "f") 3 [⟨ascii "a", by decide, by decide, .LF, .CRLF⟩] (by decide)
  have halike := (sameHashes_iff_hashedAlike (by decide) 3 _).mp hsame
  have hends := (hashedAlike_iff_of_lt (by decide)).mp halike
  exact absurd hends (by decide)

end FileReader

end Wfrest
