import Wfrest.Compare.LineHash

/-!
# The digest of a file

`get_file_md5` prints `md5_`, and every read of the file overwrites `md5_` with the `MD5`
of the bytes that it got. So the string is that of the last read
(`getFileMd5_readFile`). It is that of the whole file exactly if the file is shorter
than the buffer (`digestOfWhole_iff`): a longer one has a last read that is only its
end, and no bytes at all where the length is a multiple of the buffer's.
-/

namespace Wfrest

open Lines

def MD5_DIGEST_LENGTH : Nat := 16

/-- The digits of `%x`. -/
def lowerHexChars : Bytes := ascii "0123456789abcdef"

/-- `%02x` -/
def printByte (c : UInt8) : Bytes :=
  [lowerHexChars.getD (c.toNat >>> 4) 0, lowerHexChars.getD (c.toNat &&& 15) 0]

/-- The lower-case hex of a string. -/
def lowerHex (s : Bytes) : Bytes := s.flatMap printByte

theorem printByte_injective : Function.Injective printByte := by
  have hdigits : ∀ i < 16, ∀ j < 16,
      lowerHexChars.getD i 0 = lowerHexChars.getD j 0 → i = j := by decide
  intro c d h
  simp only [printByte, List.cons.injEq, and_true] at h
  exact eq_of_nibbles
    (hdigits _ (shiftRight_four_lt c) _ (shiftRight_four_lt d) h.1)
    (hdigits _ (and_fifteen_lt c) _ (and_fifteen_lt d) h.2)

theorem lowerHex_injective : Function.Injective lowerHex := by
  intro s
  induction s with
  | nil =>
    intro t h
    cases t with
    | nil => rfl
    | cons d t => cases h
  | cons c s ih =>
    intro t h
    cases t with
    | nil => cases h
    | cons d t =>
      have hcons : printByte c ++ lowerHex s = printByte d ++ lowerHex t := h
      -- every byte takes two digits
      obtain ⟨hbyte, hrest⟩ := List.append_inj hcons rfl
      rw [printByte_injective hbyte, ih hrest]

/-- The digests of `MD5` are as long as `md5_`. -/
def Digests.Md5Length (D : Digests) : Prop := ∀ s, (D.md5 s).length = MD5_DIGEST_LENGTH

namespace FileReader

variable {D : Digests} {path : Bytes} {fd : Nat} {content : Bytes} {r : FileReader}
  {code : DcCommonCode}

/-- `get_file_md5` -/
def getFileMd5 (r : FileReader) : Bytes :=
  (List.range MD5_DIGEST_LENGTH).flatMap fun i => printByte (r.md5.getD i 0)

theorem getFileMd5_of_length (h : r.md5.length = MD5_DIGEST_LENGTH) :
    r.getFileMd5 = lowerHex r.md5 := by
  have hbytes : (List.range MD5_DIGEST_LENGTH).map (fun i => r.md5.getD i 0) = r.md5 := by
    refine List.ext_getElem (by simp [h]) fun i hi hi' => ?_
    rw [List.getElem_map, List.getElem_range, List.getD_eq_getElem?_getD,
      List.getElem?_eq_getElem hi', Option.getD_some]
  unfold getFileMd5 lowerHex
  conv_rhs => rw [← hbytes, List.flatMap_map]

/-- The end of the file does not touch the digest. -/
theorem md5_finish {r' : FileReader} (h : r.finish D = .ok (r', code)) : r'.md5 = r.md5 := by
  obtain ⟨r₁, hflush, h⟩ := bind_eq_ok.mp h
  obtain ⟨rfl, -⟩ := Prod.mk.inj (Except.ok.inj h)
  unfold flushPreLine at hflush
  split at hflush
  · obtain rfl := Except.ok.inj hflush
    rfl
  · obtain ⟨isEmpty, -, hflush⟩ := bind_eq_ok.mp hflush
    obtain rfl := Except.ok.inj hflush
    cases isEmpty <;> rfl

/-- **The string is that of the last read.** -/
theorem getFileMd5_readFile (hD : D.Md5Length) (hpath : path ≠ [])
    (h : readFile D path fd content = .ok (r, code)) :
    r.getFileMd5 = lowerHex (D.md5 (lastRead content)) := by
  rw [readFile_eq D hpath] at h
  obtain ⟨ls, -, h⟩ := bind_eq_ok.mp h
  have hmd5 : r.md5 = D.md5 (lastRead content) := md5_finish h
  rw [getFileMd5_of_length (by rw [hmd5]; exact hD _), hmd5]

/-- With one `MD5`, the string is the digest of the content exactly if the last read has
that digest. -/
theorem getFileMd5_eq_iff (hD : D.Md5Length) (hpath : path ≠ [])
    (h : readFile D path fd content = .ok (r, code)) :
    r.getFileMd5 = lowerHex (D.md5 content) ↔ D.md5 (lastRead content) = D.md5 content := by
  rw [getFileMd5_readFile hD hpath h]
  exact lowerHex_injective.eq_iff

/-- The last read is the whole content of a file that does not fill the buffer, and of no
other one. -/
theorem lastRead_eq_self_iff :
    lastRead content = content ↔ content.length < DC_CONTENT_FILE_READ_BUF := by
  refine ⟨fun h => ?_, lastRead_of_lt⟩
  by_contra hfull
  have hpos : 0 < DC_CONTENT_FILE_READ_BUF := by decide
  have hlen := congrArg List.length h
  -- what is dropped are whole buffers, so the length has to be below one
  have hread := Nat.div_add_mod' content.length DC_CONTENT_FILE_READ_BUF
  have hmod := Nat.mod_lt content.length hpos
  unfold lastRead at hlen
  rw [List.length_drop] at hlen
  omega

/-- Whatever `MD5` is, the file is read to its end and the string is the lower-case hex of
the digest of its content. -/
def DigestOfWhole (path : Bytes) (fd : Nat) (content : Bytes) : Prop :=
  ∀ D : Digests, D.Md5Length → ∃ r, readFile D path fd content = .ok (r, .E_DC_CONTENT_OVER) ∧
    r.getFileMd5 = lowerHex (D.md5 content)

/-- Files with different digests get different strings. -/
theorem DigestOfWhole.ne {path' content' : Bytes} {fd' : Nat} (h : DigestOfWhole path fd content)
    (h' : DigestOfWhole path' fd' content') (hD : D.Md5Length)
    (hne : D.md5 content ≠ D.md5 content') :
    ∃ r r', readFile D path fd content = .ok (r, .E_DC_CONTENT_OVER) ∧
      readFile D path' fd' content' = .ok (r', .E_DC_CONTENT_OVER) ∧
      r.getFileMd5 ≠ r'.getFileMd5 := by
  obtain ⟨r, hread, hmd5⟩ := h D hD
  obtain ⟨r', hread', hmd5'⟩ := h' D hD
  refine ⟨r, r', hread, hread', ?_⟩
  rw [hmd5, hmd5', lowerHex_injective.ne_iff]
  exact hne

/-- An `MD5` that tells one content from all others. -/
def telling (content : Bytes) : Digests where
  sha1 := id
  md5 s := List.replicate MD5_DIGEST_LENGTH (if s = content then 1 else 0)

theorem md5Length_telling (content : Bytes) : (telling content).Md5Length :=
  fun _ => List.length_replicate

theorem md5_telling_ne {s : Bytes} (h : s ≠ content) :
    (telling content).md5 s ≠ (telling content).md5 content := by
  unfold telling
  dsimp only
  rw [if_neg h, if_pos rfl]
  decide

/-- **When the digest is that of the whole file**: exactly if it is shorter than the
buffer. -/
theorem digestOfWhole_iff (hpath : path ≠ []) (fd : Nat) (content : Bytes) :
    DigestOfWhole path fd content ↔ content.length < DC_CONTENT_FILE_READ_BUF := by
  constructor
  · intro h
    by_contra hfull
    have hlast : lastRead content ≠ content := fun heq => hfull (lastRead_eq_self_iff.mp heq)
    -- an `MD5` that tells the last read from the content
    obtain ⟨r, hread, hmd5⟩ := h (telling content) (md5Length_telling content)
    exact md5_telling_ne hlast
      ((getFileMd5_eq_iff (md5Length_telling content) hpath hread).mp hmd5)
  · intro hshort D hD
    -- a line is not longer than the file
    have hlines : ∀ line ∈ lines lf content, line.length < 2 ^ 31 := fun line hmem =>
      (infix_of_mem_lines hmem).length_le.trans_lt (hshort.trans (by decide))
    have hread := readFile_of_lt D hpath fd hlines
    exact ⟨_, hread, (getFileMd5_eq_iff hD hpath hread).mpr (by rw [lastRead_of_lt hshort])⟩

/-- The digest of a file of three bytes. -/
theorem digestOfWhole_three : DigestOfWhole (ascii "f") 3 (ascii "abc") :=
  (digestOfWhole_iff (by decide) 3 (ascii "abc")).mpr (by decide)

/-- A file that fills the buffer once has the digest of no bytes. -/
theorem not_digestOfWhole_full : ¬ ∀ (path : Bytes) (fd : Nat) (content : Bytes), path ≠ [] →
    DigestOfWhole path fd content := by
  intro hall
  let content : Bytes := List.replicate DC_CONTENT_FILE_READ_BUF 97
  have hpath : ascii "f" ≠ [] := by decide
  have hlast : lastRead content ≠ content := fun heq => by
    have hlen := lastRead_eq_self_iff.mp heq
    rw [List.length_replicate] at hlen
    exact lt_irrefl _ hlen
  obtain ⟨r, hread, hmd5⟩ := hall (ascii "f") 3 content hpath (telling content)
    (md5Length_telling content)
  exact md5_telling_ne hlast
    ((getFileMd5_eq_iff (md5Length_telling content) hpath hread).mp hmd5)

end FileReader

end Wfrest
