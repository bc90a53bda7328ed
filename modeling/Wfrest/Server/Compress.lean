import Wfrest.Base.StrUtil

/-!
# The body of a response

`HttpResp::String` hands the text to `compress` and appends what comes out of it, or the
text itself where `compress` reports that it has not compressed. The report is the status:
`compress` starts from `StatusOK` and leaves it there for a `Content-Encoding` that it does
not know, having compressed nothing, so such a response is appended an empty buffer.

zlib is a parameter. Its `deflate` may fail and is undone by `inflate`.
-/

namespace Wfrest

/-- zlib, as a function on whole texts. -/
structure Zlib where
  /-- `deflateInit2` and the calls of `deflate`; `none` where one of them fails. -/
  deflate : Bytes → Option Bytes
  inflate : Bytes → Option Bytes
  inflate_deflate : ∀ s z, deflate s = some z → inflate z = some s

/-- The members of `ErrorCode` that `compress` answers with. -/
inductive CompressStatus where
  | statusOK
  | statusCompressError
  | statusNoCompress
  deriving DecidableEq, Repr

/-- `Compressor::gzip`: the status and what is left in `dest`. -/
def Compressor.gzip (zlib : Zlib) (src : Bytes) : CompressStatus × Bytes :=
  if 0 < src.length then
    (zlib.deflate src).elim (.statusCompressError, []) fun outstr => (.statusOK, outstr)
  else (.statusCompressError, [])

/-- The fields of a response that `String` reads and writes. -/
structure HttpResp where
  /-- `headers`, a map whose order is `MapStringCaseLess`. -/
  headers : List (Bytes × Bytes)
  /-- What `append_output_body` and `append_output_body_nocopy` have put together. -/
  outputBody : Bytes

namespace HttpResp

/-- `headers.find("Content-Encoding")` -/
def contentEncoding (resp : HttpResp) : Option Bytes :=
  (resp.headers.find? fun h => strcaseeq (ascii "Content-Encoding") h.1).map Prod.snd

/-- `find("gzip") != std::string::npos` -/
def namesGzip (encoding : Bytes) : Prop := ascii "gzip" <:+: encoding

instance instDecidableNamesGzip (encoding : Bytes) : Decidable (namesGzip encoding) :=
  inferInstanceAs (Decidable (ascii "gzip" <:+: encoding))

/-- `HttpResp::compress`, on a fresh `compress_data`. -/
def compress (zlib : Zlib) (resp : HttpResp) (data : Bytes) : CompressStatus × Bytes :=
  match resp.contentEncoding with
  | some encoding =>
    -- any other encoding leaves the status the function began with
    if namesGzip encoding then Compressor.gzip zlib data else (.statusOK, [])
  | none => (.statusNoCompress, [])

/-- `append_output_body`, and `append_output_body_nocopy` on a buffer that lives as long as
the response. -/
def appendOutputBody (resp : HttpResp) (buf : Bytes) : HttpResp :=
  { resp with outputBody := resp.outputBody ++ buf }

/-- `HttpResp::String(const std::string &)` -/
def stringCopy (zlib : Zlib) (resp : HttpResp) (str : Bytes) : HttpResp :=
  let (ret, compressData) := resp.compress zlib str
  if ret ≠ .statusOK then resp.appendOutputBody str else resp.appendOutputBody compressData

/-- `HttpResp::String(std::string &&)` -/
def stringMove (zlib : Zlib) (resp : HttpResp) (str : Bytes) : HttpResp :=
  let (ret, compressData) := resp.compress zlib str
  let data := if ret ≠ .statusOK then str else compressData
  resp.appendOutputBody data

/-! ### What is appended -/

/-- The buffer that both overloads append. -/
def appended (zlib : Zlib) (resp : HttpResp) (str : Bytes) : Bytes :=
  match resp.contentEncoding with
  | some encoding =>
    if namesGzip encoding then
      if 0 < str.length then (zlib.deflate str).getD str else str
    else []
  | none => str

theorem stringMove_eq_stringCopy (zlib : Zlib) (resp : HttpResp) (str : Bytes) :
    resp.stringMove zlib str = resp.stringCopy zlib str := by
  unfold stringMove stringCopy
  dsimp only
  split <;> rfl

theorem stringCopy_eq (zlib : Zlib) (resp : HttpResp) (str : Bytes) :
    resp.stringCopy zlib str = resp.appendOutputBody (resp.appended zlib str) := by
  unfold stringCopy appended compress
  cases resp.contentEncoding with
  | none => rfl
  | some encoding =>
    by_cases hgzip : namesGzip encoding
    · by_cases hlen : 0 < str.length
      · cases hdeflate : zlib.deflate str with
        | none => simp [hgzip, hlen, hdeflate, Compressor.gzip]
        | some z => simp [hgzip, hlen, hdeflate, Compressor.gzip]
      · simp [hgzip, hlen, Compressor.gzip]
    · simp [hgzip]

/-- The body of `str` is not lost in `buf`: `buf` is `str`, or, where the header names gzip,
the gzip of `str`, from which `str` comes back. -/
def Keeps (zlib : Zlib) (resp : HttpResp) (str buf : Bytes) : Prop :=
  buf = str ∨
    (∃ encoding, resp.contentEncoding = some encoding ∧ namesGzip encoding) ∧
      zlib.deflate str = some buf ∧ zlib.inflate buf = some str

theorem keeps_appended_iff (zlib : Zlib) (resp : HttpResp) (str : Bytes) :
    resp.Keeps zlib str (resp.appended zlib str) ↔
      (∀ encoding, resp.contentEncoding = some encoding → namesGzip encoding) ∨ str = [] := by
  unfold Keeps appended
  cases hencoding : resp.contentEncoding with
  | none => simp
  | some encoding =>
    by_cases hgzip : namesGzip encoding
    · refine iff_of_true ?_ (Or.inl fun e he => Option.some.inj he ▸ hgzip)
      dsimp only
      rw [if_pos hgzip]
      split
      · cases hdeflate : zlib.deflate str with
        | none => exact Or.inl rfl
        | some z =>
          exact Or.inr ⟨⟨encoding, rfl, hgzip⟩, rfl, zlib.inflate_deflate str z hdeflate⟩
      · exact Or.inl rfl
    · simp only [if_neg hgzip]
      constructor
      · rintro (hnil | ⟨⟨e, he, hnames⟩, -⟩)
        · exact Or.inr hnil.symm
        · exact absurd (Option.some.inj he ▸ hnames) hgzip
      · rintro (hall | hnil)
        · exact absurd (hall encoding rfl) hgzip
        · exact Or.inl hnil.symm

/-- Both overloads append `appended`. -/
theorem exists_keeps_iff (zlib : Zlib) (resp : HttpResp) (str : Bytes) :
    (∃ buf, resp.stringCopy zlib str = resp.appendOutputBody buf ∧
        resp.stringMove zlib str = resp.appendOutputBody buf ∧ resp.Keeps zlib str buf) ↔
      resp.Keeps zlib str (resp.appended zlib str) := by
  rw [stringMove_eq_stringCopy, stringCopy_eq]
  constructor
  · rintro ⟨buf, hbuf, -, hkeeps⟩
    have heq : resp.appended zlib str = buf :=
      List.append_cancel_left (congrArg HttpResp.outputBody hbuf)
    rw [heq]
    exact hkeeps
  · exact fun hkeeps => ⟨_, rfl, rfl, hkeeps⟩

/-- **When a body arrives.** The two overloads append the same bytes, and these keep the
text when a `Content-Encoding` that is set names gzip, or when there is nothing to lose. -/
theorem string_keeps_iff (zlib : Zlib) (resp : HttpResp) (str : Bytes) :
    (∃ buf, resp.stringCopy zlib str = resp.appendOutputBody buf ∧
        resp.stringMove zlib str = resp.appendOutputBody buf ∧ resp.Keeps zlib str buf) ↔
      (∀ encoding, resp.contentEncoding = some encoding → namesGzip encoding) ∨ str = [] := by
  rw [exists_keeps_iff, keeps_appended_iff]

/-- A zlib that stores its input behind a byte. -/
def stored : Zlib where
  deflate s := some (31 :: s)
  inflate z := some z.tail
  inflate_deflate s z h := by
    obtain rfl := Option.some.inj h
    rfl

/-- `Content-Encoding: br`: the body is gone. -/
theorem string_br :
    ¬ ∀ (zlib : Zlib) (resp : HttpResp) (str : Bytes),
      ∃ buf, resp.stringCopy zlib str = resp.appendOutputBody buf ∧
        resp.stringMove zlib str = resp.appendOutputBody buf ∧ resp.Keeps zlib str buf := by
  intro h
  have hkeeps := (exists_keeps_iff _ _ _).mp
    (h stored ⟨[(ascii "Content-Encoding", ascii "br")], []⟩ (ascii "hi"))
  rcases (keeps_appended_iff _ _ _).mp hkeeps with hall | hnil
  · have hgzip := hall (ascii "br") rfl
    revert hgzip
    decide
  · exact absurd hnil (by decide)

end HttpResp

end Wfrest
