import Wfrest.Server.Compress
import Wfrest.Server.HttpServer

/-!
# The buffers around zlib

`Compressor::gzip` and `Compressor::ungzip` call zlib in a loop, with an output buffer that
they double where it is full. `Wfrest.Server.Compress` has them as functions on whole texts;
here are the loops.

zlib is a parameter: a stream that, at every call, takes some of the input that is left and
writes some output. Its manual says how much (`DeflateManual`, `InflateManual`): as much as
there is room for. It leaves open what a call answers that fills the buffer with the last
byte, and how much input a call takes.

With buffers below `2 ^ 32` bytes, where the room of a call fits into a `uInt`, both loops
end, and they give what the stream has to give (`gzipBuf_eq`, `ungzipBuf_eq`), also for an
input that is cut off or is no gzip at all. So a body that went through `gzip` is read as it
was (`bodies_arrive`), as long as its bytes are there: `http_post_task` hands a pointer into
a local string to its request, which is sent later, and nothing is said about that request.

* The loops have fuel. That it is enough is part of the theorems.
* `deflateEnd` only frees memory.
-/

namespace Wfrest

/-! ### zlib -/

/-- The return codes of zlib. -/
inductive ZCode where
  | Z_OK
  | Z_STREAM_END
  | Z_NEED_DICT
  | Z_ERRNO
  | Z_STREAM_ERROR
  | Z_DATA_ERROR
  | Z_MEM_ERROR
  | Z_BUF_ERROR
  | Z_VERSION_ERROR
  deriving DecidableEq, Repr

/-- What a call of `deflate` or `inflate` does. -/
structure ZCall (σ : Type) where
  ret : ZCode
  state : σ
  /-- The number of bytes by which `next_in` moves. -/
  taken : Nat
  /-- What is written to `next_out`. -/
  written : Bytes

/-- A stream of zlib, with states in `σ`. -/
structure ZCoder (σ : Type) where
  /-- `deflateInit2` or `inflateInit2`; `none` where it does not answer `Z_OK`. -/
  init : Option σ
  /-- `deflate` with `Z_FINISH` or `inflate` with `Z_SYNC_FLUSH`: the `avail_in` bytes at
  `next_in`, and `avail_out`. -/
  call : σ → Bytes → Nat → ZCall σ
  /-- `inflateEnd` -/
  finish : σ → ZCode

/-- The `z_stream` of a loop, with the buffer that it writes to. -/
structure ZStream (σ : Type) where
  state : σ
  nextIn : Bytes
  totalOut : Nat
  buf : Bytes

namespace ZStream

variable {σ : Type}

/-- `buf.resize(n)` -/
def resize (s : ZStream σ) (n : Nat) : ZStream σ :=
  { s with buf := s.buf.take n ++ List.replicate (n - s.buf.length) 0 }

/-- The doubling in front of a call. -/
def grow (s : ZStream σ) (n : Nat) : ZStream σ :=
  if s.buf.length ≤ s.totalOut then s.resize n else s

/-- `avail_out`, a `uInt`. -/
def availOut (s : ZStream σ) : Nat := (s.buf.length - s.totalOut) % 2 ^ 32

/-- The stream and the buffer after a call that wrote behind `total_out`. -/
def after (s : ZStream σ) (c : ZCall σ) : ZStream σ where
  state := c.state
  nextIn := s.nextIn.drop c.taken
  totalOut := s.totalOut + c.written.length
  buf := s.buf.take s.totalOut ++ c.written ++ s.buf.drop (s.totalOut + c.written.length)

end ZStream

/-! ### The loops -/

/-- How a call of `gzip` ends. -/
inductive GzipEnd where
  | returned (status : CompressStatus) (dest : Bytes)
  /-- An assertion fails. -/
  | aborted
  deriving DecidableEq

/-- The members of `ErrorCode` that `ungzip` answers with. -/
inductive UncompressStatus where
  | statusOK
  | statusUncompressError
  deriving DecidableEq, Repr

namespace Compressor

variable {σ : Type}

/-- The loop of `gzip`. -/
def gzipLoop (Z : ZCoder σ) : Nat → ZStream σ → Option GzipEnd
  | 0, _ => none
  | fuel + 1, s =>
    let s := s.grow (s.totalOut * 2)
    if s.buf.length < s.totalOut then some .aborted
    else
      let c := Z.call s.state s.nextIn s.availOut
      if c.ret = .Z_STREAM_ERROR then some (.returned .statusCompressError [])
      else if s.availOut - c.written.length = 0 then gzipLoop Z fuel (s.after c)
      else if s.nextIn.length - c.taken = 0 ∧ c.ret = .Z_STREAM_END then
        some (.returned .statusOK ((s.after c).buf.take (s.after c).totalOut))
      else some .aborted

/-- `Compressor::gzip(const char *, size_t, std::string *)`. `avail_in` is a `uInt`. -/
def gzipBuf (Z : ZCoder σ) (compressBound : Nat → Nat) (fuel : Nat) (data : Bytes) :
    Option GzipEnd :=
  if 0 < data.length then
    match Z.init with
    | none => some (.returned .statusCompressError [])
    | some state =>
      gzipLoop Z fuel ⟨state, data.take (data.length % 2 ^ 32), 0,
        List.replicate (compressBound data.length) 0⟩
  else some (.returned .statusCompressError [])

/-- The loop of `ungzip`, and what follows it. -/
def ungzipLoop (Z : ZCoder σ) : Nat → ZStream σ → Option (UncompressStatus × Bytes)
  | 0, _ => none
  | fuel + 1, s =>
    let s := s.grow (s.buf.length * 2)
    let c := Z.call s.state s.nextIn s.availOut
    match c.ret with
    | .Z_OK => ungzipLoop Z fuel (s.after c)
    | .Z_STREAM_END =>
      if Z.finish c.state ≠ .Z_OK then some (.statusUncompressError, [])
      else some (.statusOK, (s.after c).buf.take (s.after c).totalOut)
    | _ => some (.statusUncompressError, [])

/-- `Compressor::ungzip(const char *, size_t, std::string *)` -/
def ungzipBuf (Z : ZCoder σ) (fuel : Nat) (data : Bytes) : Option (UncompressStatus × Bytes) :=
  if data.length = 0 then some (.statusOK, [])
  else
    match Z.init with
    | none => some (.statusUncompressError, [])
    | some state =>
      ungzipLoop Z fuel ⟨state, data.take (data.length % 2 ^ 32), 0,
        List.replicate (data.length * 2) 0⟩

end Compressor

/-! ### The manual -/

/-- What `deflate` promises, when it is called with `Z_FINISH`: `pending` is what a stream has
still to write, given the input that is left. -/
structure DeflateManual {σ : Type} (Z : ZCoder σ) (pending : σ → Bytes → Bytes) : Prop where
  /-- It writes as much as there is room for. -/
  written_eq : ∀ st inp n, 0 < n → (Z.call st inp n).written = (pending st inp).take n
  pending_eq : ∀ st inp n, 0 < n →
    pending (Z.call st inp n).state (inp.drop (Z.call st inp n).taken) = (pending st inp).drop n
  ne_streamError : ∀ st inp n, 0 < n → (Z.call st inp n).ret ≠ .Z_STREAM_ERROR
  /-- With room left, it has come to the end. -/
  streamEnd : ∀ st inp n, (pending st inp).length < n →
    (Z.call st inp n).ret = .Z_STREAM_END ∧ (Z.call st inp n).taken = inp.length

/-- What `inflate` promises: `pending` is what a stream has still to write, given the input
that is left, and whether it comes to its end then. Otherwise the input is cut off or is no
gzip. -/
structure InflateManual {σ : Type} (Z : ZCoder σ) (pending : σ → Bytes → Bytes × Bool) :
    Prop where
  written_eq : ∀ st inp n, 0 < n → (Z.call st inp n).written = (pending st inp).1.take n
  pending_eq : ∀ st inp n, 0 < n →
    pending (Z.call st inp n).state (inp.drop (Z.call st inp n).taken) =
      ((pending st inp).1.drop n, (pending st inp).2)
  taken_le : ∀ st inp n, 0 < n → (Z.call st inp n).taken ≤ inp.length
  /-- `Z_OK` is progress. -/
  progress : ∀ st inp n, 0 < n → (Z.call st inp n).ret = .Z_OK →
    0 < (Z.call st inp n).taken ∨ (Z.call st inp n).written ≠ []
  /-- The end is told when everything is written, -/
  of_streamEnd : ∀ st inp n, 0 < n → (Z.call st inp n).ret = .Z_STREAM_END →
    (pending st inp).2 = true ∧ (pending st inp).1.length ≤ n
  /-- and it is told at once when there is room left. -/
  streamEnd : ∀ st inp n, (pending st inp).1.length < n → (pending st inp).2 = true →
    (Z.call st inp n).ret = .Z_STREAM_END
  /-- A stream that comes to its end gives no error before. -/
  ok : ∀ st inp n, 0 < n → n ≤ (pending st inp).1.length → (pending st inp).2 = true →
    (Z.call st inp n).ret = .Z_OK ∨ (Z.call st inp n).ret = .Z_STREAM_END
  finish : ∀ st, Z.finish st = .Z_OK

/-! ### The buffer -/

namespace ZStream

variable {σ : Type} {s : ZStream σ} {z rest : Bytes} {m n : Nat}

@[simp] theorem state_grow : (s.grow m).state = s.state := by
  unfold grow resize
  split <;> rfl

@[simp] theorem nextIn_grow : (s.grow m).nextIn = s.nextIn := by
  unfold grow resize
  split <;> rfl

/-- The buffer holds what was written of `z`, `rest` is to come, and a size fits into a
`uInt`. -/
structure Filled (s : ZStream σ) (z rest : Bytes) : Prop where
  pos : 0 < s.buf.length
  le : s.totalOut ≤ s.buf.length
  eq : s.buf.take s.totalOut ++ rest = z
  lt : s.buf.length < 2 ^ 32

/-- A buffer of zeros. -/
theorem filled_replicate (st : σ) (inp z : Bytes) (hpos : 0 < n) (hlt : n < 2 ^ 32) :
    Filled ⟨st, inp, 0, List.replicate n 0⟩ z z :=
  ⟨by rwa [List.length_replicate], Nat.zero_le _, rfl, by rwa [List.length_replicate]⟩

/-- Where the buffer is full, it becomes twice as long. -/
theorem Filled.grow (hf : Filled s z rest) (hz : 2 * z.length < 2 ^ 32)
    (hm : s.buf.length = s.totalOut → m = 2 * s.totalOut) :
    Filled (s.grow m) z rest ∧ (s.grow m).totalOut < (s.grow m).buf.length := by
  obtain ⟨hpos, hle, heq, hlt⟩ := hf
  unfold ZStream.grow
  split_ifs with hfull
  · have hlength : s.buf.length = s.totalOut := le_antisymm hfull hle
    obtain rfl := hm hlength
    have hwritten : s.totalOut ≤ z.length := by
      rw [← heq, List.length_append, List.length_take]
      omega
    have hbuf : (s.resize (2 * s.totalOut)).buf = s.buf ++ List.replicate s.totalOut 0 := by
      unfold resize
      rw [List.take_of_length_le (by omega), hlength, two_mul, Nat.add_sub_cancel]
    have hsize : (s.resize (2 * s.totalOut)).buf.length = 2 * s.totalOut := by
      rw [hbuf, List.length_append, List.length_replicate, hlength, two_mul]
    refine ⟨⟨?_, ?_, ?_, ?_⟩, ?_⟩
    · omega
    · show s.totalOut ≤ _
      omega
    · rw [hbuf]
      show (s.buf ++ _).take s.totalOut ++ rest = z
      rw [List.take_append_of_le_length hle]
      exact heq
    · omega
    · show s.totalOut < _
      omega
  · exact ⟨⟨hpos, hle, heq, hlt⟩, Nat.lt_of_not_le hfull⟩

theorem Filled.availOut_eq (hf : Filled s z rest) : s.availOut = s.buf.length - s.totalOut :=
  Nat.mod_eq_of_lt (lt_of_le_of_lt (Nat.sub_le _ _) hf.lt)

/-- A call that writes as much as there is room for. -/
theorem Filled.after (hf : Filled s z rest) {c : ZCall σ} (hc : c.written = rest.take s.availOut) :
    Filled (s.after c) z (rest.drop s.availOut) := by
  have hlength : c.written.length ≤ s.buf.length - s.totalOut := by
    rw [hc, ← hf.availOut_eq]
    exact List.length_take_le _ _
  obtain ⟨hpos, hle, heq, hlt⟩ := hf
  have htake : (s.buf.take s.totalOut).length = s.totalOut := List.length_take_of_le hle
  have hsize : (s.after c).buf.length = s.buf.length := by
    unfold ZStream.after
    simp only [List.length_append, htake, List.length_drop]
    omega
  refine ⟨by omega, ?_, ?_, by omega⟩
  · rw [hsize]
    show s.totalOut + c.written.length ≤ _
    omega
  · have hwritten : (s.after c).buf.take (s.after c).totalOut =
        s.buf.take s.totalOut ++ c.written := by
      show (s.buf.take s.totalOut ++ c.written ++ _).take (s.totalOut + c.written.length) = _
      refine List.take_left' ?_
      rw [List.length_append, htake]
    rw [hwritten, hc, List.append_assoc, List.take_append_drop]
    exact heq

end ZStream

/-! ### What the loops give -/

namespace Compressor

open ZStream

variable {σ : Type} {Z : ZCoder σ}

/-- The loop of `gzip` ends with everything that the stream has to write. -/
theorem gzipLoop_eq {pending : σ → Bytes → Bytes} (hZ : DeflateManual Z pending) {z : Bytes}
    (hz : 2 * z.length < 2 ^ 32) (fuel : Nat) (s : ZStream σ)
    (hf : Filled s z (pending s.state s.nextIn))
    (hfuel : (pending s.state s.nextIn).length < fuel) :
    gzipLoop Z fuel s = some (.returned .statusOK z) := by
  induction fuel generalizing s with
  | zero => exact absurd hfuel (Nat.not_lt_zero _)
  | succ fuel ih =>
    obtain ⟨hf₁, hroom⟩ := hf.grow hz (m := s.totalOut * 2) fun _ => Nat.mul_comm _ _
    unfold gzipLoop
    dsimp only
    rw [← state_grow (s := s) (m := s.totalOut * 2), ← nextIn_grow (s := s) (m := s.totalOut * 2)]
      at hf₁ hfuel
    generalize s.grow (s.totalOut * 2) = s₁ at hf₁ hfuel hroom ⊢
    have havail := hf₁.availOut_eq
    have hpos : 0 < s₁.availOut := by omega
    have hwritten := hZ.written_eq s₁.state s₁.nextIn _ hpos
    rw [if_neg (by omega), if_neg (hZ.ne_streamError _ _ _ hpos)]
    have hafter := hf₁.after hwritten
    have hlength : (Z.call s₁.state s₁.nextIn s₁.availOut).written.length =
        min s₁.availOut (pending s₁.state s₁.nextIn).length := by
      rw [hwritten, List.length_take]
    obtain hend | hmore := Nat.lt_or_ge (pending s₁.state s₁.nextIn).length s₁.availOut
    · -- there is room left, so this was the last call
      obtain ⟨hret, htaken⟩ := hZ.streamEnd _ _ _ hend
      rw [if_neg (by omega), if_pos ⟨by omega, hret⟩]
      have hz := hafter.eq
      rw [List.drop_of_length_le hend.le, List.append_nil] at hz
      rw [hz]
    · rw [if_pos (by omega)]
      rw [← hZ.pending_eq _ _ _ hpos] at hafter
      refine ih _ hafter ?_
      show (pending (Z.call _ _ _).state (s₁.nextIn.drop _)).length < fuel
      rw [hZ.pending_eq _ _ _ hpos, List.length_drop]
      omega

/-- **`gzip` gives the whole stream**, however often zlib fills the buffer. -/
theorem gzipBuf_eq {pending : σ → Bytes → Bytes} (hZ : DeflateManual Z pending) {st : σ}
    (hinit : Z.init = some st) {compressBound : Nat → Nat} {data : Bytes} (hne : data ≠ [])
    (hbound : 0 < compressBound data.length ∧ compressBound data.length < 2 ^ 32)
    (hdata : data.length < 2 ^ 32) (hz : 2 * (pending st data).length < 2 ^ 32) {fuel : Nat}
    (hfuel : (pending st data).length < fuel) :
    gzipBuf Z compressBound fuel data = some (.returned .statusOK (pending st data)) := by
  have hall : data.take (data.length % 2 ^ 32) = data := by
    rw [Nat.mod_eq_of_lt hdata, List.take_length]
  unfold gzipBuf
  rw [if_pos (List.length_pos_of_ne_nil hne), hinit, hall]
  exact gzipLoop_eq hZ hz fuel _ (filled_replicate st data _ hbound.1 hbound.2) hfuel

/-- The loop of `ungzip` ends with everything that the stream has to write, or with the
error. -/
theorem ungzipLoop_eq {pending : σ → Bytes → Bytes × Bool} (hZ : InflateManual Z pending)
    {d : Bytes} (hd : 2 * d.length < 2 ^ 32) (fuel : Nat) (s : ZStream σ)
    (hf : Filled s d (pending s.state s.nextIn).1)
    (hfuel : s.nextIn.length + (pending s.state s.nextIn).1.length < fuel) :
    ungzipLoop Z fuel s =
      some (if (pending s.state s.nextIn).2 then (.statusOK, d)
        else (.statusUncompressError, [])) := by
  induction fuel generalizing s with
  | zero => exact absurd hfuel (Nat.not_lt_zero _)
  | succ fuel ih =>
    obtain ⟨hf₁, hroom⟩ := hf.grow hd (m := s.buf.length * 2) fun hfull => by
      rw [hfull, Nat.mul_comm]
    unfold ungzipLoop
    dsimp only
    rw [← state_grow (s := s) (m := s.buf.length * 2), ← nextIn_grow (s := s)
      (m := s.buf.length * 2)] at hf₁ hfuel ⊢
    generalize s.grow (s.buf.length * 2) = s₁ at hf₁ hfuel hroom ⊢
    have havail := hf₁.availOut_eq
    have hpos : 0 < s₁.availOut := by omega
    have hwritten := hZ.written_eq s₁.state s₁.nextIn _ hpos
    have hpending := hZ.pending_eq s₁.state s₁.nextIn _ hpos
    have hafter := hf₁.after hwritten
    have hlength : (Z.call s₁.state s₁.nextIn s₁.availOut).written.length =
        min s₁.availOut (pending s₁.state s₁.nextIn).1.length := by
      rw [hwritten, List.length_take]
    -- a call that does not go on has come to the end, if there is one
    have hbroken : (Z.call s₁.state s₁.nextIn s₁.availOut).ret ≠ .Z_OK →
        (Z.call s₁.state s₁.nextIn s₁.availOut).ret ≠ .Z_STREAM_END →
          (pending s₁.state s₁.nextIn).2 = false := by
      intro hok hend
      by_contra hcomplete
      have hcomplete := eq_true_of_ne_false hcomplete
      obtain hlt | hle := Nat.lt_or_ge (pending s₁.state s₁.nextIn).1.length s₁.availOut
      · exact hend (hZ.streamEnd _ _ _ hlt hcomplete)
      · obtain h | h := hZ.ok _ _ _ hpos hle hcomplete
        · exact hok h
        · exact hend h
    split
    next hret =>
      have hstep : pending (s₁.after (Z.call s₁.state s₁.nextIn s₁.availOut)).state
          (s₁.after (Z.call s₁.state s₁.nextIn s₁.availOut)).nextIn =
            ((pending s₁.state s₁.nextIn).1.drop s₁.availOut, (pending s₁.state s₁.nextIn).2) :=
        hpending
      rw [ih (s₁.after (Z.call s₁.state s₁.nextIn s₁.availOut)), hstep]
      · rw [hstep]
        exact hafter
      · rw [hstep]
        show (s₁.nextIn.drop _).length + ((pending s₁.state s₁.nextIn).1.drop s₁.availOut).length <
          fuel
        rw [List.length_drop, List.length_drop]
        have htaken := hZ.taken_le s₁.state s₁.nextIn _ hpos
        obtain hprogress | hprogress := hZ.progress _ _ _ hpos hret
        · omega
        · have hsome := List.length_pos_of_ne_nil hprogress
          omega
    next hret =>
      obtain ⟨hcomplete, hle⟩ := hZ.of_streamEnd _ _ _ hpos hret
      have hall := hafter.eq
      rw [List.drop_of_length_le hle, List.append_nil] at hall
      rw [if_neg (not_not_intro (hZ.finish _)), hcomplete, if_pos rfl, hall]
    next hok hend =>
      rw [hbroken hok hend]
      rfl

/-- **`ungzip` decides.** It ends for every input, with everything that is in it when it is
whole, and with the error when it is not. -/
theorem ungzipBuf_eq {pending : σ → Bytes → Bytes × Bool} (hZ : InflateManual Z pending) {st : σ}
    (hinit : Z.init = some st) {data : Bytes} (hne : data ≠ []) (hdata : 2 * data.length < 2 ^ 32)
    (hd : 2 * (pending st data).1.length < 2 ^ 32) {fuel : Nat}
    (hfuel : data.length + (pending st data).1.length < fuel) :
    ungzipBuf Z fuel data =
      some (if (pending st data).2 then (.statusOK, (pending st data).1)
        else (.statusUncompressError, [])) := by
  have hpos := List.length_pos_of_ne_nil hne
  have hall : data.take (data.length % 2 ^ 32) = data := by
    rw [Nat.mod_eq_of_lt (by omega), List.take_length]
  unfold ungzipBuf
  rw [if_neg hpos.ne', hinit, hall]
  exact ungzipLoop_eq hZ hd fuel _
    (filled_replicate st data _ (by omega) (by omega)) hfuel

end Compressor

/-! ### Bodies -/

/-- `HttpReq`, as far as `body` reads and writes it. -/
structure HttpReq where
  /-- The header fields, in the order in which they arrived. -/
  headers : List (Bytes × Bytes)
  /-- What `decode_chunked_body` returns. -/
  content : Bytes
  /-- `req_data_->body` -/
  reqDataBody : Bytes

namespace HttpReq

variable {τ : Type} {Z : ZCoder τ} {pending : τ → Bytes → Bytes × Bool}

/-- A header of the request. -/
def header (req : HttpReq) (key : Bytes) : Bytes := (HeaderMap.fill req.headers).header key

/-- `HttpReq::body` -/
def body (Z : ZCoder τ) (fuel : Nat) (req : HttpReq) : Option (HttpReq × Bytes) :=
  if req.reqDataBody = [] then
    if HttpResp.namesGzip (req.header (ascii "Content-Encoding")) then
      (Compressor.ungzipBuf Z fuel req.content).map fun r =>
        let body := if r.1 ≠ .statusOK then req.content else r.2
        ({ req with reqDataBody := body }, body)
    else some ({ req with reqDataBody := req.content }, req.content)
  else some (req, req.reqDataBody)

/-- The text that `body` is about: what is in a gzip, where the header names it and there is
one, and else the content. -/
def text (pending : τ → Bytes → Bytes × Bool) (st : τ) (req : HttpReq) : Bytes :=
  if HttpResp.namesGzip (req.header (ascii "Content-Encoding")) ∧ req.content ≠ [] ∧
      (pending st req.content).2 = true then (pending st req.content).1
  else req.content

theorem body_eq (hZ : InflateManual Z pending) {st : τ} (hinit : Z.init = some st) {req : HttpReq}
    (hfresh : req.reqDataBody = []) (hcontent : 2 * req.content.length < 2 ^ 32)
    (hd : 2 * (pending st req.content).1.length < 2 ^ 32) {fuel : Nat}
    (hfuel : req.content.length + (pending st req.content).1.length < fuel) :
    req.body Z fuel =
      some ({ req with reqDataBody := req.text pending st }, req.text pending st) := by
  unfold body
  rw [if_pos hfresh]
  by_cases hgzip : HttpResp.namesGzip (req.header (ascii "Content-Encoding"))
  · rw [if_pos hgzip]
    by_cases hne : req.content = []
    · have hempty : Compressor.ungzipBuf Z fuel [] = some (.statusOK, []) := rfl
      have htext : req.text pending st = req.content := if_neg fun h => h.2.1 hne
      rw [htext, hne, hempty]
      rfl
    · rw [Compressor.ungzipBuf_eq hZ hinit hne hcontent hd hfuel]
      cases hcomplete : (pending st req.content).2 with
      | true =>
        have htext : req.text pending st = (pending st req.content).1 :=
          if_pos ⟨hgzip, hne, hcomplete⟩
        rw [htext]
        rfl
      | false =>
        have htext : req.text pending st = req.content :=
          if_neg fun h => Bool.noConfusion (hcomplete.symm.trans h.2.2)
        rw [htext]
        rfl
  · have htext : req.text pending st = req.content := if_neg fun h => hgzip h.1
    rw [if_neg hgzip, htext]

/-- A body that was read is there. -/
theorem body_again (Z : ZCoder τ) (fuel : Nat) {req : HttpReq} (hread : req.reqDataBody ≠ []) :
    req.body Z fuel = some (req, req.reqDataBody) := if_neg hread

end HttpReq

/-- zlib as it is linked: a deflater and an inflater that follow the manual, and the second
undoes the first. -/
structure ZlibStreams (σ τ : Type) where
  deflater : ZCoder σ
  inflater : ZCoder τ
  compressBound : Nat → Nat
  toWrite : σ → Bytes → Bytes
  toRead : τ → Bytes → Bytes × Bool
  deflateManual : DeflateManual deflater toWrite
  inflateManual : InflateManual inflater toRead
  dstart : σ
  istart : τ
  deflater_init : deflater.init = some dstart
  inflater_init : inflater.init = some istart
  compressBound_pos : ∀ n, 0 < compressBound n
  /-- A gzip has a header. -/
  toWrite_ne_nil : ∀ data, toWrite dstart data ≠ []
  inflate_deflate : ∀ data, toRead istart (toWrite dstart data) = (data, true)

namespace ZlibStreams

variable {σ τ : Type} (Z : ZlibStreams σ τ)

/-- The gzip of a text. -/
def deflated (data : Bytes) : Bytes := Z.toWrite Z.dstart data

/-- The text and its gzip fit into the buffers. -/
structure Fits (data : Bytes) : Prop where
  text_lt : 2 * data.length < 2 ^ 32
  bound_lt : Z.compressBound data.length < 2 ^ 32
  gzip_lt : 2 * (Z.deflated data).length < 2 ^ 32

/-- zlib on whole texts, as the responses use it. -/
def toZlib : Zlib where
  deflate s := some (Z.deflated s)
  inflate z := if (Z.toRead Z.istart z).2 then some (Z.toRead Z.istart z).1 else none
  inflate_deflate s z h := by
    obtain rfl := Option.some.inj h
    have hread : Z.toRead Z.istart (Z.deflated s) = (s, true) := Z.inflate_deflate s
    rw [hread]
    rfl

/-- **The loop refines the function on whole texts.** -/
theorem gzipBuf_toZlib {data : Bytes} (hfits : Z.Fits data) {fuel : Nat}
    (hfuel : (Z.deflated data).length < fuel) :
    Compressor.gzipBuf Z.deflater Z.compressBound fuel data =
      some (.returned (Compressor.gzip Z.toZlib data).1 (Compressor.gzip Z.toZlib data).2) := by
  obtain ⟨hdata, hbound, hdeflated⟩ := hfits
  by_cases hne : data = []
  · rw [hne]
    rfl
  · rw [Compressor.gzipBuf_eq Z.deflateManual Z.deflater_init hne
      ⟨Z.compressBound_pos _, hbound⟩ (by omega) hdeflated hfuel]
    unfold Compressor.gzip
    rw [if_pos (List.length_pos_of_ne_nil hne)]
    rfl

/-- What was deflated is read back. -/
theorem ungzipBuf_deflated {data : Bytes} (hfits : Z.Fits data) {fuel : Nat}
    (hfuel : (Z.deflated data).length + data.length < fuel) :
    Compressor.ungzipBuf Z.inflater fuel (Z.deflated data) = some (.statusOK, data) := by
  have hread : Z.toRead Z.istart (Z.deflated data) = (data, true) := Z.inflate_deflate data
  have hne : Z.deflated data ≠ [] := Z.toWrite_ne_nil data
  have hsize : 2 * (Z.toRead Z.istart (Z.deflated data)).1.length < 2 ^ 32 := by
    rw [hread]
    exact hfits.text_lt
  rw [Compressor.ungzipBuf_eq Z.inflateManual Z.inflater_init hne hfits.gzip_lt hsize
    (by rwa [hread]), hread]
  rfl

/-! ### Bodies that went through `gzip` -/

/-- **Bodies arrive.** Whatever zlib does at a call, `gzip` ends with the whole gzip of a body
that is not empty and fits; a request with this content that names gzip has the body, at every
call of `body`; and so has what the responses append where they name gzip. -/
theorem bodies_arrive {data : Bytes} (hne : data ≠ []) (hfits : Z.Fits data) {fuel : Nat}
    (hfuel : (Z.deflated data).length + data.length < fuel) :
    Compressor.gzipBuf Z.deflater Z.compressBound fuel data =
        some (.returned .statusOK (Z.deflated data)) ∧
      (∀ req : HttpReq, req.reqDataBody = [] →
        HttpResp.namesGzip (req.header (ascii "Content-Encoding")) →
          req.content = Z.deflated data → ∃ req', req.body Z.inflater fuel = some (req', data) ∧
            ∀ fuel', req'.body Z.inflater fuel' = some (req', data)) ∧
      ∀ (resp : HttpResp) encoding, resp.contentEncoding = some encoding →
        HttpResp.namesGzip encoding → resp.outputBody = [] →
          Compressor.ungzipBuf Z.inflater fuel (resp.stringCopy Z.toZlib data).outputBody =
            some (.statusOK, data) ∧
          Compressor.ungzipBuf Z.inflater fuel (resp.stringMove Z.toZlib data).outputBody =
            some (.statusOK, data) := by
  have hread : Z.toRead Z.istart (Z.deflated data) = (data, true) := Z.inflate_deflate data
  refine ⟨?_, fun req hfresh hnames hcontent => ?_, fun resp encoding hencoding hnames hempty => ?_⟩
  · have hgzip : Compressor.gzip Z.toZlib data = (.statusOK, Z.deflated data) :=
      if_pos (List.length_pos_of_ne_nil hne)
    rw [Z.gzipBuf_toZlib hfits (by omega), hgzip]
  · have htext : req.text Z.toRead Z.istart = data := by
      unfold HttpReq.text
      rw [hcontent, if_pos ⟨hnames, Z.toWrite_ne_nil data, congrArg Prod.snd hread⟩, hread]
    have hsize : 2 * (Z.toRead Z.istart req.content).1.length < 2 ^ 32 := by
      rw [hcontent, hread]
      exact hfits.text_lt
    have hfuel' : req.content.length + (Z.toRead Z.istart req.content).1.length < fuel := by
      rw [hcontent, hread]
      exact hfuel
    have hbody := HttpReq.body_eq Z.inflateManual Z.inflater_init hfresh
      (by rw [hcontent]; exact hfits.gzip_lt) hsize hfuel'
    rw [htext] at hbody
    exact ⟨_, hbody, fun fuel' => HttpReq.body_again _ fuel' hne⟩
  · have happended : resp.appended Z.toZlib data = Z.deflated data := by
      unfold HttpResp.appended
      rw [hencoding]
      dsimp only
      rw [if_pos hnames, if_pos (List.length_pos_of_ne_nil hne)]
      rfl
    have hbody : (resp.stringCopy Z.toZlib data).outputBody = Z.deflated data := by
      rw [HttpResp.stringCopy_eq, happended]
      show resp.outputBody ++ Z.deflated data = _
      rw [hempty, List.nil_append]
    rw [HttpResp.stringMove_eq_stringCopy, hbody]
    exact ⟨Z.ungzipBuf_deflated hfits hfuel, Z.ungzipBuf_deflated hfits hfuel⟩

/-- **`body` decides**, for every content: a gzip where the header names it, one that is cut
off, and anything else. It ends, with the text that was compressed or with the content as it
is, and later calls give the same. -/
theorem body_decides (req : HttpReq) (hfresh : req.reqDataBody = [])
    (hcontent : 2 * req.content.length < 2 ^ 32)
    (hd : 2 * (Z.toRead Z.istart req.content).1.length < 2 ^ 32) {fuel : Nat}
    (hfuel : req.content.length + (Z.toRead Z.istart req.content).1.length < fuel) :
    ∃ req', req.body Z.inflater fuel = some (req', req.text Z.toRead Z.istart) ∧
      req'.headers = req.headers ∧ req'.content = req.content ∧
      req'.body Z.inflater fuel = some (req', req.text Z.toRead Z.istart) := by
  have hbody := HttpReq.body_eq Z.inflateManual Z.inflater_init hfresh hcontent hd hfuel
  refine ⟨_, hbody, rfl, rfl, ?_⟩
  by_cases hempty : req.text Z.toRead Z.istart = []
  · -- nothing was kept, so it is done again
    have hsame : ({ req with reqDataBody := req.text Z.toRead Z.istart } : HttpReq) = req := by
      rw [hempty, ← hfresh]
    rw [hsame]
    rw [hsame] at hbody
    exact hbody
  · exact HttpReq.body_again _ _ hempty

/-! ### Streams of whole texts -/

section WholeTexts

variable {encode : Bytes → Bytes} {decode : Bytes → Bytes × Bool}

/-- A deflater that has the whole gzip at its first call. -/
def wholeDeflater (encode : Bytes → Bytes) : ZCoder (Option Bytes) where
  init := some none
  call st inp n :=
    let p := st.getD (encode inp)
    ⟨if p.length < n then .Z_STREAM_END else .Z_OK, some (p.drop n), inp.length, p.take n⟩
  finish _ := .Z_OK

/-- An inflater that has the whole text at its first call, and whether there was a gzip. -/
def wholeInflater (decode : Bytes → Bytes × Bool) : ZCoder (Option (Bytes × Bool)) where
  init := some none
  call st inp n :=
    let p := st.getD (decode inp)
    ⟨if p.1.length < n then if p.2 then .Z_STREAM_END else .Z_DATA_ERROR else .Z_OK,
      some (p.1.drop n, p.2), inp.length, p.1.take n⟩
  finish _ := .Z_OK

theorem wholeDeflater_manual :
    DeflateManual (wholeDeflater encode) fun st inp => st.getD (encode inp) where
  written_eq _ _ _ _ := rfl
  pending_eq _ _ _ _ := rfl
  ne_streamError st inp n _ := by
    show (if (st.getD (encode inp)).length < n then ZCode.Z_STREAM_END else .Z_OK) ≠ _
    split_ifs <;> exact nofun
  streamEnd st inp n hlt := ⟨if_pos hlt, rfl⟩

theorem wholeInflater_manual :
    InflateManual (wholeInflater decode) fun st inp => st.getD (decode inp) where
  written_eq _ _ _ _ := rfl
  pending_eq _ _ _ _ := rfl
  taken_le _ _ _ _ := le_rfl
  progress st inp n hn := by
    show (if _ then if _ then ZCode.Z_STREAM_END else .Z_DATA_ERROR else .Z_OK) = .Z_OK →
      0 < inp.length ∨ (st.getD (decode inp)).1.take n ≠ []
    split_ifs with hlt hcomplete
    · exact nofun
    · exact nofun
    · refine fun _ => .inr (List.ne_nil_of_length_pos ?_)
      rw [List.length_take]
      omega
  of_streamEnd st inp n _ := by
    show (if _ then if _ then ZCode.Z_STREAM_END else .Z_DATA_ERROR else .Z_OK) = _ → _
    split_ifs with hlt hcomplete
    · exact fun _ => ⟨hcomplete, hlt.le⟩
    · exact nofun
    · exact nofun
  streamEnd st inp n hlt hcomplete := by
    show (if _ then if _ then ZCode.Z_STREAM_END else .Z_DATA_ERROR else .Z_OK) = _
    rw [if_pos hlt, if_pos hcomplete]
  ok st inp n _ hle _ := .inl (if_neg (Nat.not_lt.mpr hle))
  finish _ := rfl

/-- The `compressBound` of zlib. -/
def zlibBound (n : Nat) : Nat := n + n / 2 ^ 12 + n / 2 ^ 14 + n / 2 ^ 25 + 13

/-- The two of them, when the second undoes the first. -/
def wholeTexts (hne : ∀ data, encode data ≠ [])
    (hdecode : ∀ data, decode (encode data) = (data, true)) :
    ZlibStreams (Option Bytes) (Option (Bytes × Bool)) where
  deflater := wholeDeflater encode
  inflater := wholeInflater decode
  compressBound := zlibBound
  toWrite st inp := st.getD (encode inp)
  toRead st inp := st.getD (decode inp)
  deflateManual := wholeDeflater_manual
  inflateManual := wholeInflater_manual
  dstart := none
  istart := none
  deflater_init := rfl
  inflater_init := rfl
  compressBound_pos _ := Nat.succ_pos _
  toWrite_ne_nil := hne
  inflate_deflate := hdecode

end WholeTexts

/-- The gzip that zlib makes of `dirs`: longer than the buffer of `gzip`, so two rounds. -/
def dirsGzip : Bytes :=
  [31, 139, 8, 0, 0, 0, 0, 0, 0, 3, 75, 201, 44, 42, 6, 0, 21, 116, 3, 6, 4, 0, 0, 0]

/-- zlib on this text. Other texts stand behind a byte that begins no gzip. -/
def dirsEncode (data : Bytes) : Bytes := if data = ascii "dirs" then dirsGzip else 30 :: data

def dirsDecode (z : Bytes) : Bytes × Bool :=
  if z = dirsGzip then (ascii "dirs", true)
  else if z.head? = some 30 then (z.tail, true) else ([], false)

theorem dirsDecode_dirsEncode (data : Bytes) : dirsDecode (dirsEncode data) = (data, true) := by
  unfold dirsEncode
  split_ifs with hdirs
  · rw [hdirs]
    rfl
  · have hne : (30 :: data : Bytes) ≠ dirsGzip := fun h => by
      have hhead : (30 : UInt8) = 31 := Option.some.inj (congrArg List.head? h)
      exact absurd hhead (by decide)
    rw [dirsDecode, if_neg hne]
    rfl

/-- zlib on `dirs`. -/
def dirsZlib : ZlibStreams (Option Bytes) (Option (Bytes × Bool)) :=
  wholeTexts (fun data => by unfold dirsEncode; split_ifs <;> exact List.cons_ne_nil _ _)
    dirsDecode_dirsEncode

/-- A request that names gzip. -/
def gzipRequest (content : Bytes) : HttpReq where
  headers := [(ascii "Content-Type", ascii "application/json"),
    (ascii "Content-Encoding", ascii "gzip")]
  content := content
  reqDataBody := []

theorem bodies_arrive_dirs :
    Compressor.gzipBuf dirsZlib.deflater zlibBound 40 (ascii "dirs") =
        some (.returned .statusOK dirsGzip) ∧
      ∃ req', (gzipRequest dirsGzip).body dirsZlib.inflater 40 = some (req', ascii "dirs") := by
  have hfits : dirsZlib.Fits (ascii "dirs") := ⟨by decide, by decide, by decide⟩
  have hlength : (dirsZlib.deflated (ascii "dirs")).length + (ascii "dirs").length < 40 := by
    decide
  obtain ⟨hgzip, hbody, -⟩ := bodies_arrive dirsZlib (by decide) hfits hlength
  obtain ⟨req', hread, -⟩ := hbody (gzipRequest dirsGzip) rfl (by decide) rfl
  exact ⟨hgzip, req', hread⟩

/-- A body that is no gzip, under a header that says so. -/
theorem body_decides_plain :
    ∃ req', (gzipRequest (ascii "dirs")).body dirsZlib.inflater 40 =
      some (req', ascii "dirs") := by
  have hlength : (gzipRequest (ascii "dirs")).content.length +
      (dirsZlib.toRead dirsZlib.istart (ascii "dirs")).1.length < 40 := by decide
  obtain ⟨req', hbody, -⟩ := body_decides dirsZlib (gzipRequest (ascii "dirs")) rfl (by decide)
    (by decide) hlength
  exact ⟨req', hbody⟩

end ZlibStreams

end Wfrest
