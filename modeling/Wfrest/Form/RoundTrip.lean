import Wfrest.Form.Encoder
import Wfrest.Form.Exact

/-!
# Encoder and decoder

The encoder begins every part, also the first one, with CR LF in front of the boundary.
The parser starts in the state that matches the boundary itself and gives up at the CR.
So no form that the encoder builds is read back (`string_not_read_back`).
-/

namespace Wfrest

namespace MultiPartEncoder

/-- The map of the params and the files, as it should be read back. -/
def expectedForm (e : MultiPartEncoder) (probe : Nat → FileProbe) : Form :=
  Form.ofAssignments (e.params.map (fun param => (param.1, [], param.2)) ++
    e.files.mapIdx fun i file =>
      (file.1, PathUtil.base file.2, (probe i).pread.getD []))

/-- The form parser reads back what the response puts out. -/
def ReadBack (e : MultiPartEncoder) (probe : Nat → FileProbe) : Prop :=
  parseMultipart e.boundary (e.string probe).outputBody.flatten = .ok (e.expectedForm probe)

/-- Readable files, at least one; distinct quotable names; no content that looks like a
delimiter. -/
structure Sendable (e : MultiPartEncoder) (probe : Nat → FileProbe) : Prop where
  files_ne_nil : e.files ≠ []
  readable : ∀ i < e.files.length, Queued probe i ∧ (probe i).pread.isSome
  names_ok : ∀ name ∈ e.params.map Prod.fst ++ e.files.map Prod.fst, name ≠ [] ∧ Quotable name
  names_nodup : (e.params.map Prod.fst ++ e.files.map Prod.fst).Nodup
  values_ok : ∀ param ∈ e.params,
    ¬ MultipartParser.delimiter (dashes ++ e.boundary) <:+: param.2
  contents_ok : ∀ i < e.files.length, ∀ buf ∈ (probe i).pread,
    ¬ MultipartParser.delimiter (dashes ++ e.boundary) <:+: buf

/-- The body begins with CR, when there is one. -/
private theorem outputBody_starts (e : MultiPartEncoder) (probe : Nat → FileProbe) :
    (e.string probe).outputBody.flatten = [] ∨
      ∃ rest, (e.string probe).outputBody.flatten = cr :: rest := by
  have hclosing : ∃ rest, closing e.boundary = cr :: rest := ⟨_, rfl⟩
  have hfiles : ∀ (files : List (Bytes × Bytes)) (i : Nat), ∃ rest,
      -- every part and the closing line begin with CR LF, also when files are passed over
      fileParts e.boundary probe i files ++ closing e.boundary = cr :: rest := by
    intro files
    induction files with
    | nil => exact fun _ => hclosing
    | cons file files ih =>
      intro i
      obtain ⟨rest, hrest⟩ := ih (i + 1)
      rw [fileParts, List.append_assoc, hrest]
      cases (probe i).pread with
      | none => exact ⟨_, rfl⟩
      | some buf =>
        by_cases hq : Queued probe i
        · simp only [if_pos hq]
          exact ⟨_, rfl⟩
        · simp only [if_neg hq]
          exact ⟨_, rfl⟩
  rw [outputBody_string]
  split_ifs
  · right
    rw [List.flatten_singleton, wholeBody, List.append_assoc]
    cases e.params with
    | nil => exact hfiles e.files 0
    | cons param params => exact ⟨_, rfl⟩
  · exact .inl rfl

/-- What the encoder builds is read as an empty form. -/
theorem parseMultipart_string (e : MultiPartEncoder) (probe : Nat → FileProbe) :
    parseMultipart e.boundary (e.string probe).outputBody.flatten = .ok [] := by
  have hassign : assignments e.boundary (e.string probe).outputBody.flatten = .ok [] := by
    rcases outputBody_starts e probe with hnil | ⟨rest, hrest⟩
    · rw [hnil, assignments, MultipartParser.multipartParserExecute, MultipartParser.execute_nil]
      rfl
    · rw [hrest]
      -- the first byte of the boundary is a hyphen
      refine assignments_stop (x := []) (y := cStr (dashes ++ e.boundary)) rfl ?_
      have : cStr (dashes ++ e.boundary) = hyphen :: hyphen :: cStr e.boundary := rfl
      rw [this]
      exact fun h => absurd (Option.some.inj h) (by decide)
  rw [parseMultipart, hassign]
  rfl

theorem expectedForm_ne_nil {e : MultiPartEncoder} (probe : Nat → FileProbe)
    (hfiles : e.files ≠ []) : e.expectedForm probe ≠ [] := by
  have hne : ∀ (as : List (Bytes × Bytes × Bytes)) (mp : Form), as ≠ [] →
      as.foldl (fun mp a => OrdMap.set a.1 a.2 mp) mp ≠ [] := by
    intro as mp has hnil
    -- the last key assigned is in the map
    obtain ⟨as, a, rfl⟩ := (List.eq_nil_or_concat as).resolve_left has
    rw [List.concat_eq_append, List.foldl_append, List.foldl_cons, List.foldl_nil] at hnil
    have hget := OrdMap.get?_set a.1 a.1 a.2 (as.foldl (fun mp a => OrdMap.set a.1 a.2 mp) mp)
    rw [hnil, if_pos rfl] at hget
    cases hget
  exact hne _ _ (by simp [hfiles])

/-- **Nothing is read back.** Whatever the boundary, the params and the files are, the
body that the encoder builds for at least one file is not decoded to them. -/
theorem string_not_read_back (e : MultiPartEncoder) (probe : Nat → FileProbe)
    (hfiles : e.files ≠ []) : ¬ e.ReadBack probe := by
  intro hback
  rw [ReadBack, parseMultipart_string] at hback
  exact expectedForm_ne_nil probe hfiles (Except.ok.inj hback).symm

/-- One readable file. -/
def oneFile : MultiPartEncoder := new.addFile (ascii "f") (ascii "/tmp/a.txt")

theorem string_not_read_back_oneFile :
    oneFile.files ≠ [] ∧
      ¬ oneFile.ReadBack fun _ => ⟨true, some 1, some (ascii "x")⟩ :=
  ⟨by decide, string_not_read_back oneFile _ (by decide)⟩

/-- The file is sendable and yet not read back. -/
theorem not_read_back_sendable :
    ¬ ∀ (e : MultiPartEncoder) (probe : Nat → FileProbe), Sendable e probe → ReadBack e probe := by
  intro hall
  have hsend : Sendable oneFile fun _ => ⟨true, some 1, some (ascii "x")⟩ := by
    refine ⟨by decide, fun _ _ => ⟨⟨rfl, rfl⟩, rfl⟩, ?_, by decide, by decide, ?_⟩
    · unfold Quotable
      decide +kernel
    · intro i _ buf hbuf
      obtain rfl : ascii "x" = buf := by simpa using hbuf
      decide
  have hback := hall _ _ hsend
  rw [ReadBack, parseMultipart_string] at hback
  exact expectedForm_ne_nil _ (by decide) (Except.ok.inj hback).symm

end MultiPartEncoder

end Wfrest
