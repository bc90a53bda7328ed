import Wfrest.Base.Bytes

/-!
# `StringPiece`

A view is a pointer and a length, and the two are independent: shrinking a view
leaves the bytes after its end in place. `ptr` is the memory from the data
pointer up to the end of the underlying buffer, so that the reads which ignore
the length (`operator[]`, and the `const char *` constructor applied to
`data() + n`) see what they see in the source.
-/

namespace Wfrest

/-- A pointer into a NUL-terminated buffer, and a length. -/
structure StringPiece where
  /-- The bytes from the data pointer to the end of the buffer. -/
  ptr : Bytes
  length : Nat
  deriving DecidableEq, Repr

namespace StringPiece

/-- `StringPiece(const std::string &)` -/
def ofString (s : Bytes) : StringPiece := ⟨s, s.length⟩

/-- `StringPiece(const char *)`, which measures with `strlen`. -/
def ofCStr (s : Bytes) : StringPiece := ⟨s, (cStr s).length⟩

/-- The bytes inside the view. -/
def view (s : StringPiece) : Bytes := s.ptr.take s.length

/-- `operator[]`: no bounds check, and a NUL after the buffer. -/
def get (s : StringPiece) (i : Nat) : UInt8 := s.ptr.getD i 0

/-- The view `StringPiece(data() + offset, len)`. -/
def sub (s : StringPiece) (offset len : Nat) : StringPiece := ⟨s.ptr.drop offset, len⟩

/-- The loop `while (cursor < size() and (*this)[cursor] != '/') cursor++`. -/
def skipSegment (s : StringPiece) (cursor : Nat) : Nat :=
  if cursor < s.length ∧ s.get cursor ≠ slash then s.skipSegment (cursor + 1) else cursor
termination_by s.length - cursor

/-- `remove_suffix` -/
def removeSuffix (s : StringPiece) (n : Nat) : StringPiece :=
  { s with length := sizeSub s.length n }

/-- `shrink` -/
def shrink (s : StringPiece) (pre suf : Nat) : StringPiece :=
  ⟨s.ptr.drop pre, sizeSub (sizeSub s.length pre) suf⟩

/-- `as_string`. A length beyond the buffer only comes from a `size_t` that
wrapped; it exceeds `max_size`, and the `std::string` constructor throws. -/
def asString (s : StringPiece) : Except StdException Bytes :=
  if s.length ≤ s.ptr.length then .ok s.view else .error .length_error

/-- `starts_with` -/
def startsWith (s x : StringPiece) : Bool :=
  decide (x.length ≤ s.length) && x.view.isPrefixOf s.view

@[simp] theorem view_ofString (s : Bytes) : (ofString s).view = s := by
  simp [view, ofString]

@[simp] theorem length_ofString (s : Bytes) : (ofString s).length = s.length := rfl

@[simp] theorem ptr_ofString (s : Bytes) : (ofString s).ptr = s := rfl

theorem view_ofCStr (s : Bytes) : (ofCStr s).view = cStr s := by
  unfold view ofCStr cStr
  exact (List.prefix_iff_eq_take.mp (List.takeWhile_prefix _)).symm

theorem le_skipSegment (s : StringPiece) (cursor : Nat) : cursor ≤ s.skipSegment cursor := by
  fun_induction skipSegment s cursor with
  | case1 cursor h ih => omega
  | case2 cursor h => exact le_rfl

theorem lt_skipSegment {s : StringPiece} {cursor : Nat} (hlt : cursor < s.length)
    (hne : s.get cursor ≠ slash) : cursor < s.skipSegment cursor := by
  rw [skipSegment, if_pos ⟨hlt, hne⟩]
  exact s.le_skipSegment (cursor + 1)

theorem length_view {s : StringPiece} (h : s.length ≤ s.ptr.length) :
    s.view.length = s.length := by
  simp [view, h]

end StringPiece

end Wfrest
