import Wfrest.Base.Bytes

/-!
# `PathUtil`

The parts of a path. `find_last_of` and `find_last_not_of` are `findLast` with the test
on the byte.
-/

namespace Wfrest

/-- The last position whose byte passes the test; `none` is `npos`. -/
def findLast (test : UInt8 → Bool) : Bytes → Option Nat
  | [] => none
  | b :: s =>
    match findLast test s with
    | some i => some (i + 1)
    | none => if test b then some 0 else none

namespace PathUtil

/-- `PathUtil::base` -/
def base (filepath : Bytes) : Bytes :=
  match findLast (· ≠ slash) filepath with
  | none => [slash]
  | some pos1 =>
    let pos2 :=
      match findLast (· = slash) (filepath.take (pos1 + 1)) with
      | none => 0
      | some p => p + 1
    (filepath.drop pos2).take (pos1 - pos2 + 1)

/-- `PathUtil::suffix` -/
def suffix (filepath : Bytes) : Bytes :=
  let pos1 :=
    match findLast (· = slash) filepath with
    | none => 0
    | some p => p + 1
  let file := filepath.drop pos1
  match findLast (· = dot) file with
  | none => []
  | some pos2 => file.drop (pos2 + 1)

end PathUtil

end Wfrest
