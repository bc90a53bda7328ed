import Wfrest.Base.StrUtil
import Wfrest.Form.ParserRun
import Wfrest.Lib.OrdMap

/-!
# `MultiPartForm`

`MultiPartForm` runs the multipart parser with callbacks on a
`multipart_parser_userdata`. The callbacks for names and values of headers append to
`header_field` and `header_value`, and `handle_header` reads what has been appended
when the next header begins or the headers are complete.

The form is a `std::map`. The user data keeps the list of the assignments
`(*mp)[name] = formdata`, from which `Form.ofAssignments` makes the map, so that one
can also speak of what each part assigns. The field `state` is never read and left out.
-/

namespace Wfrest

/-- `Form`: name to file name and content. -/
abbrev Form := List (Bytes × Bytes × Bytes)

/-- The map after a list of assignments. -/
def Form.ofAssignments (as : List (Bytes × Bytes × Bytes)) : Form :=
  as.foldl (fun mp e => OrdMap.set e.1 e.2 mp) []

/-- `multipart_parser_userdata` -/
structure MultipartParserUserdata where
  /-- The assignments to the form, in order. -/
  mp : List (Bytes × Bytes × Bytes)
  headerField : Bytes
  headerValue : Bytes
  partData : Bytes
  name : Bytes
  filename : Bytes

/-- The quotes `""''`. -/
def quotePairs : Bytes := [dquote, dquote, 39, 39]

/-- One turn of the loop over `dispo_list`, on `name` and `filename`. -/
def readDispo (acc : Bytes × Bytes) (dispo : StringPiece) :
    Except StdException (Bytes × Bytes) :=
  match dispo.trim.splitPiece equals with
  | [key, kv1] =>
    -- the byte in front of `kv[1]` is the `=`
    let value := kv1.trimPairs equals quotePairs
    if key.startsWith (.ofCStr (ascii "name")) then
      value.asString.map fun name => (name, acc.2)
    else if key.startsWith (.ofCStr (ascii "filename")) then
      value.asString.map fun filename => (acc.1, filename)
    else .ok acc
  | _ => .ok acc

/-- What `handle_header` does with a `Content-Disposition` value. -/
def readDisposition (acc : Bytes × Bytes) (headerValue : Bytes) :
    Except StdException (Bytes × Bytes) :=
  ((StringPiece.ofString headerValue).splitPiece semicolon).foldlM readDispo acc

/-- The test on `header_field` in `handle_header`. -/
def isDisposition (headerField : Bytes) : Bool :=
  strcaseeq headerField (ascii "Content-Disposition")

namespace MultipartParserUserdata

def init : MultipartParserUserdata := ⟨[], [], [], [], [], []⟩

/-- `handle_header` -/
def handleHeader (u : MultipartParserUserdata) : Except StdException MultipartParserUserdata :=
  if u.headerField = [] ∨ u.headerValue = [] then .ok u
  else if isDisposition u.headerField then do
    let acc ← readDisposition (u.name, u.filename) u.headerValue
    return { u with name := acc.1, filename := acc.2, headerField := [], headerValue := [] }
  else .ok { u with headerField := [], headerValue := [] }

/-- `handle_data` -/
def handleData (u : MultipartParserUserdata) : MultipartParserUserdata where
  mp := if u.name ≠ [] then u.mp ++ [(u.name, u.filename, u.partData)] else u.mp
  headerField := u.headerField
  headerValue := u.headerValue
  partData := []
  name := []
  filename := []

/-- `settings_` of a `MultiPartForm`. -/
def settings : MultipartParserSettings MultipartParserUserdata where
  onHeaderField buf u := do
    let u ← u.handleHeader
    return { u with headerField := u.headerField ++ buf }
  onHeaderValue buf u := .ok { u with headerValue := u.headerValue ++ buf }
  onPartData buf u := .ok { u with partData := u.partData ++ buf }
  onPartDataBegin u := .ok u
  onHeadersComplete u := u.handleHeader
  onPartDataEnd u := .ok u.handleData
  onBodyEnd u := .ok u

theorem settings_appendsData : MultipartParser.AppendsData settings where
  nil u := by simp [settings]
  append x y u := by simp [settings, bind, Except.bind]

end MultipartParserUserdata

/-- The two hyphens in front of a boundary in a body. -/
def dashes : Bytes := [hyphen, hyphen]

/-- The assignments that `parse_multipart` makes; `boundary_` is the form's. -/
def assignments (boundary_ body : Bytes) : Except StdException (List (Bytes × Bytes × Bytes)) :=
  (MultipartParser.multipartParserExecute MultipartParserUserdata.settings
    (MultipartParser.init (dashes ++ boundary_)) .init body).map fun r => r.2.2.mp

/-- `MultiPartForm::parse_multipart` -/
def parseMultipart (boundary_ body : Bytes) : Except StdException Form :=
  (assignments boundary_ body).map Form.ofAssignments

end Wfrest
