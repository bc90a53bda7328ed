import Wfrest.Base.Bytes

/-!
# Content types

`HTTP_CONTENT_TYPE_MAP` pairs an enumerator with a MIME type and a file suffix, and
the conversions walk over that table in order.
-/

namespace Wfrest

/-- `enum http_content_type` -/
inductive HttpContentType where
  | CONTENT_TYPE_NONE
  | TEXT_PLAIN | TEXT_HTML | TEXT_CSS
  | IMAGE_JPEG | IMAGE_PNG | IMAGE_GIF | IMAGE_BMP | IMAGE_SVG
  | APPLICATION_OCTET_STREAM | APPLICATION_JAVASCRIPT | APPLICATION_XML | APPLICATION_JSON
  | APPLICATION_GRPC | APPLICATION_URLENCODED | MULTIPART_FORM_DATA
  | CONTENT_TYPE_UNDEFINED
  deriving DecidableEq, Repr

namespace HttpContentType

/-- The numeric value of the enumerator. -/
def toNat (t : HttpContentType) : Nat := t.ctorIdx

/-- `HTTP_CONTENT_TYPE_MAP`: name, MIME type, suffix. -/
def map : List (HttpContentType × Bytes × Bytes) :=
  [(TEXT_PLAIN, "text/plain", "txt"),
    (TEXT_HTML, "text/html", "html"),
    (TEXT_CSS, "text/css", "css"),
    (IMAGE_JPEG, "image/jpeg", "jpg"),
    (IMAGE_PNG, "image/png", "png"),
    (IMAGE_GIF, "image/gif", "gif"),
    (IMAGE_BMP, "image/bmp", "bmp"),
    (IMAGE_SVG, "image/svg", "svg"),
    (APPLICATION_OCTET_STREAM, "application/octet-stream", "bin"),
    (APPLICATION_JAVASCRIPT, "application/javascript", "js"),
    (APPLICATION_XML, "application/xml", "xml"),
    (APPLICATION_JSON, "application/json", "json"),
    (APPLICATION_GRPC, "application/grpc", "grpc"),
    (APPLICATION_URLENCODED, "application/x-www-form-urlencoded", "kv"),
    (MULTIPART_FORM_DATA, "multipart/form-data", "mp")].map
    fun (e : HttpContentType × String × String) => (e.1, ascii e.2.1, ascii e.2.2)

end HttpContentType

/-- `strstartswith` -/
def strstartswith : Bytes → Bytes → Bool
  | c :: str, s :: start =>
    if c ≠ 0 ∧ s ≠ 0 ∧ c = s then strstartswith str start else s = 0
  | [], s :: _ => s = 0
  | _, [] => true

theorem strstartswith_append {start : Bytes} (h : 0 ∉ start) (str : Bytes) :
    strstartswith (start ++ str) start = true := by
  induction start with
  | nil => cases str <;> rfl
  | cons s start ih =>
    obtain ⟨hs, hstart⟩ := List.ne_and_not_mem_of_not_mem_cons h
    rw [List.cons_append, strstartswith, if_pos ⟨hs.symm, hs.symm, rfl⟩]
    exact ih hstart

/-- `ContentType::to_enum` -/
def toEnum (contentTypeStr : Bytes) : HttpContentType :=
  if contentTypeStr = [] then .CONTENT_TYPE_NONE
  else
    match HttpContentType.map.find? fun e => strstartswith contentTypeStr e.2.1 with
    | some e => e.1
    | none => .CONTENT_TYPE_UNDEFINED

/-- The multipart type is recognised by its beginning: the types before it in the table
begin with other letters. -/
theorem toEnum_multipart (params : Bytes) :
    toEnum (ascii "multipart/form-data" ++ params) = .MULTIPART_FORM_DATA := by
  let last : HttpContentType × Bytes × Bytes :=
    (.MULTIPART_FORM_DATA, ascii "multipart/form-data", ascii "mp")
  have hmap : HttpContentType.map = HttpContentType.map.dropLast ++ [last] := by decide
  have hheads : ∀ e ∈ HttpContentType.map.dropLast,
      e.2.1.head? ≠ none ∧ e.2.1.head? ≠ some 109 ∧ e.2.1.head? ≠ some 0 := by decide
  have hbegin : ascii "multipart/form-data" = 109 :: ascii "ultipart/form-data" := by decide
  have hothers : HttpContentType.map.dropLast.find?
      (fun e => strstartswith (ascii "multipart/form-data" ++ params) e.2.1) = none := by
    rw [List.find?_eq_none]
    intro e he
    obtain ⟨hne, hm, h0⟩ := hheads e he
    have hne' : e.2.1 ≠ [] := fun hnil => hne (by rw [hnil]; rfl)
    obtain ⟨s, start, hstart⟩ := List.exists_cons_of_ne_nil hne'
    rw [hstart] at hm h0
    have hs : ¬ (109 : UInt8) = s := fun heq => hm (by rw [heq]; rfl)
    have hs0 : ¬ s = 0 := fun heq => h0 (by rw [heq]; rfl)
    rw [hbegin, hstart, List.cons_append, strstartswith]
    simp [hs, hs0]
  have hlast : strstartswith (ascii "multipart/form-data" ++ params) last.2.1 = true :=
    strstartswith_append (by decide) params
  have hne : ascii "multipart/form-data" ++ params ≠ [] := by
    rw [hbegin]
    exact List.cons_ne_nil _ _
  have hfind : [last].find?
      (fun e => strstartswith (ascii "multipart/form-data" ++ params) e.2.1) = some last :=
    List.find?_cons_of_pos hlast
  rw [toEnum, if_neg hne, hmap, List.find?_append, hothers, Option.none_or, hfind]

/-- `ContentType::to_str` -/
def toStr (type : HttpContentType) : Bytes :=
  match HttpContentType.map.find? fun e => e.1 = type with
  | some e => e.2.1
  | none => ascii "<unknown>"

/-- `ContentType::to_enum_by_suffix` -/
def toEnumBySuffix (str : Bytes) : HttpContentType :=
  if str = [] then .CONTENT_TYPE_NONE
  else
    match HttpContentType.map.find? fun e => str = e.2.2 with
    | some e => e.1
    | none => .CONTENT_TYPE_UNDEFINED

/-- `ContentType::to_str_by_suffix` -/
def toStrBySuffix (str : Bytes) : Bytes :=
  if str = [] then []
  else
    match HttpContentType.map.find? fun e => str = e.2.2 with
    | some e => e.2.1
    | none => []

end Wfrest
