import GitWarp.Lib.OrdMap
import GitWarp.Js.Text

/-!
# Messages of audit commits

A commit message with trailers is a title, an empty line and one line for each
trailer. An audit message carries the graph, the writer, the data commit and the
digest of its operations. What the encoder writes the decoder reads back.
-/
namespace GitWarp

open Js Lib List

/-! ### Trailer text -/

def newline : CodeUnit := 10

def carriageReturn : CodeUnit := 13

def trailerColon : CodeUnit := 58

def space : CodeUnit := 32

def trailerLineError (message : JsString) : Failure :=
  ⟨.messageCodecError, lit "E_MESSAGE_TRAILER_LINE", message⟩

def missingTitle : Failure :=
  ⟨.messageCodecError, lit "E_MESSAGE_TITLE", lit "Invalid trailer message: missing title"⟩

def assertTrailerTextKey (key : JsString) : Except Failure Unit :=
  if key = [] ∨ trailerColon ∈ key ∨ carriageReturn ∈ key ∨ newline ∈ key then
    .error (trailerLineError (lit ("Invalid trailer message: trailer key must be single-line " ++
      "and must not contain \":\"")))
  else .ok ()

def assertTrailerTextSingleLine (value fieldName : JsString) : Except Failure Unit :=
  if carriageReturn ∈ value ∨ newline ∈ value then
    .error (trailerLineError (lit "Invalid trailer message: " ++ fieldName ++
      lit " must be single-line"))
  else .ok ()

/-- The lines of the trailers, each checked before the next. -/
def trailerLines : List (JsString × JsString) → Except Failure (List JsString)
  | [] => .ok []
  | (key, value) :: rest => do
    assertTrailerTextKey key
    assertTrailerTextSingleLine value key
    let lines ← trailerLines rest
    pure ((key ++ trailerColon :: space :: value) :: lines)

def encodeTrailerTextMessage (title : JsString) (trailers : List (JsString × JsString)) :
    Except Failure JsString :=
  if title = [] then .error missingTitle
  else do
    assertTrailerTextSingleLine title (lit "title")
    let lines ← trailerLines trailers
    pure (join newline (title :: [] :: lines) ++ [newline])

/-- `replace(/\r\n/g, '\n')`. -/
def unifyNewlines : JsString → JsString
  | [] => []
  | [u] => [u]
  | u :: v :: rest =>
    if u = carriageReturn ∧ v = newline then newline :: unifyNewlines rest
    else u :: unifyNewlines (v :: rest)

/-- The keys that every object literal inherits; reading one finds something. -/
def inheritedKeys : List JsString :=
  [protoKey, lit "constructor", lit "__defineGetter__", lit "__defineSetter__",
    lit "__lookupGetter__", lit "__lookupSetter__", lit "hasOwnProperty", lit "isPrototypeOf",
    lit "propertyIsEnumerable", lit "toLocaleString", lit "toString", lit "valueOf"]

def decodeTrailerValue (value : JsString) : JsString :=
  if value.head? = some space then value.drop 1 else value

def decodeTrailerLines (trailers : OrdMap JsString JsString) :
    List JsString → Except Failure (OrdMap JsString JsString)
  | [] => .ok trailers
  | line :: rest =>
    if line = [] then decodeTrailerLines trailers rest
    else
      let key := line.takeWhile (· ≠ trailerColon)
      if key = [] ∨ trailerColon ∉ line then
        .error (trailerLineError (lit "Invalid trailer line: " ++ line))
      else if inheritedKeys.contains key || trailers.has key then
        .error ⟨.messageCodecError, lit "E_MESSAGE_DUPLICATE_TRAILER",
          lit "Duplicate trailer rejected: " ++ key⟩
      else
        decodeTrailerLines
          (trailers.set key (decodeTrailerValue (line.drop (key.length + 1)))) rest

/-- The lines after the first empty one behind the title; `none` where there is none. -/
def linesAfterSeparator : List JsString → Option (List JsString)
  | [] => none
  | line :: rest => if line = [] then some rest else linesAfterSeparator rest

def decodeTrailerTextMessage (message : JsString) :
    Except Failure (JsString × OrdMap JsString JsString) :=
  if message = [] then
    .error ⟨.messageCodecError, lit "E_MESSAGE_EMPTY",
      lit "Invalid trailer message: expected non-empty string"⟩
  else
    match split newline (unifyNewlines message) with
    | [] => .error missingTitle
    | title :: lines =>
      if title = [] then .error missingTitle
      else
        match linesAfterSeparator lines with
        | none => .ok (title, .empty)
        | some rest => do
          let trailers ← decodeTrailerLines .empty rest
          pure (title, trailers)

/-! ### Names -/

def graphNameError (message : JsString) : Failure :=
  ⟨.warpError, lit "E_INVALID_GRAPH_NAME", lit "Invalid graph name: " ++ message⟩

/-- `RESERVED_GRAPH_NAME_SEGMENTS`. -/
def reservedGraphNameSegments : List JsString :=
  [lit "writers", lit "checkpoints", lit "coverage", lit "cursor", lit "strands",
    lit "strand-overlays", lit "strand-braids", lit "audit", lit "trust", lit "intents",
    lit "seek-cache", lit "state-cache"]

def rejectReservedSegments (name : JsString) : List JsString → Except Failure Unit
  | [] => .ok ()
  | segment :: rest =>
    if reservedGraphNameSegments.contains segment then
      .error (graphNameError (lit "segment '" ++ segment ++
        lit "' is a reserved ref-layout keyword: " ++ name))
    else rejectReservedSegments name rest

def validateGraphName (name : JsString) : Except Failure Unit :=
  if name = [] then .error (graphNameError (lit "cannot be empty"))
  else if includes (lit "..") name then
    .error (graphNameError (lit "contains path traversal sequence '..': " ++ name))
  else if includes (lit ";") name then
    .error (graphNameError (lit "contains semicolon: " ++ name))
  else if includes (lit " ") name then .error (graphNameError (lit "contains space: " ++ name))
  else if 0 ∈ name then .error (graphNameError (lit "contains null byte: " ++ name))
  else rejectReservedSegments name (split (digitUnit '/') name)

def writerIdError (message : JsString) : Failure :=
  ⟨.warpError, lit "E_INVALID_WRITER_ID", lit "Invalid writer ID: " ++ message⟩

/-- `WRITER_ID_PATTERN`. -/
def isWriterIdText (id : JsString) : Bool :=
  id.all fun u =>
    (lit "ABCDEFGHIJKLMNOPQRSTUVWXYZabcdefghijklmnopqrstuvwxyz0123456789._-").contains u

def validateWriterId (id : JsString) : Except Failure Unit :=
  if id = [] then .error (writerIdError (lit "cannot be empty"))
  else if 64 < id.length then
    .error (writerIdError (lit "exceeds maximum length of 64 characters: " ++ numberText id.length))
  else if includes (lit "..") id then
    .error (writerIdError (lit "contains path traversal sequence '..': " ++ id))
  else if includes (lit "/") id then
    .error (writerIdError (lit "contains forward slash: " ++ id))
  else if 0 ∈ id then .error (writerIdError (lit "contains null byte: " ++ id))
  else if id.any isWhiteSpaceUnit then
    .error (writerIdError (lit "contains whitespace: " ++ id))
  else if isWriterIdText id then .ok ()
  else .error (writerIdError
    (lit "contains invalid characters (only [A-Za-z0-9._-] allowed): " ++ id))

/-! ### Object ids and digests -/

/-- A lowercase hexadecimal digit. -/
def isLowerHexUnit (u : CodeUnit) : Bool :=
  decide ((48 ≤ u.val ∧ u.val ≤ 57) ∨ (97 ≤ u.val ∧ u.val ≤ 102))

/-- `OID_PATTERN`: 40 or 64 lowercase hexadecimal digits. -/
def isOidText (text : JsString) : Bool :=
  text.all isLowerHexUnit && decide (text.length = 40 ∨ text.length = 64)

/-- `SHA256_PATTERN`. -/
def isSha256Text (text : JsString) : Bool :=
  text.all isLowerHexUnit && decide (text.length = 64)

def validateOid (oid : JsString) (fieldName : String) : Except Failure Unit :=
  if isOidText oid then .ok ()
  else .error ⟨.messageCodecError, lit "E_MESSAGE_OID_FORMAT", lit "Invalid " ++ lit fieldName ++
    lit ": must be a 40 or 64 character hex string, got '" ++ oid ++ lit "'"⟩

def validateSha256 (hash : JsString) (fieldName : String) : Except Failure Unit :=
  if isSha256Text hash then .ok ()
  else .error ⟨.messageCodecError, lit "E_MESSAGE_SHA256_FORMAT", lit "Invalid " ++
    lit fieldName ++ lit ": must be a 64 character hex string, got '" ++ hash ++ lit "'"⟩

/-! ### Audit messages -/

structure AuditMessage where
  graph : JsString
  writer : JsString
  dataCommit : JsString
  opsDigest : JsString
  schema : Nat

def auditTrailers (graph writer dataCommit opsDigest : JsString) : List (JsString × JsString) :=
  [(lit "eg-data-commit", dataCommit), (lit "eg-graph", graph), (lit "eg-kind", lit "audit"),
    (lit "eg-ops-digest", opsDigest), (lit "eg-schema", lit "1"), (lit "eg-writer", writer)]

def auditTrailerKeys : List JsString :=
  [lit "eg-data-commit", lit "eg-graph", lit "eg-kind", lit "eg-ops-digest", lit "eg-schema",
    lit "eg-writer"]

def encodeAuditMessage (graph writer dataCommit opsDigest : JsString) :
    Except Failure JsString := do
  validateGraphName graph
  validateWriterId writer
  validateOid dataCommit "dataCommit"
  validateSha256 opsDigest "opsDigest"
  encodeTrailerTextMessage (lit "warp:audit") (auditTrailers graph writer dataCommit opsDigest)

/-- `requireTrailer` for audit messages: a trailer that is there and not empty. -/
def requireTrailer (trailers : OrdMap JsString JsString) (trailerName : JsString) :
    Except Failure JsString :=
  match trailers.get trailerName with
  | some (u :: rest) => .ok (u :: rest)
  | _ => .error ⟨.messageCodecError, lit "E_MISSING_TRAILER",
      lit "Invalid audit message: missing required trailer " ++ trailerName⟩

def parsePositiveIntTrailer (trailers : OrdMap JsString JsString) (trailerName : JsString) :
    Except Failure Nat := do
  let str ← requireTrailer trailers trailerName
  if str.all isDigitUnit ∧ 1 ≤ digitsValue str then
    pure (digitsValue str)
  else .error ⟨.messageCodecError, lit "E_INVALID_TRAILER", lit "Invalid audit message: " ++
    trailerName ++ lit " must be a positive integer, got '" ++ str ++ lit "'"⟩

def validateKindDiscriminator (trailers : OrdMap JsString JsString) (expected : JsString) :
    Except Failure Unit :=
  let kind := trailers.get (lit "eg-kind")
  if kind = some expected then .ok ()
  else .error ⟨.messageCodecError, lit "E_WRONG_KIND", lit "Invalid " ++ expected ++
    lit " message: eg-kind must be '" ++ expected ++ lit "', got '" ++
    kind.getD (lit "missing") ++ lit "'"⟩

def decodeAuditMessage (message : JsString) : Except Failure AuditMessage := do
  let decoded ← decodeTrailerTextMessage message
  let trailers := decoded.2
  validateKindDiscriminator trailers (lit "audit")
  let graph ← requireTrailer trailers (lit "eg-graph")
  validateGraphName graph
  let writer ← requireTrailer trailers (lit "eg-writer")
  validateWriterId writer
  let dataCommit ← requireTrailer trailers (lit "eg-data-commit")
  validateOid dataCommit "dataCommit"
  let opsDigest ← requireTrailer trailers (lit "eg-ops-digest")
  validateSha256 opsDigest "opsDigest"
  let schema ← parsePositiveIntTrailer trailers (lit "eg-schema")
  if 1 < schema then
    .error ⟨.schemaUnsupportedError, lit "E_SCHEMA_UNSUPPORTED",
      lit "Unsupported audit schema version: " ++ numberText schema⟩
  else pure ⟨graph, writer, dataCommit, opsDigest, schema⟩

/-! ### What is encoded is read back -/

theorem unifyNewlines_of_not_mem (text) (absent : carriageReturn ∉ text) :
    unifyNewlines text = text := by
  fun_induction unifyNewlines text with
  | case1 | case2 u => rfl
  | case3 u v rest both ih =>
    rw [both.1] at absent
    exact absurd mem_cons_self absent
  | case4 u v rest neither ih =>
    rw [mem_cons, not_or] at absent
    rw [ih absent.2]

theorem assertTrailerTextKey_ok (key) : assertTrailerTextKey key = .ok () ↔
    key ≠ [] ∧ trailerColon ∉ key ∧ carriageReturn ∉ key ∧ newline ∉ key := by
  unfold assertTrailerTextKey
  split
  next bad => simp only [reduceCtorEq, false_iff]; tauto
  next good => simp only [true_iff]; tauto

theorem assertTrailerTextSingleLine_ok (value fieldName) :
    assertTrailerTextSingleLine value fieldName = .ok () ↔
      carriageReturn ∉ value ∧ newline ∉ value := by
  unfold assertTrailerTextSingleLine
  split
  next bad => simp only [reduceCtorEq, false_iff]; tauto
  next good => simp only [true_iff]; tauto

theorem line_parts (key value : JsString) (plain : trailerColon ∉ key) :
    (key ++ trailerColon :: space :: value).takeWhile (· ≠ trailerColon) = key ∧
      decodeTrailerValue ((key ++ trailerColon :: space :: value).drop (key.length + 1)) =
        value := by
  constructor
  · rw [takeWhile_append_of_pos]
    · simp
    · intro u mem
      exact decide_eq_true fun same => plain (same ▸ mem)
  · have rest : (key ++ trailerColon :: space :: value).drop (key.length + 1) = space :: value := by
      rw [← drop_drop, drop_left]
      rfl
    rw [rest]
    rfl

theorem decodeTrailerLines_trailerLines (lines) (encoded : trailerLines trailers = .ok lines) (read)
    (plain : ∀ key ∈ trailers.map Prod.fst, key ∉ inheritedKeys ∧ read.get key = none)
    (nodup : (trailers.map Prod.fst).Nodup) :
    decodeTrailerLines read (lines ++ [[]]) =
      .ok (trailers.foldl (fun m trailer => m.set trailer.1 trailer.2) read) := by
  -- the lines of distinct trailers that no object inherits are read back as a map
  induction trailers generalizing lines read with
  | nil =>
    cases encoded
    rfl
  | cons trailer rest ih =>
    obtain ⟨key, value⟩ := trailer
    rw [trailerLines, check_then_eq_ok, check_then_eq_ok, bind_eq_ok] at encoded
    obtain ⟨keyOk, -, later, found, whole⟩ := encoded
    cases whole
    rw [assertTrailerTextKey_ok] at keyOk
    obtain ⟨named, noColon, -⟩ := keyOk
    obtain ⟨own, value'⟩ := line_parts key value noColon
    have nonempty : key ++ trailerColon :: space :: value ≠ [] := by simp
    have colon : trailerColon ∈ key ++ trailerColon :: space :: value := by simp
    obtain ⟨fresh, unread⟩ := plain key mem_cons_self
    have contains : inheritedKeys.contains key = false := by simpa using fresh
    have has : read.has key = false := (OrdMap.has_eq_false_iff read key).mpr unread
    simp only [cons_append, decodeTrailerLines, if_neg nonempty, own, named, colon,
      not_true_eq_false, or_self, if_false, contains, has, Bool.or_self, Bool.false_eq_true,
      value']
    rw [map_cons, nodup_cons] at nodup
    apply ih later found _ ?_ nodup.2
    intro other mem
    have apart : key ≠ other := fun same => nodup.1 (same ▸ mem)
    obtain ⟨freshOther, unreadOther⟩ := plain other (mem_cons_of_mem _ mem)
    rw [OrdMap.get_set, if_neg apart]
    exact ⟨freshOther, unreadOther⟩

theorem trailerLines_plain (lines) (encoded : trailerLines trailers = .ok lines) :
    ∀ line ∈ lines, carriageReturn ∉ line ∧ newline ∉ line := by
  induction trailers generalizing lines with
  | nil =>
    cases encoded
    simp
  | cons trailer rest ih =>
    obtain ⟨key, value⟩ := trailer
    rw [trailerLines, check_then_eq_ok, check_then_eq_ok, bind_eq_ok] at encoded
    obtain ⟨keyOk, valueOk, later, found, whole⟩ := encoded
    cases whole
    rw [assertTrailerTextKey_ok] at keyOk
    rw [assertTrailerTextSingleLine_ok] at valueOk
    intro line mem
    rcases mem_cons.mp mem with rfl | inRest
    · have apart : carriageReturn ≠ trailerColon ∧ carriageReturn ≠ space ∧
          newline ≠ trailerColon ∧ newline ≠ space := by decide
      simp [keyOk, valueOk, apart]
    · exact ih later found line inRest

theorem not_mem_join (apart : u ≠ separator) (parts) (absent : ∀ part ∈ parts, u ∉ part) :
    u ∉ join separator parts := by
  fun_induction join separator parts with
  | case1 => simp
  | case2 part => exact absent part mem_cons_self
  | case3 part next rest ih =>
    rw [mem_append, mem_cons, not_or, not_or]
    exact ⟨absent part mem_cons_self, apart, ih (forall_mem_cons.mp absent).2⟩

theorem join_append_last (parts) (some_ : parts ≠ []) :
    join separator parts ++ [separator] = join separator (parts ++ [[]]) := by
  fun_induction join separator parts with
  | case1 => exact absurd rfl some_
  | case2 part => rfl
  | case3 part next rest ih =>
    have later := ih (cons_ne_nil _ _)
    simp only [cons_append, join, append_assoc] at later ⊢
    rw [later]

theorem decode_encodeTrailerTextMessage (trailers)
    (plain : ∀ key ∈ trailers.map Prod.fst, key ∉ inheritedKeys)
    (nodup : (trailers.map Prod.fst).Nodup)
    (encoded : encodeTrailerTextMessage title trailers = .ok message) :
    decodeTrailerTextMessage message = .ok (title, .ofList trailers) := by
  -- an encoded message is decoded to its title and its trailers
  unfold encodeTrailerTextMessage at encoded
  split at encoded
  next => cases encoded
  next titled =>
    rw [check_then_eq_ok, bind_eq_ok] at encoded
    obtain ⟨titleOk, lines, found, whole⟩ := encoded
    cases whole
    rw [assertTrailerTextSingleLine_ok] at titleOk
    have linesOk := trailerLines_plain lines found
    have parts : ∀ part ∈ title :: [] :: lines ++ [[]], carriageReturn ∉ part ∧ newline ∉ part := by
      intro part mem
      simp only [cons_append, mem_cons, mem_append, not_mem_nil, or_false] at mem
      rcases mem with rfl | rfl | inside | rfl
      · exact titleOk
      · simp
      · exact linesOk part inside
      · simp
    have text : join newline (title :: [] :: lines) ++ [newline] =
        join newline (title :: [] :: lines ++ [[]]) := join_append_last _ (by simp)
    have noReturn : carriageReturn ∉ join newline (title :: [] :: lines ++ [[]]) :=
      not_mem_join (by decide) _ fun part mem => (parts part mem).1
    have filled : join newline (title :: [] :: lines) ++ [newline] ≠ [] := by simp
    rw [decodeTrailerTextMessage, if_neg filled, text, unifyNewlines_of_not_mem _ noReturn,
      split_join (by simp) fun part mem => (parts part mem).2]
    simp only [cons_append, if_neg titled, linesAfterSeparator, if_true]
    rw [decodeTrailerLines_trailerLines lines found .empty
      (fun key mem => ⟨plain key mem, rfl⟩) nodup]
    rfl

theorem validateGraphName_ne_nil (valid : validateGraphName name = .ok ()) : name ≠ [] := by
  rintro rfl
  cases valid

theorem validateWriterId_ne_nil {id} (valid : validateWriterId id = .ok ()) : id ≠ [] := by
  rintro rfl
  cases valid

theorem validateSha256_ok (hash fieldName) :
    validateSha256 hash fieldName = .ok () ↔ isSha256Text hash = true := by
  unfold validateSha256
  split <;> simp_all

theorem requireTrailer_of_get {name value : JsString} (found : trailers.get name = some value)
    (filled : value ≠ []) : requireTrailer trailers name = .ok value := by
  obtain ⟨u, rest, rfl⟩ := exists_cons_of_ne_nil filled
  rw [requireTrailer, found]

/-- An audit message is read back as it was written, with schema 1. -/
theorem decode_encodeAuditMessage
    (encoded : encodeAuditMessage graph writer dataCommit opsDigest = .ok message) :
    decodeAuditMessage message = .ok ⟨graph, writer, dataCommit, opsDigest, 1⟩ := by
  simp only [encodeAuditMessage, check_then_eq_ok] at encoded
  obtain ⟨graphOk, writerOk, commitOk, digestOk, text⟩ := encoded
  have fresh : ∀ key ∈ auditTrailerKeys, key ∉ inheritedKeys := by decide
  have nodup : auditTrailerKeys.Nodup := by decide
  have decoded := decode_encodeTrailerTextMessage
    (auditTrailers graph writer dataCommit opsDigest) fresh nodup text
  have commitFilled : dataCommit ≠ [] := by
    rintro rfl
    cases commitOk
  have digestFilled : opsDigest ≠ [] := by
    rintro rfl
    cases digestOk
  simp only [decodeAuditMessage, decoded, bind, Except.bind]
  rw [requireTrailer_of_get rfl (validateGraphName_ne_nil graphOk)]
  simp only [graphOk]
  rw [requireTrailer_of_get rfl (validateWriterId_ne_nil writerOk)]
  simp only [writerOk]
  rw [requireTrailer_of_get rfl commitFilled]
  simp only [commitOk]
  rw [requireTrailer_of_get rfl digestFilled]
  simp only [digestOk]
  rfl

end GitWarp
