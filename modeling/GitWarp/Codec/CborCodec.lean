import GitWarp.Codec.BoundedCborValidation
import GitWarp.Codec.PatchData

/-!
# Storing patches

A published patch is turned into plain data with sorted keys and encoded. Reading
it back refuses bytes that exceed the bounds of the decoder, of which the builder
knows nothing.
-/
namespace GitWarp

open Js Lib

/-! ### The codec -/

/-- The encoder of the library: what it makes of plain data is a standard encoding. -/
structure CborX where
  number : JsNumber → Cbor.Item
  utf8 : JsString → List Cbor.Byte
  encode : JsData → Except Failure (List Cbor.Byte)
  scalar : ∀ value, (number value).IsScalar
  standard : ∀ data bytes, encode data = .ok bytes → Cbor.Encoded (data.item number utf8) bytes

/-- `MAX_CBOR_DECODE_BYTES`. -/
def maxCborDecodeBytes : Nat := 5 * 1024 * 1024

/-- `CBOR_DECODE_STRUCTURE_LIMITS`. -/
def cborDecodeStructureLimits : CborStructureLimits where
  maxContainerEntries := 1000000
  maxDepth := 32
  maxItems := 1000000

def boundedDecodeError (reason : JsString) : Failure :=
  ⟨.messageCodecError, lit "E_CBOR_DECODE_BOUNDS", lit "CBOR decode rejected: " ++ reason⟩

/-- The check that `decode` makes before anything else. -/
def requireBoundedCbor (buffer : List Cbor.Byte) : Except Failure Unit :=
  if buffer.length > maxCborDecodeBytes then
    .error (boundedDecodeError (lit "encoded byte length " ++ numberText buffer.length ++
      lit " exceeds " ++ numberText maxCborDecodeBytes))
  else validateGenericBoundedCbor buffer cborDecodeStructureLimits boundedDecodeError

def CborX.encodeSorted (cborX : CborX) (data : JsData) : Except Failure (List Cbor.Byte) :=
  cborX.encode (sortKeys data)

/-- The bytes that are staged for a patch. -/
def appendPatch (cborX : CborX) (p : ProvenancePatch PropValue) :
    Except Failure (List Cbor.Byte) := cborX.encodeSorted p.data

/-! ### Which patches are read again -/

/-- The bounds of the decoder, as they read for the data behind the bytes. -/
theorem requireBoundedCbor_iff {cborX : CborX} (own : hasOwnKeys data = true)
    (encoded : cborX.encodeSorted data = .ok bytes) :
    requireBoundedCbor bytes = .ok () ↔
      bytes.length ≤ maxCborDecodeBytes ∧ data.depth ≤ 32 ∧ data.size ≤ 1000000 := by
  have standard := cborX.standard _ _ encoded
  obtain ⟨high, many⟩ := measures_item cborX.number cborX.utf8 cborX.scalar (sortKeys data)
  obtain ⟨deep, large⟩ := measures_sortKeys data own
  rw [requireBoundedCbor]
  split
  next long =>
    constructor
    · exact fun accepted => nomatch accepted
    · rintro ⟨short, -⟩
      omega
  next short =>
    have safe : bytes.length ≤ maxSafeInteger := by
      have : maxCborDecodeBytes ≤ maxSafeInteger := by decide
      omega
    rw [validateGenericBoundedCbor, CborStructureReader.readDocument_encoded _ standard safe,
      high, many, deep, large]
    constructor
    · rintro ⟨deepEnough, few, -⟩
      exact ⟨Nat.le_of_not_lt short, deepEnough, few⟩
    · rintro ⟨-, deepEnough, few⟩
      refine ⟨deepEnough, few, ?_⟩
      -- a container has no more entries than there are items in all
      apply Cbor.Item.bounded_of_count
      rw [many, large]
      exact few

def shortHead (major n : Nat) : Except Failure (List Cbor.Byte) :=
  let wide (additional width : Nat) : List Cbor.Byte :=
    Fin.ofNat 256 (32 * major + additional) :: Cbor.bigEndian width n
  if n < 24 then .ok [Fin.ofNat 256 (32 * major + n)]
  else if n < 256 then .ok (wide 24 1)
  else if n < 65536 then .ok (wide 25 2)
  else if n < 4294967296 then .ok (wide 26 4)
  else if n < 18446744073709551616 then .ok (wide 27 8)
  else .error (boundedDecodeError (lit "too long to encode"))

/-- A map is announced in two bytes, however few entries it has. -/
def mapHead (pairs : Nat) : Except Failure (List Cbor.Byte) :=
  if pairs < 65536 then .ok (Fin.ofNat 256 (32 * 5 + 25) :: Cbor.bigEndian 2 pairs)
  else shortHead 5 pairs

mutual

def encodeItem : Cbor.Item → Except Failure (List Cbor.Byte)
  | .unsigned n => shortHead 0 n
  | .negative n => shortHead 1 n
  | .bytes payload => do
    let head ← shortHead 2 payload.length
    pure (head ++ payload)
  | .text payload => do
    let head ← shortHead 3 payload.length
    pure (head ++ payload)
  | .array items => do
    let head ← shortHead 4 items.length
    let body ← encodeItems items
    pure (head ++ body)
  | .map keysAndValues =>
    if keysAndValues.length = 2 * (keysAndValues.length / 2) then do
      let head ← mapHead (keysAndValues.length / 2)
      let body ← encodeItems keysAndValues
      pure (head ++ body)
    else .error (boundedDecodeError (lit "a key without a value"))
  | .tagged tag content => do
    let head ← shortHead 6 tag
    let body ← encodeItem content
    pure (head ++ body)
  | .simple value =>
    if value < 24 then .ok [Fin.ofNat 256 (32 * 7 + value)]
    else .error (boundedDecodeError (lit "no such simple value"))
  | .float payload =>
    if payload.length = 8 then .ok (Fin.ofNat 256 (32 * 7 + 27) :: payload)
    else .error (boundedDecodeError (lit "no such number"))

def encodeItems : List Cbor.Item → Except Failure (List Cbor.Byte)
  | [] => .ok []
  | item :: rest => do
    let here ← encodeItem item
    let later ← encodeItems rest
    pure (here ++ later)

end

theorem shortHead_spells (made : shortHead major n = .ok head) : Cbor.Head major n head := by
  unfold shortHead at made
  split at made
  next low =>
    cases made
    exact .direct low
  split at made
  next low =>
    cases made
    exact .wide 24 1 .one low
  split at made
  next low =>
    cases made
    exact .wide 25 2 .two low
  split at made
  next low =>
    cases made
    exact .wide 26 4 .four low
  split at made
  next low =>
    cases made
    exact .wide 27 8 .eight low
  · cases made

theorem mapHead_spells (pairs) (made : mapHead pairs = .ok head) : Cbor.Head 5 pairs head := by
  unfold mapHead at made
  split at made
  next low =>
    cases made
    exact .wide 25 2 .two low
  · exact shortHead_spells made

mutual

theorem encodeItem_encoded : (item : Cbor.Item) → (bytes : List Cbor.Byte) →
    encodeItem item = .ok bytes → Cbor.Encoded item bytes
  | .unsigned n, bytes, made => .unsigned n bytes (shortHead_spells made)
  | .negative n, bytes, made => .negative n bytes (shortHead_spells made)
  | .bytes payload, bytes, made => by
    obtain ⟨head, spelled, whole⟩ := bind_eq_ok.mp made
    cases whole
    exact .bytes payload head (shortHead_spells spelled)
  | .text payload, bytes, made => by
    obtain ⟨head, spelled, whole⟩ := bind_eq_ok.mp made
    cases whole
    exact .text payload head (shortHead_spells spelled)
  | .array items, bytes, made => by
    obtain ⟨head, spelled, made⟩ := bind_eq_ok.mp made
    obtain ⟨body, listed, whole⟩ := bind_eq_ok.mp made
    cases whole
    exact .array items head body (shortHead_spells spelled)
      (encodeItems_encoded items body listed)
  | .map keysAndValues, bytes, made => by
    rw [encodeItem] at made
    split at made
    next paired =>
      obtain ⟨head, spelled, made⟩ := bind_eq_ok.mp made
      obtain ⟨body, listed, whole⟩ := bind_eq_ok.mp made
      cases whole
      exact .map keysAndValues _ head body paired (mapHead_spells _ spelled)
        (encodeItems_encoded keysAndValues body listed)
    · cases made
  | .tagged tag content, bytes, made => by
    obtain ⟨head, spelled, made⟩ := bind_eq_ok.mp made
    obtain ⟨body, inside, whole⟩ := bind_eq_ok.mp made
    cases whole
    exact .tagged tag content head body (shortHead_spells spelled)
      (encodeItem_encoded content body inside)
  | .simple value, bytes, made => by
    rw [encodeItem] at made
    split at made
    next small =>
      cases made
      exact .simple value small
    · cases made
  | .float payload, bytes, made => by
    rw [encodeItem] at made
    split at made
    next eight =>
      cases made
      exact .float 27 payload (by rw [eight]; exact .eight)
    · cases made

theorem encodeItems_encoded : (items : List Cbor.Item) → (bytes : List Cbor.Byte) →
    encodeItems items = .ok bytes → Cbor.EncodedAll items bytes
  | [], bytes, made => by
    cases made
    exact .nil
  | item :: rest, bytes, made => by
    obtain ⟨here, first, made⟩ := bind_eq_ok.mp made
    obtain ⟨later, others, whole⟩ := bind_eq_ok.mp made
    cases whole
    exact .cons item rest here later (encodeItem_encoded item here first)
      (encodeItems_encoded rest later others)

end

/-- Strings of one to three bytes a unit; numbers that are no integers are left at zero. -/
def plainCborX : CborX where
  number value := match value with
    | .int (.ofNat n) => .unsigned n
    | .int (.negSucc n) => .negative n
    | .other _ => .float (List.replicate 8 0)
  utf8 text := text.flatMap fun u =>
    if u.val < 128 then [Fin.ofNat 256 u.val]
    else if u.val < 2048 then [Fin.ofNat 256 (192 + u.val / 64), Fin.ofNat 256 (128 + u.val % 64)]
    else [Fin.ofNat 256 (224 + u.val / 4096), Fin.ofNat 256 (128 + u.val / 64 % 64),
      Fin.ofNat 256 (128 + u.val % 64)]
  encode data := encodeItem (data.item _ _)
  scalar value := by
    split <;> exact trivial
  standard data bytes made := encodeItem_encoded _ bytes made

/-- Arrays around `null`. -/
def nested : Nat → JsData
  | 0 => .null
  | levels + 1 => .array [nested levels]

theorem isPropValue_nested : isPropValue (nested levels) = true := by
  induction levels with
  | zero => rfl
  | succ levels ih => simp [nested, isPropValue, arePropValues, ih]

def propForms : RecordingBuilder.ValueForms PropValue where
  text text := ⟨.string text, rfl⟩
  null := ⟨.null, rfl⟩

/-- A node with one property, the first patch of its writer. -/
def nestingSession (levels : Nat) : PatchSession PropValue where
  writerId := ⟨lit "alice", alice_named⟩
  lamport := 1
  vv := .empty
  onDeleteWithData := .reject
  snapshotState := none
  calls := [.addNode (lit "n"),
    .setProperty (lit "n") (lit "k") ⟨nested levels, isPropValue_nested⟩]
  ownTick := 0
  sha := lit "aaaa"
  positive := Int.one_pos
  hex := aaaa_hex

/-- Whether the bytes of the patch are read again; `none` where there are no bytes. -/
def storedAndReadable (session : PatchSession PropValue) : Option Bool :=
  match session.publish propForms with
  | .error _ => none
  | .ok p =>
    match appendPatch plainCborX p with
    | .error _ => none
    | .ok bytes =>
      match requireBoundedCbor bytes with
      | .ok () => some true
      | .error _ => some false

theorem storedAndReadable_iff :
    storedAndReadable session = some readable ↔
      ∃ p bytes, session.publish propForms = .ok p ∧ appendPatch plainCborX p = .ok bytes ∧
        (requireBoundedCbor bytes = .ok () ↔ readable = true) := by
  unfold storedAndReadable
  cases published : session.publish propForms with
  | error e => simp
  | ok p =>
    simp only [Except.ok.injEq, exists_and_left, exists_eq_left']
    cases stored : appendPatch plainCborX p with
    | error e => simp
    | ok bytes =>
      simp only [Except.ok.injEq, exists_eq_left']
      cases answer : requireBoundedCbor bytes with
      | error e | ok _ => cases readable <;> simp

end GitWarp
