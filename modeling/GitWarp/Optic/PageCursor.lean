import GitWarp.Index.IndexTree

/-!
# Cursors of neighbourhood pages

A page that does not end a reading names the last edge it lists in a cursor: a
text that also spells out which reading it belongs to. A cursor of another
reading is refused. What a cursor stands for can be read back from its text.
-/
namespace GitWarp

open Js Lib List

/-! ### URI components -/

/-- Letters, digits and a few marks stand for themselves. -/
def isUriUnreserved (u : CodeUnit) : Bool :=
  decide (48 ≤ u.val ∧ u.val ≤ 57) || decide (65 ≤ u.val ∧ u.val ≤ 90) ||
    decide (97 ≤ u.val ∧ u.val ≤ 122) || [33, 39, 40, 41, 42, 45, 46, 95, 126].contains u.val

def percentUnit : CodeUnit := 37

def upperHexUnit (n : Nat) : CodeUnit := Fin.ofNat 65536 (if n < 10 then 48 + n else 55 + n)

def percentByte (byte : BitVec 8) : JsString :=
  [percentUnit, upperHexUnit (byte.toNat / 16), upperHexUnit (byte.toNat % 16)]

def percentBytes (bytes : Bytes) : JsString := bytes.flatMap percentByte

def pairCodePoint (u v : CodeUnit) : Nat := 0x10000 + (u.val - 0xD800) * 1024 + (v.val - 0xDC00)

/-- `encodeURIComponent`; a lone surrogate has no encoding. -/
def encodeURIComponent : JsString → Option JsString
  | [] => some []
  | u :: rest =>
    if isUriUnreserved u then (encodeURIComponent rest).map (u :: ·)
    else if isLowSurrogate u then none
    else if isHighSurrogate u then
      match rest with
      | [] => none
      | v :: after =>
        if isLowSurrogate v then
          (encodeURIComponent after).map (percentBytes (utf8CodePoint (pairCodePoint u v)) ++ ·)
        else none
    else (encodeURIComponent rest).map (percentBytes (utf8CodePoint u.val) ++ ·)

def readOctet : JsString → Option (Nat × JsString)
  | mark :: high :: low :: rest =>
    if mark = percentUnit then
      match hexValue high, hexValue low with
      | some x, some y => some (16 * x + y, rest)
      | _, _ => none
    else none
  | _ => none

def readOctets : Nat → JsString → Option (List Nat × JsString)
  | 0, text => some ([], text)
  | n + 1, text => do
    let (octet, after) ← readOctet text
    let (octets, rest) ← readOctets n after
    some (octet :: octets, rest)

def octetCount (first : Nat) : Option Nat :=
  if first < 0x80 then some 1
  else if first < 0xC0 then none
  else if first < 0xE0 then some 2
  else if first < 0xF0 then some 3
  else if first < 0xF8 then some 4
  else none

def codePointOf : List Nat → Nat
  | [a] => a
  | [a, b] => a % 32 * 64 + b % 64
  | [a, b, c] => a % 16 * 4096 + b % 64 * 64 + c % 64
  | [a, b, c, d] => a % 8 * 262144 + b % 64 * 4096 + c % 64 * 64 + d % 64
  | _ => 0

def isScalarValue (c : Nat) : Bool := decide (c < 0xD800 ∨ 0xE000 ≤ c ∧ c < 0x110000)

def utf16Units (c : Nat) : JsString :=
  if c < 0x10000 then [Fin.ofNat 65536 c]
  else
    [Fin.ofNat 65536 (0xD800 + (c - 0x10000) / 1024),
      Fin.ofNat 65536 (0xDC00 + (c - 0x10000) % 1024)]

/-- One escaped code point; octets that are not its shortest encoding are refused. -/
def decodeCodePoint (text : JsString) : Option (JsString × JsString) := do
  let (first, _) ← readOctet text
  let count ← octetCount first
  let (octets, rest) ← readOctets count text
  if isScalarValue (codePointOf octets) ∧ utf8CodePoint (codePointOf octets) = octets.map byteOf then
    some (utf16Units (codePointOf octets), rest)
  else none

def decodeWithin : Nat → JsString → Option JsString
  | _, [] => some []
  | 0, _ :: _ => none
  | fuel + 1, u :: rest =>
    if u = percentUnit then do
      let (units, after) ← decodeCodePoint (u :: rest)
      (decodeWithin fuel after).map (units ++ ·)
    else (decodeWithin fuel rest).map (u :: ·)

/-- `decodeURIComponent`. -/
def decodeURIComponent (text : JsString) : Option JsString := decodeWithin text.length text

/-! ### Reading an encoded component back -/

theorem hexValue_upperHexUnit (n) (digit : n < 16) : hexValue (upperHexUnit n) = some n := by
  have all : ∀ m : Fin 16, hexValue (upperHexUnit m.val) = some m.val := by decide
  exact all ⟨n, digit⟩

theorem isUriUnreserved_upperHexUnit (digit : n < 16) :
    isUriUnreserved (upperHexUnit n) = true := by
  have all : ∀ m : Fin 16, isUriUnreserved (upperHexUnit m.val) = true := by decide
  exact all ⟨n, digit⟩

theorem readOctet_percentByte (byte rest) :
    readOctet (percentByte byte ++ rest) = some (byte.toNat, rest) := by
  have high := hexValue_upperHexUnit (byte.toNat / 16) (by omega)
  have low := hexValue_upperHexUnit (byte.toNat % 16) (by omega)
  simp only [percentByte, cons_append, nil_append, readOctet, if_true, high, low]
  rw [Nat.div_add_mod]

theorem readOctets_percentBytes (bytes rest) :
    readOctets bytes.length (percentBytes bytes ++ rest) = some (bytes.map BitVec.toNat, rest) := by
  induction bytes with
  | nil => rfl
  | cons byte bytes ih =>
    rw [percentBytes, flatMap_cons, append_assoc, length_cons, readOctets, readOctet_percentByte]
    simp only [Option.bind_eq_bind, Option.bind_some]
    rw [← percentBytes, ih]
    rfl

theorem utf8CodePoint_spec (c) (bound : c < 0x110000) :
    ∃ first others, utf8CodePoint c = first :: others ∧
      octetCount first.toNat = some (others.length + 1) ∧
      codePointOf ((first :: others).map BitVec.toNat) = c := by
  -- the octets of a code point announce their number and give the code point back
  unfold utf8CodePoint
  split
  next one =>
    refine ⟨_, _, rfl, ?_, ?_⟩
    · simp only [byteOf, BitVec.toNat_ofNat, octetCount]
      rw [if_pos (by omega)]
      rfl
    · simp only [map_cons, map_nil, byteOf, BitVec.toNat_ofNat, codePointOf]
      omega
  next more =>
    split
    next two =>
      refine ⟨_, _, rfl, ?_, ?_⟩
      · simp only [byteOf, BitVec.toNat_ofNat, octetCount]
        rw [if_neg (by omega), if_neg (by omega), if_pos (by omega)]
        rfl
      · simp only [map_cons, map_nil, byteOf, BitVec.toNat_ofNat, codePointOf]
        omega
    next =>
      split
      next three =>
        refine ⟨_, _, rfl, ?_, ?_⟩
        · simp only [byteOf, BitVec.toNat_ofNat, octetCount]
          rw [if_neg (by omega), if_neg (by omega), if_neg (by omega), if_pos (by omega)]
          rfl
        · simp only [map_cons, map_nil, byteOf, BitVec.toNat_ofNat, codePointOf]
          omega
      next =>
        refine ⟨_, _, rfl, ?_, ?_⟩
        · simp only [byteOf, BitVec.toNat_ofNat, octetCount]
          rw [if_neg (by omega), if_neg (by omega), if_neg (by omega), if_neg (by omega),
            if_pos (by omega)]
          rfl
        · simp only [map_cons, map_nil, byteOf, BitVec.toNat_ofNat, codePointOf]
          omega

theorem decodeCodePoint_percentBytes (c) (scalar : isScalarValue c = true) (rest) :
    decodeCodePoint (percentBytes (utf8CodePoint c) ++ rest) = some (utf16Units c, rest) := by
  have bound : c < 0x110000 := by
    simp only [isScalarValue, decide_eq_true_eq] at scalar
    omega
  obtain ⟨first, others, shape, count, value⟩ := utf8CodePoint_spec c bound
  have head : readOctet (percentBytes (utf8CodePoint c) ++ rest) =
      some (first.toNat, percentBytes others ++ rest) := by
    rw [shape, percentBytes, flatMap_cons, append_assoc, readOctet_percentByte]
    rfl
  have whole : readOctets (others.length + 1) (percentBytes (utf8CodePoint c) ++ rest) =
      some ((utf8CodePoint c).map BitVec.toNat, rest) := by
    rw [← length_cons (a := first), ← shape, readOctets_percentBytes]
  have back : ((utf8CodePoint c).map BitVec.toNat).map byteOf = utf8CodePoint c := by
    rw [map_map]
    conv_rhs => rw [← map_id (utf8CodePoint c)]
    apply map_congr_left
    intro byte _
    simp [byteOf]
  simp only [decodeCodePoint, head, Option.bind_eq_bind, Option.bind_some, count, whole]
  rw [← shape] at value
  rw [value, back, if_pos ⟨scalar, rfl⟩]

theorem isScalarValue_iff (c) :
    isScalarValue c = true ↔ c < 0xD800 ∨ 0xE000 ≤ c ∧ c < 0x110000 := by
  simp [isScalarValue]

theorem isScalarValue_pair (high : isHighSurrogate u = true) (low : isLowSurrogate v = true) :
    isScalarValue (pairCodePoint u v) = true := by
  rw [isHighSurrogate, decide_eq_true_eq] at high
  rw [isLowSurrogate, decide_eq_true_eq] at low
  rw [isScalarValue_iff]
  unfold pairCodePoint
  generalize u.val = a at *
  generalize v.val = b at *
  omega

theorem utf16Units_unit (u) : utf16Units u.val = [u] := by
  simp [utf16Units]

theorem utf16Units_pair (high : isHighSurrogate u = true) (low : isLowSurrogate v = true) :
    utf16Units (pairCodePoint u v) = [u, v] := by
  simp only [isHighSurrogate, isLowSurrogate, decide_eq_true_eq] at high low
  unfold utf16Units pairCodePoint
  rw [if_neg (by omega)]
  have first : 0xD800 + (0x10000 + (u.val - 0xD800) * 1024 + (v.val - 0xDC00) - 0x10000) / 1024 =
      u.val := by omega
  have second : 0xDC00 + (0x10000 + (u.val - 0xD800) * 1024 + (v.val - 0xDC00) - 0x10000) % 1024 =
      v.val := by omega
  rw [first, second]
  simp

theorem decodeWithin_percentBytes (scalar : isScalarValue c = true) (rest fuel) :
    decodeWithin (fuel + 1) (percentBytes (utf8CodePoint c) ++ rest) =
      (decodeWithin fuel rest).map (utf16Units c ++ ·) := by
  have decoded := decodeCodePoint_percentBytes c scalar rest
  obtain ⟨first, others, shape, -, -⟩ := utf8CodePoint_spec c (by
    simp only [isScalarValue, decide_eq_true_eq] at scalar
    omega)
  rw [shape, percentBytes, flatMap_cons, percentByte] at decoded ⊢
  simp only [cons_append] at decoded ⊢
  rw [decodeWithin, if_pos rfl, decoded]
  rfl

theorem length_percentBytes_pos (c) (bound : c < 0x110000) :
    0 < (percentBytes (utf8CodePoint c)).length := by
  obtain ⟨first, others, shape, -, -⟩ := utf8CodePoint_spec c bound
  rw [shape, percentBytes, flatMap_cons, percentByte]
  simp

theorem decodeURIComponent_encode {text} (encoded) (ok : encodeURIComponent text = some encoded) :
    decodeURIComponent encoded = some text := by
  suffices all : ∀ fuel, encoded.length ≤ fuel → decodeWithin fuel encoded = some text from
    all _ le_rfl
  fun_induction encodeURIComponent text generalizing encoded with
  | case1 =>
    cases ok
    intro fuel _
    rw [decodeWithin]
  | case2 u rest unreserved ih =>
    obtain ⟨tail, inner, rfl⟩ := Option.map_eq_some_iff.mp ok
    intro fuel enough
    obtain ⟨fuel, rfl⟩ : ∃ n, fuel = n + 1 := ⟨fuel - 1, by simp at enough; omega⟩
    have plain : u ≠ percentUnit := by
      rintro rfl
      revert unreserved
      decide
    rw [decodeWithin, if_neg plain, ih tail inner fuel (by simpa using enough)]
    rfl
  | case3 | case4 => cases ok
  | case5 u _ notLow high v after low ih =>
    obtain ⟨tail, inner, rfl⟩ := Option.map_eq_some_iff.mp ok
    intro fuel enough
    have scalar := isScalarValue_pair high low
    have longer := length_percentBytes_pos (pairCodePoint u v) (by
      rw [isScalarValue_iff] at scalar
      omega)
    rw [length_append] at enough
    obtain ⟨fuel, rfl⟩ : ∃ n, fuel = n + 1 := ⟨fuel - 1, by omega⟩
    rw [decodeWithin_percentBytes scalar, ih tail inner fuel (by omega), utf16Units_pair high low]
    rfl
  | case6 => cases ok
  | case7 u rest _ notLow notHigh ih =>
    obtain ⟨tail, inner, rfl⟩ := Option.map_eq_some_iff.mp ok
    intro fuel enough
    have scalar : isScalarValue u.val = true := by
      simp only [isHighSurrogate, isLowSurrogate, decide_eq_true_eq] at notHigh notLow
      rw [isScalarValue_iff]
      omega
    have longer := length_percentBytes_pos u.val (by omega)
    rw [length_append] at enough
    obtain ⟨fuel, rfl⟩ : ∃ n, fuel = n + 1 := ⟨fuel - 1, by omega⟩
    rw [decodeWithin_percentBytes scalar, ih tail inner fuel (by omega), utf16Units_unit]
    rfl

theorem mem_percentBytes (mem : u ∈ percentBytes bytes) :
    u = percentUnit ∨ isUriUnreserved u = true := by
  obtain ⟨byte, -, inside⟩ := mem_flatMap.mp mem
  simp only [percentByte, mem_cons, not_mem_nil, or_false] at inside
  rcases inside with rfl | rfl | rfl
  · exact Or.inl rfl
  · exact Or.inr (isUriUnreserved_upperHexUnit (by omega))
  · exact Or.inr (isUriUnreserved_upperHexUnit (by omega))

theorem mem_encodeURIComponent (text encoded) (ok : encodeURIComponent text = some encoded)
    (mem : u ∈ encoded) : u = percentUnit ∨ isUriUnreserved u = true := by
  -- nothing but unreserved characters and percent signs is written
  fun_induction encodeURIComponent text generalizing encoded with
  | case1 =>
    cases ok
    cases mem
  | case2 v rest unreserved ih =>
    obtain ⟨tail, inner, rfl⟩ := Option.map_eq_some_iff.mp ok
    rcases mem_cons.mp mem with rfl | later
    · exact Or.inr unreserved
    · exact ih tail inner later
  | case3 | case4 => cases ok
  | case5 v _ notLow high w after low ih =>
    obtain ⟨tail, inner, rfl⟩ := Option.map_eq_some_iff.mp ok
    rcases mem_append.mp mem with here | later
    · exact mem_percentBytes here
    · exact ih tail inner later
  | case6 => cases ok
  | case7 v rest _ notLow notHigh ih =>
    obtain ⟨tail, inner, rfl⟩ := Option.map_eq_some_iff.mp ok
    rcases mem_append.mp mem with here | later
    · exact mem_percentBytes here
    · exact ih tail inner later

/-! ### Cursors -/

/-- `DEFAULT_NEIGHBORHOOD_PAGE_SIZE`. -/
def defaultPageSize : Int := 100

/-- `MAX_NEIGHBORHOOD_PAGE_SIZE`. -/
def maxPageSize : Int := 1000

/-- The directions `in` and `out`. -/
inductive Side
  | incoming
  | out
  deriving DecidableEq

namespace Side

def text : Side → JsString
  | incoming => lit "in"
  | out => lit "out"

def parse (value : JsString) : Option Side :=
  if value = lit "in" then some incoming else if value = lit "out" then some out else none

end Side

def directionText : IndexTree.Direction → JsString
  | .incoming => lit "in"
  | .out => lit "out"
  | .both => lit "both"

def parseDirection (value : JsString) : Option IndexTree.Direction :=
  if value = lit "in" then some .incoming
  else if value = lit "out" then some .out
  else if value = lit "both" then some .both
  else none

structure NeighborhoodCursorScope where
  checkpointSha : JsString
  nodeId : JsString
  direction : IndexTree.Direction
  labels : List JsString
  deriving DecidableEq

structure NeighborhoodCandidatePosition where
  direction : Side
  globalId : Nat
  label : JsString
  deriving DecidableEq

def cursorPrefix : JsString := lit "git-warp:neighborhood-cursor:1:"

def bar : CodeUnit := 124

def comma : CodeUnit := 44

def uriMalformed : Failure := ⟨.uriError, [], lit "URI malformed"⟩

def invalidCursorError : Failure :=
  ⟨.queryError, lit "E_OPTIC_NEIGHBORHOOD_OPTIONS",
    lit "Neighborhood optic cursor is invalid, stale, or belongs to another reading."⟩

def invalidLimitError : Failure :=
  ⟨.queryError, lit "E_OPTIC_NEIGHBORHOOD_OPTIONS",
    lit "Neighborhood optic limit must be between 1 and 1000."⟩

/-- The seven parts of a cursor. -/
def cursorParts (scope : NeighborhoodCursorScope) (after : NeighborhoodCandidatePosition) :
    Option (List JsString) := do
  let checkpointSha ← encodeURIComponent scope.checkpointSha
  let nodeId ← encodeURIComponent scope.nodeId
  let labels ← scope.labels.mapM encodeURIComponent
  let label ← encodeURIComponent after.label
  some [checkpointSha, nodeId, directionText scope.direction, join comma labels,
    after.direction.text, numberText after.globalId, label]

def encodeNeighborhoodCursor (scope : NeighborhoodCursorScope)
    (after : NeighborhoodCandidatePosition) : Except Failure JsString :=
  match cursorParts scope after with
  | none => .error uriMalformed
  | some parts => .ok (cursorPrefix ++ join bar parts)

def parseNeighborhoodLimit (limit : Option Int) : Except Failure Nat :=
  let resolved := limit.getD defaultPageSize
  if resolved < 1 ∨ maxPageSize < resolved then .error invalidLimitError else .ok resolved.toNat

def decodeLabels (value : JsString) : Option (List JsString) :=
  if value = [] then some [] else (split comma value).mapM decodeURIComponent

def parseGlobalId (value : JsString) : Option Nat :=
  match parseInt value with
  | none => none
  | some parsed =>
    if parsed < 0 ∨ 0xffffffff < parsed ∨ numberText parsed.toNat ≠ value then none
    else some parsed.toNat

def decodeCursorScope (checkpointSha nodeId direction labels : JsString) :
    Option NeighborhoodCursorScope := do
  let checkpointSha ← decodeURIComponent checkpointSha
  let nodeId ← decodeURIComponent nodeId
  let direction ← parseDirection direction
  let labels ← decodeLabels labels
  some ⟨checkpointSha, nodeId, direction, labels⟩

def decodeCursorPosition (direction globalId label : JsString) :
    Option NeighborhoodCandidatePosition := do
  let direction ← Side.parse direction
  let globalId ← parseGlobalId globalId
  let label ← decodeURIComponent label
  some ⟨direction, globalId, label⟩

/-- `requireCursorParts` and `decodeCursorParts`; every way to fail ends in one error. -/
def decodeCursorParts (raw : JsString) (scope : NeighborhoodCursorScope) :
    Option NeighborhoodCandidatePosition :=
  if cursorPrefix.isPrefixOf raw then
    match split bar (raw.drop cursorPrefix.length) with
    | [checkpointSha, nodeId, direction, labels, side, globalId, label] => do
      let decodedScope ← decodeCursorScope checkpointSha nodeId direction labels
      if decodedScope = scope then decodeCursorPosition side globalId label else none
    | _ => none
  else none

def parseNeighborhoodCursor (raw : Option JsString) (scope : NeighborhoodCursorScope) :
    Except Failure (Option NeighborhoodCandidatePosition) :=
  match raw with
  | none => .ok none
  | some [] => .ok none
  | some (u :: rest) =>
    match decodeCursorParts (u :: rest) scope with
    | none => .error invalidCursorError
    | some position => .ok (some position)

/-! ### Reading a cursor back -/

theorem absent_encodeURIComponent {text} (ok : encodeURIComponent text = some encoded) :
    bar ∉ encoded ∧ comma ∉ encoded := by
  have reservedBar : ¬ (bar = percentUnit ∨ isUriUnreserved bar = true) := by
    simp [bar, percentUnit, isUriUnreserved]
  have reservedComma : ¬ (comma = percentUnit ∨ isUriUnreserved comma = true) := by
    simp [comma, percentUnit, isUriUnreserved]
  constructor
  · exact fun mem => reservedBar (mem_encodeURIComponent text encoded ok mem)
  · exact fun mem => reservedComma (mem_encodeURIComponent text encoded ok mem)

theorem mem_join (mem : u ∈ join separator parts) : u = separator ∨ ∃ part ∈ parts, u ∈ part := by
  fun_induction join separator parts with
  | case1 => cases mem
  | case2 part => exact Or.inr ⟨part, mem_cons_self, mem⟩
  | case3 part next rest ih =>
    rcases mem_append.mp mem with here | later
    · exact Or.inr ⟨part, mem_cons_self, here⟩
    · rcases mem_cons.mp later with rfl | beyond
      · exact Or.inl rfl
      · apply (ih beyond).imp_right
        rintro ⟨other, listed, inside⟩
        exact ⟨other, mem_cons_of_mem _ listed, inside⟩

theorem exists_of_mem_mapM {A B : Type} {f} {items : List A} (found : List B)
    (ok : items.mapM f = some found) {b} (mem : b ∈ found) : ∃ a ∈ items, f a = some b := by
  induction items generalizing found with
  | nil =>
    cases ok
    cases mem
  | cons a rest ih =>
    simp only [mapM_cons, Option.bind_eq_bind, Option.bind_eq_some_iff, Option.pure_def,
      Option.some.injEq] at ok
    obtain ⟨first, made, others, kept, rfl⟩ := ok
    rcases mem_cons.mp mem with rfl | later
    · exact ⟨a, mem_cons_self, made⟩
    · obtain ⟨a', listed, made'⟩ := ih others kept later
      exact ⟨a', mem_cons_of_mem _ listed, made'⟩

theorem bar_not_mem_decimalText (n) : bar ∉ decimalText n := by
  intro mem
  have digit := digit_of_mem_decimalText mem
  simp [bar] at digit

theorem Side.parse_text (side) : Side.parse side.text = some side := by
  cases side <;> decide

theorem parseGlobalId_numberText (bound : n < 2 ^ 32) (ok : parseGlobalId (numberText n) = some m) :
    m = n := by
  unfold parseGlobalId at ok
  split at ok
  next => cases ok
  next parsed _ =>
    split at ok
    next => cases ok
    next fine =>
      cases ok
      rw [not_or, not_or, not_lt, not_lt, not_not] at fine
      obtain ⟨-, small, same⟩ := fine
      rw [numberText, if_pos (by omega), numberText, if_pos (by omega)] at same
      exact decimalText_injective same

/-- The text of a cursor falls into its parts again. -/
theorem split_encodeNeighborhoodCursor {after} {text} (bound : after.globalId < 2 ^ 32)
    (encoded : encodeNeighborhoodCursor scope after = .ok text) :
    ∃ sha node labels label, encodeURIComponent scope.checkpointSha = some sha ∧
      encodeURIComponent scope.nodeId = some node ∧
      scope.labels.mapM encodeURIComponent = some labels ∧
      encodeURIComponent after.label = some label ∧ text ≠ [] ∧
      cursorPrefix.isPrefixOf text = true ∧
      split bar (text.drop cursorPrefix.length) = [sha, node, directionText scope.direction,
        join comma labels, after.direction.text, numberText after.globalId, label] := by
  unfold encodeNeighborhoodCursor at encoded
  split at encoded
  next => cases encoded
  next parts known =>
    cases encoded
    simp only [cursorParts, Option.bind_eq_bind, Option.bind_eq_some_iff, Option.some.injEq]
      at known
    obtain ⟨sha, shaText, node, nodeText, labels, labelTexts, label, labelText, rfl⟩ := known
    -- the bars of the text are those between its parts
    have apart : ∀ part ∈ [sha, node, directionText scope.direction, join comma labels,
        after.direction.text, numberText after.globalId, label], bar ∉ part := by
      intro part mem
      simp only [mem_cons, not_mem_nil, or_false] at mem
      rcases mem with rfl | rfl | rfl | rfl | rfl | rfl | rfl
      · exact (absent_encodeURIComponent shaText).1
      · exact (absent_encodeURIComponent nodeText).1
      · cases scope.direction <;> decide
      · intro inside
        rcases mem_join inside with same | ⟨part, listed, within⟩
        · revert same
          decide
        · obtain ⟨source, -, made⟩ := exists_of_mem_mapM _ labelTexts listed
          exact (absent_encodeURIComponent made).1 within
      · cases after.direction <;> decide
      · rw [numberText, if_pos (by omega)]
        exact bar_not_mem_decimalText _
      · exact (absent_encodeURIComponent labelText).1
    have pieces := split_join (cons_ne_nil _ _) apart
    have named : cursorPrefix ≠ [] := by decide
    refine ⟨sha, node, labels, label, shaText, nodeText, labelTexts, labelText,
      append_ne_nil_of_left_ne_nil named _, ?_, ?_⟩
    · exact isPrefixOf_iff_prefix.mpr (prefix_append _ _)
    · rw [drop_left, pieces]

/-- A cursor that is accepted stands for the position it was made of. -/
theorem parse_encodeNeighborhoodCursor (scope after) {text} (bound : after.globalId < 2 ^ 32)
    (encoded : encodeNeighborhoodCursor scope after = .ok text) (scope' found)
    (parsed : parseNeighborhoodCursor (some text) scope' = .ok found) : found = some after := by
  obtain ⟨sha, node, labels, label, -, -, -, labelText, named, marked, pieces⟩ :=
    split_encodeNeighborhoodCursor bound encoded
  obtain ⟨u, rest, shape⟩ := exists_cons_of_ne_nil named
  rw [shape, parseNeighborhoodCursor, ← shape] at parsed
  split at parsed
  next => cases parsed
  next position read =>
    cases parsed
    simp only [decodeCursorParts, marked, if_true, pieces, Option.bind_eq_bind,
      Option.bind_eq_some_iff] at read
    obtain ⟨decodedScope, -, read⟩ := read
    split at read
    next =>
      simp only [decodeCursorPosition, Side.parse_text, Option.bind_eq_bind,
        Option.bind_eq_some_iff, Option.some.injEq,
        decodeURIComponent_encode label labelText, exists_eq_left'] at read
      obtain ⟨globalId, number, rfl⟩ := read
      rw [parseGlobalId_numberText bound number]
    next => cases read

end GitWarp
