import GitWarp.Audit.AuditMessageCodec

/-!
# The layout of refs

A ref lies below the name of its graph, under a keyword that no segment of a graph
name may be. The keyword of the version marker is not among the reserved ones, so
the marker of one graph can lie on the path of every ref of another.
-/
namespace GitWarp

open Js Lib List

def slash : CodeUnit := digitUnit '/'

/-- `REF_PREFIX`. -/
def refPrefix : JsString := lit "refs/warp"

def validateWriterIds : List JsString → Except Failure Unit
  | [] => .ok ()
  | id :: rest => do
    validateWriterId id
    validateWriterIds rest

/-- What the builders share: fixed segments and validated ids below the graph. -/
def buildRef (graphName : JsString) (layout ids : List JsString) : Except Failure JsString := do
  validateGraphName graphName
  validateWriterIds ids
  pure (refPrefix ++ slash :: join slash (graphName :: (layout ++ ids)))

def buildWriterRef (graphName writerId : JsString) : Except Failure JsString :=
  buildRef graphName [lit "writers"] [writerId]

def buildCheckpointRef (graphName : JsString) : Except Failure JsString :=
  buildRef graphName [lit "checkpoints", lit "head"] []

def buildCoverageRef (graphName : JsString) : Except Failure JsString :=
  buildRef graphName [lit "coverage", lit "head"] []

def buildStrandRef (graphName strandId : JsString) : Except Failure JsString :=
  buildRef graphName [lit "strands"] [strandId]

inductive IntentChannel
  | admitted | queued
  deriving DecidableEq

def IntentChannel.text : IntentChannel → JsString
  | .admitted => lit "admitted"
  | .queued => lit "queued"

def buildIntentRef (graphName : JsString) (channel : IntentChannel) (ownerId : JsString) :
    Except Failure JsString :=
  buildRef graphName [lit "intents", channel.text] [ownerId]

def buildStrandOverlayRef (graphName strandId : JsString) : Except Failure JsString :=
  buildRef graphName [lit "strand-overlays"] [strandId]

def buildStrandBraidRef (graphName strandId braidedStrandId : JsString) :
    Except Failure JsString :=
  buildRef graphName [lit "strand-braids"] [strandId, braidedStrandId]

def buildAuditRef (graphName writerId : JsString) : Except Failure JsString :=
  buildRef graphName [lit "audit"] [writerId]

def buildStateCacheRef (graphName : JsString) : Except Failure JsString :=
  buildRef graphName [lit "state-cache"] []

def buildSubstrateVersionRef (graphName : JsString) : Except Failure JsString :=
  buildRef graphName [lit "substrate-version"] []

def buildTrustRecordRef (graphName : JsString) : Except Failure JsString :=
  buildRef graphName [lit "trust", lit "records"] []

/-- A kind of ref with its ids. -/
inductive RefName
  | writer (writerId : JsString)
  | checkpoint
  | coverage
  | strand (strandId : JsString)
  | intent (channel : IntentChannel) (ownerId : JsString)
  | strandOverlay (strandId : JsString)
  | strandBraid (strandId braidedStrandId : JsString)
  | audit (writerId : JsString)
  | stateCache
  | substrateVersion
  | trustRecord

namespace RefName

def build (graphName : JsString) : RefName → Except Failure JsString
  | writer writerId => buildWriterRef graphName writerId
  | checkpoint => buildCheckpointRef graphName
  | coverage => buildCoverageRef graphName
  | strand strandId => buildStrandRef graphName strandId
  | intent channel ownerId => buildIntentRef graphName channel ownerId
  | strandOverlay strandId => buildStrandOverlayRef graphName strandId
  | strandBraid strandId braidedStrandId => buildStrandBraidRef graphName strandId braidedStrandId
  | audit writerId => buildAuditRef graphName writerId
  | stateCache => buildStateCacheRef graphName
  | substrateVersion => buildSubstrateVersionRef graphName
  | trustRecord => buildTrustRecordRef graphName

/-- The path segments below the graph. -/
def segments : RefName → List JsString
  | writer writerId => [lit "writers", writerId]
  | checkpoint => [lit "checkpoints", lit "head"]
  | coverage => [lit "coverage", lit "head"]
  | strand strandId => [lit "strands", strandId]
  | intent channel ownerId => [lit "intents", channel.text, ownerId]
  | strandOverlay strandId => [lit "strand-overlays", strandId]
  | strandBraid strandId braidedStrandId => [lit "strand-braids", strandId, braidedStrandId]
  | audit writerId => [lit "audit", writerId]
  | stateCache => [lit "state-cache"]
  | substrateVersion => [lit "substrate-version"]
  | trustRecord => [lit "trust", lit "records"]

end RefName

/-! ### Parsing -/

def splitWarpRefParts (refPath : JsString) : Option (List JsString) :=
  if (refPrefix ++ [slash]).isPrefixOf refPath then
    let parts := split slash (refPath.drop (refPrefix ++ [slash]).length)
    if parts.length < 3 then none else some parts
  else none

def extractValidWriterId (parts : List JsString) : Option JsString := do
  let writersIndex ← parts.findIdx? (· = lit "writers")
  if writersIndex < 1 ∨ writersIndex ≠ parts.length - 2 then none
  else
    let writerId ← parts.getLast?
    match validateWriterId writerId with
    | .ok _ => some writerId
    | .error _ => none

def parseWriterIdFromRef (refPath : JsString) : Option JsString :=
  (splitWarpRefParts refPath).bind extractValidWriterId

/-! ### Paths -/

/-- Git cannot keep both refs: the path of the other goes on below this one. -/
def ProperPathPrefix (ref other : JsString) : Prop :=
  ∃ more, more ≠ [] ∧ split slash other = split slash ref ++ more

/-- The name of the other graph starts with this graph and its version marker. -/
def MarksPathOf (graph : JsString) (name : RefName) (other : JsString) : Prop :=
  name = .substrateVersion ∧ split slash graph ++ [lit "substrate-version"] <+: split slash other

theorem join_split (separator text) : join separator (split separator text) = text := by
  induction text with
  | nil => rfl
  | cons u rest ih =>
    obtain ⟨part, parts, shape⟩ := exists_cons_of_ne_nil (split_ne_nil separator rest)
    rw [shape] at ih
    simp only [split, shape]
    split
    next same => rw [join, ih, same, nil_append]
    · cases parts with
      | nil | cons next later => simpa [join] using ih

theorem split_inj (same : split separator a = split separator b) : a = b := by
  rw [← join_split separator a, same, join_split]

theorem slash_absent_of_writer (valid : validateWriterId writerId = .ok ()) : slash ∉ writerId := by
  simp only [validateWriterId, throw_unless_eq_ok] at valid
  obtain ⟨-, -, -, -, -, -, pattern⟩ := valid
  split at pattern
  next ascii =>
    intro mem
    exact absurd (all_eq_true.mp ascii slash mem) (by decide)
  · cases pattern

theorem validateWriterIds_ok (ids) (valid : validateWriterIds ids = .ok ()) :
    ∀ id ∈ ids, validateWriterId id = .ok () := by
  induction ids with
  | nil => simp
  | cons id rest ih =>
    obtain ⟨⟨⟩, first, others⟩ := bind_eq_ok.mp valid
    exact forall_mem_cons.mpr ⟨first, ih others⟩

def Unreserved (segment : JsString) : Bool := !reservedGraphNameSegments.contains segment

theorem unreserved_of_graph (valid : validateGraphName graph = .ok ()) :
    ∀ segment ∈ split slash graph, Unreserved segment = true := by
  simp only [validateGraphName, throw_unless_eq_ok] at valid
  obtain ⟨-, -, -, -, -, segments⟩ := valid
  change rejectReservedSegments graph (split slash graph) = .ok () at segments
  generalize split slash graph = parts at segments
  induction parts with
  | nil => simp
  | cons segment rest ih =>
    rw [rejectReservedSegments] at segments
    split at segments
    · cases segments
    next free => exact forall_mem_cons.mpr ⟨by simpa [Unreserved] using free, ih segments⟩

/-! ### Built refs -/

/-- What a built ref is made of. -/
structure BuiltRef (graph : JsString) (name : RefName) (ref : JsString) : Prop where
  unreserved : ∀ segment ∈ split slash graph, Unreserved segment = true
  path : split slash ref = lit "refs" :: lit "warp" :: (split slash graph ++ name.segments)

theorem builtRef_of_buildRef {layout ids} (plain : ∀ segment ∈ layout, slash ∉ segment)
    (same : name.segments = layout ++ ids) (filled : layout ≠ [])
    (built : buildRef graph layout ids = .ok ref) : BuiltRef graph name ref := by
  obtain ⟨⟨⟩, validGraph, built⟩ := bind_eq_ok.mp built
  obtain ⟨⟨⟩, validIds, built⟩ := bind_eq_ok.mp built
  cases built
  have slashless : ∀ segment ∈ name.segments, slash ∉ segment := by
    intro segment mem
    rw [same, mem_append] at mem
    rcases mem with fixed | id
    · exact plain segment fixed
    · exact slash_absent_of_writer (validateWriterIds_ok ids validIds segment id)
  refine ⟨unreserved_of_graph validGraph, ?_⟩
  obtain ⟨segment, rest, shape⟩ := exists_cons_of_ne_nil
    (show name.segments ≠ [] by rw [same]; simp [filled])
  rw [split_append, ← same, shape, join, split_append, ← shape,
    split_join (by simp [shape]) slashless]
  rfl

theorem RefName.builtRef (built : name.build graph = .ok ref) : BuiltRef graph name ref := by
  cases name with
  | intent channel ownerId =>
    cases channel <;> exact builtRef_of_buildRef (by decide) rfl (by simp) built
  | _ => exact builtRef_of_buildRef (by decide) rfl (by simp) built

/-- Only the version marker has an unreserved keyword. -/
theorem RefName.reserved {name : RefName} (other : name ≠ .substrateVersion) :
    ∃ keyword rest, name.segments = keyword :: rest ∧ Unreserved keyword = false := by
  cases name with
  | substrateVersion => exact absurd rfl other
  | _ => exact ⟨_, _, rfl, by decide⟩

theorem IntentChannel.text_injective : Function.Injective IntentChannel.text := by
  intro a b
  cases a <;> cases b <;> decide

/-- The segments of one kind of ref never go on with those of another. -/
theorem RefName.eq_of_segments {name name' : RefName} {more : List JsString}
    (same : name'.segments = name.segments ++ more) : name = name' := by
  have first := congrArg head? same
  cases name <;> cases name' <;>
    first
      | exact absurd (Option.some.inj first) (by decide)
      | simp_all [segments, IntentChannel.text_injective.eq_iff]

theorem takeWhile_of_reserved {graph : List JsString} {name : RefName}
    (plain : ∀ segment ∈ graph, Unreserved segment = true) (other : name ≠ .substrateVersion) (more) :
    (graph ++ (name.segments ++ more)).takeWhile Unreserved = graph := by
  obtain ⟨keyword, rest, shape, reserved⟩ := RefName.reserved other
  rw [takeWhile_append_of_pos plain, shape, cons_append, takeWhile_cons_of_neg (by simp [reserved]),
    append_nil]

/-- A path that goes on below a built ref is the ref itself, or the ref marks the version of a
graph on its way. -/
theorem goes_on_iff (left : BuiltRef graph name ref) (right : BuiltRef graph' name' ref') (more)
    (same : split slash ref' = split slash ref ++ more) :
    (graph = graph' ∧ name = name') ∨ MarksPathOf graph name graph' := by
  rw [left.path, right.path, cons_append, cons_append, cons.injEq, cons.injEq, append_assoc] at same
  have paths := same.2.2
  by_cases marker : name = .substrateVersion
  · subst marker
    have unreserved : ∀ segment ∈ split slash graph ++ RefName.substrateVersion.segments,
        Unreserved segment = true := by
      intro segment mem
      rcases mem_append.mp mem with own | last
      · exact left.unreserved segment own
      · rw [mem_singleton.mp last]
        decide
    by_cases marker' : name' = .substrateVersion
    · subst marker'
      rcases eq_nil_or_concat more with rfl | ⟨init, last, rfl⟩
      · rw [append_nil] at paths
        exact Or.inl ⟨split_inj (append_cancel_right paths).symm, rfl⟩
      · rw [concat_eq_append, ← append_assoc, ← append_assoc] at paths
        exact Or.inr ⟨rfl, init, (append_inj_left' paths rfl).symm⟩
    · have ends := congrArg (takeWhile Unreserved) paths
      rw [← append_nil name'.segments, takeWhile_of_reserved right.unreserved marker' [],
        ← append_assoc] at ends
      rw [takeWhile_append_of_pos unreserved] at ends
      exact Or.inr ⟨rfl, _, ends.symm⟩
  · by_cases marker' : name' = .substrateVersion
    · subst marker'
      obtain ⟨keyword, rest, shape, reserved⟩ := RefName.reserved marker
      have mem : keyword ∈ split slash graph' ++ RefName.substrateVersion.segments := by
        rw [paths, shape]
        simp
      rcases mem_append.mp mem with own | last
      · exact absurd (right.unreserved keyword own) (by simp [reserved])
      · rw [mem_singleton.mp last] at reserved
        exact absurd reserved (by decide)
    · have ends := congrArg (takeWhile Unreserved) paths
      rw [← append_nil name'.segments, takeWhile_of_reserved right.unreserved marker' [],
        takeWhile_of_reserved left.unreserved marker more] at ends
      rw [ends] at paths
      exact Or.inl ⟨(split_inj ends).symm, RefName.eq_of_segments (append_cancel_left paths)⟩

theorem parseWriterIdFromRef_built (built : buildWriterRef graph writerId = .ok ref) :
    parseWriterIdFromRef ref = some writerId := by
  obtain ⟨⟨⟩, validGraph, built⟩ := bind_eq_ok.mp built
  obtain ⟨⟨⟩, validIds, built⟩ := bind_eq_ok.mp built
  cases built
  have valid := validateWriterIds_ok _ validIds writerId (by simp)
  have parts : split slash (join slash (graph :: ([lit "writers"] ++ [writerId]))) =
      split slash graph ++ [lit "writers", writerId] := by
    rw [cons_append, nil_append, join, split_append, split_join (by simp)]
    simp only [forall_mem_cons, not_mem_nil, false_imp_iff, implies_true, and_true]
    exact ⟨by decide, slash_absent_of_writer valid⟩
  -- no segment of the graph is the keyword, so the keyword is found where it was written
  have index : (split slash graph ++ [lit "writers", writerId]).findIdx? (· = lit "writers") =
      some (split slash graph).length := by
    have absent : (split slash graph).findIdx? (· = lit "writers") = none := by
      rw [findIdx?_eq_none_iff]
      intro segment mem
      have free := unreserved_of_graph validGraph segment mem
      rw [decide_eq_false_iff_not]
      rintro rfl
      exact absurd free (by decide)
    rw [findIdx?_append, absent]
    simp [findIdx?_cons]
  have filled := length_pos_of_ne_nil (split_ne_nil slash graph)
  rw [parseWriterIdFromRef, splitWarpRefParts, if_pos (by simp [ isPrefixOf_iff_prefix])]
  rw [show refPrefix ++ slash :: join slash (graph :: ([lit "writers"] ++ [writerId])) =
    (refPrefix ++ [slash]) ++ join slash (graph :: ([lit "writers"] ++ [writerId])) by simp,
    drop_left, parts]
  simp only [length_append, length_cons, length_nil]
  rw [if_neg (by omega), Option.bind_some, extractValidWriterId, index]
  simp [valid, split_ne_nil]

/-- Refs of different graphs, kinds or ids differ, and neither lies on the path of the other,
unless one of them marks the version of a graph on the path to the other's graph. A writer
ref always gives its writer back. -/
theorem refs_apart_iff (graph graph' : JsString) :
    (∀ name name' ref ref', RefName.build graph name = .ok ref →
      RefName.build graph' name' = .ok ref' → (graph, name) ≠ (graph', name') →
      ((ref ≠ ref' ∧ ¬ ProperPathPrefix ref ref' ∧ ¬ ProperPathPrefix ref' ref) ↔
        ¬ MarksPathOf graph name graph' ∧ ¬ MarksPathOf graph' name' graph)) ∧
    ∀ writerId ref, buildWriterRef graph writerId = .ok ref →
      parseWriterIdFromRef ref = some writerId := by
  refine ⟨?_, fun writerId ref => parseWriterIdFromRef_built⟩
  intro name name' ref ref' built built' different
  have left := RefName.builtRef built
  have right := RefName.builtRef built'
  have onPath : ∀ {graph graph' name name' ref ref'}, BuiltRef graph name ref →
      BuiltRef graph' name' ref' → MarksPathOf graph name graph' → ProperPathPrefix ref ref' := by
    rintro graph graph' name name' ref ref' left right ⟨rfl, more, path⟩
    refine ⟨more ++ name'.segments, ?_, ?_⟩
    · cases name' <;> simp [RefName.segments]
    · rw [left.path, right.path, ← path]
      simp [RefName.segments]
  constructor
  · rintro ⟨-, apart, apart'⟩
    exact ⟨fun marks => apart (onPath left right marks), fun marks => apart' (onPath right left marks)⟩
  · rintro ⟨unmarked, unmarked'⟩
    refine ⟨?_, ?_, ?_⟩
    · rintro rfl
      rcases goes_on_iff left right [] (append_nil _).symm with ⟨rfl, rfl⟩ | marks
      · exact different rfl
      · exact unmarked marks
    · rintro ⟨more, -, path⟩
      rcases goes_on_iff left right more path with ⟨rfl, rfl⟩ | marks
      · exact different rfl
      · exact unmarked marks
    · rintro ⟨more, -, path⟩
      rcases goes_on_iff right left more path with ⟨rfl, rfl⟩ | marks
      · exact different rfl
      · exact unmarked' marks

/-- The version marker of `g` lies on the path of the writers of `g/substrate-version`. -/
theorem version_marker_blocks_writers :
    ∃ ref ref', RefName.build (lit "g") .substrateVersion = .ok ref ∧
      RefName.build (lit "g/substrate-version") (.writer (lit "w")) = .ok ref' ∧
      ProperPathPrefix ref ref' :=
  ⟨_, _, rfl, rfl, [lit "writers", lit "w"], by decide, by decide⟩

end GitWarp
