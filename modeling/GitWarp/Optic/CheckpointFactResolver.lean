import GitWarp.Optic.BoundedFacts
import GitWarp.Optic.Neighborhood
import GitWarp.State.ReaderTransparency
import GitWarp.State.Survival

/-!
# Liveness from patch facts

The resolver keeps the fact of the latest event about a node or an edge and
answers what that fact says. The reduced state answers by dots: an element is
alive through a dot that no remove has observed. Facts carry no dots, so the two
agree only where the latest event and the dots do.
-/
namespace GitWarp

open Js Lib KeyCodec List

variable {V : Type}

/-! ### The resolver -/

/-- A matching fact is kept if its event is later than that of the fact so far. -/
def newerMatch {T : Type} (eventId : T → EventId) (candidate current : Option T) : Option T :=
  match candidate, current with
  | none, current => current
  | some candidate, none => some candidate
  | some candidate, some current =>
    if 0 < compareEventIds (eventId candidate) (eventId current) then some candidate
    else some current

/-- The loop of the resolvers. Each fact is looked at under a lease, which ends with the round. -/
def resolveLatest {T : Type} (eventId : T → EventId) (matching : CheckpointBasisFact V → Option T)
    (pool : WarpMemoryPool) : List (CheckpointBasisFact V) → Option T → Except Failure (Option T)
  | [], latest => .ok latest
  | fact :: rest, latest => do
    let leased ← pool.acquire
    resolveLatest eventId matching leased.release rest (newerMatch eventId (matching fact) latest)

/-- What a liveness fact says, and when. -/
structure LivenessMatch where
  alive : Bool
  eventId : EventId
  deriving DecidableEq

structure ContentMatch where
  contentHandle : JsString
  eventId : EventId
  deriving DecidableEq

def matchingNodeLiveness (nodeId : JsString) : CheckpointBasisFact V → Option LivenessMatch
  | .nodeLiveness node alive eventId => if node = nodeId then some ⟨alive, eventId⟩ else none
  | _ => none

def matchingEdge (edge : EdgeParts) : CheckpointBasisFact V → Option LivenessMatch
  | .edge src dst label alive eventId =>
    if src = edge.src ∧ dst = edge.dst ∧ label = edge.label then some ⟨alive, eventId⟩ else none
  | _ => none

def matchingNodeProperty (nodeId propKey : JsString) :
    CheckpointBasisFact V → Option (LWWRegister V)
  | .nodeProperty node key value eventId =>
    if node = nodeId ∧ key = propKey then some ⟨eventId, value⟩ else none
  | _ => none

def matchingContentAnchor (nodeId : JsString) : CheckpointBasisFact V → Option ContentMatch
  | .contentAnchor owner contentHandle eventId =>
    if owner = nodeId then some ⟨contentHandle, eventId⟩ else none
  | _ => none

/-- `none` is `null`: no fact is about the node. -/
def resolveNodeLiveness (pool : WarpMemoryPool) (facts : List (CheckpointBasisFact V))
    (nodeId : JsString) : Except Failure (Option Bool) :=
  (resolveLatest LivenessMatch.eventId (matchingNodeLiveness nodeId) pool facts none).map
    fun latest => latest.map LivenessMatch.alive

structure EdgeEndpointResolution where
  edge : EdgeParts
  alive : Bool
  deriving DecidableEq

def resolveEdgeEndpoints (pool : WarpMemoryPool) (facts : List (CheckpointBasisFact V))
    (edge : EdgeParts) : Except Failure (Option EdgeEndpointResolution) :=
  (resolveLatest LivenessMatch.eventId (matchingEdge edge) pool facts none).map
    fun latest => latest.map fun found => ⟨edge, found.alive⟩

def resolveNodeProperty (pool : WarpMemoryPool) (facts : List (CheckpointBasisFact V))
    (nodeId key : JsString) : Except Failure (Option V) :=
  (resolveLatest LWWRegister.eventId (matchingNodeProperty nodeId key) pool facts none).map
    fun latest => latest.map LWWRegister.value

def resolveContentHandle (pool : WarpMemoryPool) (facts : List (CheckpointBasisFact V))
    (owner : JsString) : Except Failure (Option JsString) :=
  (resolveLatest ContentMatch.eventId (matchingContentAnchor owner) pool facts none).map
    fun latest => latest.map ContentMatch.contentHandle

/-- `CheckpointExistingEntityWriteResolver`. -/
def canWriteNodeProperty (pool : WarpMemoryPool) (facts : List (CheckpointBasisFact V))
    (nodeId : JsString) : Except Failure Bool :=
  (resolveNodeLiveness pool facts nodeId).map fun liveness => decide (liveness = some true)

def canWriteEdgeProperty (pool : WarpMemoryPool) (facts : List (CheckpointBasisFact V))
    (edge : EdgeParts) : Except Failure Bool :=
  (resolveEdgeEndpoints pool facts edge).map fun resolution =>
    resolution.any EdgeEndpointResolution.alive

/-! ### The latest match -/

theorem newerMatch_eq_later (eventId) (candidate current : Option T) :
    newerMatch eventId candidate current = later eventId current candidate := by
  cases candidate with
  | none => cases current <;> rfl
  | some a =>
    cases current with
    | none => rfl
    | some b =>
      simp only [newerMatch, later, compareEventIds_pos_iff]
      by_cases newer : eventId b < eventId a
      · rw [if_pos newer, if_neg (not_le.mpr newer)]
      · rw [if_neg newer, if_pos (not_lt.mp newer)]

theorem acquire_release {pool : WarpMemoryPool} (room : pool.leased + 1 ≤ pool.limit) :
    ∃ leased, pool.acquire = .ok leased ∧ leased.release = pool :=
  ⟨⟨pool.limit, pool.leased + 1⟩, by rw [WarpMemoryPool.acquire, if_pos room], rfl⟩

theorem resolveLatest_spec (matching : CheckpointBasisFact V → Option T)
    (room : pool.leased + 1 ≤ pool.limit) (before) (latest) (holds : Winner eventId before latest) :
    ∃ result, resolveLatest eventId matching pool facts latest = .ok result ∧
      Winner eventId (fun c => before c ∨ ∃ fact ∈ facts, matching fact = some c) result := by
  -- the result has the greatest event of all facts that match
  induction facts generalizing before latest with
  | nil => exact ⟨latest, rfl, holds.congr (by simp)⟩
  | cons fact rest ih =>
    obtain ⟨leased, acquired, back⟩ := acquire_release room
    have here : Winner eventId (fun c => matching fact = some c) (matching fact) := by
      cases found : matching fact with
      | none => exact fun c bad => by cases bad
      | some c =>
        apply winner_single.congr
        intro w
        rw [Option.some.injEq, eq_comm]
    have next := holds.later here
    rw [← newerMatch_eq_later] at next
    obtain ⟨result, resolved, wins⟩ := ih _ _ next
    refine ⟨result, ?_, wins.congr fun c => ?_⟩
    · rw [resolveLatest, acquired]
      simp only [bind, Except.bind, back]
      exact resolved
    · simp only [mem_cons, exists_eq_or_imp, or_assoc]

/-! ### Facts and events -/

/-- What an operation says of a node. -/
def Op.nodeLiveness (nodeId : JsString) : Op V → Option Bool
  | .nodeAdd node _ => if node = nodeId then some true else none
  | .nodeRemove node _ => if node = nodeId then some false else none
  | _ => none

/-- What an operation says of an edge; a write of a property says that it is alive. -/
def Op.edgeLiveness (edge : EdgeParts) : Op V → Option Bool
  | .edgeAdd src dst label _ =>
    if src = edge.src ∧ dst = edge.dst ∧ label = edge.label then some true else none
  | .edgeRemove src dst label _ =>
    if src = edge.src ∧ dst = edge.dst ∧ label = edge.label then some false else none
  | .edgePropSet src dst label _ _ =>
    if src = edge.src ∧ dst = edge.dst ∧ label = edge.label then some true else none
  | _ => none

section

variable (isPropValue : V → Bool)

/-- The stream has every fact of the history, in whatever order. -/
def CompleteFacts (entries : List (PatchEntry V)) (facts : List (CheckpointBasisFact V)) : Prop :=
  ∃ whole, lowerEntries isPropValue entries = .ok whole ∧
    ∀ fact, fact ∈ facts ↔ ∃ f ∈ whole, f.fact = fact

theorem mem_lowerOps_iff (i) (complete : (lowerOps isPropValue entry i ops).Completes) (events)
    (known : entry.eventsFrom i ops = .ok events) (f) :
    f ∈ (lowerOps isPropValue entry i ops).items ↔ ∃ event ∈ events, ∃ facts,
      factsForOperation isPropValue event.1 event.2.op = .ok facts ∧ f ∈ facts := by
  -- both the facts and the events of a patch go through its operations
  induction ops generalizing i events with
  | nil =>
    cases known
    simp [lowerOps, Generated.ofList]
  | cons rawOp rest ih =>
    rw [lowerOps] at complete ⊢
    cases lowered : lowerOperation isPropValue entry i rawOp with
    | error e =>
      rw [lowered] at complete
      cases complete
    | ok facts =>
      rw [lowered] at complete
      obtain ⟨e, canonOp, created, normal, found⟩ :=
        (lowerOperation_eq_ok isPropValue).mp lowered
      rcases eventsFrom_cons entry known with
        ⟨normal', -⟩ | ⟨e', _, tail, normal', created', later, rfl⟩ <;>
        cases normal.symm.trans normal'
      cases created.symm.trans created'
      have inner := ih (i + 1) complete tail later
      simp only [Generated.yieldAll, mem_append, sortedOperationFacts, mem_sortBy, inner,
        mem_cons, exists_eq_or_imp, found, Except.ok.injEq, exists_eq_left']

theorem mem_lowerEntries_iff (effects : ∀ entry ∈ entries, ∃ effect, entry.effect = .ok effect)
    (whole) (lowered : lowerEntries isPropValue entries = .ok whole) :
    f ∈ whole ↔ ∃ event, EventOf entries event ∧ ∃ facts,
      factsForOperation isPropValue event.1 event.2.op = .ok facts ∧ f ∈ facts := by
  induction entries generalizing whole with
  | nil =>
    cases lowered
    simp [EventOf]
  | cons entry rest ih =>
    simp only [lowerEntries, bind_eq_ok, Generated.collect_eq_ok] at lowered
    obtain ⟨own, ⟨complete, rfl⟩, others, more, same⟩ := lowered
    cases same
    obtain ⟨effect, known⟩ := effects entry mem_cons_self
    have first := mem_lowerOps_iff isPropValue 0 complete effect.events
      (entry.effect_parts known).1 f
    have later := ih (forall_mem_cons.mp effects).2 others more
    rw [mem_append, lowerEntryFacts, first, later]
    simp only [eventOf_cons known, or_and_right, exists_or]

theorem matches_iff {T : Type} {matching : CheckpointBasisFact V → Option T}
    {speaks : EventId → Op V → T → Prop}
    (perOperation : ∀ e op c, (∃ facts, factsForOperation isPropValue e op = .ok facts ∧
      ∃ f ∈ facts, matching f.fact = some c) ↔ speaks e op c)
    (effects : ∀ entry ∈ entries, ∃ effect, entry.effect = .ok effect)
    (complete : CompleteFacts isPropValue entries facts) (c : T) :
    (∃ fact ∈ facts, matching fact = some c) ↔
      ∃ event, EventOf entries event ∧ speaks event.1 event.2.op c := by
  obtain ⟨whole, lowered, same⟩ := complete
  constructor
  · rintro ⟨fact, member, found⟩
    obtain ⟨f, inside, rfl⟩ := (same fact).mp member
    obtain ⟨event, happened, list, ok, listed⟩ :=
      (mem_lowerEntries_iff isPropValue effects whole lowered).mp inside
    exact ⟨event, happened, (perOperation _ _ _).mp ⟨list, ok, f, listed, found⟩⟩
  · rintro ⟨event, happened, said⟩
    obtain ⟨list, ok, f, listed, found⟩ := (perOperation _ _ _).mpr said
    have inside := (mem_lowerEntries_iff isPropValue effects whole lowered).mpr
      ⟨event, happened, list, ok, listed⟩
    exact ⟨f.fact, (same _).mpr ⟨f, inside, rfl⟩, found⟩

theorem node_perOperation (e op) (c) :
    (∃ facts, factsForOperation isPropValue e op = .ok facts ∧
      ∃ f ∈ facts, matchingNodeLiveness nodeId f.fact = some c) ↔
    e = c.eventId ∧ op.nodeLiveness nodeId = some c.alive := by
  obtain ⟨alive, eventId⟩ := c
  cases op with
  | nodeAdd node dot | nodeRemove node dots =>
    by_cases same : node = nodeId <;>
      simp [factsForOperation, factsWithProvenance, matchingNodeLiveness, Op.nodeLiveness, same,
        and_comm]
  | edgeAdd src dst label dot | edgeRemove src dst label dots =>
    simp [factsForOperation, edgeFacts, factsWithProvenance, matchingNodeLiveness, Op.nodeLiveness]
  | nodePropSet node key value =>
    by_cases fine : isPropValue value = true <;>
      simp [factsForOperation, factsWithProvenance, matchingNodeLiveness, Op.nodeLiveness, fine]
  | edgePropSet src dst label key value =>
    simp [factsForOperation, factsWithProvenance, matchingNodeLiveness, Op.nodeLiveness]
  | blobValue node oid =>
    by_cases fine : isHandleToken oid = true <;>
      simp [factsForOperation, factsWithProvenance, matchingNodeLiveness, Op.nodeLiveness, fine]

theorem edge_perOperation (e op) (c) :
    (∃ facts, factsForOperation isPropValue e op = .ok facts ∧
      ∃ f ∈ facts, matchingEdge edge f.fact = some c) ↔
    e = c.eventId ∧ op.edgeLiveness edge = some c.alive := by
  obtain ⟨alive, eventId⟩ := c
  cases op with
  | nodeAdd node dot | nodeRemove node dots =>
    simp [factsForOperation, factsWithProvenance, matchingEdge, Op.edgeLiveness]
  | edgeAdd src dst label dot | edgeRemove src dst label dots =>
    by_cases same : src = edge.src ∧ dst = edge.dst ∧ label = edge.label <;>
      simp [factsForOperation, edgeFacts, factsWithProvenance, matchingEdge, Op.edgeLiveness, same,
        and_comm]
  | nodePropSet node key value =>
    by_cases fine : isPropValue value = true <;>
      simp [factsForOperation, factsWithProvenance, matchingEdge, Op.edgeLiveness, fine]
  | edgePropSet src dst label key value =>
    by_cases same : src = edge.src ∧ dst = edge.dst ∧ label = edge.label <;>
      simp [factsForOperation, factsWithProvenance, matchingEdge, Op.edgeLiveness, same, and_comm]
  | blobValue node oid =>
    by_cases fine : isHandleToken oid = true <;>
      simp [factsForOperation, factsWithProvenance, matchingEdge, Op.edgeLiveness, fine]

end

/-! ### The latest event -/

theorem eventOf_unique (consistent : Consistent entries) {a b : Event V} (left : EventOf entries a)
    (right : EventOf entries b) (same : a.1 = b.1) : a = b := by
  obtain ⟨entry, member, effect, known, listed⟩ := left
  obtain ⟨entry', member', effect', known', listed'⟩ := right
  have found := (entry.effect_parts known).1
  have found' := (entry'.effect_parts known').1
  have sha := ((eventsFrom_index entry 0 _ found).1 a listed).1
  have sha' := ((eventsFrom_index entry' 0 _ found').1 b listed').1
  have one : entry = entry' :=
    consistent entry member entry' member' (by rw [← sha, ← sha', same])
  subst one
  rw [known] at known'
  cases known'
  exact event_unique entry found listed listed' same

/-- The latest event that speaks of the element, and what it says. -/
structure Latest (entries : List (PatchEntry V)) (speaks : Op V → Option Bool) (event : Event V)
    (alive : Bool) : Prop where
  happened : EventOf entries event
  said : speaks event.2.op = some alive
  last : ∀ other, EventOf entries other → (speaks other.2.op).isSome = true → other.1 ≤ event.1

theorem latest_of_winner (consistent : Consistent entries) {speaks : Op V → Option Bool}
    (wins : Winner LivenessMatch.eventId (fun c => ∃ event, EventOf entries event ∧
      event.1 = c.eventId ∧ speaks event.2.op = some c.alive) result) (dots)
    (none_ : (∀ event, EventOf entries event → speaks event.2.op = none) → ¬ dots) :
    ((result.map LivenessMatch.alive).getD false = true ↔ dots) ↔
      ∀ event alive, Latest entries speaks event alive → (alive = true ↔ dots) := by
  -- the resolver answers what the latest event says, if there is one
  cases result with
  | none =>
    have silent : ∀ event, EventOf entries event → speaks event.2.op = none := by
      intro event happened
      cases said : speaks event.2.op with
      | none => rfl
      | some alive => exact absurd ⟨event, happened, rfl, said⟩ (wins ⟨alive, event.1⟩)
    constructor
    · intro _ event alive latest
      have said := latest.said
      rw [silent event latest.happened] at said
      cases said
    · intro _
      simp [none_ silent]
  | some c =>
    obtain ⟨⟨event, happened, named, said⟩, greatest⟩ := wins
    have latest : Latest entries speaks event c.alive := by
      refine ⟨happened, said, fun other occurred spoken => ?_⟩
      obtain ⟨alive, said'⟩ := Option.isSome_iff_exists.mp spoken
      rw [named]
      exact greatest ⟨alive, other.1⟩ ⟨other, occurred, rfl, said'⟩
    constructor
    · intro agrees event' alive latest'
      -- there is one latest event
      have same : event' = event := by
        apply eventOf_unique consistent latest'.happened happened
        apply le_antisymm
        · exact latest.last event' latest'.happened (by rw [latest'.said]; rfl)
        · exact latest'.last event happened (by rw [said]; rfl)
      subst same
      have value := latest'.said
      rw [said, Option.some.injEq] at value
      rw [← value]
      exact agrees
    · intro all_
      exact all_ event c.alive latest

/-! ### Dots -/

theorem nodeAdded_speaks {entries : List (PatchEntry V)}
    (effects : ∀ entry ∈ entries, ∃ effect, entry.effect = .ok effect)
    (added : NodeAdded entries x d) :
    ∃ event, EventOf entries event ∧ event.2.op.nodeLiveness x = some true := by
  obtain ⟨entry, member, dot, held, -⟩ := added
  obtain ⟨effect, known⟩ := effects entry member
  obtain ⟨event, listed, op⟩ := entry.event_of_holds known held
  exact ⟨event, ⟨entry, member, effect, known, listed⟩, by rw [op, Op.nodeLiveness, if_pos rfl]⟩

theorem edgeAdded_speaks {entries : List (PatchEntry V)} (d)
    (effects : ∀ entry ∈ entries, ∃ effect, entry.effect = .ok effect)
    (added : EdgeAdded entries edge d) :
    ∃ event, EventOf entries event ∧ event.2.op.edgeLiveness edge = some true := by
  obtain ⟨entry, member, dot, held, -⟩ := added
  obtain ⟨effect, known⟩ := effects entry member
  obtain ⟨event, listed, op⟩ := entry.event_of_holds known held
  exact ⟨event, ⟨entry, member, effect, known, listed⟩, by
    rw [op, Op.edgeLiveness, if_pos ⟨rfl, rfl, rfl⟩]⟩

theorem node_contains_iff (s) (reduced : reducePatches entries .empty = .ok s) (x) :
    s.nodeAlive.contains x = true ↔
      ∃ d, NodeAdded entries x d ∧ ¬ NodeDotRemoved entries d := by
  rw [ORSet.contains_iff]
  simp only [nodeTags_iff entries s reduced, nodeTombs_iff entries s reduced]

theorem edge_contains_iff (s) (reduced : reducePatches entries .empty = .ok s) (edge) :
    s.edgeAlive.contains edge.key = true ↔
      ∃ d, EdgeAdded entries edge d ∧ ¬ EdgeDotRemoved entries d := by
  -- no other edge shares the key of an edge that was added
  have tags : ∀ d, d ∈ s.edgeAlive.dotsOf edge.key ↔ EdgeAdded entries edge d := by
    intro d
    constructor
    · intro tagged
      rw [(represents_history reduced).edgeTags, mem_historyFacts_iff
        (effects_of_reduced entries .empty s reduced) (by simp)
        fun op event => edgeTag_mem_facts] at tagged
      obtain ⟨entry, member, op, held, src, dst, label, dot, rfl, key, same⟩ := tagged
      have ids := held.validIds
      have own : (⟨src, dst, label⟩ : EdgeParts).Valid :=
        ⟨ids src (by simp [Op.ids]), ids dst (by simp [Op.ids]), ids label (by simp [Op.ids])⟩
      have parts := edgeKey_inj_of_valid own key
      subst parts
      exact ⟨entry, member, dot, held, same⟩
    · intro added
      obtain ⟨entry, member, dot, held, -⟩ := id added
      have ids := held.validIds
      have own : edge.Valid := ⟨ids _ (by simp [Op.ids]), ids _ (by simp [Op.ids]),
        ids _ (by simp [Op.ids])⟩
      exact (edgeTags_iff entries s reduced own d).mpr added
  rw [ORSet.contains_iff]
  simp only [tags, edgeTombs_iff entries s reduced]

/-! ### Agreement -/

variable (isPropValue : V → Bool)

theorem resolveNodeLiveness_iff (consistent : Consistent entries) (s)
    (reduced : reducePatches entries .empty = .ok s)
    (complete : CompleteFacts isPropValue entries facts) (room : pool.leased + 1 ≤ pool.limit)
    (nodeId) :
    ∃ liveness, resolveNodeLiveness pool facts nodeId = .ok liveness ∧
      (liveness.getD false = s.nodeAlive.contains nodeId ↔
        ∀ event alive, Latest entries (Op.nodeLiveness nodeId) event alive →
          (alive = true ↔ ∃ d, NodeAdded entries nodeId d ∧ ¬ NodeDotRemoved entries d)) := by
  have effects := effects_of_reduced entries .empty s reduced
  obtain ⟨latest, resolved, wins⟩ := resolveLatest_spec
    (matchingNodeLiveness nodeId) room (fun _ => False) none (fun _ bad => bad)
  refine ⟨latest.map LivenessMatch.alive, by rw [resolveNodeLiveness, resolved]; rfl, ?_⟩
  rw [Bool.eq_iff_iff, node_contains_iff s reduced]
  apply latest_of_winner consistent
  · apply wins.congr
    intro c
    rw [false_or, matches_iff isPropValue (node_perOperation isPropValue) effects complete]
  · rintro silent ⟨d, added, -⟩
    obtain ⟨event, happened, said⟩ := nodeAdded_speaks effects added
    rw [silent event happened] at said
    cases said

theorem resolveEdgeEndpoints_iff (consistent : Consistent entries) (s)
    (reduced : reducePatches entries .empty = .ok s)
    (complete : CompleteFacts isPropValue entries facts) (room : pool.leased + 1 ≤ pool.limit)
    (edge) :
    ∃ resolution, resolveEdgeEndpoints pool facts edge = .ok resolution ∧
      ((resolution.map EdgeEndpointResolution.alive).getD false = s.edgeAlive.contains edge.key ↔
        ∀ event alive, Latest entries (Op.edgeLiveness edge) event alive →
          (alive = true ↔ ∃ d, EdgeAdded entries edge d ∧ ¬ EdgeDotRemoved entries d)) := by
  have effects := effects_of_reduced entries .empty s reduced
  obtain ⟨latest, resolved, wins⟩ := resolveLatest_spec
    (matchingEdge edge) room (fun _ => False) none (fun _ bad => bad)
  refine ⟨latest.map fun found => ⟨edge, found.alive⟩, by rw [resolveEdgeEndpoints, resolved]; rfl,
    ?_⟩
  rw [Option.map_map, Bool.eq_iff_iff, edge_contains_iff s reduced]
  apply latest_of_winner consistent
  · apply wins.congr
    intro c
    rw [false_or, matches_iff isPropValue (edge_perOperation isPropValue) effects complete]
  · rintro silent ⟨d, added, -⟩
    obtain ⟨event, happened, said⟩ := edgeAdded_speaks d effects added
    rw [silent event happened] at said
    cases said

/-- The resolver agrees with the OR-Sets on an element exactly if the latest event that speaks of it
says that it is alive just when some dot that a patch has added for it has been observed by no
remove. -/
theorem resolver_liveness_iff (entries : List (PatchEntry V)) (consistent : Consistent entries)
    (s : WarpState V) (reduced : reducePatches entries .empty = .ok s)
    (facts : List (CheckpointBasisFact V)) (complete : CompleteFacts isPropValue entries facts)
    (pool : WarpMemoryPool) (room : pool.leased + 1 ≤ pool.limit) :
    (∀ nodeId, ∃ liveness, resolveNodeLiveness pool facts nodeId = .ok liveness ∧
      (liveness.getD false = s.nodeAlive.contains nodeId ↔
        ∀ event alive, Latest entries (Op.nodeLiveness nodeId) event alive →
          (alive = true ↔ ∃ d, NodeAdded entries nodeId d ∧ ¬ NodeDotRemoved entries d))) ∧
    ∀ edge : EdgeParts, ∃ resolution, resolveEdgeEndpoints pool facts edge = .ok resolution ∧
      ((resolution.map EdgeEndpointResolution.alive).getD false = s.edgeAlive.contains edge.key ↔
        ∀ event alive, Latest entries (Op.edgeLiveness edge) event alive →
          (alive = true ↔ ∃ d, EdgeAdded entries edge d ∧ ¬ EdgeDotRemoved entries d)) :=
  ⟨resolveNodeLiveness_iff isPropValue consistent s reduced complete room,
    resolveEdgeEndpoints_iff isPropValue consistent s reduced complete room⟩

/-! ### The streams of a source -/

namespace CheckpointTailOpticSource

variable (source : CheckpointTailOpticSource V) (options : FactStreamReadOptions)

theorem consistent_collectEntries (writers entries)
    (collected : source.collectEntries options writers = .ok entries) : Consistent entries := by
  -- the patches of the writers come from one store
  have stored : ∀ entry ∈ entries, ∃ tip stop,
      entry ∈ source.store.loadPatchChainFromSha tip stop := by
    induction writers generalizing entries with
    | nil =>
      cases collected
      simp
    | cons writerId rest ih =>
      simp only [collectEntries, bind_eq_ok] at collected
      obtain ⟨own, loaded, others, more, same⟩ := collected
      cases same
      intro entry mem
      rcases mem_append.mp mem with here | there
      · rw [loadWriterEntries] at loaded
        split at loaded
        next =>
          cases loaded
          cases here
        next tip _ =>
          split at loaded
          next =>
            cases loaded
            cases here
          next =>
            obtain ⟨-, -, same⟩ := bind_eq_ok.mp loaded
            cases same
            exact ⟨tip, _, here⟩
      · exact ih others more entry there
  intro a left b right same
  obtain ⟨tip, stop, inside⟩ := stored a left
  obtain ⟨tip', stop', inside'⟩ := stored b right
  exact source.store.eq_of_sha inside inside' same

theorem completeFacts_of_stream (entries)
    (collected : source.collectEntries options (sortedWriterIds options.targetFrontier) =
      .ok entries) (facts) (streamed : source.stream options isPropValue = .ofList facts) :
    CompleteFacts isPropValue entries facts := by
  rw [stream] at streamed
  split at streamed
  next => cases streamed
  next sorted ok =>
    cases streamed
    simp only [sortedFacts, bind_eq_ok, collected, Except.ok.injEq, exists_eq_left',
      lowerEntriesToFacts, map_eq_ok] at ok
    obtain ⟨_, -, whole, lowered, rfl⟩ := ok
    exact ⟨whole, lowered, fun fact => by simp⟩

end CheckpointTailOpticSource

/-! ### Where they differ -/

open CheckpointTailOpticSource

def dotOfA (counter : Nat) (positive : 0 < counter) : Dot :=
  ⟨lit "a", counter, a_named, positive⟩

/-- `a` adds a node twice; `b` has seen the first add and removes it. -/
def readded : CheckpointTailOpticSource Nat where
  store :=
    { commits := [(lit "bbbb", ⟨none, ⟨lit "b", 2,
          [.runtime removeThatDot], .absent⟩⟩),
        (lit "aaa2", ⟨some (lit "aaa1"), ⟨lit "a", 2,
          [.runtime ⟨.nodeAdd (lit "n") (dotOfA 2 Nat.two_pos), by decide⟩], .absent⟩⟩),
        (lit "aaa1", ⟨none, ⟨lit "a", 1,
          [.runtime ⟨.nodeAdd (lit "n") (dotOfA 1 Nat.one_pos), by decide⟩], .absent⟩⟩)]
      nodup := show [lit "bbbb", lit "aaa2", lit "aaa1"].Nodup by decide
      closed := by simp [ParentsStored] }
  refs := .ofList [(lit "a", lit "aaa2"), (lit "b", lit "bbbb")]
  checkpoint := none
  maxTailPatches := 10000

def wholeOfBoth : FactStreamReadOptions :=
  ⟨.empty, .ofList [(lit "a", lit "aaa2"), (lit "b", lit "bbbb")]⟩

def ab : EdgeParts := ⟨lit "a", lit "b", lit "l"⟩

/-- An edge is added, removed again, and one of its properties is set. -/
def writtenAfterRemove : CheckpointTailOpticSource Nat :=
  twoCommits [.runtime ⟨.edgeAdd (lit "a") (lit "b") (lit "l") (dotOfA 1 Nat.one_pos), by decide⟩]
    [.runtime ⟨.edgeRemove (lit "a") (lit "b") (lit "l") [lit "a:1"], by decide⟩,
      .runtime ⟨.edgePropSet (lit "a") (lit "b") (lit "l") (lit "k") 7, by decide⟩]

/-- What a source streams, and what its patches reduce to. -/
def streamedFacts (source : CheckpointTailOpticSource Nat) (options : FactStreamReadOptions) :
    List (CheckpointBasisFact Nat) :=
  (source.stream options fun _ => true).items

def collectedEntries (source : CheckpointTailOpticSource Nat) (options : FactStreamReadOptions) :
    List (PatchEntry Nat) :=
  (source.collectEntries options (sortedWriterIds options.targetFrontier)).toOption.getD []

def reducedState (source : CheckpointTailOpticSource Nat) (options : FactStreamReadOptions) :
    WarpState Nat :=
  (reducePatches (collectedEntries source options) .empty).toOption.getD .empty

theorem streamed_spec (source options) (collected : (source.collectEntries options
      (sortedWriterIds options.targetFrontier)).toOption.isSome = true)
    (reduced : (reducePatches (collectedEntries source options) .empty).toOption.isSome = true)
    (streamed : (source.stream options fun _ => true).failure = none) :
    Consistent (collectedEntries source options) ∧
      reducePatches (collectedEntries source options) .empty = .ok (reducedState source options) ∧
      CompleteFacts (fun _ => true) (collectedEntries source options)
        (streamedFacts source options) := by
  have gathered := ok_of_toOption [] collected
  refine ⟨source.consistent_collectEntries options _ _ gathered, ok_of_toOption _ reduced,
    source.completeFacts_of_stream (fun _ => true) options _ gathered _ ?_⟩
  rw [Generated.ofList, streamedFacts, ← streamed]

/-- A node that was added again while the remove was on its way is taken for dead, and an edge that
has been removed for alive. -/
theorem resolver_misjudges :
    (∃ (entries : List (PatchEntry Nat)) (s : WarpState Nat)
      (facts : List (CheckpointBasisFact Nat)), Consistent entries ∧
      reducePatches entries .empty = .ok s ∧ CompleteFacts (fun _ => true) entries facts ∧
      resolveNodeLiveness ⟨1000, 0⟩ facts (lit "n") = .ok (some false) ∧
      s.nodeAlive.contains (lit "n") = true) ∧
    ∃ (entries : List (PatchEntry Nat)) (s : WarpState Nat)
      (facts : List (CheckpointBasisFact Nat)), Consistent entries ∧
      reducePatches entries .empty = .ok s ∧ CompleteFacts (fun _ => true) entries facts ∧
      resolveEdgeEndpoints ⟨1000, 0⟩ facts ab = .ok (some ⟨ab, true⟩) ∧
      s.edgeAlive.contains ab.key = false := by
  obtain ⟨consistent, reduced, complete⟩ := streamed_spec readded wholeOfBoth (by decide +kernel)
    (by decide +kernel) (by decide +kernel)
  obtain ⟨consistent', reduced', complete'⟩ := streamed_spec writtenAfterRemove wholeOfW
    (by decide +kernel) (by decide +kernel) (by decide +kernel)
  refine ⟨⟨_, _, _, consistent, reduced, complete, ?_, ?_⟩, _, _, _, consistent', reduced',
    complete', ?_, ?_⟩
  · decide +kernel
  · decide +kernel
  · decide +kernel
  · decide +kernel

theorem resolver_liveness_iff_readded :
    ∃ liveness, resolveNodeLiveness ⟨1000, 0⟩ (streamedFacts readded wholeOfBoth) (lit "n") =
        .ok liveness ∧
      (liveness.getD false = (reducedState readded wholeOfBoth).nodeAlive.contains (lit "n") ↔
        ∀ event alive, Latest (collectedEntries readded wholeOfBoth) (Op.nodeLiveness (lit "n"))
          event alive → (alive = true ↔ ∃ d, NodeAdded (collectedEntries readded wholeOfBoth)
            (lit "n") d ∧ ¬ NodeDotRemoved (collectedEntries readded wholeOfBoth) d)) := by
  obtain ⟨consistent, reduced, complete⟩ := streamed_spec readded wholeOfBoth (by decide +kernel)
    (by decide +kernel) (by decide +kernel)
  exact (resolver_liveness_iff (fun _ => true) _ consistent _ reduced _ complete ⟨1000, 0⟩
    (by decide)).1 (lit "n")

end GitWarp
