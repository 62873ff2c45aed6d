import GitWarp.Optic.CheckpointPatchFactStream

/-!
# The bounded stream against the sorted one

The facts of a writer come out sorted when the lamports of its patches increase.
Selecting the least of the cursors then merges the writers into the stable sort
of all facts, and the two streams end alike.
-/
namespace GitWarp

open Js Lib List

variable {V : Type}

/-! ### The facts of a writer are sorted -/

theorem eventId_create_fields (created : EventId.create lamport writerId patchSha opIndex = .ok e) :
    (e.lamport : Int) = lamport ∧ e.writerId = writerId ∧ e.patchSha = patchSha ∧
      e.opIndex = opIndex := by
  unfold EventId.create at created
  split at created
  · cases created
  next positive =>
    split at created
    · cases created
    · split at created
      · cases created
        exact ⟨Int.toNat_of_nonneg (by omega), rfl, rfl, rfl⟩
      · cases created

section

variable (isPropValue : V → Bool)

theorem eventId_of_factsWithProvenance {f : FactWithEvent V}
    (mem : f ∈ factsWithProvenance facts target eventId) : f.eventId = eventId := by
  rcases mem_append.mp mem with here | last
  · obtain ⟨fact, -, rfl⟩ := mem_map.mp here
    rfl
  · rw [mem_singleton.mp last]

theorem eventId_of_factsForOperation (ok : factsForOperation isPropValue eventId op = .ok facts)
    (mem : f ∈ facts) : f.eventId = eventId := by
  -- the facts of an operation carry its event
  cases op with
  | nodeAdd node dot | nodeRemove node dots | edgeAdd src dst label dot
  | edgeRemove src dst label dots | edgePropSet src dst label key value =>
    cases ok
    exact eventId_of_factsWithProvenance mem
  | nodePropSet node key value | blobValue node oid =>
    rw [factsForOperation] at ok
    split at ok
    · cases ok
      exact eventId_of_factsWithProvenance mem
    · cases ok

theorem lowerOperation_eq_ok :
    lowerOperation isPropValue entry opIndex rawOp = .ok facts ↔
      ∃ e canonOp, EventId.create entry.patch.lamport entry.patch.writer entry.sha opIndex = .ok e ∧
        normalizeRawOp rawOp = .ok (some canonOp) ∧
        factsForOperation isPropValue e canonOp.op = .ok facts := by
  have inner : lowerOperation isPropValue entry opIndex rawOp = .ok facts ↔
      operationFacts isPropValue entry opIndex rawOp = .ok facts := by
    rw [lowerOperation]
    split
    next found => rw [found]
    next failed => simp [failed]
  rw [inner, operationFacts, bind_eq_ok]
  simp only [bind_eq_ok]
  constructor
  · rintro ⟨e, created, normalized, normal, found⟩
    cases normalized with
    | none => cases found
    | some canonOp => exact ⟨e, canonOp, created, normal, found⟩
  · rintro ⟨e, canonOp, created, normal, found⟩
    exact ⟨e, created, some canonOp, normal, found⟩

theorem events_of_lowerOps (i) (mem : f ∈ (lowerOps isPropValue entry i ops).items) :
    ∃ j ≥ i, EventId.create entry.patch.lamport entry.patch.writer entry.sha j =
      .ok f.eventId := by
  induction ops generalizing i with
  | nil => cases mem
  | cons rawOp rest ih =>
    rw [lowerOps] at mem
    split at mem
    next => cases mem
    next facts lowered =>
      obtain ⟨e, canonOp, created, -, found⟩ :=
        (lowerOperation_eq_ok isPropValue).mp lowered
      rcases mem_append.mp mem with here | later
      · rw [sortedOperationFacts, mem_sortBy] at here
        rw [eventId_of_factsForOperation isPropValue found here]
        exact ⟨i, le_rfl, created⟩
      · obtain ⟨j, above, made⟩ := ih (i + 1) later
        exact ⟨j, by omega, made⟩

theorem factKey_le_of_event_lt (f g : FactWithEvent V) (below : f.eventId < g.eventId) :
    factKey f ≤ factKey g := by
  apply le_of_lt
  rw [factKey, factKey, Prod.Lex.toLex_lt_toLex]
  exact Or.inl below

theorem pairwise_lowerOps (i) :
    (lowerOps isPropValue entry i ops).items.Pairwise fun f g => factKey f ≤ factKey g := by
  induction ops generalizing i with
  | nil => exact List.Pairwise.nil
  | cons rawOp rest ih =>
    rw [lowerOps]
    split
    next => exact List.Pairwise.nil
    next facts lowered =>
      obtain ⟨e, canonOp, created, -, found⟩ :=
        (lowerOperation_eq_ok isPropValue).mp lowered
      refine pairwise_append.mpr ⟨pairwise_sortBy factKey facts, ih (i + 1), ?_⟩
      intro f here g there
      rw [sortedOperationFacts, mem_sortBy] at here
      obtain ⟨j, above, made⟩ := events_of_lowerOps isPropValue (i + 1) there
      obtain ⟨lamport, writer, sha, index⟩ := eventId_create_fields created
      obtain ⟨lamport', writer', sha', index'⟩ := eventId_create_fields made
      -- a later operation of the same patch
      apply factKey_le_of_event_lt
      rw [eventId_of_factsForOperation isPropValue found here, EventId.lt_iff]
      exact Or.inr ⟨by omega, Or.inr ⟨by rw [writer, writer'], Or.inr ⟨by rw [sha, sha'],
        by omega⟩⟩⟩

/-- The lamports of the patches increase along the chain. -/
def Increasing (entries : List (PatchEntry V)) : Prop :=
  entries.Pairwise fun a b => a.patch.lamport < b.patch.lamport

theorem pairwise_concat (entries) (increasing : Increasing entries) :
    (Generated.concat (entries.map (lowerEntryFacts isPropValue))).items.Pairwise
      fun f g => factKey f ≤ factKey g := by
  induction entries with
  | nil => exact List.Pairwise.nil
  | cons entry rest ih =>
    obtain ⟨first, others⟩ := pairwise_cons.mp increasing
    rw [map_cons, Generated.concat, Generated.andThen]
    split
    next => exact pairwise_lowerOps isPropValue 0
    next =>
      refine pairwise_append.mpr ⟨pairwise_lowerOps isPropValue 0, ih others, ?_⟩
      intro f here g there
      obtain ⟨g', listed, inside⟩ := Generated.mem_concat_items _ g there
      obtain ⟨entry', member, rfl⟩ := mem_map.mp listed
      obtain ⟨i, -, made⟩ := events_of_lowerOps isPropValue 0 here
      obtain ⟨j, -, made'⟩ := events_of_lowerOps isPropValue 0 inside
      have below := first entry' member
      have lamport := (eventId_create_fields made).1
      have lamport' := (eventId_create_fields made').1
      apply factKey_le_of_event_lt
      rw [EventId.lt_iff]
      exact Or.inl (by omega)

end

/-! ### Selecting a cursor -/

theorem selectFrom_spec (before between rest) (selected : FactStreamCursor V)
    (above : ∀ c ∈ before, cursorKey selected < cursorKey c)
    (least : ∀ c ∈ between, cursorKey selected ≤ cursorKey c) :
    ∃ front chosen back, before ++ selected :: (between ++ rest) = front ++ chosen :: back ∧
      selectFrom before.length selected (before.length + 1 + between.length) rest = front.length ∧
      (∀ c ∈ front, cursorKey chosen < cursorKey c) ∧
      ∀ c ∈ back, cursorKey chosen ≤ cursorKey c := by
  induction rest generalizing before between selected with
  | nil => exact ⟨before, selected, between, by rw [append_nil], rfl, above, least⟩
  | cons candidate rest ih =>
    rw [selectFrom]
    split
    next less =>
      -- everything so far is greater than the candidate
      obtain ⟨front, chosen, back, shape, index, greater, lowest⟩ :=
        ih (before ++ selected :: between) [] candidate (by
          intro c mem
          rcases mem_append.mp mem with early | late
          · exact lt_trans less (above c early)
          · rcases mem_cons.mp late with rfl | inner
            · exact less
            · exact lt_of_lt_of_le less (least c inner)) (by simp)
      refine ⟨front, chosen, back, ?_, ?_, greater, lowest⟩
      · rw [← shape]
        simp
      · rw [← index]
        simp only [length_append, length_cons, length_nil]
        congr 1 <;> omega
    next notLess =>
      obtain ⟨front, chosen, back, shape, index, greater, lowest⟩ :=
        ih before (between ++ [candidate]) selected above (by
          intro c mem
          rcases mem_append.mp mem with early | late
          · exact least c early
          · rw [mem_singleton.mp late]
            exact not_lt.mp notLess)
      refine ⟨front, chosen, back, ?_, ?_, greater, lowest⟩
      · rw [← shape]
        simp
      · rw [← index]
        simp only [length_append, length_cons, length_nil]
        congr 1

theorem selectFactCursorIndex_spec {cursors : List (FactStreamCursor V)} (some_ : cursors ≠ [])
    (writers : cursors.Pairwise fun a b => a.writerId < b.writerId) :
    ∃ front chosen back, cursors = front ++ chosen :: back ∧
      selectFactCursorIndex cursors = some front.length ∧
      (∀ c ∈ front, factKey chosen.current < factKey c.current) ∧
      ∀ c ∈ back, factKey chosen.current ≤ factKey c.current := by
  -- among cursors of ascending writers the earliest one with the least fact is selected
  obtain ⟨first, rest, rfl⟩ := exists_cons_of_ne_nil some_
  obtain ⟨front, chosen, back, shape, index, greater, lowest⟩ :=
    selectFrom_spec [] [] rest first (by simp) (by simp)
  rw [nil_append, nil_append] at shape
  refine ⟨front, chosen, back, shape, ?_, ?_, ?_⟩
  · rw [selectFactCursorIndex]
    exact congrArg some index
  · intro c mem
    have apart := greater c mem
    rw [shape, pairwise_append] at writers
    have earlier := writers.2.2 c mem chosen mem_cons_self
    -- with equal facts the earlier writer would have been the lesser one
    rw [cursorKey, cursorKey, Prod.Lex.toLex_lt_toLex] at apart
    rcases apart with below | ⟨-, later⟩
    · exact below
    · exact absurd later (lt_asymm earlier)
  · intro c mem
    have below := lowest c mem
    rw [cursorKey, cursorKey, Prod.Lex.toLex_le_toLex] at below
    rcases below with less | ⟨same, -⟩
    · exact le_of_lt less
    · exact le_of_eq same

/-! ### The loop over the cursors -/

/-- All facts that a cursor has to give. -/
def FactStreamCursor.facts (c : FactStreamCursor V) : List (FactWithEvent V) :=
  c.current :: c.left.items

structure CursorsOk (cursors : List (FactStreamCursor V)) : Prop where
  writers : cursors.Pairwise fun a b => a.writerId < b.writerId
  sorted : ∀ c ∈ cursors, c.facts.Pairwise fun f g => factKey f ≤ factKey g

theorem cursorsOk_set {chosen next : FactStreamCursor V}
    (fine : CursorsOk (front ++ chosen :: back)) (same : next.writerId = chosen.writerId)
    (left : next.facts = chosen.left.items) : CursorsOk (front ++ next :: back) := by
  obtain ⟨writers, sorted⟩ := fine
  rw [pairwise_append, pairwise_cons] at writers
  obtain ⟨early, ⟨above, late⟩, across⟩ := writers
  constructor
  · refine pairwise_append.mpr ⟨early, pairwise_cons.mpr ⟨?_, late⟩, ?_⟩
    · rw [same]
      exact above
    · intro a here b there
      rcases mem_cons.mp there with rfl | beyond
      · rw [same]
        exact across a here chosen mem_cons_self
      · exact across a here b (mem_cons_of_mem _ beyond)
  · intro c mem
    rcases mem_append.mp mem with here | there
    · exact sorted c (mem_append_left _ here)
    · rcases mem_cons.mp there with rfl | beyond
      · have whole := sorted chosen (mem_append_right _ mem_cons_self)
        rw [left]
        exact (pairwise_cons.mp whole).2
      · exact sorted c (mem_append_right _ (mem_cons_of_mem _ beyond))

theorem cursorsOk_erase {chosen : FactStreamCursor V} (fine : CursorsOk (front ++ chosen :: back)) :
    CursorsOk (front ++ back) := by
  have sub : (front ++ back).Sublist (front ++ chosen :: back) :=
    (List.Sublist.refl front).append (sublist_cons_self chosen back)
  exact ⟨fine.writers.sublist sub, fun c mem => fine.sorted c (sub.subset mem)⟩

theorem sort_selected {chosen : FactStreamCursor V} (fine : CursorsOk (front ++ chosen :: back))
    (above : ∀ c ∈ front, factKey chosen.current < factKey c.current)
    (least : ∀ c ∈ back, factKey chosen.current ≤ factKey c.current) :
    sortBy factKey ((front ++ chosen :: back).map FactStreamCursor.facts).flatten =
      chosen.current :: sortBy factKey (front.map FactStreamCursor.facts ++
        chosen.left.items :: back.map FactStreamCursor.facts).flatten := by
  rw [map_append, map_cons, FactStreamCursor.facts]
  apply sortBy_flatten_take
  · intro sourceList mem
    rw [← FactStreamCursor.facts, ← map_cons (f := FactStreamCursor.facts), ← map_append] at mem
    obtain ⟨c, listed, rfl⟩ := mem_map.mp mem
    exact fine.sorted c listed
  · intro sourceList mem a start
    obtain ⟨c, listed, rfl⟩ := mem_map.mp mem
    cases start
    exact above c listed
  · intro sourceList mem a start
    obtain ⟨c, listed, rfl⟩ := mem_map.mp mem
    cases start
    exact least c listed

theorem factsLeft_append (front back : List (FactStreamCursor V)) :
    factsLeft (front ++ back) = factsLeft front + factsLeft back := by
  simp [factsLeft]

theorem factsLeft_cons (c) (back : List (FactStreamCursor V)) :
    factsLeft (c :: back) = c.left.items.length + 1 + factsLeft back := by
  simp [factsLeft]

theorem boundedLoop_round {chosen : FactStreamCursor V}
    (index : selectFactCursorIndex (front ++ chosen :: back) = some front.length) :
    boundedLoop (fuel + 1) (front ++ chosen :: back) pool = .yieldAll [chosen.current.fact]
        (match readNextFactCursor pool.release chosen.writerId chosen.left with
        | .error e => .fail e
        | .ok (none, rest) => boundedLoop fuel (front ++ back) rest
        | .ok (some next, rest) => boundedLoop fuel (front ++ next :: back) rest) := by
  rw [boundedLoop, index]
  simp only [List.getElem?_append_right (le_refl _), Nat.sub_self, List.getElem?_cons_zero,
    eraseIdx_append_of_length_le (le_refl _), eraseIdx_cons_zero,
    set_append_right _ _ (le_refl _), set_cons_zero] <;> rfl

/-- A read fails with its generator or for want of a lease, ends, or stands at the next fact. -/
theorem readNextFactCursor_cases (pool writerId) (generator : Generated Failure (FactWithEvent V)) :
    (∃ e, readNextFactCursor pool writerId generator = .error e ∧
      (generator.Completes → pool.limit ≤ pool.leased)) ∨
    (readNextFactCursor pool writerId generator = .ok (none, pool) ∧ generator = .ofList []) ∨
    ∃ c, readNextFactCursor pool writerId generator =
        .ok (some c, { pool with leased := pool.leased + 1 }) ∧ c.writerId = writerId ∧
      c.facts = generator.items ∧ c.left.failure = generator.failure := by
  obtain ⟨items, failure⟩ := generator
  rw [readNextFactCursor, WarpMemoryPool.acquire]
  cases items with
  | nil =>
    cases failure with
    | none => exact Or.inr (Or.inl ⟨rfl, rfl⟩)
    | some e => exact Or.inl ⟨e, rfl, fun complete => nomatch complete⟩
  | cons fact rest =>
    by_cases room : pool.leased + 1 ≤ pool.limit
    · exact Or.inr (Or.inr ⟨⟨writerId, fact, rest, failure⟩, by rw [if_pos room]; rfl, rfl, rfl, rfl⟩)
    · exact Or.inl ⟨_, by rw [if_neg room]; rfl, fun _ => by omega⟩

/-- Whatever the pool is, the loop gives the facts in order as far as it comes. Where it completes it
has given all of them, and it completes where the cursors do and the pool has their leases. -/
theorem boundedLoop_spec (fuel) (cursors : List (FactStreamCursor V)) (pool)
    (fine : CursorsOk cursors) (enough : factsLeft cursors ≤ fuel) :
    let facts := (sortBy factKey (cursors.map FactStreamCursor.facts).flatten).map FactWithEvent.fact
    (boundedLoop fuel cursors pool).items <+: facts ∧
      ((boundedLoop fuel cursors pool).Completes →
        (boundedLoop fuel cursors pool).items = facts ∧ ∀ c ∈ cursors, c.left.Completes) ∧
      (cursors.length ≤ pool.leased → pool.leased ≤ pool.limit →
        (∀ c ∈ cursors, c.left.Completes) → (boundedLoop fuel cursors pool).Completes) := by
  induction fuel generalizing cursors pool with
  | zero =>
    cases cursors with
    | nil => exact ⟨ nil_prefix, fun _ => ⟨rfl, by simp⟩, fun _ _ _ => rfl⟩
    | cons c rest =>
      rw [factsLeft_cons] at enough
      omega
  | succ fuel ih =>
    by_cases none_ : cursors = []
    · subst none_
      exact ⟨ nil_prefix, fun _ => ⟨rfl, by simp⟩, fun _ _ _ => rfl⟩
    · obtain ⟨front, chosen, back, rfl, index, above, least⟩ :=
        selectFactCursorIndex_spec none_ fine.writers
      dsimp only at ih ⊢
      rw [boundedLoop_round index, sort_selected fine above least, map_cons]
      rw [factsLeft_append, factsLeft_cons] at enough
      rcases readNextFactCursor_cases pool.release chosen.writerId chosen.left with
        ⟨e, read, refused⟩ | ⟨read, ended⟩ | ⟨c, read, writer, facts, failure⟩
      · -- with a lease for each cursor only the generator can fail
        rw [read]
        refine ⟨prefix_append [_] _, fun completes => (nomatch completes), fun leased room all => ?_⟩
        have full := refused (all chosen (by simp))
        simp only [WarpMemoryPool.release, length_append, length_cons] at full leased
        omega
      · -- the writer is at its end, and its lease is not renewed
        obtain ⟨begins, given, goes⟩ := ih (front ++ back) pool.release (cursorsOk_erase fine)
          (by rw [factsLeft_append]; omega)
        have others : (front.map FactStreamCursor.facts ++ chosen.left.items ::
            back.map FactStreamCursor.facts).flatten =
              ((front ++ back).map FactStreamCursor.facts).flatten := by
          simp [ended, Generated.ofList]
        have complete : chosen.left.Completes := by rw [ended]; rfl
        rw [read, others]
        simp only [forall_mem_append, forall_mem_cons, length_append, length_cons,
          WarpMemoryPool.release] at given goes ⊢
        refine ⟨cons_prefix_cons.mpr ⟨rfl, begins⟩, fun completes => ?_, fun leased room all =>
          goes (by omega) (by omega) ⟨all.1, all.2.2⟩⟩
        obtain ⟨same, before, after⟩ := given completes
        exact ⟨congrArg _ same, before, complete, after⟩
      · have left := congrArg length facts
        rw [FactStreamCursor.facts, length_cons] at left
        obtain ⟨begins, given, goes⟩ := ih (front ++ c :: back) { pool.release with
            leased := pool.release.leased + 1 } (cursorsOk_set fine writer facts)
          (by rw [factsLeft_append, factsLeft_cons]; omega)
        have same : c.left.Completes ↔ chosen.left.Completes := by
          rw [Generated.Completes, failure, ← Generated.Completes]
        rw [map_append, map_cons, facts] at begins given
        rw [read]
        simp only [forall_mem_append, forall_mem_cons, length_append, length_cons, same,
          WarpMemoryPool.release] at given goes ⊢
        exact ⟨cons_prefix_cons.mpr ⟨rfl, begins⟩,
          fun completes => ⟨congrArg _ (given completes).1, (given completes).2⟩,
          fun leased room => goes (by omega) (by omega)⟩

theorem boundedLoop_eq (fuel) (cursors : List (FactStreamCursor V)) (pool)
    (fine : CursorsOk cursors) (complete : ∀ c ∈ cursors, c.left.Completes)
    (leased : cursors.length ≤ pool.leased) (room : pool.leased ≤ pool.limit)
    (enough : factsLeft cursors ≤ fuel) : boundedLoop fuel cursors pool = .ofList
      ((sortBy factKey (cursors.map FactStreamCursor.facts).flatten).map FactWithEvent.fact) := by
  obtain ⟨-, given, goes⟩ := boundedLoop_spec fuel cursors pool fine enough
  have completes := goes leased room complete
  rw [← (given completes).1, Generated.ofList, ← completes]

theorem complete_of_boundedLoop (fuel) (cursors : List (FactStreamCursor V)) (pool)
    (fine : CursorsOk cursors) (enough : factsLeft cursors ≤ fuel)
    (completes : (boundedLoop fuel cursors pool).Completes) : ∀ c ∈ cursors, c.left.Completes :=
  ((boundedLoop_spec fuel cursors pool fine enough).2.1 completes).2

/-! ### Opening the cursors -/

namespace CheckpointTailOpticSource

variable (source : CheckpointTailOpticSource V) (options : FactStreamReadOptions)
  (isPropValue : V → Bool)

theorem pairwise_streamWriterFacts
    (increasing : ∀ tip, options.targetFrontier.get writerId = some tip → Increasing
      (source.store.loadPatchChainFromSha tip (options.previousCheckpoint.get writerId))) :
    (source.streamWriterFacts options isPropValue writerId).items.Pairwise
      fun f g => factKey f ≤ factKey g := by
  rw [streamWriterFacts]
  split
  next => exact List.Pairwise.nil
  next entries loaded =>
    apply pairwise_concat
    rw [loadWriterEntries] at loaded
    split at loaded
    next =>
      cases loaded
      exact List.Pairwise.nil
    next tip found =>
      split at loaded
      next =>
        cases loaded
        exact List.Pairwise.nil
      next =>
        obtain ⟨-, -, same⟩ := bind_eq_ok.mp loaded
        cases same
        exact increasing tip found

/-- What opening the cursors of a list of writers gives. -/
structure Opened (writers : List JsString) (pool : WarpMemoryPool)
    (cursors : List (FactStreamCursor V)) (opened : WarpMemoryPool) : Prop where
  fine : CursorsOk cursors
  listed : ∀ c ∈ cursors, c.writerId ∈ writers
  facts : (cursors.map FactStreamCursor.facts).flatten =
    writers.flatMap fun w => (source.streamWriterFacts options isPropValue w).items
  complete : (∀ c ∈ cursors, c.left.Completes) ↔
    ∀ w ∈ writers, (source.streamWriterFacts options isPropValue w).Completes
  leased : opened.leased = pool.leased + cursors.length
  limit : opened.limit = pool.limit
  few : cursors.length ≤ writers.length

theorem opened_cons (ascending : (writerId :: writers).Pairwise fun a b => a < b)
    (sorted : (source.streamWriterFacts options isPropValue writerId).items.Pairwise
      fun f g => factKey f ≤ factKey g) (read : readNextFactCursor pool writerId
      (source.streamWriterFacts options isPropValue writerId) = .ok (cursor, leased))
    (later : source.Opened options isPropValue writers leased cursors opened) :
    source.Opened options isPropValue (writerId :: writers) pool (cursor.toList ++ cursors)
      opened := by
  obtain ⟨above, -⟩ := pairwise_cons.mp ascending
  rcases readNextFactCursor_cases pool writerId
    (source.streamWriterFacts options isPropValue writerId) with
    ⟨e, failed, -⟩ | ⟨ended, none⟩ | ⟨c, next, rfl, facts, failure⟩
  · cases failed.symm.trans read
  · -- a writer without facts has no cursor
    cases ended.symm.trans read
    refine ⟨later.fine, fun c mem => mem_cons_of_mem _ (later.listed c mem), ?_, ?_, later.leased,
      later.limit, Nat.le_succ_of_le later.few⟩
    · rw [flatMap_cons, none]
      exact later.facts
    · rw [forall_mem_cons, none]
      exact later.complete.trans (and_iff_right rfl).symm
  · cases next.symm.trans read
    refine ⟨⟨pairwise_cons.mpr ⟨fun c mem => above _ (later.listed c mem), later.fine.writers⟩,
      forall_mem_cons.mpr ⟨facts ▸ sorted, later.fine.sorted⟩⟩, forall_mem_cons.mpr
        ⟨mem_cons_self, fun c mem => mem_cons_of_mem _ (later.listed c mem)⟩, ?_, ?_, ?_,
      later.limit, Nat.succ_le_succ later.few⟩
    · rw [flatMap_cons, ← facts, ← later.facts]
      rfl
    · rw [forall_mem_cons, ← later.complete, Generated.Completes, ← failure]
      exact forall_mem_cons
    · rw [later.leased]
      simp only [Option.toList_some, singleton_append, length_cons]
      omega

variable (increasing : ∀ writerId tip, options.targetFrontier.get writerId = some tip →
  Increasing (source.store.loadPatchChainFromSha tip (options.previousCheckpoint.get writerId)))

include increasing

theorem openWriterCursors_spec (ascending : writers.Pairwise fun a b => a < b) (pool opened cursors)
    (ok : source.openWriterCursors options isPropValue writers pool = .ok (cursors, opened)) :
    source.Opened options isPropValue writers pool cursors opened := by
  induction writers generalizing pool cursors with
  | nil =>
    cases ok
    exact ⟨⟨List.Pairwise.nil, by simp⟩, by simp, rfl, by simp, rfl, rfl, le_rfl⟩
  | cons writerId rest ih =>
    simp only [openWriterCursors, bind_eq_ok] at ok
    obtain ⟨⟨cursor, leased⟩, read, ⟨others, after⟩, more, same⟩ := ok
    cases same
    exact opened_cons source options isPropValue ascending
      (source.pairwise_streamWriterFacts options isPropValue (increasing writerId)) read (ih (pairwise_cons.mp ascending).2 leased others more)

theorem openWriterCursors_ok (writers) (ascending : writers.Pairwise fun a b => a < b) (pool)
    (complete : ∀ w ∈ writers, (source.streamWriterFacts options isPropValue w).Completes)
    (room : pool.leased + writers.length ≤ pool.limit) :
    ∃ cursors opened, source.openWriterCursors options isPropValue writers pool =
      .ok (cursors, opened) := by
  -- writers that complete can be opened where the pool has a lease for each
  induction writers generalizing pool with
  | nil => exact ⟨[], pool, rfl⟩
  | cons writerId rest ih =>
    rw [length_cons] at room
    have ended := complete writerId mem_cons_self
    obtain ⟨cursor, leased, read, fits, same⟩ : ∃ cursor leased, readNextFactCursor pool writerId
        (source.streamWriterFacts options isPropValue writerId) = .ok (cursor, leased) ∧
          leased.leased ≤ pool.leased + 1 ∧ leased.limit = pool.limit := by
      rcases readNextFactCursor_cases pool writerId _ with ⟨e, -, full⟩ | ⟨read, -⟩ | ⟨c, read, -⟩
      · have := full ended
        omega
      · exact ⟨_, _, read, by omega, rfl⟩
      · exact ⟨_, _, read, le_rfl, rfl⟩
    obtain ⟨cursors, opened, more⟩ := ih (pairwise_cons.mp ascending).2 leased
      (forall_mem_cons.mp complete).2 (by omega)
    exact ⟨cursor.toList ++ cursors, opened, by
      rw [openWriterCursors, read]
      simp [bind, Except.bind, more, pure, Except.pure]⟩

omit increasing

/-! ### The sorted stream -/

theorem lowerEntries_eq_ok (facts) :
    lowerEntries isPropValue entries = .ok facts ↔
      (Generated.concat (entries.map (lowerEntryFacts isPropValue))).Completes ∧
        facts = (Generated.concat (entries.map (lowerEntryFacts isPropValue))).items := by
  induction entries generalizing facts with
  | nil => simp [lowerEntries, Generated.concat, Generated.ofList, Generated.Completes, eq_comm]
  | cons entry rest ih =>
    simp only [lowerEntries, bind_eq_ok, Generated.collect_eq_ok, ih, map_cons,
      Generated.concat, Generated.andThen_completes]
    constructor
    · rintro ⟨own, ⟨complete, rfl⟩, others, ⟨ended, rfl⟩, same⟩
      cases same
      exact ⟨⟨complete, ended⟩, (Generated.andThen_items _ _ complete).symm⟩
    · rintro ⟨⟨complete, ended⟩, rfl⟩
      exact ⟨_, ⟨complete, rfl⟩, _, ⟨ended, rfl⟩, by
        rw [Generated.andThen_items _ _ complete]
        rfl⟩

theorem lowerEntries_append (facts) :
    lowerEntries isPropValue (entries ++ others) = .ok facts ↔
      ∃ own more, lowerEntries isPropValue entries = .ok own ∧
        lowerEntries isPropValue others = .ok more ∧ facts = own ++ more := by
  induction entries generalizing facts with
  | nil => simp [lowerEntries]
  | cons entry rest ih =>
    simp only [cons_append, lowerEntries, bind_eq_ok, ih]
    constructor
    · rintro ⟨first, ok, tail, ⟨own, more, left, right, rfl⟩, same⟩
      cases same
      exact ⟨first ++ own, more, ⟨first, ok, own, left, rfl⟩, right, (append_assoc _ _ _).symm⟩
    · rintro ⟨_, more, ⟨first, ok, own, left, same⟩, right, rfl⟩
      cases same
      refine ⟨first, ok, own ++ more, ⟨own, more, left, right, rfl⟩, ?_⟩
      rw [append_assoc]
      rfl

theorem collectEntries_lower (writers facts) :
    (∃ entries, source.collectEntries options writers = .ok entries ∧
      lowerEntries isPropValue entries = .ok facts) ↔
    (∀ w ∈ writers, (source.streamWriterFacts options isPropValue w).Completes) ∧
      facts = writers.flatMap fun w => (source.streamWriterFacts options isPropValue w).items := by
  -- loading and lowering every patch goes through the facts of each writer
  induction writers generalizing facts with
  | nil => simp [collectEntries, lowerEntries, eq_comm]
  | cons writerId rest ih =>
    rw [forall_mem_cons, flatMap_cons]
    constructor
    · rintro ⟨entries, collected, lowered⟩
      simp only [collectEntries, bind_eq_ok] at collected
      obtain ⟨own, loaded, others, more, same⟩ := collected
      cases same
      obtain ⟨ownFacts, moreFacts, left, right, rfl⟩ :=
        (lowerEntries_append isPropValue facts).mp lowered
      obtain ⟨complete, rfl⟩ := (lowerEntries_eq_ok isPropValue ownFacts).mp left
      obtain ⟨ended, rfl⟩ := (ih moreFacts).mp ⟨others, more, right⟩
      have shape : source.streamWriterFacts options isPropValue writerId =
          Generated.concat (own.map (lowerEntryFacts isPropValue)) := by
        rw [streamWriterFacts, loaded]
      rw [shape]
      exact ⟨⟨complete, ended⟩, rfl⟩
    · rintro ⟨⟨complete, ended⟩, rfl⟩
      obtain ⟨others, more, right⟩ := (ih _).mpr ⟨ended, rfl⟩
      cases loaded : source.loadWriterEntries options writerId with
      | error e =>
        rw [streamWriterFacts, loaded] at complete
        cases complete
      | ok own =>
        have shape : source.streamWriterFacts options isPropValue writerId =
            Generated.concat (own.map (lowerEntryFacts isPropValue)) := by
          rw [streamWriterFacts, loaded]
        rw [shape] at complete ⊢
        refine ⟨own ++ others, by simp [collectEntries, loaded, more, bind, Except.bind, pure,
          Except.pure], ?_⟩
        exact (lowerEntries_append isPropValue _).mpr
          ⟨_, _, (lowerEntries_eq_ok isPropValue _).mpr ⟨complete, rfl⟩, right, rfl⟩

theorem map_eq_ok {A B : Type} (f) (x : Except Failure A) (b : B) :
    x.map f = .ok b ↔ ∃ a, x = .ok a ∧ b = f a := by
  cases x with
  | error e => simp [Except.map]
  | ok a => simp [Except.map, eq_comm]

theorem stream_eq_ofList (facts) :
    source.stream options isPropValue = .ofList facts ↔ options.validate = .ok () ∧
      (∀ w ∈ sortedWriterIds options.targetFrontier,
        (source.streamWriterFacts options isPropValue w).Completes) ∧
      facts = (sortBy factKey ((sortedWriterIds options.targetFrontier).flatMap fun w =>
        (source.streamWriterFacts options isPropValue w).items)).map FactWithEvent.fact := by
  have sorted : ∀ sortedList, source.sortedFacts options isPropValue = .ok sortedList ↔
      options.validate = .ok () ∧ (∀ w ∈ sortedWriterIds options.targetFrontier,
        (source.streamWriterFacts options isPropValue w).Completes) ∧
      sortedList = sortBy factKey ((sortedWriterIds options.targetFrontier).flatMap fun w =>
        (source.streamWriterFacts options isPropValue w).items) := by
    intro sortedList
    have lower := source.collectEntries_lower options isPropValue
      (sortedWriterIds options.targetFrontier)
    simp only [sortedFacts, bind_eq_ok, lowerEntriesToFacts, map_eq_ok]
    constructor
    · rintro ⟨_, valid, entries, collected, loweredFacts, lowered, rfl⟩
      obtain ⟨complete, rfl⟩ := (lower loweredFacts).mp ⟨entries, collected, lowered⟩
      exact ⟨valid, complete, rfl⟩
    · rintro ⟨valid, complete, rfl⟩
      obtain ⟨entries, collected, lowered⟩ := (lower _).mpr ⟨complete, rfl⟩
      exact ⟨(), valid, entries, collected, _, lowered, rfl⟩
  rw [stream]
  split
  next e failed =>
    have bad : ∀ sortedList, source.sortedFacts options isPropValue ≠ .ok sortedList := by
      simp [failed]
    constructor
    · intro same
      cases same
    · rintro ⟨valid, complete, -⟩
      exact absurd ((sorted _).mpr ⟨valid, complete, rfl⟩) (bad _)
  next found ok =>
    obtain ⟨valid, complete, rfl⟩ := (sorted found).mp ok
    constructor
    · intro same
      cases same
      exact ⟨valid, complete, rfl⟩
    · rintro ⟨-, -, rfl⟩
      rfl

theorem ascending_sortedWriterIds (frontier) :
    (sortedWriterIds frontier).Pairwise fun a b => a < b := by
  have distinct : (sortedWriterIds frontier).Nodup :=
    (perm_sortBy id frontier.keys).nodup_iff.mpr frontier.nodup
  apply ((pairwise_sortBy id frontier.keys).and distinct).imp
  rintro a b ⟨below, apart⟩
  exact lt_of_le_of_ne below apart

/-- Either both streams complete, with the same facts, or neither does. -/
theorem streamBounded_eq_stream
    (increasing : ∀ writerId tip, options.targetFrontier.get writerId = some tip →
      Increasing (source.store.loadPatchChainFromSha tip (options.previousCheckpoint.get writerId)))
    (pool : WarpMemoryPool) (room : pool.leased + options.targetFrontier.keys.length ≤ pool.limit)
    (facts : List (CheckpointBasisFact V)) :
    source.streamBounded options isPropValue pool = .ofList facts ↔
      source.stream options isPropValue = .ofList facts := by
  have ascending := ascending_sortedWriterIds options.targetFrontier
  have count : (sortedWriterIds options.targetFrontier).length =
      options.targetFrontier.keys.length := (perm_sortBy id options.targetFrontier.keys).length_eq
  -- what the bounded stream gives once its cursors are open and complete
  have looped : ∀ cursors opened, source.openWriterCursors options isPropValue
      (sortedWriterIds options.targetFrontier) pool = .ok (cursors, opened) →
      (∀ w ∈ sortedWriterIds options.targetFrontier,
        (source.streamWriterFacts options isPropValue w).Completes) →
      boundedLoop (factsLeft cursors) cursors opened = .ofList ((sortBy factKey
        ((sortedWriterIds options.targetFrontier).flatMap fun w =>
          (source.streamWriterFacts options isPropValue w).items)).map FactWithEvent.fact) := by
    intro cursors opened ok complete
    have spec := source.openWriterCursors_spec options isPropValue increasing ascending pool
      opened cursors ok
    have leased := spec.leased
    have limit := spec.limit
    have few := spec.few
    rw [boundedLoop_eq _ cursors opened spec.fine (spec.complete.mpr complete) (by omega)
      (by omega) le_rfl, spec.facts]
  rw [stream_eq_ofList, streamBounded]
  cases valid : options.validate with
  | error e =>
    constructor
    · intro same
      cases same
    · rintro ⟨bad, -⟩
      cases bad
  | ok _ =>
    cases ok : source.openWriterCursors options isPropValue
        (sortedWriterIds options.targetFrontier) pool with
    | error e =>
      -- with room in the pool only a writer that fails keeps the cursors from opening
      constructor
      · intro same
        cases same
      · rintro ⟨-, complete, -⟩
        obtain ⟨cursors, opened, ok'⟩ := source.openWriterCursors_ok options isPropValue increasing
          _ ascending pool complete (by omega)
        rw [ok] at ok'
        cases ok'
    | ok result =>
      obtain ⟨cursors, opened⟩ := result
      dsimp only [bind, Except.bind]
      constructor
      · intro same
        have spec := source.openWriterCursors_spec options isPropValue increasing ascending pool
          opened cursors ok
        have completes : (boundedLoop (factsLeft cursors) cursors opened).Completes := by
          rw [same]
          rfl
        have complete := spec.complete.mp
          (complete_of_boundedLoop _ cursors opened spec.fine le_rfl completes)
        rw [looped cursors opened ok complete] at same
        cases same
        exact ⟨rfl, complete, rfl⟩
      · rintro ⟨-, complete, rfl⟩
        exact looped cursors opened ok complete

/-- One writer with two commits. -/
def twoCommits (early late : List (PatchOp Nat)) : CheckpointTailOpticSource Nat where
  store :=
    { commits := [(lit "bbbb", ⟨some (lit "aaaa"), ⟨lit "w", 2, late, .absent⟩⟩),
        (lit "aaaa", ⟨none, ⟨lit "w", 1, early, .absent⟩⟩)]
      nodup := twoShas_nodup
      closed := by simp [ParentsStored] }
  refs := .ofList [(lit "w", lit "bbbb")]
  checkpoint := none
  maxTailPatches := 10000

/-- Everything that the one writer has committed. -/
def wholeOfW : FactStreamReadOptions := ⟨.empty, .ofList [(lit "w", lit "bbbb")]⟩

def addNode (counter : Nat) (positive : 0 < counter) : PatchOp Nat :=
  .runtime ⟨.nodeAdd (lit "n") ⟨lit "w", counter, w_named, positive⟩, rfl⟩

/-- An operation of a type that is not known. -/
def unknownOp : PatchOp Nat :=
  .decoded ⟨lit "NodeMerge", none, none, none, none, none, none, none, 0, none⟩

theorem increasing_twoCommits (writerId tip)
    (found : wholeOfW.targetFrontier.get writerId = some tip) :
    Increasing ((twoCommits early late).store.loadPatchChainFromSha tip
      (wholeOfW.previousCheckpoint.get writerId)) := by
  have known : (writerId, tip) ∈ [(lit "w", lit "bbbb")] :=
    (wholeOfW.targetFrontier.mem_entries_iff writerId).mpr found
  obtain ⟨rfl, rfl⟩ := Prod.mk.inj (mem_singleton.mp known)
  have chain : (twoCommits early late).store.loadPatchChainFromSha (lit "bbbb")
      (wholeOfW.previousCheckpoint.get (lit "w")) =
        [⟨⟨lit "w", 1, early, .absent⟩, lit "aaaa"⟩, ⟨⟨lit "w", 2, late, .absent⟩, lit "bbbb"⟩] :=
    rfl
  rw [chain, Increasing]
  simp

/-- The bounded stream yields what comes before an operation that it does not know; the other
stream yields nothing. -/
theorem streamBounded_yields_before_failure :
    ∃ (source : CheckpointTailOpticSource Nat) (options : FactStreamReadOptions)
      (pool : WarpMemoryPool),
      (∀ writerId tip, options.targetFrontier.get writerId = some tip → Increasing
        (source.store.loadPatchChainFromSha tip (options.previousCheckpoint.get writerId))) ∧
      pool.leased + options.targetFrontier.keys.length ≤ pool.limit ∧
      source.stream options (fun _ => true) = .fail streamObstructed ∧
      (source.streamBounded options (fun _ => true) pool).failure = some streamObstructed ∧
      (source.streamBounded options (fun _ => true) pool).items.length = 2 := by
  refine ⟨twoCommits [addNode 1 (by decide)] [unknownOp], wholeOfW, ⟨1000, 0⟩,
    increasing_twoCommits, by decide, ?_, ?_, ?_⟩
  · decide +kernel
  · decide +kernel
  · decide +kernel

theorem streamBounded_eq_stream_twoCommits :
    (twoCommits [addNode 1 (by decide)] [addNode 2 (by decide)]).streamBounded wholeOfW
      (fun _ => true) ⟨1, 0⟩ =
    (twoCommits [addNode 1 (by decide)] [addNode 2 (by decide)]).stream wholeOfW
      fun _ => true := by
  have whole : (twoCommits [addNode 1 (by decide)] [addNode 2 (by decide)]).stream wholeOfW
      (fun _ => true) = .ofList ((twoCommits [addNode 1 (by decide)]
        [addNode 2 (by decide)]).stream wholeOfW fun _ => true).items := by
    decide +kernel
  rw [whole]
  exact (streamBounded_eq_stream _ wholeOfW _ increasing_twoCommits ⟨1, 0⟩ (by decide) _).mpr whole

end CheckpointTailOpticSource
end GitWarp
