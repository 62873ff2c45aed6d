import GitWarp.Reducer.Facts

/-!
# Convergence of the in-memory reducer

A patch acts on a state through its *effect*: the canonical operations with
their event identifiers, and the counters it has seen. Computing the effect can
fail, applying it cannot, and neither looks at the state. Reducing a list of
patches therefore represents the union of their facts, which is all that the
convergence and homomorphism theorems need.
-/
namespace GitWarp

open Js Lib List

variable {V : Type}

/-! ### Effects -/

abbrev Event (V : Type) := EventId × CanonicalOp V

/-- The canonical operations of a patch from index `i` on, with their events. -/
def PatchEntry.eventsFrom (entry : PatchEntry V) :
    Nat → List (PatchOp V) → Except Failure (List (Event V))
  | _, [] => .ok []
  | i, rawOp :: rest => do
    assertKnownReducerOp rawOp
    match ← normalizeRawOp rawOp with
    | none => entry.eventsFrom (i + 1) rest
    | some canonOp =>
      let eventId ← EventId.create entry.patch.lamport entry.patch.writer entry.sha i
      let tail ← entry.eventsFrom (i + 1) rest
      pure ((eventId, canonOp) :: tail)

def applyEvents (s : WarpState V) (events : List (Event V)) : WarpState V :=
  events.foldl (fun s event => event.2.op.mutate s event.1) s

/-- The named writer and lamport of a patch whose lamport is positive. -/
structure Tick where
  writer : JsString
  lamport : Nat
  named : writer ≠ []

/-- Merges the context of a patch, then advances its writer to its lamport. -/
def foldFrontier (context : VersionVector) (tick : Option Tick) (vv : VersionVector) :
    VersionVector :=
  let merged := vv.merge context
  match tick with
  | none => merged
  | some tick =>
    if merged.counter tick.writer < tick.lamport then merged.put tick.writer tick.named tick.lamport
    else merged

structure Effect (V : Type) where
  events : List (Event V)
  context : VersionVector
  tick : Option Tick

def Effect.apply (s : WarpState V) (effect : Effect V) : WarpState V :=
  let mutated := applyEvents s effect.events
  { mutated with
    observedFrontier := foldFrontier effect.context effect.tick mutated.observedFrontier }

def PatchEntry.tick (entry : PatchEntry V) : Except Failure (Option Tick) :=
  if entry.patch.lamport ≤ 0 then .ok none
  else if named : entry.patch.writer = [] then
    .error ⟨.crdtError, lit "E_CRDT_INVALID_WRITER_ID",
      lit "Invalid writerId: " ++ entry.patch.writer⟩
  else .ok (some ⟨entry.patch.writer, entry.patch.lamport.toNat, named⟩)

def PatchEntry.effect (entry : PatchEntry V) : Except Failure (Effect V) := do
  let events ← entry.eventsFrom 0 entry.patch.ops
  let context ← entry.patch.context.toVersionVector
  let tick ← entry.tick
  pure ⟨events, context, tick⟩

variable (entry : PatchEntry V)

theorem PatchEntry.effect_parts {effect : Effect V} (known : entry.effect = .ok effect) :
    entry.eventsFrom 0 entry.patch.ops = .ok effect.events ∧
      entry.patch.context.toVersionVector = .ok effect.context ∧ entry.tick = .ok effect.tick := by
  simp only [PatchEntry.effect, bind_eq_ok] at known
  obtain ⟨events, found, context, merged, tick, ticked, whole⟩ := known
  cases whole
  exact ⟨found, merged, ticked⟩

theorem applyOps_eq (i) (ops s) :
    applyOps entry i ops s = (entry.eventsFrom i ops).map (applyEvents s) := by
  induction ops generalizing i s with
  | nil => rfl
  | cons rawOp rest ih =>
    simp only [applyOps, PatchEntry.eventsFrom, bind, Except.bind]
    cases assertKnownReducerOp rawOp with
    | error e => rfl
    | ok _ =>
      cases normalizeRawOp rawOp with
      | error e => rfl
      | ok normalized =>
        cases normalized with
        | none => exact ih (i + 1) s
        | some canonOp =>
          cases EventId.create entry.patch.lamport entry.patch.writer entry.sha i with
          | error e => rfl
          | ok eventId =>
            simp only [ih]
            cases entry.eventsFrom (i + 1) rest <;> rfl

theorem VersionVector.counter_unnamed (vv : VersionVector) : vv.counter [] = 0 := by
  have missing : vv.get [] = none := by
    cases found : vv.get [] with
    | none => rfl
    | some c => exact absurd rfl (vv.valid [] c found).1
  simp [VersionVector.counter, missing]

/-- The unnamed writer has no counter, so only the patch decides whether folding it fails. -/
theorem foldPatch_eq (s : WarpState V) (entry : PatchEntry V) :
    s.foldPatch entry.patch = (do
      let context ← entry.patch.context.toVersionVector
      let tick ← entry.tick
      pure { s with observedFrontier := foldFrontier context tick s.observedFrontier }) := by
  unfold WarpState.foldPatch PatchEntry.tick
  simp only [bind, Except.bind]
  cases entry.patch.context.toVersionVector with
  | error e => rfl
  | ok context =>
    simp only [foldFrontier]
    generalize s.observedFrontier.merge context = merged
    by_cases silent : entry.patch.lamport ≤ 0
    · have idle : ¬ (merged.counter entry.patch.writer : Int) < entry.patch.lamport := by omega
      simp [silent, idle]
    · simp only [silent, if_false]
      by_cases named : entry.patch.writer = []
      · have late : (merged.counter [] : Int) < entry.patch.lamport := by
          have unseen := merged.counter_unnamed
          omega
        simp [named, late, VersionVector.set]
      · have shift : (merged.counter entry.patch.writer : Int) < entry.patch.lamport ↔
            merged.counter entry.patch.writer < entry.patch.lamport.toNat := by omega
        simp only [shift, named, dite_false, VersionVector.set]
        split <;> rfl

theorem applyFast_eq (s) (entry : PatchEntry V) :
    applyFast s entry = entry.effect.map (Effect.apply s) := by
  simp only [applyFast, PatchEntry.effect, applyOps_eq, foldPatch_eq, bind, Except.bind]
  cases entry.eventsFrom 0 entry.patch.ops with
  | error e => rfl
  | ok events =>
    cases entry.patch.context.toVersionVector with
    | error e => rfl
    | ok context =>
      cases entry.tick <;> rfl

theorem applyFast_ok {entry : PatchEntry V} (known : entry.effect = .ok effect) (s) :
    applyFast s entry = .ok (effect.apply s) := by
  rw [applyFast_eq, known]
  rfl

theorem effect_of_applyFast {entry : PatchEntry V} (applied : applyFast s entry = .ok t) :
    ∃ effect, entry.effect = .ok effect ∧ t = effect.apply s := by
  rw [applyFast_eq] at applied
  cases known : entry.effect with
  | error e => simp [known, Except.map] at applied
  | ok effect => exact ⟨effect, rfl, by simpa [known, Except.map] using applied.symm⟩

theorem reducePatches_cons {entry : PatchEntry V} (known : entry.effect = .ok effect) (rest s) :
    reducePatches (entry :: rest) s = reducePatches rest (effect.apply s) := by
  rw [reducePatches, applyFast_ok known]
  rfl

/-! ### Well-formed patches -/

/-- Every operation is known and normalizes, the events are valid and the context is
a version vector. -/
structure PatchEntry.WellFormed (entry : PatchEntry V) : Prop where
  known : ∀ op ∈ entry.patch.ops, assertKnownReducerOp op = .ok ()
  normal : ∀ op ∈ entry.patch.ops, ∃ canonical, normalizeRawOp op = .ok canonical
  positive : 0 < entry.patch.lamport
  named : entry.patch.writer ≠ []
  hex : isHexOid entry.sha = true
  context : ∃ vv, entry.patch.context.toVersionVector = .ok vv

theorem PatchEntry.WellFormed.of_checks {entry : PatchEntry V}
    (checks : (∀ op ∈ entry.patch.ops, (assertKnownReducerOp op).isOk ∧ (normalizeRawOp op).isOk) ∧
      0 < entry.patch.lamport ∧ entry.patch.writer ≠ [] ∧ isHexOid entry.sha = true ∧
      entry.patch.context.toVersionVector.isOk) : entry.WellFormed := by
  obtain ⟨ops, positive, named, hex, context⟩ := checks
  have taken {ε α} {result : Except ε α} (ok : result.isOk) : ∃ value, result = .ok value := by
    cases result with
    | error e => exact absurd ok (by simp [Except.isOk, Except.toBool])
    | ok value => exact ⟨value, rfl⟩
  exact ⟨fun op mem => (taken (ops op mem).1).choose_spec, fun op mem => taken (ops op mem).2,
    positive, named, hex, taken context⟩

theorem PatchEntry.WellFormed.sha_ne_nil {entry : PatchEntry V} (valid : entry.WellFormed) :
    entry.sha ≠ [] := by
  intro empty
  have hex := valid.hex
  rw [empty] at hex
  exact absurd hex (by decide)

theorem eventId_create_ok (valid : entry.WellFormed) (i) :
    ∃ e, EventId.create entry.patch.lamport entry.patch.writer entry.sha i = .ok e := by
  have positive : ¬ entry.patch.lamport ≤ 0 := by
    have := valid.positive
    omega
  simp [EventId.create, positive, valid.named, valid.hex]

theorem eventsFrom_ok (valid : entry.WellFormed) (i) (subset : ∀ op ∈ ops, op ∈ entry.patch.ops) :
    ∃ events, entry.eventsFrom i ops = .ok events := by
  induction ops generalizing i with
  | nil => exact ⟨[], rfl⟩
  | cons rawOp rest ih =>
    have mem := subset rawOp mem_cons_self
    obtain ⟨canonical, normalized⟩ := valid.normal rawOp mem
    obtain ⟨tail, found⟩ := ih (i + 1) (forall_mem_cons.mp subset).2
    obtain ⟨e, created⟩ := eventId_create_ok entry valid i
    simp only [PatchEntry.eventsFrom, valid.known rawOp mem, normalized, bind, Except.bind]
    cases canonical with
    | none => exact ⟨tail, found⟩
    | some canonOp => exact ⟨(e, canonOp) :: tail, by simp only [created, found]; rfl⟩

theorem PatchEntry.WellFormed.effect_ok {entry : PatchEntry V} (valid : entry.WellFormed) :
    ∃ effect, entry.effect = .ok effect := by
  obtain ⟨events, found⟩ := eventsFrom_ok entry valid 0 fun _ mem => mem
  obtain ⟨context, merged⟩ := valid.context
  have positive : ¬ entry.patch.lamport ≤ 0 := by
    have := valid.positive
    omega
  simp [PatchEntry.effect, found, merged, PatchEntry.tick, positive, valid.named, bind,
    Except.bind, pure, Except.pure]

/-! ### Facts of patches -/

def Effect.facts (effect : Effect V) : Set (Fact V) :=
  {f | ∃ event ∈ effect.events, f ∈ event.2.op.facts event.1} ∪
    {f | (∃ w, f = .seen w (effect.context.counter w)) ∨
      ∃ tick, effect.tick = some tick ∧ f = .seen tick.writer tick.lamport}

def PatchEntry.facts (entry : PatchEntry V) : Set (Fact V) :=
  {f | ∃ effect, entry.effect = .ok effect ∧ f ∈ effect.facts}

/-- Everything the patches of a list say. -/
def historyFacts (entries : List (PatchEntry V)) : Set (Fact V) :=
  {f | ∃ entry ∈ entries, f ∈ entry.facts}

theorem historyFacts_append (A B : List (PatchEntry V)) :
    historyFacts (A ++ B) = historyFacts A ∪ historyFacts B := by
  ext f
  simp only [historyFacts, mem_append, Set.mem_ofPred_eq, Set.mem_union, or_and_right, exists_or]

theorem historyFacts_cons (found : entry.effect = .ok effect) :
    historyFacts (entry :: rest) = effect.facts ∪ historyFacts rest := by
  have here : entry.facts = effect.facts := by
    ext f
    simp [PatchEntry.facts, found]
  rw [← here]
  ext f
  simp [historyFacts]

theorem Represents.applyEvents (before : Represents s F) (events) :
    Represents (applyEvents s events) (F ∪ {f | ∃ event ∈ events, f ∈ event.2.op.facts event.1}) := by
  induction events generalizing s F with
  | nil => simpa [GitWarp.applyEvents] using before
  | cons event rest ih =>
    have step := ih (before.mutate event.2.op event.1)
    have split : F ∪ event.2.op.facts event.1 ∪
        {f | ∃ event ∈ rest, f ∈ event.2.op.facts event.1} =
        F ∪ {f | ∃ e ∈ event :: rest, f ∈ e.2.op.facts e.1} := by
      ext f
      simp [or_assoc]
    rw [← split]
    exact step

theorem counter_foldFrontier (context tick vv) (w n) :
    n ≤ (foldFrontier context tick vv).counter w ↔ n ≤ vv.counter w ∨ n ≤ context.counter w ∨
        ∃ t, tick = some t ∧ w = t.writer ∧ n ≤ t.lamport := by
  cases tick with
  | none => simp [foldFrontier]
  | some t =>
    simp only [foldFrontier, Option.some.injEq, exists_eq_left']
    split
    next behind =>
      rw [VersionVector.counter_merge] at behind
      rw [VersionVector.counter_put, VersionVector.counter_merge]
      by_cases same : t.writer = w
      · subst same
        simp only [if_true, true_and]
        omega
      · simp only [same, Ne.symm same, if_false, false_and, or_false]
        omega
    next ahead =>
      rw [VersionVector.counter_merge] at ahead
      rw [VersionVector.counter_merge]
      by_cases same : t.writer = w
      · subst same
        omega
      · simp only [Ne.symm same, false_and, or_false]
        omega

theorem Represents.foldFrontier {F : Set (Fact V)} (before : Represents s F) (context tick) :
    Represents { s with observedFrontier := foldFrontier context tick s.observedFrontier }
      (F ∪ {f | (∃ w, f = .seen w (context.counter w)) ∨
        ∃ t, tick = some t ∧ f = .seen t.writer t.lamport}) where
  nodeTags := by simp [before.nodeTags]
  nodeTombs := by simp [before.nodeTombs]
  edgeTags := by simp [before.edgeTags]
  edgeTombs := by simp [before.edgeTombs]
  writes := fun k => (before.writes k).congr fun r => by simp
  births := fun k => (before.births k).congr fun e => by simp
  seen := fun w n => by
    rw [counter_foldFrontier, before.seen]
    simp only [Set.mem_union, Set.mem_ofPred_eq, Fact.seen.injEq]
    constructor
    · rintro ((zero | ⟨m, le, mem⟩) | le | ⟨t, ticked, rfl, le⟩)
      · exact Or.inl zero
      · exact Or.inr ⟨m, le, Or.inl mem⟩
      · exact Or.inr ⟨context.counter w, le, Or.inr (Or.inl ⟨w, rfl, rfl⟩)⟩
      · exact Or.inr ⟨t.lamport, le, Or.inr (Or.inr ⟨t, ticked, rfl, rfl⟩)⟩
    · rintro (zero | ⟨m, le, mem | ⟨w', rfl, rfl⟩ | ⟨t, ticked, rfl, rfl⟩⟩)
      · exact Or.inl (Or.inl zero)
      · exact Or.inl (Or.inr ⟨m, le, mem⟩)
      · exact Or.inr (Or.inl le)
      · exact Or.inr (Or.inr ⟨t, ticked, rfl, le⟩)

theorem Represents.apply (before : Represents s F) (effect : Effect V) :
    Represents (effect.apply s) (F ∪ effect.facts) := by
  have folded := (before.applyEvents effect.events).foldFrontier effect.context effect.tick
  rw [Set.union_assoc] at folded
  exact folded

theorem reducePatches_represents (s) (F : Set (Fact V))
    (valid : ∀ entry ∈ entries, entry.WellFormed) (before : Represents s F) :
    ∃ t, reducePatches entries s = .ok t ∧ Represents t (F ∪ historyFacts entries) := by
  induction entries generalizing s F with
  | nil => exact ⟨s, rfl, by simpa [historyFacts] using before⟩
  | cons entry rest ih =>
    obtain ⟨effect, found⟩ := (valid entry mem_cons_self).effect_ok
    obtain ⟨t, reduced, after⟩ := ih (effect.apply s) (F ∪ effect.facts)
      (forall_mem_cons.mp valid).2 (before.apply effect)
    refine ⟨t, (reducePatches_cons found rest s).trans reduced, ?_⟩
    rw [historyFacts_cons entry found, ← Set.union_assoc]
    exact after

theorem reduces_history {entries : List (PatchEntry V)} (valid : ∀ entry ∈ entries, entry.WellFormed) :
    ∃ t, reducePatches entries .empty = .ok t ∧ Represents t (historyFacts entries) := by
  have reduces := reducePatches_represents .empty ∅ valid represents_empty
  rwa [Set.empty_union] at reduces

/-! ### Events identify writes -/

/-- A commit sha identifies its patch. -/
def Consistent (entries : List (PatchEntry V)) : Prop :=
  ∀ a ∈ entries, ∀ b ∈ entries, a.sha = b.sha → a = b

theorem eventId_create_eq (i e)
    (created : EventId.create entry.patch.lamport entry.patch.writer entry.sha i = .ok e) :
    e.patchSha = entry.sha ∧ e.opIndex = i ∧ (e.lamport : Int) = entry.patch.lamport := by
  unfold EventId.create at created
  split at created
  · cases created
  next positive =>
    split at created
    · cases created
    · split at created
      · cases created
        exact ⟨rfl, rfl, Int.toNat_of_nonneg (by omega)⟩
      · cases created

/-- One operation of the loop: skipped, or the next event. -/
theorem eventsFrom_cons (found : entry.eventsFrom i (rawOp :: rest) = .ok events) :
    (normalizeRawOp rawOp = .ok none ∧ entry.eventsFrom (i + 1) rest = .ok events) ∨
      ∃ e canonOp tail, normalizeRawOp rawOp = .ok (some canonOp) ∧
        EventId.create entry.patch.lamport entry.patch.writer entry.sha i = .ok e ∧
        entry.eventsFrom (i + 1) rest = .ok tail ∧ events = (e, canonOp) :: tail := by
  simp only [PatchEntry.eventsFrom, bind_eq_ok] at found
  obtain ⟨-, -, normalized, same, found⟩ := found
  cases normalized with
  | none => exact Or.inl ⟨same, found⟩
  | some canonOp =>
    simp only [bind_eq_ok] at found
    obtain ⟨e, created, tail, later, whole⟩ := found
    cases whole
    exact Or.inr ⟨e, canonOp, tail, same, created, later, rfl⟩

/-- Events carry the sha of their patch and the index of their operation, so an
event names one operation. -/
theorem eventsFrom_index (i) (events) (found : entry.eventsFrom i ops = .ok events) :
    (∀ event ∈ events, event.1.patchSha = entry.sha ∧ i ≤ event.1.opIndex) ∧
      events.Pairwise fun a b => a.1.opIndex < b.1.opIndex := by
  induction ops generalizing i events with
  | nil =>
    cases found
    simp
  | cons rawOp rest ih =>
    rcases eventsFrom_cons entry found with ⟨-, skipped⟩ | step
    · obtain ⟨indexed, ordered⟩ := ih (i + 1) events skipped
      exact ⟨fun event mem => ⟨(indexed event mem).1, by
        have := (indexed event mem).2
        omega⟩, ordered⟩
    · obtain ⟨e, canonOp, tail, -, created, others, rfl⟩ := step
      obtain ⟨indexed, ordered⟩ := ih (i + 1) tail others
      obtain ⟨sha, index, -⟩ := eventId_create_eq entry i e created
      refine ⟨fun event mem => ?_, pairwise_cons.mpr ⟨fun event mem => ?_, ordered⟩⟩
      · rcases mem_cons.mp mem with rfl | old
        · exact ⟨sha, by simp only [index]; exact Nat.le_refl _⟩
        · exact ⟨(indexed event old).1, by
            have := (indexed event old).2
            omega⟩
      · have := (indexed event mem).2
        simp only [index]
        omega

theorem event_unique (found : entry.eventsFrom 0 ops = .ok events) (left : a ∈ events)
    (right : b ∈ events) (same : a.1 = b.1) : a = b := by
  have ordered := (eventsFrom_index entry 0 events found).2
  clear found
  induction events with
  | nil => cases left
  | cons first rest ih =>
    obtain ⟨before, tail⟩ := pairwise_cons.mp ordered
    rcases mem_cons.mp left with rfl | inLeft <;> rcases mem_cons.mp right with rfl | inRight
    · rfl
    · have := before b inRight
      rw [same] at this
      omega
    · have := before a inLeft
      rw [same] at this
      omega
    · exact ih inLeft inRight tail

theorem Op.write_facts (op : Op V) (mem : Fact.write k r ∈ op.facts e) :
    r.eventId = e ∧ ∀ r', Fact.write k r' ∈ op.facts e → r' = r := by
  cases op with
  | nodeRemove node dots | edgeRemove src dst label dots =>
    obtain ⟨d, -, same⟩ := mem
    cases same
  | nodePropSet node key value | edgePropSet src dst label key value =>
    simp only [Op.facts, Set.mem_singleton_iff, Fact.write.injEq] at mem ⊢
    obtain ⟨rfl, rfl⟩ := mem
    exact ⟨rfl, fun r' same => same.2⟩
  | nodeAdd node dot | edgeAdd src dst label dot | blobValue node oid => simp [Op.facts] at mem

theorem PatchEntry.write_event (mem : Fact.write k r ∈ entry.facts) :
    ∃ events, entry.eventsFrom 0 entry.patch.ops = .ok events ∧
      ∃ event ∈ events, Fact.write k r ∈ event.2.op.facts event.1 := by
  obtain ⟨effect, known, fact⟩ := mem
  exact ⟨effect.events, (entry.effect_parts known).1, by simpa [Effect.facts] using fact⟩

theorem Consistent.oneWritePerEvent {entries : List (PatchEntry V)}
    (consistent : Consistent entries) : OneWritePerEvent (historyFacts entries) := by
  rintro k r r' ⟨entry, member, fact⟩ ⟨entry', member', fact'⟩ same
  obtain ⟨events, found, event, inEvents, written⟩ := entry.write_event fact
  obtain ⟨events', found', event', inEvents', written'⟩ := entry'.write_event fact'
  have stamp := (Op.write_facts _ written).1
  have stamp' := (Op.write_facts _ written').1
  have sha := ((eventsFrom_index entry 0 _ found).1 event inEvents).1
  have sha' := ((eventsFrom_index entry' 0 _ found').1 event' inEvents').1
  have sameEvent : event.1 = event'.1 := by rw [← stamp, ← stamp', same]
  have sameEntry : entry = entry' :=
    consistent entry member entry' member' (by rw [← sha, ← sha', sameEvent])
  subst sameEntry
  rw [found] at found'
  cases found'
  have one : event = event' := event_unique entry found inEvents inEvents' sameEvent
  subst one
  exact ((Op.write_facts _ written).2 r' written').symm

/-! ### A history of two patches -/

/-- A decoded operation with a type and a value and no other field. -/
def OpLike.bare (type : JsString) (value : V) : OpLike V :=
  ⟨type, none, none, none, none, none, none, none, value, none⟩

def sampleAdd : PatchEntry Nat where
  patch := ⟨lit "a", 1, [.decoded { OpLike.bare (lit "NodeAdd") 0 with
    node := some (lit "n"), dot := some (.raw ⟨some (lit "a"), some (.int 1)⟩) }], .absent⟩
  sha := lit "aaaa"

def sampleRemove : PatchEntry Nat where
  patch := ⟨lit "b", 2, [.decoded { OpLike.bare (lit "NodeRemove") 0 with
      node := some (lit "n"), observedDots := some [lit "a:1"] },
    .decoded { OpLike.bare (lit "PropSet") 5 with node := some (lit "n"), key := some (lit "k") }],
    .entries [(lit "a", .int 1)]⟩
  sha := lit "bbbb"

theorem sampleAdd_wellFormed : sampleAdd.WellFormed :=
  .of_checks (by decide)

theorem sampleRemove_wellFormed : sampleRemove.WellFormed :=
  .of_checks (by decide)

theorem sample_wellFormed (entry) (mem : entry ∈ [sampleAdd, sampleRemove]) : entry.WellFormed := by
  simp only [mem_cons, not_mem_nil, or_false] at mem
  rcases mem with rfl | rfl
  · exact sampleAdd_wellFormed
  · exact sampleRemove_wellFormed

theorem sample_consistent : Consistent [sampleAdd, sampleRemove] := by
  have differ : sampleAdd.sha ≠ sampleRemove.sha := by decide
  intro a memberA b memberB same
  simp only [mem_cons, not_mem_nil, or_false] at memberA memberB
  rcases memberA with rfl | rfl <;> rcases memberB with rfl | rfl
  · rfl
  · exact absurd same differ
  · exact absurd same.symm differ
  · rfl

/-! ### Convergence -/

theorem historyFacts_congr (P Q : List (PatchEntry V)) (same : ∀ entry, entry ∈ P ↔ entry ∈ Q) :
    historyFacts P = historyFacts Q := by
  ext f
  simp only [historyFacts, Set.mem_ofPred_eq, same]

/-- Two lists of the same well-formed patches, in any orders and with any repetitions,
reduce to equal states. -/
theorem reducePatches_converges (P Q : List (PatchEntry V)) (valid : ∀ entry ∈ P, entry.WellFormed)
    (consistent : Consistent P) (same : ∀ entry, entry ∈ P ↔ entry ∈ Q) :
    ∃ s t, reducePatches P .empty = .ok s ∧ reducePatches Q .empty = .ok t ∧ s.Equiv t := by
  obtain ⟨s, left, knowsP⟩ := reduces_history valid
  obtain ⟨t, right, knowsQ⟩ := reduces_history
    fun entry member => valid entry ((same entry).mpr member)
  rw [← historyFacts_congr P Q same] at knowsQ
  exact ⟨s, t, left, right, knowsP.equiv consistent.oneWritePerEvent knowsQ⟩

/-- The two patches, and the same two delivered in the other order with one repeated. -/
theorem reducePatches_converges_sample :
    ∃ s t, reducePatches [sampleAdd, sampleRemove] .empty = .ok s ∧
      reducePatches [sampleRemove, sampleAdd, sampleRemove] .empty = .ok t ∧ s.Equiv t :=
  reducePatches_converges _ _ sample_wellFormed sample_consistent
    (by intro entry; simp only [mem_cons, not_mem_nil]; tauto)

theorem OneWritePerEvent.mono {F G : Set (Fact V)} (distinct : OneWritePerEvent G) (subset : F ⊆ G) :
    OneWritePerEvent F :=
  fun k r r' mem member' => distinct k r r' (subset mem) (subset member')

/-- On states reduced from the patches of one history, join is a semilattice and
reduction turns concatenation into join. -/
theorem join_semilattice_homomorphism (A B C : List (PatchEntry V))
    (valid : ∀ entry ∈ A ++ B ++ C, entry.WellFormed) (consistent : Consistent (A ++ B ++ C)) :
    ∃ a b c ab, reducePatches A .empty = .ok a ∧ reducePatches B .empty = .ok b ∧
      reducePatches C .empty = .ok c ∧ reducePatches (A ++ B) .empty = .ok ab ∧
      (a.join b).Equiv (b.join a) ∧
      ((a.join b).join c).Equiv (a.join (b.join c)) ∧
      (a.join a).Equiv a ∧
      ab.Equiv (a.join b) := by
  have knows : ∀ P, (∀ entry ∈ P, entry ∈ A ++ B ++ C) →
      ∃ s, reducePatches P .empty = .ok s ∧ Represents s (historyFacts P) := by
    intro P subset
    exact reduces_history fun entry member => valid entry (subset entry member)
  obtain ⟨a, reducedA, knowsA⟩ := knows A (by simp +contextual)
  obtain ⟨b, reducedB, knowsB⟩ := knows B (by simp +contextual)
  obtain ⟨c, reducedC, knowsC⟩ := knows C (by simp +contextual)
  obtain ⟨ab, reducedAB, knowsAB⟩ := knows (A ++ B) (by
    intro entry member
    exact mem_append_left C member)
  have distinct : OneWritePerEvent (historyFacts A ∪ historyFacts B ∪ historyFacts C) := by
    rw [← historyFacts_append, ← historyFacts_append]
    exact consistent.oneWritePerEvent
  refine ⟨a, b, c, ab, reducedA, reducedB, reducedC, reducedAB, ?_, ?_, ?_, ?_⟩
  · have swapped := knowsB.join knowsA
    rw [Set.union_comm] at swapped
    exact (knowsA.join knowsB).equiv (distinct.mono Set.subset_union_left) swapped
  · have regrouped := knowsA.join (knowsB.join knowsC)
    rw [← Set.union_assoc] at regrouped
    exact ((knowsA.join knowsB).join knowsC).equiv distinct regrouped
  · have doubled := knowsA.join knowsA
    rw [Set.union_self] at doubled
    exact doubled.equiv (distinct.mono (Set.subset_union_left.trans Set.subset_union_left)) knowsA
  · rw [historyFacts_append] at knowsAB
    exact knowsAB.equiv (distinct.mono Set.subset_union_left) (knowsA.join knowsB)

theorem join_semilattice_homomorphism_sample :
    ∃ a b c ab, reducePatches [sampleAdd] .empty = .ok a ∧
      reducePatches [sampleRemove] .empty = .ok b ∧ reducePatches [] .empty = .ok c ∧
      reducePatches [sampleAdd, sampleRemove] .empty = .ok ab ∧
      (a.join b).Equiv (b.join a) ∧
      ((a.join b).join c).Equiv (a.join (b.join c)) ∧
      (a.join a).Equiv a ∧
      ab.Equiv (a.join b) :=
  join_semilattice_homomorphism [sampleAdd] [sampleRemove] [] sample_wellFormed sample_consistent

end GitWarp
