import GitWarp.Provenance.Published

/-!
# What a throw leaves behind

A call of a patch builder that throws should leave the builder as it was. An addition
takes its dot before the constructor sees the names, a cascade pushes its edge
removals before the node is looked up, and an effect stringifies its payload late.
-/
namespace GitWarp

open Js Lib KeyCodec

variable {V : Type}

variable (state : WarpState V) (nodeId : JsString) (b : RecordingBuilder V) (text : JsString → V)

namespace RecordingBuilder

/-! ### Calls with arguments that may be refused -/

/-- `setProperty` with what `requirePatchPropertyValue` answers for the value. -/
def setPropertyOf (nodeId key : JsString) (value : Except Failure V) : Call V :=
  assertNotCommitted.andThen <| (assertNoReservedBytes nodeId "nodeId").andThen <|
    (assertNoReservedBytes key "key").andThen <|
      match value with
      | .error e => .fail e
      | .ok value => setProperty nodeId key value

/-- `setEdgeProperty` with what `requirePatchPropertyValue` answers for the value. -/
def setEdgePropertyOf (src dst label key : JsString) (value : Except Failure V) : Call V :=
  assertNotCommitted.andThen <| (assertNoReservedBytes src "from node ID").andThen <|
    (assertNoReservedBytes dst "to node ID").andThen <|
      (assertNoReservedBytes label "edge label").andThen <|
        (assertNoReservedBytes key "key").andThen <|
          match value with
          | .error e => .fail e
          | .ok value => setEdgeProperty src dst label key value

def effectIdFor (b : RecordingBuilder V) (given : Option JsString) : JsString :=
  (emitEffect.givenId given).getD b.effectId

/-- What an effect writes, with the property value of its stringified payload: a payload may
have no text, as one that refers to itself, and a text of `undefined` is no property value. -/
def writeEffect (text : JsString → V) (id kind writer : JsString)
    (payload : Option (Except Failure V)) : Call V :=
  (addNode id).andThen <| (setProperty id (lit "kind") (text kind)).andThen <|
    (setProperty id (lit "writer") (text writer)).andThen <|
      match payload with
      | none => .check fun _ => .ok ()
      | some payload => setPropertyOf id (lit "payload") payload

def emitEffectOf (text : JsString → V) (kind : JsString) (payload : Option (Except Failure V))
    (given : Option JsString) : Call V :=
  assertNotCommitted.andThen <| .choose fun b =>
    if kind = [] then
      .fail ⟨.patchError, lit "E_EFFECT_INVALID_KIND",
        lit "emitEffect: kind must be a non-empty string"⟩
    else writeEffect text (b.effectIdFor given) kind b.builder.writerId.val payload

/-- The calls that change the graph, with all that may be passed to them. -/
inductive Mutator (V : Type)
  | addNode (nodeId : JsString)
  | removeNode (nodeId : JsString)
  | addEdge (src dst label : JsString)
  | removeEdge (src dst label : JsString)
  | setProperty (nodeId key : JsString) (value : Except Failure V)
  | setEdgeProperty (src dst label key : JsString) (value : Except Failure V)
  | emitEffect (kind : JsString) (payload : Option (Except Failure V)) (given : Option JsString)

def Mutator.call (text : JsString → V) : Mutator V → Call V
  | .addNode nodeId => RecordingBuilder.addNode nodeId
  | .removeNode nodeId => RecordingBuilder.removeNode nodeId
  | .addEdge src dst label => RecordingBuilder.addEdge src dst label
  | .removeEdge src dst label => RecordingBuilder.removeEdge src dst label
  | .setProperty nodeId key value => setPropertyOf nodeId key value
  | .setEdgeProperty src dst label key value => setEdgePropertyOf src dst label key value
  | .emitEffect kind payload given => emitEffectOf text kind payload given

/-! ### Atomic calls -/

/-- Operations, dots and footprint are the same. -/
structure SameRecord (b after : RecordingBuilder V) : Prop where
  ops : after.builder.ops = b.builder.ops
  vv : after.builder.vv = b.builder.vv
  observedOperands : after.observedOperands = b.observedOperands
  writes : after.writes = b.writes

/-- If the call throws, it leaves the builder's record alone. -/
def AtomicAt (call : Call V) (b : RecordingBuilder V) : Prop :=
  ∀ e, (call b).1 = .error e → SameRecord b (call b).2

theorem SameRecord.refl : SameRecord b b := ⟨rfl, rfl, rfl, rfl⟩

theorem atomic_fail (b : RecordingBuilder V) : AtomicAt (.fail e) b :=
  fun _ _ => .refl b

theorem atomic_of_ok (call : Call V) (b after) (ran : call b = (.ok (), after)) :
    AtomicAt call b := by
  intro e failed
  rw [ran] at failed
  cases failed

theorem atomic_push (b) : AtomicAt (push op observed written) b := by
  intro e failed
  unfold push at failed ⊢
  split at failed
  · exact .refl b
  · cases failed

theorem atomic_check_then {later : Call V} (b) :
    AtomicAt ((Attempt.check test).andThen later) b ↔ (test b = .ok () → AtomicAt later b) := by
  unfold AtomicAt Attempt.andThen Attempt.check
  cases tested : test b with
  | error e => simp [SameRecord.refl]
  | ok done => simp

theorem atomic_choose_iff (choice : RecordingBuilder V → Call V) (b) :
    AtomicAt (.choose choice) b ↔ AtomicAt (choice b) b := Iff.rfl

theorem atomic_then_of_error {first later : Call V} {b after e} (ran : first b = (.error e, after)) :
    AtomicAt (first.andThen later) b ↔ SameRecord b after := by
  simp [AtomicAt, Attempt.andThen, ran]

theorem andThen_of_ok {first later : Call V} {b after} (ran : first b = (.ok (), after)) :
    (first.andThen later) b = later after := by
  simp [Attempt.andThen, ran]

theorem not_atomic_of_longer (b) (failed : (call b).1 = .error e)
    (longer : b.builder.ops.length < (call b).2.builder.ops.length) : ¬ AtomicAt call b := by
  intro atomic
  rw [(atomic e failed).ops] at longer
  exact lt_irrefl _ longer

/-! ### Names -/

/-- Free of the bytes that the key encodings reserve; the empty text is. -/
def Unreserved (value : JsString) : Prop :=
  fieldSeparator ∉ value ∧ value.head? ≠ some edgePropPrefix

theorem reserved_ok_iff :
    PatchBuilder.assertNoReservedBytes value label = .ok () ↔ Unreserved value := by
  unfold PatchBuilder.assertNoReservedBytes Unreserved
  split
  · simp_all
  · split <;> simp_all

theorem validId_iff : ValidId value ↔ value ≠ [] ∧ Unreserved value :=
  ⟨fun valid => ⟨valid.nonempty, valid.separated, valid.unprefixed⟩,
    fun both => ⟨both.1, both.2.1, both.2.2⟩⟩

theorem notCommitted_ok_iff {b : PatchBuilder V} :
    b.assertNotCommitted = .ok () ↔ b.committed = false := by
  unfold PatchBuilder.assertNotCommitted
  cases b.committed <;> simp

/-! ### Additions -/

theorem nextDot_moves {b : PatchBuilder V} : b.nextDot.2 ≠ b.vv := by
  intro same
  have counted : b.nextDot.2.counter b.writerId = b.vv.counter b.writerId + 1 := by
    simp [PatchBuilder.nextDot]
  rw [same] at counted
  omega

theorem pushAdd_of_check (b : PatchBuilder V) :
    (∃ checked, b.pushAdd op = (.ok (),
      { b with vv := b.nextDot.2, ops := b.ops ++ [⟨op b.nextDot.1, checked⟩] })) ∨
    (op b.nextDot.1).check ≠ .ok () ∧
      ∃ e, b.pushAdd op = (.error e, { b with vv := b.nextDot.2 }) := by
  unfold PatchBuilder.pushAdd Op.create
  split
  next created found =>
    split at found
    · cases found
    next checked =>
      cases found
      exact Or.inl ⟨checked, rfl⟩
  next e found =>
    split at found
    next e' refused =>
      exact Or.inr ⟨by simp [refused], e, rfl⟩
    · cases found

theorem nodeAdd_check_iff : (Op.nodeAdd nodeId dot : Op V).check = .ok () ↔ ValidId nodeId := by
  simp only [Op.check, check_then_eq_ok, assertNonEmptyString_ok, assertNoReservedBytes_ok]
  exact validId_iff.symm

theorem addNode_valid (opened : b.builder.committed = false) {nodeId} (valid : ValidId nodeId) :
    ∃ created, created.op = .nodeAdd nodeId b.builder.nextDot.1 ∧
      addNode nodeId b = (.ok (), ({ b with
        builder := { b.builder with
          vv := b.builder.nextDot.2
          ops := b.builder.ops ++ [created] }
        nodesAdded := b.nodesAdded.add nodeId } : RecordingBuilder V).record [] [nodeId]) := by
  have checks : (do b.builder.assertNotCommitted
                    PatchBuilder.assertNoReservedBytes nodeId "nodeId") = .ok () := by
    rw [check_then_eq_ok, notCommitted_ok_iff, reserved_ok_iff]
    exact ⟨opened, valid.separated, valid.unprefixed⟩
  rcases pushAdd_of_check b.builder with
    ⟨checked, ran⟩ | ⟨refused, -⟩
  · refine ⟨⟨_, checked⟩, rfl, ?_⟩
    simp only [addNode, PatchBuilder.addNode, checks, ran]
  · exact absurd ((nodeAdd_check_iff nodeId).mpr valid) refused

theorem atomic_addNode_iff :
    AtomicAt (addNode nodeId) b ↔ ¬ (b.builder.committed = false ∧ nodeId = []) := by
  -- only the empty name is refused after the dot is taken
  by_cases valid : b.builder.committed = false ∧ ValidId nodeId
  · obtain ⟨created, -, ran⟩ := addNode_valid b valid.1 valid.2
    exact iff_of_true (atomic_of_ok _ b _ ran) fun torn => valid.2.nonempty torn.2
  · cases checks : (do b.builder.assertNotCommitted
                       PatchBuilder.assertNoReservedBytes nodeId "nodeId") with
    | error e =>
      have ran : addNode nodeId b = (.error e, b) := by
        simp only [addNode, PatchBuilder.addNode, checks]
      refine iff_of_true (fun _ _ => by rw [ran]; exact .refl b) ?_
      rintro ⟨opened, rfl⟩
      have passes : (do b.builder.assertNotCommitted
                        PatchBuilder.assertNoReservedBytes [] "nodeId") = .ok () := by
        rw [check_then_eq_ok, notCommitted_ok_iff, reserved_ok_iff]
        exact ⟨opened, by simp [Unreserved]⟩
      rw [checks] at passes
      cases passes
    | ok done =>
      rw [check_then_eq_ok, notCommitted_ok_iff, reserved_ok_iff] at checks
      have empty : nodeId = [] := by
        by_contra named
        exact valid ⟨checks.1, validId_iff.mpr ⟨named, checks.2⟩⟩
      refine iff_of_false ?_ (not_not.mpr ⟨checks.1, empty⟩)
      rcases pushAdd_of_check b.builder with
        ⟨checked, -⟩ | ⟨-, e, ran⟩
      · exact absurd ((nodeAdd_check_iff nodeId).mp checked).nonempty (not_not.mpr empty)
      · intro atomic
        have passes : (do b.builder.assertNotCommitted
                          PatchBuilder.assertNoReservedBytes nodeId "nodeId") = .ok () := by
          rw [check_then_eq_ok, notCommitted_ok_iff, reserved_ok_iff]
          exact checks
        have torn : addNode nodeId b =
            (.error e, { b with builder := { b.builder with vv := b.builder.nextDot.2 } }) := by
          simp only [addNode, PatchBuilder.addNode, passes, ran]
        have kept := atomic e (by rw [torn])
        rw [torn] at kept
        exact nextDot_moves kept.vv

theorem edgeAdd_check_iff (src dst label) :
    (Op.edgeAdd src dst label dot : Op V).check = .ok () ↔
      ValidId src ∧ ValidId dst ∧ ValidId label := assertEdge_ok

/-- An edge with names that pass the builder's own check, one of them empty. -/
def PartlyNamed (src dst label : JsString) : Prop :=
  (Unreserved src ∧ Unreserved dst ∧ Unreserved label) ∧ (src = [] ∨ dst = [] ∨ label = [])

theorem atomic_addEdge_iff (b : RecordingBuilder V) :
    AtomicAt (addEdge src dst label) b ↔
      ¬ (b.builder.committed = false ∧ PartlyNamed src dst label) := by
  have checks_iff : (do b.builder.assertNotCommitted
                        PatchBuilder.assertNoReservedBytes src "from node ID"
                        PatchBuilder.assertNoReservedBytes dst "to node ID"
                        PatchBuilder.assertNoReservedBytes label "edge label") = .ok () ↔
      b.builder.committed = false ∧ Unreserved src ∧ Unreserved dst ∧ Unreserved label := by
    simp only [check_then_eq_ok, notCommitted_ok_iff, reserved_ok_iff]
  cases checks : (do b.builder.assertNotCommitted
                     PatchBuilder.assertNoReservedBytes src "from node ID"
                     PatchBuilder.assertNoReservedBytes dst "to node ID"
                     PatchBuilder.assertNoReservedBytes label "edge label") with
  | error e =>
    have ran : addEdge src dst label b = (.error e, b) := by
      simp only [addEdge, PatchBuilder.addEdge, checks]
    refine iff_of_true (fun _ _ => by rw [ran]; exact .refl b) ?_
    rintro ⟨opened, free, -⟩
    rw [checks_iff.mpr ⟨opened, free⟩] at checks
    cases checks
  | ok done =>
    have passed := checks_iff.mp checks
    rcases pushAdd_of_check b.builder with
      ⟨checked, ran⟩ | ⟨refused, e, ran⟩
    · obtain ⟨a, c, d⟩ := (edgeAdd_check_iff src dst label).mp checked
      refine iff_of_true ?_ ?_
      · apply atomic_of_ok
        simp only [addEdge, PatchBuilder.addEdge, checks, ran]
        rfl
      · rintro ⟨-, -, empty⟩
        rcases empty with none | none | none
        · exact a.nonempty none
        · exact c.nonempty none
        · exact d.nonempty none
    · have torn : addEdge src dst label b =
          (.error e, { b with builder := { b.builder with vv := b.builder.nextDot.2 } }) := by
        simp only [addEdge, PatchBuilder.addEdge, checks, ran]
      refine iff_of_false ?_ (not_not.mpr ⟨passed.1, passed.2, ?_⟩)
      · intro atomic
        have kept := atomic e (by rw [torn])
        rw [torn] at kept
        exact nextDot_moves kept.vv
      · by_contra named
        simp only [not_or] at named
        refine refused ((edgeAdd_check_iff src dst label).mpr ⟨?_, ?_, ?_⟩)
        · exact validId_iff.mpr ⟨named.1, passed.2.1⟩
        · exact validId_iff.mpr ⟨named.2.1, passed.2.2.1⟩
        · exact validId_iff.mpr ⟨named.2.2, passed.2.2.2⟩

/-! ### Property writes and removals of edges -/

theorem atomic_setProperty (b : RecordingBuilder V) :
    AtomicAt (setProperty nodeId key value) b := by
  repeat refine (atomic_check_then b).mpr fun _ => ?_
  exact atomic_push b

theorem atomic_setPropertyOf (b : RecordingBuilder V) :
    AtomicAt (setPropertyOf nodeId key value) b := by
  repeat refine (atomic_check_then b).mpr fun _ => ?_
  cases value with
  | error e => exact atomic_fail b
  | ok value => exact atomic_setProperty nodeId b

theorem atomic_setEdgeProperty (b : RecordingBuilder V) :
    AtomicAt (setEdgeProperty src dst label key value) b := by
  repeat refine (atomic_check_then b).mpr fun _ => ?_
  exact atomic_push b

theorem atomic_setEdgePropertyOf (b : RecordingBuilder V) :
    AtomicAt (setEdgePropertyOf src dst label key value) b := by
  repeat refine (atomic_check_then b).mpr fun _ => ?_
  cases value with
  | error e => exact atomic_fail b
  | ok value => exact atomic_setEdgeProperty b

theorem atomic_removeEdge (b : RecordingBuilder V) : AtomicAt (removeEdge src dst label) b := by
  refine (atomic_check_then b).mpr fun _ => ?_
  rw [atomic_choose_iff]
  split
  · exact atomic_fail b
  · exact (atomic_check_then b).mpr fun _ => atomic_push b

/-! ### Effects -/

theorem push_of_check (observed written b checked) :
    push op observed written b = (.ok (), ({ b with builder := { b.builder with
      ops := b.builder.ops ++ [⟨op, checked⟩] } } : RecordingBuilder V).record observed written) := by
  simp only [push, op.create_of_checked checked]

theorem push_of_refused (observed written b) (refused : op.check ≠ .ok ()) :
    ∃ e, push op observed written b = (.error e, b) := by
  unfold push
  split
  next e _ => exact ⟨e, rfl⟩
  next created ok =>
    have op_ := op.create_op ok
    exact absurd (op_ ▸ created.checked) refused

theorem andThen_of_check {later : Call V} {b test} (passed : test b = .ok ()) :
    ((Attempt.check test).andThen later) b = later b :=
  andThen_of_ok (by simp only [Attempt.check, passed])

theorem setProperty_valid (opened : b.builder.committed = false) (nodeId key)
    (node : ValidId nodeId) (named : ValidId key) :
    ∃ after, setProperty nodeId key value b = (.ok (), after) ∧
      after.builder.committed = false ∧ b.builder.ops.length < after.builder.ops.length := by
  have checked : (Op.nodePropSet nodeId key value : Op V).check = .ok () := by
    simp only [Op.check, check_then_eq_ok, assertNonEmptyString_ok, assertNoReservedBytes_ok]
    exact ⟨node.nonempty, named.nonempty, ⟨node.separated, node.unprefixed⟩,
      named.separated, named.unprefixed⟩
  have ran : setProperty nodeId key value b =
      push (.nodePropSet nodeId key value) [nodeId] [nodeId] b := by
    unfold setProperty assertNotCommitted assertNoReservedBytes requireNonEmpty
    rw [andThen_of_check (notCommitted_ok_iff.mpr opened),
      andThen_of_check (reserved_ok_iff.mpr ⟨node.separated, node.unprefixed⟩),
      andThen_of_check (reserved_ok_iff.mpr ⟨named.separated, named.unprefixed⟩),
      andThen_of_check (if_neg node.nonempty), andThen_of_check (if_neg named.nonempty)]
  rw [ran, push_of_check _ _ b checked]
  exact ⟨_, rfl, opened, by simp [record]⟩

theorem effectIdFor_ne_nil (given) : b.effectIdFor given ≠ [] := by
  have marked : effectNodePrefix ≠ [] := by decide
  unfold effectIdFor emitEffect.givenId
  cases kept : given.filter fun id => decide (id ≠ []) with
  | none => simp [effectId, marked]
  | some id =>
    have named : decide (id ≠ []) = true := (Option.filter_eq_some_iff.mp kept).2
    simpa using named

theorem atomic_writeEffect_of_reserved {id kind writer : JsString} (b) (named : id ≠ [])
    (reserved : ¬ Unreserved id) : AtomicAt (writeEffect text id kind writer payload) b := by
  -- a refused node id refuses the effect before anything is done
  have kept := (atomic_addNode_iff id b).mpr fun torn => named torn.2
  have refused : (addNode id b).1 ≠ .ok () := by
    intro ran
    apply reserved
    unfold addNode PatchBuilder.addNode at ran
    cases checks : (do b.builder.assertNotCommitted
                       PatchBuilder.assertNoReservedBytes id "nodeId") with
    | error e =>
      simp only [checks] at ran
      cases ran
    | ok done =>
      rw [check_then_eq_ok, reserved_ok_iff] at checks
      exact checks.2
  cases ran : addNode id b with
  | mk outcome after =>
    cases outcome with
    | ok done => exact absurd (by rw [ran]) refused
    | error e =>
      have same := kept e (by rw [ran])
      rw [ran] at same
      exact (atomic_then_of_error ran).mpr same

theorem effect_written {id kind writer} (b) (opened : b.builder.committed = false)
    (valid : ValidId id) :
    ∃ reached, reached.builder.committed = false ∧
      b.builder.ops.length < reached.builder.ops.length ∧
      ∀ payload, writeEffect text id kind writer payload b =
        (match payload with
          | none => .check fun _ => .ok ()
          | some payload => setPropertyOf id (lit "payload") payload : Call V) reached := by
  -- the node of an effect and its first two properties go through
  obtain ⟨created, -, added⟩ := addNode_valid b opened valid
  generalize node : ({ b with
    builder := { b.builder with
      vv := b.builder.nextDot.2
      ops := b.builder.ops ++ [created] }
    nodesAdded := b.nodesAdded.add id } : RecordingBuilder V).record [] [id] = first at added
  have firstOpen : first.builder.committed = false := by
    rw [← node]
    exact opened
  have firstLonger : b.builder.ops.length < first.builder.ops.length := by
    rw [← node]
    simp [record]
  obtain ⟨second, kinded, secondOpen, secondLonger⟩ := setProperty_valid first firstOpen id
    (lit "kind") valid ⟨by decide, by decide, by decide⟩
  obtain ⟨third, signed, thirdOpen, thirdLonger⟩ := setProperty_valid second secondOpen id
    (lit "writer") valid ⟨by decide, by decide, by decide⟩
  refine ⟨third, thirdOpen, firstLonger.trans (secondLonger.trans thirdLonger), ?_⟩
  intro payload
  unfold writeEffect
  rw [andThen_of_ok added, andThen_of_ok kinded, andThen_of_ok signed]

/-- An effect whose names pass and whose payload has no property value. -/
def TornEffect (kind : JsString) (payload : Option (Except Failure V)) (given : Option JsString)
    (b : RecordingBuilder V) : Prop :=
  b.builder.committed = false ∧ kind ≠ [] ∧ Unreserved (b.effectIdFor given) ∧
    ∃ e, payload = some (.error e)

theorem atomic_emitEffectOf_iff (b) :
    AtomicAt (emitEffectOf text kind payload given) b ↔ ¬ TornEffect kind payload given b := by
  unfold emitEffectOf
  rw [assertNotCommitted, atomic_check_then, notCommitted_ok_iff, atomic_choose_iff]
  by_cases opened : b.builder.committed = false
  swap
  · exact iff_of_true (fun held => absurd held opened) fun torn => opened torn.1
  rw [forall_prop_of_true opened]
  by_cases unkind : kind = []
  · rw [if_pos unkind]
    exact iff_of_true (atomic_fail b) fun torn => torn.2.1 unkind
  rw [if_neg unkind]
  have named := b.effectIdFor_ne_nil given
  by_cases free : Unreserved (b.effectIdFor given)
  swap
  · exact iff_of_true (atomic_writeEffect_of_reserved text b named free)
      fun torn => free torn.2.2.1
  have valid : ValidId (b.effectIdFor given) := validId_iff.mpr ⟨named, free⟩
  have payloadId : ValidId (lit "payload") := ⟨by decide, by decide, by decide⟩
  obtain ⟨reached, reachedOpen, longer, ran⟩ :=
    effect_written text b opened valid
  cases payload with
  | none =>
    refine iff_of_true (atomic_of_ok _ b reached (ran none)) ?_
    rintro ⟨-, -, -, e, none⟩
    cases none
  | some payload =>
    -- the checks of the last write have all passed before
    have answered : setPropertyOf (b.effectIdFor given) (lit "payload") payload reached =
        (match payload with
          | .error e => .fail e
          | .ok value => setProperty (b.effectIdFor given) (lit "payload") value : Call V)
            reached := by
      unfold setPropertyOf assertNotCommitted assertNoReservedBytes
      rw [andThen_of_check (notCommitted_ok_iff.mpr reachedOpen),
        andThen_of_check (reserved_ok_iff.mpr free),
        andThen_of_check (reserved_ok_iff.mpr ⟨payloadId.separated, payloadId.unprefixed⟩)]
    cases payload with
    | error e =>
      have torn : writeEffect text (b.effectIdFor given) kind b.builder.writerId.val
          (some (.error e)) b = (.error e, reached) := (ran _).trans answered
      refine iff_of_false ?_ (not_not.mpr ⟨opened, unkind, free, e, rfl⟩)
      apply not_atomic_of_longer b
      · rw [torn]
      · rw [torn]
        exact longer
    | ok value =>
      obtain ⟨paid, set, -, -⟩ := setProperty_valid reached reachedOpen _ (lit "payload")
        valid payloadId
      refine iff_of_true (atomic_of_ok _ b paid ((ran _).trans (answered.trans set))) ?_
      rintro ⟨-, -, -, e, refused⟩
      cases refused

/-! ### Cascades -/

/-- The operation that `removeAttachedEdge` pushes. -/
def attachedRemoval (state : WarpState V) (edgeKey : JsString) : Op V :=
  let parts := decodeEdgeKey edgeKey
  .edgeRemove parts.src parts.dst parts.label (state.edgeAlive.getDots edgeKey).toList

theorem removeAttachedEdge_eq (edgeKey) :
    removeAttachedEdge state edgeKey = push (attachedRemoval state edgeKey) [edgeKey] [] := rfl

theorem cascade_run (b) :
    b.builder.ops.length ≤ (Attempt.forEach (removeAttachedEdge state) edges b).2.builder.ops.length ∧
    ((Attempt.forEach (removeAttachedEdge state) edges b).1 = .ok () ↔
      ∀ edgeKey ∈ edges, (attachedRemoval state edgeKey).check = .ok ()) := by
  induction edges generalizing b with
  | nil => simp [Attempt.forEach]
  | cons first rest ih =>
    rw [Attempt.forEach, removeAttachedEdge_eq]
    by_cases checked : (attachedRemoval state first).check = .ok ()
    · have pushed := push_of_check [first] [] b checked
      rw [andThen_of_ok pushed]
      obtain ⟨longer, outcome⟩ := ih (({ b with builder := { b.builder with
        ops := b.builder.ops ++ [⟨_, checked⟩] } } : RecordingBuilder V).record [first] [])
      constructor
      · refine le_trans ?_ longer
        simp [record]
      · rw [outcome, List.forall_mem_cons]
        exact (and_iff_right checked).symm
    · obtain ⟨e, refused⟩ := push_of_refused [first] [] b checked
      simp [Attempt.andThen, refused, checked]

/-- The removal of the first edge goes through, a later one or the node itself is refused. -/
structure TornEdges (state : WarpState V) (nodeId first : JsString) (rest : List JsString) :
    Prop where
  started : (attachedRemoval state first).check = .ok ()
  refused : (∃ edgeKey ∈ rest, (attachedRemoval state edgeKey).check ≠ .ok ()) ∨
    (state.nodeAlive.getDots nodeId).toList = [] ∨
    (Op.nodeRemove nodeId (state.nodeAlive.getDots nodeId).toList : Op V).check ≠ .ok ()

def TornCascade (nodeId : JsString) (b : RecordingBuilder V) : Prop :=
  b.builder.committed = false ∧ b.onDeleteWithData = .cascade ∧
    ∃ state first rest, b.snapshotState = some state ∧
      (findAttachedData state nodeId).edges = first :: rest ∧ TornEdges state nodeId first rest

/-- Removal of the node itself, after what is attached to it. -/
def removeBareNode (state : WarpState V) (nodeId : JsString) : Call V :=
  let observedDots := (state.nodeAlive.getDots nodeId).toList
  (assertObservedDotsForRemove observedDots (lit "node") nodeId).andThen <|
    push (.nodeRemove nodeId observedDots) [nodeId] []

theorem removeBareNode_cases :
    ((removeBareNode state nodeId b).1 = .ok () ↔ (state.nodeAlive.getDots nodeId).toList ≠ [] ∧
        (Op.nodeRemove nodeId (state.nodeAlive.getDots nodeId).toList : Op V).check = .ok ()) ∧
    ∀ e, (removeBareNode state nodeId b).1 = .error e → (removeBareNode state nodeId b).2 = b := by
  -- it refuses a node without dots and what the constructor refuses, and changes nothing then
  unfold removeBareNode
  generalize (state.nodeAlive.getDots nodeId).toList = observedDots
  by_cases missing : observedDots = []
  · subst missing
    have refused : assertObservedDotsForRemove [] (lit "node") nodeId b =
        (.error ⟨.patchError, lit "E_PATCH_ENTITY_NOT_FOUND",
          lit "Cannot remove missing " ++ lit "node" ++ lit " '" ++ nodeId ++
            lit "': entity is not alive in current state"⟩, b) := by
      simp [assertObservedDotsForRemove, Attempt.check]
    simp [Attempt.andThen, refused]
  · have passed : assertObservedDotsForRemove observedDots (lit "node") nodeId b = (.ok (), b) := by
      simp only [assertObservedDotsForRemove, Attempt.check, if_neg missing]
    rw [andThen_of_ok passed]
    by_cases checked : (Op.nodeRemove nodeId observedDots : Op V).check = .ok ()
    · simp [push_of_check _ _ b checked, missing, checked]
    · obtain ⟨e, refused⟩ := push_of_refused
        [nodeId] [] b checked
      simp [refused, missing, checked]

theorem atomic_removeBareNode : AtomicAt (removeBareNode state nodeId) b := by
  intro e failed
  rw [(removeBareNode_cases state nodeId b).2 e failed]
  exact .refl b

theorem atomic_cascade_iff (edges b) :
    AtomicAt ((Attempt.forEach (removeAttachedEdge state) edges).andThen
        (removeBareNode state nodeId)) b ↔
      ¬ ∃ first rest, edges = first :: rest ∧ TornEdges state nodeId first rest := by
  -- a cascade that pushes anything has to go through to the end
  cases edges with
  | nil =>
    refine iff_of_true ?_ (by rintro ⟨_, _, none, -⟩; cases none)
    change AtomicAt (removeBareNode state nodeId) b
    exact atomic_removeBareNode state nodeId b
  | cons first rest =>
    have own : (∃ first' rest', first :: rest = first' :: rest' ∧
        TornEdges state nodeId first' rest') ↔ TornEdges state nodeId first rest := by
      constructor
      · rintro ⟨_, _, same, torn⟩
        cases same
        exact torn
      · exact fun torn => ⟨first, rest, rfl, torn⟩
    rw [own]
    by_cases checked : (attachedRemoval state first).check = .ok ()
    swap
    · -- the first edge is refused with nothing pushed
      obtain ⟨e, refused⟩ := push_of_refused [first] [] b checked
      have ran : Attempt.forEach (removeAttachedEdge state) (first :: rest) b = (.error e, b) := by
        rw [Attempt.forEach, removeAttachedEdge_eq]
        simp [Attempt.andThen, refused]
      refine iff_of_true ?_ fun torn => checked torn.started
      rw [atomic_then_of_error ran]
      exact .refl b
    have pushed := push_of_check [first] [] b checked
    generalize onceHeld : (({ b with builder := { b.builder with
      ops := b.builder.ops ++ [⟨_, checked⟩] } } : RecordingBuilder V).record [first] []) = once
        at pushed
    have onceLonger : b.builder.ops.length < once.builder.ops.length := by
      rw [← onceHeld]
      simp [record]
    obtain ⟨longer, outcome⟩ := cascade_run state once
    have loop : Attempt.forEach (removeAttachedEdge state) (first :: rest) b =
        Attempt.forEach (removeAttachedEdge state) rest once := by
      rw [Attempt.forEach, removeAttachedEdge_eq, andThen_of_ok pushed]
    cases ran : Attempt.forEach (removeAttachedEdge state) rest once with
    | mk result removed =>
      rw [ran] at longer outcome
      have removedLonger : b.builder.ops.length < removed.builder.ops.length :=
        onceLonger.trans_le longer
      cases result with
      | error e =>
        -- a later edge is refused
        have later : ∃ edgeKey ∈ rest, (attachedRemoval state edgeKey).check ≠ .ok () := by
          by_contra all
          push Not at all
          cases outcome.mpr all
        refine iff_of_false ?_ fun never => never ⟨checked, Or.inl later⟩
        rw [atomic_then_of_error (loop.trans ran)]
        intro same
        rw [same.ops] at removedLonger
        exact lt_irrefl _ removedLonger
      | ok done =>
        have all := outcome.mp rfl
        have whole : ((Attempt.forEach (removeAttachedEdge state) (first :: rest)).andThen
            (removeBareNode state nodeId)) b = removeBareNode state nodeId removed :=
          andThen_of_ok (loop.trans ran)
        obtain ⟨passes, unchanged⟩ := removeBareNode_cases state nodeId removed
        cases bare : (removeBareNode state nodeId removed).1 with
        | error e =>
          refine iff_of_false ?_ fun never => never ⟨checked, Or.inr ?_⟩
          · apply not_atomic_of_longer b
            · rw [whole, bare]
            · rw [whole, unchanged e bare]
              exact removedLonger
          · by_contra fine
            rw [not_or, not_not] at fine
            rw [passes.mpr fine] at bare
            cases bare
        | ok done =>
          obtain ⟨present, accepted⟩ := passes.mp bare
          refine iff_of_true ?_ ?_
          · intro e failed
            rw [whole, bare] at failed
            cases failed
          · rintro ⟨-, ⟨edgeKey, inside, refused⟩ | missing | refused⟩
            · exact refused (all edgeKey inside)
            · exact present missing
            · exact refused accepted

theorem atomic_removeNode_iff : AtomicAt (removeNode nodeId) b ↔ ¬ TornCascade nodeId b := by
  unfold removeNode
  rw [assertNotCommitted, atomic_check_then, notCommitted_ok_iff, atomic_choose_iff]
  by_cases opened : b.builder.committed = false
  swap
  · exact iff_of_true (fun held => absurd held opened) fun torn => opened torn.1
  rw [forall_prop_of_true opened]
  cases snapshot : b.snapshotState with
  | none =>
    refine iff_of_true (atomic_fail b) ?_
    rintro ⟨-, -, state, _, _, found, -⟩
    rw [snapshot] at found
    cases found
  | some state =>
    cases policy : b.onDeleteWithData with
    | cascade =>
      change AtomicAt ((Attempt.forEach (removeAttachedEdge state)
        (findAttachedData state nodeId).edges).andThen (removeBareNode state nodeId)) b ↔ _
      rw [atomic_cascade_iff]
      apply not_congr
      constructor
      · rintro ⟨first, rest, edges, torn⟩
        exact ⟨opened, policy, state, first, rest, snapshot, edges, torn⟩
      · rintro ⟨-, -, state', first, rest, found, edges, torn⟩
        rw [snapshot] at found
        cases found
        exact ⟨first, rest, edges, torn⟩
    | reject =>
      change AtomicAt ((rejectAttachedData state nodeId).andThen (removeBareNode state nodeId)) b ↔ _
      refine iff_of_true ?_ fun torn => nomatch policy.symm.trans torn.2.1
      exact (atomic_check_then b).mpr fun _ => atomic_removeBareNode state nodeId b
    | warn =>
      change AtomicAt ((Attempt.check fun _ => .ok ()).andThen (removeBareNode state nodeId)) b ↔ _
      refine iff_of_true ?_ fun torn => nomatch policy.symm.trans torn.2.1
      exact (atomic_check_then b).mpr fun _ => atomic_removeBareNode state nodeId b

/-! ### All calls -/

/-- Where a call throws after it has changed the builder. -/
def Mutator.Torn (b : RecordingBuilder V) : Mutator V → Prop
  | .addNode nodeId => b.builder.committed = false ∧ nodeId = []
  | .removeNode nodeId => TornCascade nodeId b
  | .addEdge src dst label => b.builder.committed = false ∧ PartlyNamed src dst label
  | .removeEdge _ _ _ => False
  | .setProperty _ _ _ => False
  | .setEdgeProperty _ _ _ _ _ => False
  | .emitEffect kind payload given => TornEffect kind payload given b

/-- Exactly when a call that throws leaves the builder's record as it was. -/
theorem atomic_mutator_iff (text : JsString → V) (b : RecordingBuilder V) (mutator : Mutator V) :
    AtomicAt (mutator.call text) b ↔ ¬ mutator.Torn b := by
  cases mutator with
  | addNode nodeId => exact atomic_addNode_iff nodeId b
  | removeNode nodeId => exact atomic_removeNode_iff nodeId b
  | addEdge src dst label => exact atomic_addEdge_iff b
  | removeEdge src dst label => exact iff_of_true (atomic_removeEdge b) id
  | setProperty nodeId key value =>
    exact iff_of_true (atomic_setPropertyOf nodeId b) id
  | setEdgeProperty src dst label key value =>
    exact iff_of_true (atomic_setEdgePropertyOf b) id
  | emitEffect kind payload given => exact atomic_emitEffectOf_iff text b

/-- A builder with nothing recorded. -/
def blank (writerId : WriterId) : RecordingBuilder JsString where
  builder := ⟨writerId, 1, .empty, none, [], false, 0⟩
  onDeleteWithData := .reject
  snapshotState := none
  nodesAdded := .empty
  edgesAdded := .empty
  observedOperands := .empty
  writes := .empty

/-- The empty name is refused with the dot already taken. -/
theorem unnamed_node_spends_dot :
    ¬ ∀ (text : JsString → JsString) (b : RecordingBuilder JsString) (mutator : Mutator JsString),
      AtomicAt (mutator.call text) b := by
  intro atomic
  have named : lit "w" ≠ [] := by decide
  have kept := atomic id (blank ⟨lit "w", named⟩) (.addNode [])
  exact (atomic_addNode_iff [] _).mp kept ⟨rfl, rfl⟩

end RecordingBuilder

end GitWarp
