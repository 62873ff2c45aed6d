import GitWarp.Audit.AuditChainVerifier

/-!
# Published chains

Whatever the order of the steps, the published commits form one chain whose links
were built for the tip they landed on. A retry puts its receipt on any tip it
finds, so a chain verifies exactly when every append landed on a lower tick.
-/
namespace GitWarp

open Js Lib List

variable {O Bytes : Type} (config : AuditConfig O Bytes)

/-! ### Chains -/

/-- A data commit of the audited writer in this repository. -/
structure AuditConfig.Audited (tickReceipt : TickReceipt O) : Prop where
  oid : config.isOid tickReceipt.patchSha = true
  writer : tickReceipt.writer = config.writerId

/-- The entry was built by a service whose tip was the parent. -/
def PublishedOn (parent : Option JsString) (tickReceipt : TickReceipt O)
    (entry : AuditLogEntry Bytes) : Prop :=
  ∃ service : AuditReceiptService, ∃ request, service.prevAuditCommit = parent ∧
    service.appendRequest config tickReceipt = .ok request ∧
    entry = ⟨request.message, request.parent.toList, request.receipt⟩

/-- The commits from a tip back to the genesis, newest first. -/
def Chained (log : AuditLog Bytes) : List (JsString × TickReceipt O) → Prop
  | [] => True
  | (sha, tickReceipt) :: older =>
    config.isOid sha = true ∧ sha ≠ zeroHash config.oidLength ∧ config.Audited tickReceipt ∧
      (∃ entry, log.entries.get sha = some entry ∧
        PublishedOn config (older.head?.map Prod.fst) tickReceipt entry) ∧ Chained log older

/-- Every commit has a lamport above the one it is on. -/
def Climbing : List (JsString × TickReceipt O) → Prop
  | [] => True
  | commit :: older =>
    (∀ tip ∈ older.head?, tip.2.lamport < commit.2.lamport) ∧ Climbing older

/-- A task holds an audited receipt, and a request that a service built for its tip. -/
def AuditTask.Sound : AuditTask O Bytes → Prop
  | .initializing _ _ | .done => True
  | .committing _ tickReceipt _ | .appended _ tickReceipt _ _ | .rereading _ tickReceipt _
  | .reread _ tickReceipt _ _ => config.Audited tickReceipt
  | .appending _ tickReceipt _ request => config.Audited tickReceipt ∧
      ∃ service : AuditReceiptService, service.prevAuditCommit = service.expectedOldRef ∧
        service.appendRequest config tickReceipt = .ok request

structure AuditState.Sound (s : AuditState O Bytes) (chain : List (JsString × TickReceipt O)) :
    Prop where
  head : s.log.head = chain.head?.map Prod.fst
  size : s.log.entries.size = chain.length
  chained : Chained config s.log chain
  data : ∀ tickReceipt ∈ s.data, config.Audited tickReceipt
  services : ∀ service ∈ s.services, service.prevAuditCommit = service.expectedOldRef
  tasks : ∀ task ∈ s.tasks, task.Sound config

/-- The codec reads back the receipts that it has written. -/
def AuditConfig.RoundTrips : Prop :=
  ∀ receipt bytes, config.encode receipt = .ok bytes → config.decode bytes = .ok receipt

/-! ### What a request holds -/

theorem toLowerCase_of_hex (text) (hex : text.all isLowerHexUnit = true) :
    toLowerCase text = text := by
  conv_rhs => rw [← map_id text]
  apply map_congr_left
  intro u mem
  have digit := all_eq_true.mp hex u mem
  simp only [isLowerHexUnit, decide_eq_true_eq] at digit
  rw [if_neg (by omega)]
  rfl

theorem AuditConfig.isOid_iff : config.isOid text = true ↔
    text.all isLowerHexUnit = true ∧ (text.length = 40 ∨ text.length = 64) ∧
      text.length = config.oidLength := by
  simp only [isOid, isOidText, Bool.and_eq_true, decide_eq_true_eq, and_assoc]

theorem buildReceiptRecord_ok (recorded : buildReceiptRecord fields = .ok receipt) :
    1 ≤ fields.tickStart ∧
      receipt = { fields with
        dataCommit := toLowerCase fields.dataCommit
        opsDigest := toLowerCase fields.opsDigest
        prevAuditCommit := toLowerCase fields.prevAuditCommit } := by
  simp only [buildReceiptRecord, throw_unless_eq_ok] at recorded
  obtain ⟨-, -, -, -, -, -, -, positive, -, -, -, -, -, built⟩ := recorded
  cases built
  exact ⟨by omega, rfl⟩

/-- The receipt of a data commit on a tip. -/
def receiptOn (parent : Option JsString) (tickReceipt : TickReceipt O) (opsDigest : JsString) :
    AuditReceipt where
  version := 1
  graphName := config.graphName
  writerId := config.writerId
  dataCommit := tickReceipt.patchSha
  tickStart := tickReceipt.lamport
  tickEnd := tickReceipt.lamport
  opsDigest := opsDigest
  prevAuditCommit := parent.getD (zeroHash config.oidLength)
  timestamp := tickReceipt.lamport

theorem zeroHash_hex {length} : (zeroHash length).all isLowerHexUnit = true := by
  rw [all_eq_true]
  intro u mem
  rw [eq_of_mem_replicate mem]
  decide

theorem request_of_built {service : AuditReceiptService}
    (built : service.appendRequest config tickReceipt = .ok request) :
    request.parent = service.prevAuditCommit ∧ request.expectedHead = service.expectedOldRef := by
  simp only [AuditReceiptService.appendRequest, bind_eq_ok] at built
  obtain ⟨opsDigest, -, receipt, -, message, -, bytes, -, whole⟩ := built
  cases whole
  exact ⟨rfl, rfl⟩

/-- What the verifier reads from an entry: the receipt on its parent and matching trailers. -/
structure ReadsAs (parent : Option JsString) (tickReceipt : TickReceipt O)
    (entry : AuditLogEntry Bytes) (opsDigest : JsString) : Prop where
  receipt : config.decode entry.receipt = .ok (receiptOn config parent tickReceipt opsDigest)
  message : decodeAuditMessage entry.message =
    .ok ⟨config.graphName, config.writerId, tickReceipt.patchSha, opsDigest, 1⟩
  parents : entry.parents = parent.toList
  graph : config.graphName ≠ []
  writer : config.writerId ≠ []
  positive : 1 ≤ tickReceipt.lamport

theorem readsAs_of_publishedOn (roundTrips : config.RoundTrips) {parent}
    (audited : config.Audited tickReceipt) (parentOid : ∀ sha ∈ parent, config.isOid sha = true)
    (published : PublishedOn config parent tickReceipt entry) :
    ∃ opsDigest, ReadsAs config parent tickReceipt entry opsDigest := by
  obtain ⟨service, request, tip, built, rfl⟩ := published
  obtain ⟨hex, -, length⟩ := config.isOid_iff.mp audited.oid
  rw [AuditReceiptService.appendRequest, bind_eq_ok] at built
  obtain ⟨opsDigest, -, built⟩ := built
  rw [bind_eq_ok] at built
  obtain ⟨receipt, recorded, built⟩ := built
  rw [bind_eq_ok] at built
  obtain ⟨message, encoded, built⟩ := built
  rw [bind_eq_ok] at built
  obtain ⟨bytes, stored, whole⟩ := built
  cases whole
  rw [toLowerCase_of_hex _ hex, audited.writer] at encoded
  -- the message is only written for a valid graph, writer and digest
  have parts := encoded
  simp only [encodeAuditMessage, check_then_eq_ok] at parts
  obtain ⟨graphOk, writerOk, -, digestOk, -⟩ := parts
  rw [validateSha256_ok, isSha256Text, Bool.and_eq_true] at digestOk
  have parentText : service.receiptParent tickReceipt.patchSha.length =
      parent.getD (zeroHash config.oidLength) := by
    rw [AuditReceiptService.receiptParent, tip, length]
    cases parent with
    | none => rfl
    | some sha =>
      cases sha with
      | nil =>
        have empty := parentOid [] rfl
        rw [config.isOid_iff] at empty
        simp at empty
      | cons u rest => rfl
  have parentHex : toLowerCase (parent.getD (zeroHash config.oidLength)) =
      parent.getD (zeroHash config.oidLength) := by
    apply toLowerCase_of_hex
    cases parent with
    | none => exact zeroHash_hex
    | some sha => exact (config.isOid_iff.mp (parentOid sha rfl)).1
  obtain ⟨positive, record⟩ := buildReceiptRecord_ok recorded
  have same : receipt = receiptOn config parent tickReceipt opsDigest := by
    rw [record, parentText, parentHex, toLowerCase_of_hex _ hex,
      toLowerCase_of_hex _ digestOk.1, audited.writer]
    rfl
  refine ⟨opsDigest, ?_, decode_encodeAuditMessage encoded, ?_,
    validateGraphName_ne_nil graphOk, validateWriterId_ne_nil writerOk, positive⟩
  · rw [← same]
    exact roundTrips receipt bytes stored
  · exact congrArg Option.toList tip

/-! ### Walking a chain -/

section Walking

variable (log : AuditLog Bytes) (sha : JsString) (tickReceipt : TickReceipt O)
  (parent : Option JsString) (entry : AuditLogEntry Bytes) (opsDigest : JsString)
  (found : log.entries.get sha = some entry)
  (reads : ReadsAs config parent tickReceipt entry opsDigest)
  (audited : config.Audited tickReceipt) (parentOid : ∀ p ∈ parent, config.isOid p = true)
  (before : ChainResult)

theorem oidFormatError_of_oid (oid : config.isOid text = true) : oidFormatError text = none := by
  obtain ⟨hex, length, -⟩ := config.isOid_iff.mp oid
  have filled : text ≠ [] := by
    rintro rfl
    simp at length
  have sized : ¬ (text.length ≠ 40 ∧ text.length ≠ 64) := by omega
  rw [oidFormatError, toLowerCase_of_hex text hex, hex]
  simp only [filled, Bool.true_eq_false, or_self, if_false, if_neg sized]

include parentOid in
theorem receiptParent_length (length : config.isOid tickReceipt.patchSha = true) :
    (parent.getD (zeroHash config.oidLength)).length = config.oidLength ∧
      oidFormatError (parent.getD (zeroHash config.oidLength)) = none := by
  cases parent with
  | some p =>
    have oid := parentOid p rfl
    exact ⟨(config.isOid_iff.mp oid).2.2, oidFormatError_of_oid config oid⟩
  | none =>
    obtain ⟨-, sized, same⟩ := config.isOid_iff.mp length
    have zeros : config.isOid (zeroHash config.oidLength) = true := by
      rw [config.isOid_iff, zeroHash, length_replicate]
      exact ⟨zeroHash_hex, same ▸ sized, rfl⟩
    exact ⟨by simp [zeroHash], oidFormatError_of_oid config zeros⟩

include found reads audited parentOid in
theorem walkStep_published (sized : ∀ n ∈ chainOidLen, n = config.oidLength) :
    walkStep config log none sha prevReceipt chainOidLen before = (do
      let result := { before with receiptsScanned := before.receiptsScanned + 1 }
      let linked ← checkLink (receiptOn config parent tickReceipt opsDigest) prevReceipt sha result
      let verified := { linked with receiptsVerified := linked.receiptsVerified + 1 }
      let next ← handleGenesisOrContinuation (receiptOn config parent tickReceipt opsDigest) entry
        none config.oidLength sha verified
      pure (next, receiptOn config parent tickReceipt opsDigest, config.oidLength, verified)) := by
  -- up to the link check nothing stops the walk at a published commit
  obtain ⟨parentSized, parentFormat⟩ :=
    receiptParent_length config tickReceipt parent parentOid audited.oid
  have own := (config.isOid_iff.mp audited.oid).2.2
  have schema : receiptSchemaError (receiptOn config parent tickReceipt opsDigest) = none := by
    have positive := reads.positive
    simp [receiptSchemaError, receiptOn, reads.graph, reads.writer,
      show ¬ tickReceipt.lamport < 1 by omega, show ¬ tickReceipt.lamport < 0 by omega]
  have format : oidFormatError tickReceipt.patchSha = none :=
    oidFormatError_of_oid config audited.oid
  have trailers : trailerError (receiptOn config parent tickReceipt opsDigest)
      ⟨config.graphName, config.writerId, tickReceipt.patchSha, opsDigest, 1⟩ = none := by
    simp [trailerError, receiptOn]
  have length : ∀ result : ChainResult,
      checkOidLengthConsistency (receiptOn config parent tickReceipt opsDigest) chainOidLen result
        sha = .ok config.oidLength := by
    intro result
    cases chainOidLen with
    | none => simp [checkOidLengthConsistency, receiptOn, parentSized, own]
    | some n =>
      have same : n = config.oidLength := sized n rfl
      simp [checkOidLengthConsistency, receiptOn, parentSized, own, same]
  have oids : ∀ result : ChainResult,
      validateOids (receiptOn config parent tickReceipt opsDigest) result sha = .ok () := by
    intro result
    simp only [validateOids, receiptOn, format, parentFormat]
  have writers : ∀ result : ChainResult, validateWriterConsistency config
      (receiptOn config parent tickReceipt opsDigest) sha result = .ok () := by
    intro result
    simp [validateWriterConsistency, receiptOn]
  have read : ∀ result : ChainResult, readReceipt config sha entry result =
      .ok (receiptOn config parent tickReceipt opsDigest,
        ⟨config.graphName, config.writerId, tickReceipt.patchSha, opsDigest, 1⟩) := by
    intro result
    rw [readReceipt, reads.receipt]
    simp only [reads.message]
  simp only [walkStep, found, read, schema, oids, length, trailers, writers, bind, Except.bind,
    reduceCtorEq, if_false]

theorem handle_genesis (reads : ReadsAs config none tickReceipt entry opsDigest) (result)
    (clean : result.errors = []) :
    ∃ stopped, handleGenesisOrContinuation (receiptOn config none tickReceipt opsDigest) entry none
      config.oidLength sha result = .error stopped ∧ stopped.errors = [] := by
  simp only [handleGenesisOrContinuation, receiptOn, Option.getD_none, if_true, reads.parents,
    Option.toList_none, ne_eq, not_true_eq_false, if_false, clean]
  exact ⟨_, rfl, rfl⟩

theorem handle_continuation (filled : older ≠ zeroHash config.oidLength)
    (reads : ReadsAs config (some older) tickReceipt entry opsDigest) (result) :
    handleGenesisOrContinuation (receiptOn config (some older) tickReceipt opsDigest) entry none
      config.oidLength sha result = .ok older := by
  simp only [handleGenesisOrContinuation, receiptOn, Option.getD_some, if_neg filled,
    reads.parents, Option.toList_some, ne_eq, not_true_eq_false, if_false]

/-- The receipt that was walked before is one of the same log with a greater tick, or there
is none. -/
def Above (tickReceipt : TickReceipt O) (prevReceipt : Option AuditReceipt) : Prop :=
  ∀ newer ∈ prevReceipt, tickReceipt.lamport < newer.tickStart

/-- The receipt that was walked before names the audited writer and graph. -/
def SameLog (prevReceipt : Option AuditReceipt) : Prop :=
  ∀ newer ∈ prevReceipt, newer.writerId = config.writerId ∧ newer.graphName = config.graphName

theorem link_published (same : SameLog config prevReceipt) (result) :
    (Above tickReceipt prevReceipt → ∃ linked,
      checkLink (receiptOn config parent tickReceipt opsDigest) prevReceipt sha result = .ok linked ∧
        linked.errors = result.errors) ∧
    (¬ Above tickReceipt prevReceipt → ∃ stopped,
      checkLink (receiptOn config parent tickReceipt opsDigest) prevReceipt sha result =
        .error stopped ∧ stopped.errors ≠ []) := by
  -- the link check asks for a greater tick and nothing more
  cases prevReceipt with
  | none =>
    refine ⟨fun _ => ⟨result, rfl, rfl⟩, ?_⟩
    intro low
    exact absurd (fun newer mem => by cases mem) low
  | some newer =>
    obtain ⟨writer, graph⟩ := same newer rfl
    constructor
    · intro above
      have low : ¬ newer.tickStart ≤ tickReceipt.lamport := by
        have := above newer rfl
        omega
      simp only [checkLink, validateChainLink, receiptOn, if_neg low, writer, graph, ne_eq,
        not_true_eq_false, if_false]
      have kept : ∀ (gap : Prop) [Decidable gap] (code : String) (message : JsString),
          (if gap then result.warn code message else result).errors = result.errors := by
        intro gap _ code message
        split <;> rfl
      exact ⟨_, rfl, kept _ _ _⟩
    · intro low
      have reached : newer.tickStart ≤ tickReceipt.lamport := by
        by_contra above
        apply low
        rintro other ⟨⟩
        omega
      simp only [checkLink, validateChainLink, receiptOn, reached, if_true]
      exact ⟨_, rfl, by simp [ChainResult.setStatus, ChainResult.addError]⟩

end Walking

theorem walkChain_published (roundTrips : config.RoundTrips) {log} (sha) (tickReceipt)
    (chained : Chained config log ((sha, tickReceipt) :: chain)) (fuel)
    (enough : chain.length < fuel) (prevReceipt) (same : SameLog config prevReceipt) (chainOidLen)
    (sized : ∀ n ∈ chainOidLen, n = config.oidLength) (before) (clean : before.errors = []) :
    ∃ result, walkChain config log none fuel sha prevReceipt chainOidLen before = some result ∧
      (result.errors = [] ↔ Above tickReceipt prevReceipt ∧
        Climbing ((sha, tickReceipt) :: chain)) := by
  -- the walk down a published chain finds an error exactly where a tick does not climb
  induction chain generalizing sha tickReceipt fuel prevReceipt chainOidLen before with
  | nil =>
    obtain ⟨-, -, audited, ⟨entry, found, published⟩, -⟩ := chained
    obtain ⟨opsDigest, reads⟩ := readsAs_of_publishedOn config roundTrips
      audited (by simp) published
    obtain ⟨fuel, rfl⟩ := Nat.exists_eq_add_of_lt enough
    rw [walkChain.eq_def]
    simp only [length_nil, Nat.zero_add]
    rw [walkStep_published config log sha tickReceipt none entry opsDigest found reads audited
      (by simp) before sized]
    obtain ⟨passes, stops⟩ := link_published config sha tickReceipt none opsDigest same
      { before with receiptsScanned := before.receiptsScanned + 1 }
    by_cases above : Above tickReceipt prevReceipt
    · obtain ⟨linked, checked, errors⟩ := passes above
      obtain ⟨stopped, ended, ends⟩ := handle_genesis config sha tickReceipt entry opsDigest reads
        { linked with receiptsVerified := linked.receiptsVerified + 1 } (errors.trans clean)
      simp only [checked, bind, Except.bind, ended]
      refine ⟨stopped, rfl, ?_⟩
      simp [ends, above, Climbing]
    · obtain ⟨stopped, checked, errors⟩ := stops above
      simp only [checked, bind, Except.bind]
      refine ⟨stopped, rfl, ?_⟩
      simp [errors, above]
  | cons older rest ih =>
    obtain ⟨olderSha, olderReceipt⟩ := older
    obtain ⟨-, -, audited, ⟨entry, found, published⟩, chainedRest⟩ := chained
    have olderOid : ∀ p ∈ some olderSha, config.isOid p = true := by
      rintro p ⟨⟩
      exact chainedRest.1
    obtain ⟨opsDigest, reads⟩ := readsAs_of_publishedOn config roundTrips audited olderOid published
    obtain ⟨fuel, rfl⟩ := Nat.exists_eq_add_of_lt (Nat.lt_of_le_of_lt (Nat.zero_le _) enough)
    rw [walkChain.eq_def]
    simp only [Nat.zero_add]
    rw [walkStep_published config log sha tickReceipt (some olderSha) entry opsDigest found reads
      audited olderOid before sized]
    obtain ⟨passes, stops⟩ := link_published config sha tickReceipt (some olderSha) opsDigest same { before with receiptsScanned := before.receiptsScanned + 1 }
    by_cases above : Above tickReceipt prevReceipt
    · obtain ⟨linked, checked, errors⟩ := passes above
      have filled : olderSha ≠ [] := by
        rintro rfl
        have oid := chainedRest.1
        rw [config.isOid_iff] at oid
        simp at oid
      simp only [checked, bind, Except.bind,
        handle_continuation config sha tickReceipt entry opsDigest chainedRest.2.1 reads,
        pure, Except.pure, if_neg filled]
      rw [length_cons] at enough
      obtain ⟨result, walked, means⟩ := ih olderSha olderReceipt chainedRest fuel (by omega)
        (some (receiptOn config (some olderSha) tickReceipt opsDigest))
        (by rintro newer ⟨⟩; exact ⟨rfl, rfl⟩) (some config.oidLength) (by rintro n ⟨⟩; rfl)
        { linked with receiptsVerified := linked.receiptsVerified + 1 } (errors.trans clean)
      refine ⟨result, walked, means.trans ?_⟩
      have below : Above olderReceipt (some (receiptOn config (some olderSha) tickReceipt
          opsDigest)) ↔ olderReceipt.lamport < tickReceipt.lamport := by
        simp [Above, receiptOn]
      rw [below]
      simp [above, Climbing]
    · obtain ⟨stopped, checked, errors⟩ := stops above
      simp only [checked, bind, Except.bind]
      refine ⟨stopped, rfl, ?_⟩
      simp [errors, above]

theorem verifyChain_published (roundTrips : config.RoundTrips) (s : AuditState O Bytes)
    (sound : s.Sound config chain) :
    ∃ result, verifyChain config s.log none tipAfter = some result ∧
      (result.errors = [] ↔ Climbing chain) := by
  -- a published chain verifies exactly when its ticks climb
  have moved : ∀ result : ChainResult, (checkTipMoved tipAfter result).errors = result.errors := by
    intro result
    unfold checkTipMoved
    split
    · split <;> rfl
    · rfl
  cases chain with
  | nil =>
    have head := sound.head
    simp only [List.head?_nil, Option.map_none] at head
    refine ⟨ChainResult.start none, by simp only [verifyChain, head, Option.filter_none], ?_⟩
    simp [ChainResult.start, Climbing]
  | cons tip older =>
    obtain ⟨sha, tickReceipt⟩ := tip
    have head := sound.head
    have size := sound.size
    simp only [List.head?_cons, Option.map_some] at head
    rw [length_cons] at size
    have filled : sha ≠ [] := by
      rintro rfl
      have oid := sound.chained.1
      rw [config.isOid_iff] at oid
      simp at oid
    obtain ⟨result, walked, means⟩ := walkChain_published config roundTrips sha
      tickReceipt sound.chained (s.log.entries.size + 1) (by omega) none (by rintro newer ⟨⟩) none
      (by rintro n ⟨⟩)
      { ChainResult.start none with tipCommit := some sha, tipAtStart := some sha } rfl
    refine ⟨checkTipMoved tipAfter result, ?_, ?_⟩
    · simp only [verifyChain, head, Option.filter_none, if_neg filled, walked, Option.map_some]
    · rw [moved, means]
      have first : Above tickReceipt none := by rintro newer ⟨⟩
      simp [first]

/-! ### Runs -/

def tipTick (log : AuditLog Bytes) : Option Int := do
  let head ← log.head
  let entry ← log.entries.get head
  match config.decode entry.receipt with
  | .ok receipt => some receipt.tickEnd
  | .error _ => none

def StoreOutcome.sha : StoreOutcome → Option JsString
  | .stored sha => some sha
  | .storedThenFailed sha => some sha
  | .failed => none

/-- Where the event publishes a receipt, the tip it lands on has a lower tick. -/
def landsAbove (s : AuditState O Bytes) (event : AuditEvent O) : Bool :=
  match event with
  | .append i outcome =>
    match s.tasks[i]?, outcome.sha with
    | some (.appending _ tickReceipt _ request), some sha =>
      if request.expectedHead = s.log.head ∧ s.isNewSha config sha = true then
        (tipTick config s.log).all fun tick => decide (tick < tickReceipt.lamport)
      else true
    | _, _ => true
  | _ => true

/-- Nothing of a state that counts has changed. -/
structure AuditState.Quiet (s t : AuditState O Bytes) : Prop where
  log : t.log = s.log
  data : ∀ tickReceipt ∈ t.data, tickReceipt ∈ s.data ∨ config.Audited tickReceipt
  services : ∀ service ∈ t.services, service ∈ s.services ∨
    service.prevAuditCommit = service.expectedOldRef
  tasks : ∀ task ∈ t.tasks, task ∈ s.tasks ∨ task.Sound config

theorem AuditState.sound_empty : (AuditState.empty : AuditState O Bytes).Sound config [] :=
  ⟨rfl, rfl, trivial, fun _ mem => (not_mem_nil mem).elim,
    fun _ mem => (not_mem_nil mem).elim, fun _ mem => (not_mem_nil mem).elim⟩

theorem AuditState.Sound.quiet {s t : AuditState O Bytes} (sound : s.Sound config chain)
    (quiet : s.Quiet config t) : t.Sound config chain where
  head := quiet.log ▸ sound.head
  size := quiet.log ▸ sound.size
  chained := quiet.log ▸ sound.chained
  data := fun tickReceipt mem => (quiet.data tickReceipt mem).elim (sound.data tickReceipt) id
  services := fun service mem =>
    (quiet.services service mem).elim (sound.services service) id
  tasks := fun task mem => (quiet.tasks task mem).elim (sound.tasks task) id

namespace AuditState

variable {config}

theorem old_or_of_set {A : Type} {a : A} {P : A → Prop} {items : List A} (new : P a) :
    ∀ x ∈ items.set i a, x ∈ items ∨ P x := by
  intro x mem
  refine (mem_or_eq_of_mem_set mem).imp_right ?_
  rintro rfl
  exact new

theorem old_or_of_snoc {A : Type} {a : A} {P : A → Prop} {items : List A} (new : P a) :
    ∀ x ∈ items ++ [a], x ∈ items ∨ P x := by
  intro x mem
  rw [mem_append, mem_singleton] at mem
  refine mem.imp_right ?_
  rintro rfl
  exact new

theorem quiet_of_set (s : AuditState O Bytes) (task)
    (level : service.prevAuditCommit = service.expectedOldRef) (sound : task.Sound config) :
    s.Quiet config ((s.setService k service).setTask i task) :=
  ⟨rfl, fun _ => Or.inl, old_or_of_set level, old_or_of_set sound⟩

theorem quiet_of_setTask (s : AuditState O Bytes) (sound : task.Sound config) :
    s.Quiet config (s.setTask i task) :=
  ⟨rfl, fun _ => Or.inl, fun _ => Or.inl, old_or_of_set sound⟩

theorem quiet_of_setService (s : AuditState O Bytes)
    (level : service.prevAuditCommit = service.expectedOldRef) :
    s.Quiet config (s.setService k service) :=
  ⟨rfl, fun _ => Or.inl, old_or_of_set level, fun _ => Or.inl⟩

end AuditState

theorem AuditState.resume_quiet (s t : AuditState O Bytes) (i)
    (services : ∀ service ∈ s.services, service.prevAuditCommit = service.expectedOldRef)
    (sound : task.Sound config) (resumed : s.resume config i task = some t) : s.Quiet config t := by
  -- resuming a sound task publishes nothing
  cases task with
  | initializing k tip =>
    obtain ⟨own, found, rfl⟩ := Option.map_eq_some_iff.mp resumed
    have level := services own (mem_of_getElem? found)
    apply quiet_of_set s .done ?_ trivial
    simp only [AuditReceiptService.initialized]
    split
    · rfl
    · exact level
    · split
      · exact level
      · rfl
  | committing k tickReceipt depth =>
    obtain ⟨own, found, rfl⟩ := Option.map_eq_some_iff.mp resumed
    have level := services own (mem_of_getElem? found)
    cases built : own.appendRequest config tickReceipt with
    | ok request => exact quiet_of_setTask s ⟨sound, own, level, built⟩
    | error e => exact quiet_of_set s _ level trivial
  | appended k tickReceipt depth result =>
    obtain ⟨own, found, rfl⟩ := Option.map_eq_some_iff.mp resumed
    have level := services own (mem_of_getElem? found)
    cases result with
    | published sha =>
      apply quiet_of_set s .done ?_ trivial
      split <;> rfl
    | conflict =>
      by_cases retrying : own.retrying = true
      · simp only [retrying, if_true]
        exact quiet_of_set s _ level trivial
      · simp only [retrying, Bool.false_eq_true, if_false]
        exact quiet_of_setTask s sound
    | failed => exact quiet_of_set s _ level trivial
  | reread k tickReceipt depth tip =>
    obtain ⟨own, found, rfl⟩ := Option.map_eq_some_iff.mp resumed
    exact quiet_of_set s _ rfl sound
  | appending k tickReceipt depth request | rereading k tickReceipt depth | done => cases resumed

variable {chain : List (JsString × TickReceipt O)} {s : AuditState O Bytes}

/-- A published commit comes on top of the chain. -/
theorem AuditState.Sound.publish (sound : s.Sound config chain)
    (held : (AuditTask.appending k tickReceipt depth request : AuditTask O Bytes).Sound config)
    (onHead : request.expectedHead = s.log.head) (new : s.isNewSha config sha = true) :
    ({ s with log := s.log.publish sha request }.setTask i
      (.appended k tickReceipt depth result)).Sound config ((sha, tickReceipt) :: chain) := by
  obtain ⟨audited, service, level, built⟩ := held
  simp only [isNewSha, Bool.and_eq_true, Bool.not_eq_true', decide_eq_true_eq] at new
  obtain ⟨⟨oid, fresh⟩, nonzero⟩ := new
  have absent : s.log.entries.get sha = none := (OrdMap.has_eq_false_iff _ _).mp fresh
  -- the request was built for the tip it is compared with
  obtain ⟨parent, expected⟩ := request_of_built config built
  have tip : service.prevAuditCommit = chain.head?.map Prod.fst := by
    rw [level, ← expected, onHead, sound.head]
  -- older commits keep their entries
  have kept : ∀ older : List (JsString × TickReceipt O), Chained config s.log older →
      Chained config (s.log.publish sha request) older := by
    intro older
    induction older with
    | nil => exact fun _ => trivial
    | cons commit rest ih =>
      rintro ⟨commitOid, commitNonzero, commitAudited, ⟨entry, found, published⟩, others⟩
      refine ⟨commitOid, commitNonzero, commitAudited, ⟨entry, ?_, published⟩, ih others⟩
      have apart : sha ≠ commit.1 := by
        rintro rfl
        rw [absent] at found
        cases found
      simp only [AuditLog.publish, OrdMap.get_set, if_neg apart]
      exact found
  constructor
  · rfl
  · exact (OrdMap.size_set_of_absent _ _ absent).trans (congrArg (· + 1) sound.size)
  · refine ⟨oid, nonzero, audited, ⟨⟨request.message, request.parent.toList, request.receipt⟩, ?_,
      service, request, tip, built, rfl⟩, kept chain sound.chained⟩
    simp [AuditLog.publish, setTask]
  · exact sound.data
  · exact sound.services
  · intro task mem
    rcases mem_or_eq_of_mem_set mem with old | rfl
    · exact sound.tasks task old
    · exact audited

theorem tipTick_of_sound (roundTrips : config.RoundTrips) (s : AuditState O Bytes)
    (sound : s.Sound config chain) :
    tipTick config s.log = chain.head?.map fun tip => tip.2.lamport := by
  cases chain with
  | nil =>
    have head := sound.head
    simp [tipTick, head]
  | cons tip older =>
    obtain ⟨sha, tickReceipt⟩ := tip
    have head := sound.head
    obtain ⟨-, -, audited, ⟨entry, found, published⟩, rest⟩ := sound.chained
    have parentOid : ∀ p ∈ older.head?.map Prod.fst, config.isOid p = true := by
      intro p mem
      cases older with
      | nil => cases mem
      | cons next others =>
        cases mem
        exact rest.1
    obtain ⟨opsDigest, reads⟩ := readsAs_of_publishedOn config roundTrips
      audited parentOid published
    simp [tipTick, head, found, reads.receipt, receiptOn]

/-! ### Steps -/

theorem AuditState.Sound.lands (roundTrips : config.RoundTrips) (sound : s.Sound config chain)
    (named : outcome.sha = some sha)
    (held : s.tasks[i]? = some (.appending k tickReceipt depth request))
    (onHead : request.expectedHead = s.log.head) (new : s.isNewSha config sha = true) :
    landsAbove config s (.append i outcome) = true ↔
      ∀ tip ∈ chain.head?, tip.2.lamport < tickReceipt.lamport := by
  have tick := tipTick_of_sound config roundTrips s sound
  simp only [landsAbove, held, named, onHead, new, and_self, if_true, tick]
  cases chain with
  | nil | cons tip older => simp

/-- An append publishes, or it only reports back to its service. -/
theorem AuditState.Sound.append (roundTrips : config.RoundTrips) (sound : s.Sound config chain)
    (i k depth) (tickReceipt request outcome)
    (held : s.tasks[i]? = some (.appending k tickReceipt depth request)) (t)
    (appended : s.append config i k depth tickReceipt request outcome = some t) :
    (t.Sound config chain ∧ landsAbove config s (.append i outcome) = true) ∨
      ∃ sha tickReceipt, t.Sound config ((sha, tickReceipt) :: chain) ∧
        (landsAbove config s (.append i outcome) = true ↔
          ∀ tip ∈ chain.head?, tip.2.lamport < tickReceipt.lamport) := by
  have soundTask := sound.tasks _ (mem_of_getElem? held)
  -- a refused append is reported and nothing else
  have refused : ∀ (result : AppendResult) (outcome : StoreOutcome),
      (∀ sha ∈ outcome.sha, request.expectedHead ≠ s.log.head) →
      (s.setTask i (.appended k tickReceipt depth result)).Sound config chain ∧
        landsAbove config s (.append i outcome) = true := by
    intro result outcome apart
    refine ⟨sound.quiet config (quiet_of_setTask s soundTask.1), ?_⟩
    cases named : outcome.sha with
    | none => simp [landsAbove, held, named]
    | some sha => simp [landsAbove, held, named, apart sha named]
  cases outcome with
  | failed =>
    cases appended
    exact Or.inl (refused .failed .failed (by rintro sha ⟨⟩))
  | stored sha | storedThenFailed sha =>
    simp only [AuditState.append] at appended
    split at appended
    next apart =>
      cases appended
      exact Or.inl (refused .conflict _ fun _ _ => apart)
    next met =>
      rw [not_not] at met
      split at appended
      next new =>
        cases appended
        refine Or.inr ⟨sha, tickReceipt, ?_, ?_⟩
        · exact sound.publish config soundTask met new
        · exact sound.lands config roundTrips rfl held met new
      next => cases appended

variable [DecidableEq O]

/-- A data commit, a read of the log or a step of a service publishes nothing. An append
publishes where it meets the tip that it was built for. -/
theorem AuditState.Sound.step (roundTrips : config.RoundTrips) (sound : s.Sound config chain) (t)
    (stepped : s.step config event = some t) :
    (t.Sound config chain ∧ landsAbove config s event = true) ∨
      ∃ sha tickReceipt, t.Sound config ((sha, tickReceipt) :: chain) ∧
        (landsAbove config s event = true ↔
          ∀ tip ∈ chain.head?, tip.2.lamport < tickReceipt.lamport) := by
  cases event with
  | dataCommit tickReceipt =>
    simp only [AuditState.step] at stepped
    split at stepped
    next accepts =>
      cases stepped
      simp only [acceptsData, Bool.and_eq_true, decide_eq_true_eq] at accepts
      exact Or.inl ⟨sound.quiet config ⟨rfl, old_or_of_snoc ⟨accepts.1.1, accepts.1.2⟩,
        fun _ => Or.inl, fun _ => Or.inl⟩, rfl⟩
    next => cases stepped
  | construct =>
    cases stepped
    exact Or.inl ⟨sound.quiet config ⟨rfl, fun _ => Or.inl, old_or_of_snoc rfl,
      fun _ => Or.inl⟩, rfl⟩
  | readForInit k readable =>
    simp only [AuditState.step] at stepped
    split at stepped
    next =>
      cases stepped
      exact Or.inl ⟨sound.quiet config ⟨rfl, fun _ => Or.inl, fun _ => Or.inl,
        old_or_of_snoc trivial⟩, rfl⟩
    next => cases stepped
  | commit k tickReceipt =>
    simp only [AuditState.step] at stepped
    split at stepped
    next known =>
      obtain ⟨own, found, rfl⟩ := Option.map_eq_some_iff.mp stepped
      have level := sound.services own (mem_of_getElem? found)
      refine Or.inl ⟨sound.quiet config ?_, rfl⟩
      split
      · exact quiet_of_setService s level
      · split
        · exact quiet_of_setService s level
        · exact ⟨rfl, fun _ => Or.inl, fun _ => Or.inl, old_or_of_snoc (sound.data tickReceipt known)⟩
    next => cases stepped
  | append i outcome =>
    simp only [AuditState.step] at stepped
    split at stepped
    next k tickReceipt depth request held =>
      exact sound.append config roundTrips i k depth tickReceipt request outcome held t stepped
    next => cases stepped
  | readFresh i readable =>
    simp only [AuditState.step] at stepped
    split at stepped
    next k tickReceipt depth held =>
      have audited := sound.tasks _ (mem_of_getElem? held)
      split at stepped
      · cases stepped
        exact Or.inl ⟨sound.quiet config (quiet_of_setTask s audited), rfl⟩
      · obtain ⟨own, found, rfl⟩ := Option.map_eq_some_iff.mp stepped
        have level := sound.services own (mem_of_getElem? found)
        exact Or.inl ⟨sound.quiet config (quiet_of_set s _ level trivial), rfl⟩
    next => cases stepped
  | resume i =>
    simp only [AuditState.step] at stepped
    split at stepped
    next task held =>
      have quiet := resume_quiet config s t i sound.services
        (sound.tasks task (mem_of_getElem? held)) stepped
      exact Or.inl ⟨sound.quiet config quiet, rfl⟩
    next => cases stepped

theorem landsAbove_of_stuck (s) (stuck : s.step config event = none) :
    landsAbove config s event = true := by
  -- an event that cannot happen publishes nothing
  cases event with
  | append i outcome =>
    simp only [AuditState.step] at stuck
    split at stuck
    next k tickReceipt depth request held =>
      cases outcome with
      | failed => cases stuck
      | stored sha | storedThenFailed sha =>
        simp only [AuditState.append] at stuck
        split at stuck
        next => cases stuck
        next met =>
          split at stuck
          next => cases stuck
          next used => simp [landsAbove, held, StoreOutcome.sha, used]
    next other =>
      simp only [landsAbove]
      split
      next held named => exact (other _ _ _ _ held).elim
      next => rfl
  | _ => rfl

theorem AuditState.Sound.perform (roundTrips : config.RoundTrips) (sound : s.Sound config chain) :
    ∃ longer, (s.perform config event).Sound config longer ∧
      (Climbing longer ↔ landsAbove config s event = true ∧ Climbing chain) := by
  simp only [AuditState.perform]
  cases stepped : s.step config event with
  | none => exact ⟨chain, sound, by simp [landsAbove_of_stuck config s stepped]⟩
  | some t =>
    rcases sound.step config roundTrips t stepped with ⟨quiet, lands⟩ | published
    · exact ⟨chain, quiet, by simp [lands]⟩
    · obtain ⟨sha, tickReceipt, longer, lands⟩ := published
      exact ⟨(sha, tickReceipt) :: chain, longer, by rw [lands, Climbing]⟩

theorem AuditState.Sound.run (roundTrips : config.RoundTrips) (sound : s.Sound config chain) :
    ∃ longer, (Lib.run (AuditState.perform config) s events).Sound config longer ∧
      (Climbing longer ↔ Climbing chain ∧ Along (AuditState.perform config)
        (fun s event => landsAbove config s event = true) s events) := by
  induction events generalizing s chain with
  | nil => exact ⟨chain, sound, by simp [Along]⟩
  | cons event later ih =>
    obtain ⟨next, soundNext, climbs⟩ := sound.perform config roundTrips
    obtain ⟨longer, soundLonger, means⟩ := ih soundNext
    refine ⟨longer, soundLonger, ?_⟩
    rw [means, climbs, Along]
    tauto

/-- Whatever the order of the steps, the published chain verifies exactly when every append
landed on a tip with a lower tick. -/
theorem audit_chain_verifies_iff (roundTrips : config.RoundTrips) (events : List (AuditEvent O))
    (tipAfter : Option (Option JsString)) :
    ∃ result, verifyChain config (Lib.run (AuditState.perform config) .empty events).log none
        tipAfter = some result ∧
      (result.errors = [] ↔ Along (AuditState.perform config)
        (fun s event => landsAbove config s event = true) .empty events) := by
  obtain ⟨chain, sound, climbs⟩ :=
    (AuditState.sound_empty config).run config roundTrips
  obtain ⟨result, verified, means⟩ := verifyChain_published config roundTrips _ sound
  refine ⟨result, verified, means.trans (climbs.trans ?_)⟩
  simp [Climbing]

/-! ### Two services -/

/-- Receipts without operations, whose digest is constant, in a store that keeps values. -/
def bareAudit : AuditConfig Unit AuditReceipt where
  graphName := lit "events"
  writerId := lit "alice"
  oidLength := 40
  computeOpsDigest := fun _ => .ok
    (lit "40e3deda055bbfd955bf76f0a84ffbf8986cf26b8605e91e4d7be491f85abcdb")
  encode := .ok
  decode := .ok

theorem bareAudit_roundTrips : bareAudit.RoundTrips := by
  rintro receipt bytes ⟨⟩
  rfl

def bareTick (digit : Char) (lamport : Int) : TickReceipt Unit :=
  ⟨List.replicate 40 (digitUnit digit), lit "alice", lamport, []⟩

def auditSha (digit : Char) : JsString := List.replicate 40 (digitUnit digit)

/-- One service publishes the genesis and another one starts from it. -/
def startTwoServices : List (AuditEvent Unit) :=
  [.construct, .construct, .dataCommit (bareTick '1' 1), .dataCommit (bareTick '2' 2),
    .dataCommit (bareTick '3' 3), .commit 0 (bareTick '1' 1), .resume 0,
    .append 0 (.stored (auditSha 'a')), .resume 0, .readForInit 1 true, .resume 1]

/-- The second service publishes one commit. The first one then loses the comparison with
another commit, reads the new tip and publishes on it. -/
def publishThenRetry (first retried : TickReceipt Unit) : List (AuditEvent Unit) :=
  startTwoServices ++ [.commit 1 first, .resume 2, .append 2 (.stored (auditSha 'b')), .resume 2,
    .commit 0 retried, .resume 3, .append 3 (.stored (auditSha 'c')), .resume 3,
    .readFresh 3 true, .resume 3, .resume 3, .append 3 (.stored (auditSha 'c')), .resume 3]

/-- Both services publish in the order of the data commits, the second with a retry. -/
theorem audit_chain_verifies_iff_ordered : ∃ result, verifyChain bareAudit
    (Lib.run (AuditState.perform bareAudit) .empty
      (publishThenRetry (bareTick '2' 2) (bareTick '3' 3))).log none none = some result ∧
    result.errors = [] := by
  obtain ⟨result, verified, means⟩ := audit_chain_verifies_iff bareAudit bareAudit_roundTrips
    (publishThenRetry (bareTick '2' 2) (bareTick '3' 3)) none
  exact ⟨result, verified, means.mpr (by decide +kernel)⟩

/-- The retry puts the receipt of an older data commit on that of a newer one, and the chain
does not verify. -/
theorem retry_lands_below : ((verifyChain bareAudit (Lib.run (AuditState.perform bareAudit) .empty
      (publishThenRetry (bareTick '3' 3) (bareTick '2' 2))).log none none).map fun result =>
        (result.receiptsScanned, result.errors.map ChainError.code)) =
    some (2, [lit "TICK_MONOTONICITY"]) := by
  decide +kernel

end GitWarp
