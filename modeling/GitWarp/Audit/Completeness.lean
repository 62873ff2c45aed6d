import GitWarp.Audit.PublishedChains

/-!
# Which receipts reach the chain

A service that works alone on its log appends one receipt for each commit call,
unless a check refuses it: on the null parent, on the size of the lamport or on
line breaks in the graph name. A chain that starts above tick one is refused.
-/
namespace GitWarp

open Js Lib List

variable {O Bytes : Type} (config : AuditConfig O Bytes)

/-! ### What a message accepts -/

theorem trailerLines_ok_iff (trailers) :
    (∃ lines, trailerLines trailers = .ok lines) ↔
      ∀ trailer ∈ trailers, assertTrailerTextKey trailer.1 = .ok () ∧
        carriageReturn ∉ trailer.2 ∧ newline ∉ trailer.2 := by
  induction trailers with
  | nil => simp [trailerLines]
  | cons trailer rest ih =>
    rw [forall_mem_cons, ← ih, trailerLines]
    simp only [check_then_eq_ok, assertTrailerTextSingleLine_ok]
    simp only [bind_eq_ok]
    constructor
    · rintro ⟨lines, key, value, later, found, -⟩
      exact ⟨⟨key, value⟩, later, found⟩
    · rintro ⟨⟨key, value⟩, later, found⟩
      exact ⟨_, key, value, later, found, rfl⟩

theorem single_line_of_hex {text : JsString} (hex : text.all isLowerHexUnit = true) :
    carriageReturn ∉ text ∧ newline ∉ text := by
  rw [all_eq_true] at hex
  constructor <;> intro mem <;> exact absurd (hex _ mem) (by decide)

theorem single_line_of_writer {id} (valid : validateWriterId id = .ok ()) :
    carriageReturn ∉ id ∧ newline ∉ id := by
  simp only [validateWriterId, throw_unless_eq_ok, any_eq_true, not_exists, not_and] at valid
  obtain ⟨-, -, -, -, -, spaceless, -⟩ := valid
  constructor <;> intro mem <;> exact spaceless _ mem (by decide)

theorem encodeAuditMessage_ok_iff (dataCommit) (graphOk : validateGraphName graph = .ok ())
    (writerOk : validateWriterId writer = .ok ()) (commitOk : isOidText dataCommit = true)
    (digestOk : isSha256Text opsDigest = true) :
    (∃ message, encodeAuditMessage graph writer dataCommit opsDigest = .ok message) ↔
      carriageReturn ∉ graph ∧ newline ∉ graph := by
  -- between valid names, ids and digests only a line break in the graph name is refused
  have oid : validateOid dataCommit "dataCommit" = .ok () := by rw [validateOid, if_pos commitOk]
  have title : assertTrailerTextSingleLine (lit "warp:audit") (lit "title") = .ok () := by decide
  have lines := trailerLines_ok_iff (auditTrailers graph writer dataCommit opsDigest)
  simp only [isOidText, isSha256Text, Bool.and_eq_true] at commitOk digestOk
  have commitLine := single_line_of_hex commitOk.1
  have digestLine := single_line_of_hex digestOk.1
  have writerLine := single_line_of_writer writerOk
  have fixed : assertTrailerTextKey (lit "eg-data-commit") = .ok () ∧
      assertTrailerTextKey (lit "eg-graph") = .ok () ∧
      assertTrailerTextKey (lit "eg-kind") = .ok () ∧
      assertTrailerTextKey (lit "eg-ops-digest") = .ok () ∧
      assertTrailerTextKey (lit "eg-schema") = .ok () ∧
      assertTrailerTextKey (lit "eg-writer") = .ok () ∧
      carriageReturn ∉ lit "audit" ∧ newline ∉ lit "audit" ∧
      carriageReturn ∉ lit "1" ∧ newline ∉ lit "1" := by decide
  simp only [auditTrailers, forall_mem_cons, not_mem_nil, false_imp_iff, implies_true,
    fixed, commitLine, digestLine, writerLine, not_false_eq_true, true_and, and_true] at lines
  rw [← lines]
  have digest : validateSha256 opsDigest "opsDigest" = .ok () := by
    rw [validateSha256_ok, isSha256Text, digestOk.1, digestOk.2]
    rfl
  have titled : lit "warp:audit" ≠ [] := by decide
  simp only [encodeAuditMessage, graphOk, writerOk, oid, digest, check_then_eq_ok, true_and,
    encodeTrailerTextMessage, if_neg titled, title, auditTrailers]
  simp only [bind_eq_ok]
  constructor
  · rintro ⟨_, found, whole, -⟩
    exact ⟨found, whole⟩
  · rintro ⟨found, whole⟩
    exact ⟨_, found, whole, rfl⟩

/-! ### What a record accepts -/

/-- What the host gives the service: valid names, a digest of 64 digits, and a codec that
writes every receipt and reads it back. -/
structure AuditConfig.Working : Prop where
  graph : validateGraphName config.graphName = .ok ()
  writer : validateWriterId config.writerId = .ok ()
  digests : ∀ ops, ∃ opsDigest, config.computeOpsDigest ops = .ok opsDigest ∧
    isSha256Text opsDigest = true
  encodes : ∀ receipt, ∃ bytes, config.encode receipt = .ok bytes
  roundTrips : config.RoundTrips

/-- The checks that a receipt of the writer can fail on a tip. -/
structure AuditConfig.Recordable (parent : Option JsString) (tickReceipt : TickReceipt O) :
    Prop where
  safe : tickReceipt.lamport ≤ maxSafeInteger
  graph : carriageReturn ∉ config.graphName ∧ newline ∉ config.graphName
  genesis : parent = none → tickReceipt.lamport = 1

def AuditConfig.IsTip (tip : Option JsString) : Prop :=
  ∀ sha ∈ tip, config.isOid sha = true ∧ sha ≠ zeroHash config.oidLength

variable {config}

theorem receiptParent_of_tip {service : AuditReceiptService}
    (tip : config.IsTip service.prevAuditCommit) :
    service.receiptParent config.oidLength =
      service.prevAuditCommit.getD (zeroHash config.oidLength) := by
  rw [AuditReceiptService.receiptParent]
  cases parent : service.prevAuditCommit with
  | none => rfl
  | some sha =>
    have oid := (tip sha parent).1
    cases sha with
    | nil => simp [config.isOid_iff] at oid
    | cons u rest => rfl

theorem parent_hex {parent} (tip : config.IsTip parent) :
    (parent.getD (zeroHash config.oidLength)).all isLowerHexUnit = true ∧
      (parent.getD (zeroHash config.oidLength)).length = config.oidLength ∧
      (parent.getD (zeroHash config.oidLength) = zeroHash config.oidLength ↔ parent = none) := by
  cases parent with
  | none => exact ⟨zeroHash_hex, by simp [zeroHash], by simp⟩
  | some sha =>
    obtain ⟨oid, nonzero⟩ := tip sha rfl
    obtain ⟨hex, -, length⟩ := config.isOid_iff.mp oid
    exact ⟨hex, length, by simpa using nonzero⟩

theorem appendRequest_ok_iff (working : config.Working) {service : AuditReceiptService}
    (tip : config.IsTip service.prevAuditCommit) (audited : config.Audited tickReceipt)
    (positive : 1 ≤ tickReceipt.lamport) :
    (∃ request, service.appendRequest config tickReceipt = .ok request) ↔
      config.Recordable service.prevAuditCommit tickReceipt := by
  obtain ⟨hex, sized, length⟩ := config.isOid_iff.mp audited.oid
  obtain ⟨opsDigest, digested, digestOk⟩ := working.digests tickReceipt.ops
  obtain ⟨parentHex, parentLength, null⟩ := parent_hex tip
  have message := encodeAuditMessage_ok_iff tickReceipt.patchSha working.graph working.writer (by simp [isOidText, hex, sized]) digestOk
  have digestHex : opsDigest.all isLowerHexUnit = true := by
    rw [isSha256Text, Bool.and_eq_true] at digestOk
    exact digestOk.1
  have lower := toLowerCase_of_hex _ hex
  have dataOid : isOidText tickReceipt.patchSha = true := by simp [isOidText, hex, sized]
  have parentOid :
      isOidText (service.prevAuditCommit.getD (zeroHash config.oidLength)) = true := by
    rw [isOidText, parentHex, parentLength, ← length]
    simpa using sized
  have record : ∀ receipt, buildReceiptRecord {
      version := 1
      graphName := config.graphName
      writerId := config.writerId
      dataCommit := tickReceipt.patchSha
      tickStart := tickReceipt.lamport
      tickEnd := tickReceipt.lamport
      opsDigest := opsDigest
      prevAuditCommit := service.prevAuditCommit.getD (zeroHash config.oidLength)
      timestamp := tickReceipt.lamport } = .ok receipt ↔
      (¬ (service.prevAuditCommit = none ∧ 1 < tickReceipt.lamport) ∧
        tickReceipt.lamport ≤ maxSafeInteger) ∧
      receiptOn config service.prevAuditCommit tickReceipt opsDigest = receipt := by
    intro receipt
    simp only [buildReceiptRecord, throw_unless_eq_ok, lower, toLowerCase_of_hex _ digestHex,
      toLowerCase_of_hex _ parentHex, dataOid, digestOk, parentOid, parentLength, length, null,
      validateGraphName_ne_nil working.graph, validateWriterId_ne_nil working.writer,
      show ¬ tickReceipt.lamport < 1 by omega, show ¬ tickReceipt.lamport < 0 by omega,
      Bool.not_true, Bool.false_eq_true, not_false_eq_true, true_and, ne_eq, not_true_eq_false,
      lt_self_iff_false, not_lt, Except.ok.injEq, and_assoc]
    rfl
  rw [AuditReceiptService.appendRequest]
  simp only [bind_eq_ok, digested, Except.ok.injEq, exists_eq_left', audited.writer, length,
    receiptParent_of_tip tip, record, lower]
  constructor
  · rintro ⟨-, receipt, ⟨⟨genesis, safe⟩, -⟩, text, encoded, -⟩
    refine ⟨safe, message.mp ⟨text, encoded⟩, fun none_ => ?_⟩
    have low : ¬ 1 < tickReceipt.lamport := fun above => genesis ⟨none_, above⟩
    omega
  · rintro ⟨safe, graph, genesis⟩
    obtain ⟨text, encoded⟩ := message.mpr graph
    obtain ⟨bytes, written⟩ := working.encodes
      (receiptOn config service.prevAuditCommit tickReceipt opsDigest)
    refine ⟨_, _, ⟨⟨?_, safe⟩, rfl⟩, text, encoded, bytes, written, rfl⟩
    rintro ⟨none_, above⟩
    have one := genesis none_
    omega

/-! ### Commit calls -/

variable [DecidableEq O]

/-- A data commit with its commit call, whose append the store answers with the given sha. -/
def commitEvents (task : Nat) (call : TickReceipt O × JsString) : List (AuditEvent O) :=
  [.dataCommit call.1, .commit 0 call.1, .resume task, .append task (.stored call.2), .resume task]

def AuditState.commitCall (config : AuditConfig O Bytes) (s : AuditState O Bytes)
    (call : TickReceipt O × JsString) : AuditState O Bytes :=
  Lib.run (AuditState.perform config) s (commitEvents s.tasks.length call)

/-- A service that is constructed and initialized on a log, beside the data commits so far. -/
def enableAudit (config : AuditConfig O Bytes) (log : AuditLog Bytes)
    (data : List (TickReceipt O)) : AuditState O Bytes :=
  Lib.run (AuditState.perform config) ⟨log, data, [], []⟩
    [.construct, .readForInit 0 true, .resume 0]

/-- The log has one entry more. It is on the former tip, and its receipt covers the tick. -/
def AppendsOne (config : AuditConfig O Bytes) (log after : AuditLog Bytes)
    (tickReceipt : TickReceipt O) : Prop :=
  ∃ sha entry receipt, log.entries.get sha = none ∧ after.entries = log.entries.set sha entry ∧
    after.head = some sha ∧ entry.parents = log.head.toList ∧
    config.decode entry.receipt = .ok receipt ∧ receipt.dataCommit = tickReceipt.patchSha ∧
    receipt.tickStart = tickReceipt.lamport ∧ receipt.tickEnd = tickReceipt.lamport

def AuditComplete (config : AuditConfig O Bytes) (s : AuditState O Bytes) :
    List (TickReceipt O × JsString) → Prop
  | [] => True
  | call :: rest => AppendsOne config s.log (s.commitCall config call).log call.1 ∧
      AuditComplete config (s.commitCall config call) rest

/-- Receipts of the writer with growing lamports, and new shas for their entries. -/
structure AuditCalls (config : AuditConfig O Bytes) (s : AuditState O Bytes)
    (calls : List (TickReceipt O × JsString)) : Prop where
  audited : ∀ call ∈ calls, config.Audited call.1
  positive : ∀ call ∈ calls, 1 ≤ call.1.lamport
  growing : (s.data ++ calls.map Prod.fst).Pairwise fun earlier later =>
    earlier.lamport < later.lamport
  new : ∀ call ∈ calls, s.isNewSha config call.2 = true
  nodup : (calls.map Prod.snd).Nodup

/-- The one service waits for its next commit and remembers the tip of the log. -/
structure Idle (config : AuditConfig O Bytes) (s : AuditState O Bytes)
    (service : AuditReceiptService) : Prop where
  services : s.services = [service]
  going : service.degraded = false
  level : service.prevAuditCommit = service.expectedOldRef
  known : service.prevAuditCommit = s.log.head
  tip : config.IsTip s.log.head

theorem idle_enableAudit (tip : config.IsTip log.head) :
    ∃ service, Idle config (enableAudit config log data) service ∧
      (enableAudit config log data).log = log ∧ (enableAudit config log data).data = data := by
  refine ⟨AuditReceiptService.fresh.initialized (some log.head), ⟨rfl, ?_, ?_, ?_, tip⟩, rfl, rfl⟩
  all_goals cases head : log.head with
    | none => simp [AuditReceiptService.initialized, AuditReceiptService.fresh, enableAudit, head,
        Lib.run, AuditState.perform, AuditState.step, AuditState.resume, AuditState.setTask,
        AuditState.setService]
    | some sha =>
      have filled : sha ≠ [] := by
        rintro rfl
        have oid := (tip [] head).1
        simp [config.isOid_iff] at oid
      simp [AuditReceiptService.initialized, AuditReceiptService.fresh, enableAudit, head, filled,
        Lib.run, AuditState.perform, AuditState.step, AuditState.resume, AuditState.setTask,
        AuditState.setService]

section Call

variable {s : AuditState O Bytes} {service : AuditReceiptService}
  {calls : List (TickReceipt O × JsString)} {call : TickReceipt O × JsString}

theorem commitCall_eq (idle : Idle config s service) (valid : AuditCalls config s (call :: calls)) :
    s.commitCall config call = Lib.run (AuditState.perform config)
        { s with
          data := s.data ++ [call.1]
          tasks := s.tasks ++ [.committing 0 call.1 0] }
        [.resume s.tasks.length, .append s.tasks.length (.stored call.2),
          .resume s.tasks.length] := by
  have audited := valid.audited call mem_cons_self
  have growing := pairwise_append.mp valid.growing
  have accepted : s.acceptsData config call.1 = true := by
    simp only [AuditState.acceptsData, audited.oid, audited.writer, decide_true, Bool.true_and,
      all_eq_true, decide_eq_true_eq]
    exact fun earlier mem => growing.2.2 earlier mem call.1 (by simp)
  simp [AuditState.commitCall, commitEvents, Lib.run, AuditState.perform, AuditState.step, accepted,
    idle.services, idle.going, audited.writer]

section

variable (working : config.Working) (idle : Idle config s service)
  (valid : AuditCalls config s (call :: calls))
include working idle valid

theorem commitCall_recorded (recordable : config.Recordable s.log.head call.1) :
    AppendsOne config s.log (s.commitCall config call).log call.1 ∧
      (∃ after, Idle config (s.commitCall config call) after) ∧
      AuditCalls config (s.commitCall config call) calls ∧
      (s.commitCall config call).log.head = some call.2 := by
  -- a receipt that the checks let through is appended, and the service remembers the new tip
  have audited := valid.audited call mem_cons_self
  have new := valid.new call mem_cons_self
  have fresh := new
  simp only [AuditState.isNewSha, Bool.and_eq_true, Bool.not_eq_true', decide_eq_true_eq] at fresh
  have tip : config.IsTip service.prevAuditCommit := idle.known ▸ idle.tip
  obtain ⟨request, built⟩ := (appendRequest_ok_iff working tip audited
    (valid.positive call mem_cons_self)).mpr (idle.known ▸ recordable)
  obtain ⟨parent, expected⟩ := request_of_built config built
  have onHead : request.expectedHead = s.log.head := by
    rw [expected, ← idle.level, idle.known]
  have result : s.commitCall config call =
      { log := s.log.publish call.2 request
        data := s.data ++ [call.1]
        services := [service.published call.2]
        tasks := s.tasks ++ [.done] } := by
    rw [commitCall_eq idle valid]
    simp [Lib.run, AuditState.perform, AuditState.step, AuditState.resume, idle.services, built,
      AuditState.setTask, AuditState.setService, AuditState.append, onHead,
      AuditState.isNewSha, fresh]
  have absent : s.log.entries.get call.2 = none := by
    rw [← Option.not_isSome_iff_eq_none]
    simpa [OrdMap.has] using fresh.1.2
  obtain ⟨opsDigest, reads⟩ := readsAs_of_publishedOn config working.roundTrips audited
    (fun sha mem => (idle.tip sha mem).1) ⟨service, request, idle.known, built, rfl⟩
  rw [result]
  refine ⟨⟨call.2, _, _, absent, rfl, rfl, reads.parents, reads.receipt, rfl, rfl, rfl⟩,
    ⟨_, rfl, idle.going, rfl, rfl, ?_⟩, ?_, rfl⟩
  · rintro sha ⟨⟩
    exact ⟨fresh.1.1, fresh.2⟩
  · have apart := nodup_cons.mp valid.nodup
    refine ⟨fun other mem => valid.audited other (mem_cons_of_mem _ mem),
      fun other mem => valid.positive other (mem_cons_of_mem _ mem),
      by simpa using valid.growing, fun other mem => ?_, apart.2⟩
    have own := valid.new other (mem_cons_of_mem _ mem)
    have different : call.2 ≠ other.2 := fun same =>
      apart.1 (same ▸ mem_map_of_mem mem)
    simpa [AuditState.isNewSha, AuditLog.publish, OrdMap.has, OrdMap.get_set, different] using own

theorem commitCall_refused (refused : ¬ config.Recordable s.log.head call.1) :
    ¬ AppendsOne config s.log (s.commitCall config call).log call.1 := by
  have tip : config.IsTip service.prevAuditCommit := idle.known ▸ idle.tip
  have unbuilt := (appendRequest_ok_iff working tip
    (valid.audited call mem_cons_self) (valid.positive call mem_cons_self)).not.mpr
      (idle.known ▸ refused)
  have log : (s.commitCall config call).log = s.log := by
    rw [commitCall_eq idle valid]
    cases built : service.appendRequest config call.1 with
    | ok request => exact absurd ⟨request, built⟩ unbuilt
    | error e =>
      simp [Lib.run, AuditState.perform, AuditState.step, AuditState.resume, idle.services, built,
        AuditState.setTask, AuditState.setService]
  rintro ⟨sha, entry, -, absent, entries, -⟩
  rw [log] at entries
  have found := congrArg (fun map => map.get sha) entries
  simp only [absent, OrdMap.get_set, if_true] at found
  cases found

end

end Call

theorem auditComplete_iff (working : config.Working) (s service) (idle : Idle config s service)
    (valid : AuditCalls config s calls) :
    AuditComplete config s calls ↔
      (∀ call ∈ calls, call.1.lamport ≤ maxSafeInteger ∧ carriageReturn ∉ config.graphName ∧
        newline ∉ config.graphName) ∧
      (s.log.head = none → ∀ call ∈ calls.head?, call.1.lamport = 1) := by
  induction calls generalizing s service with
  | nil => simp [AuditComplete]
  | cons call rest ih =>
    rw [AuditComplete]
    by_cases recordable : config.Recordable s.log.head call.1
    · obtain ⟨appends, ⟨after, next⟩, others, head⟩ :=
        commitCall_recorded working idle valid recordable
      rw [ih _ after next others, head, forall_mem_cons]
      simpa [appends, recordable.safe, recordable.graph] using fun _ => recordable.genesis
    · have missing := commitCall_refused working idle valid recordable
      refine iff_of_false (fun complete => missing complete.1) ?_
      rintro ⟨every, genesis⟩
      obtain ⟨safe, graph⟩ := every call mem_cons_self
      exact recordable ⟨safe, graph, fun none_ => genesis none_ call rfl⟩

/-- After auditing is enabled on a log, every commit call appends its receipt exactly when the
log has a tip or the first lamport is one, no lamport is unsafe and the graph name has no line
break. -/
theorem audit_complete_iff (working : config.Working) (log : AuditLog Bytes)
    (data : List (TickReceipt O)) (tip : config.IsTip log.head)
    (calls : List (TickReceipt O × JsString))
    (valid : AuditCalls config (enableAudit config log data) calls) :
    AuditComplete config (enableAudit config log data) calls ↔
      (∀ call ∈ calls, call.1.lamport ≤ maxSafeInteger ∧ carriageReturn ∉ config.graphName ∧
        newline ∉ config.graphName) ∧
      (log.head = none → ∀ call ∈ calls.head?, call.1.lamport = 1) := by
  obtain ⟨service, idle, same, -⟩ := idle_enableAudit tip
  rw [auditComplete_iff working _ service idle valid, same]

theorem bareAudit_working : bareAudit.Working where
  graph := by decide
  writer := by decide
  digests _ := ⟨_, rfl, by decide⟩
  encodes receipt := ⟨receipt, rfl⟩
  roundTrips := bareAudit_roundTrips

/-- Two receipts of a new graph. -/
theorem audit_complete_iff_new : AuditComplete bareAudit (enableAudit bareAudit .empty [])
    [(bareTick '1' 1, auditSha 'a'), (bareTick '2' 5, auditSha 'b')] := by
  refine (audit_complete_iff bareAudit_working .empty [] (fun _ member => nomatch member)
    [(bareTick '1' 1, auditSha 'a'), (bareTick '2' 5, auditSha 'b')]
    ⟨?_, by decide, by decide, by decide +kernel, by decide⟩).mpr ⟨by decide, ?_⟩
  · intro call member
    rcases mem_cons.mp member with rfl | member
    · exact ⟨by decide, rfl⟩
    · rw [mem_singleton.mp member]
      exact ⟨by decide, rfl⟩
  · rintro - call ⟨⟩
    rfl

/-- Auditing is enabled on a graph at tick seven: two more ticks are committed, and no receipt. -/
theorem audit_of_existing_graph_incomplete :
    let first := (enableAudit bareAudit .empty [bareTick '1' 6]).commitCall bareAudit
      (bareTick '2' 7, auditSha 'a')
    let second := first.commitCall bareAudit (bareTick '3' 8, auditSha 'b')
    second.data = [bareTick '1' 6, bareTick '2' 7, bareTick '3' 8] ∧
      first.log.head = none ∧ second.log.head = none := by
  decide +kernel

end GitWarp
