import GitWarp.Audit.AuditMessageCodec
import GitWarp.Lib.Run
import GitWarp.Reducer.Receipts

/-!
# Audit receipts

Services append a receipt for each data commit of a writer to one log. A service
remembers the tip it last saw: the tip is the parent of its next commit, the
receipt names it, and the log compares it with its head. A commit runs in steps
between which other commits, other services and the log move on.
-/
namespace GitWarp

open Js Lib

/-! ### Receipts -/

structure AuditReceipt where
  version : Int
  graphName : JsString
  writerId : JsString
  dataCommit : JsString
  tickStart : Int
  tickEnd : Int
  opsDigest : JsString
  prevAuditCommit : JsString
  timestamp : Int
  deriving DecidableEq

def auditInvalid (message : JsString) : Failure :=
  ⟨.auditError, lit "E_AUDIT_INVALID", message⟩

/-- `toLowerCase` as far as hexadecimal digits go. -/
def toLowerCase (text : JsString) : JsString :=
  text.map fun u => if 65 ≤ u.val ∧ u.val ≤ 90 then Fin.ofNat 65536 (u.val + 32) else u

def zeroHash (length : Nat) : JsString := List.replicate length (digitUnit '0')

def buildReceiptRecord (fields : AuditReceipt) : Except Failure AuditReceipt :=
  let dc := toLowerCase fields.dataCommit
  let od := toLowerCase fields.opsDigest
  let pac := toLowerCase fields.prevAuditCommit
  if fields.version ≠ 1 then
    .error (auditInvalid (lit "Invalid version: must be 1, got " ++ intText fields.version))
  else if fields.graphName = [] then
    .error (auditInvalid (lit "Invalid graphName: must be a non-empty string"))
  else if fields.writerId = [] then
    .error (auditInvalid (lit "Invalid writerId: must be a non-empty string"))
  else if !isOidText dc then
    .error (auditInvalid (lit "Invalid dataCommit OID: " ++ fields.dataCommit))
  else if !isSha256Text od then
    .error (auditInvalid (lit "Invalid opsDigest: must be 64-char lowercase hex, got " ++
      fields.opsDigest))
  else if !isOidText pac then
    .error (auditInvalid (lit "Invalid prevAuditCommit OID: " ++ fields.prevAuditCommit))
  else if pac.length ≠ dc.length then
    .error (auditInvalid (lit "OID length mismatch: dataCommit=" ++ numberText dc.length ++
      lit ", prevAuditCommit=" ++ numberText pac.length))
  else if fields.tickStart < 1 then
    .error (auditInvalid (lit "Invalid tickStart: must be integer >= 1, got " ++
      intText fields.tickStart))
  else if fields.tickEnd < fields.tickStart then
    .error (auditInvalid (lit "Invalid tickEnd: must be integer >= tickStart, got " ++
      intText fields.tickEnd))
  else if fields.tickStart ≠ fields.tickEnd then
    .error (auditInvalid (lit "v1 requires tickStart === tickEnd, got " ++
      intText fields.tickStart ++ lit " !== " ++ intText fields.tickEnd))
  else if pac = zeroHash dc.length ∧ 1 < fields.tickStart then
    .error (auditInvalid (lit "Non-genesis receipt cannot use zero-hash sentinel"))
  else if fields.timestamp < 0 then
    .error (auditInvalid (lit "Invalid timestamp: must be non-negative safe integer, got " ++
      intText fields.timestamp))
  else if (maxSafeInteger : Int) < fields.timestamp then
    .error (auditInvalid (lit "Invalid timestamp: exceeds Number.MAX_SAFE_INTEGER: " ++
      intText fields.timestamp))
  else .ok { fields with dataCommit := dc, opsDigest := od, prevAuditCommit := pac }

/-! ### The log -/

structure AppendAuditRecordRequest (Bytes : Type) where
  expectedHead : Option JsString
  parent : Option JsString
  message : JsString
  receipt : Bytes

structure AuditLogEntry (Bytes : Type) where
  message : JsString
  parents : List JsString
  receipt : Bytes

/-- The published commits of one writer's audit log and the tip of its ref. -/
structure AuditLog (Bytes : Type) where
  entries : OrdMap JsString (AuditLogEntry Bytes)
  head : Option JsString

def AuditLog.empty {Bytes : Type} : AuditLog Bytes := ⟨.empty, none⟩

def AuditLog.publish {Bytes : Type} (log : AuditLog Bytes) (sha : JsString)
    (request : AppendAuditRecordRequest Bytes) : AuditLog Bytes where
  entries := log.entries.set sha ⟨request.message, request.parent.toList, request.receipt⟩
  head := some sha

/-! ### The service -/

/-- The graph and the writer that are audited, the length of the repository's object ids,
and the digest and the codec that the host was given. -/
structure AuditConfig (O Bytes : Type) where
  graphName : JsString
  writerId : JsString
  oidLength : Nat
  computeOpsDigest : List O → Except Failure JsString
  encode : AuditReceipt → Except Failure Bytes
  decode : Bytes → Except Failure AuditReceipt

structure AuditReceiptService where
  prevAuditCommit : Option JsString
  expectedOldRef : Option JsString
  degraded : Bool
  retrying : Bool
  committed : Nat
  skipped : Nat
  failed : Nat

namespace AuditReceiptService

/-- The constructor. -/
def fresh : AuditReceiptService := ⟨none, none, false, false, 0, 0, 0⟩

/-- The end of `init`: `none` is a read that failed. -/
def initialized (service : AuditReceiptService) (tip : Option (Option JsString)) :
    AuditReceiptService :=
  match tip with
  | none => { service with prevAuditCommit := none, expectedOldRef := none }
  | some none => service
  | some (some tip) =>
    if tip = [] then service
    else { service with prevAuditCommit := some tip, expectedOldRef := some tip }

/-- The tip that the next receipt names, or zeros. -/
def receiptParent (service : AuditReceiptService) (oidLen : Nat) : JsString :=
  match service.prevAuditCommit with
  | some (u :: rest) => u :: rest
  | _ => zeroHash oidLen

/-- `_commitInner` up to the append. -/
def appendRequest {O Bytes : Type} (config : AuditConfig O Bytes) (service : AuditReceiptService)
    (tickReceipt : TickReceipt O) : Except Failure (AppendAuditRecordRequest Bytes) := do
  let opsDigest ← config.computeOpsDigest tickReceipt.ops
  let receipt ← buildReceiptRecord {
    version := 1
    graphName := config.graphName
    writerId := tickReceipt.writer
    dataCommit := tickReceipt.patchSha
    tickStart := tickReceipt.lamport
    tickEnd := tickReceipt.lamport
    opsDigest := opsDigest
    prevAuditCommit := service.receiptParent tickReceipt.patchSha.length
    timestamp := tickReceipt.lamport }
  let message ← encodeAuditMessage config.graphName tickReceipt.writer
    (toLowerCase tickReceipt.patchSha) opsDigest
  let bytes ← config.encode receipt
  pure ⟨service.expectedOldRef, service.prevAuditCommit, message, bytes⟩

def published (service : AuditReceiptService) (sha : JsString) : AuditReceiptService :=
  { service with
    prevAuditCommit := some sha
    expectedOldRef := some sha
    committed := service.committed + 1 }

/-- A commit that throws inside `depth` retries: each of them clears the flag, and a failed
comparison in a retry degrades the service. -/
def threw (service : AuditReceiptService) (depth : Nat) (casFailed : Bool) :
    AuditReceiptService :=
  { service with
    degraded := service.degraded || (casFailed && decide (0 < depth))
    retrying := if depth = 0 then service.retrying else false
    failed := service.failed + 1 }

/-- The service that retries from a tip it has read. -/
def refreshed (service : AuditReceiptService) (tip : Option JsString) : AuditReceiptService :=
  { service with prevAuditCommit := tip, expectedOldRef := tip, retrying := true }

end AuditReceiptService

/-! ### Steps -/

/-- What an append reports back. -/
inductive AppendResult
  | published (sha : JsString)
  | conflict
  | failed

/-- A call of a service that waits for the digest, for the log or to be resumed. -/
inductive AuditTask (O Bytes : Type)
  | initializing (service : Nat) (tip : Option (Option JsString))
  | committing (service : Nat) (tickReceipt : TickReceipt O) (depth : Nat)
  | appending (service : Nat) (tickReceipt : TickReceipt O) (depth : Nat)
      (request : AppendAuditRecordRequest Bytes)
  | appended (service : Nat) (tickReceipt : TickReceipt O) (depth : Nat) (result : AppendResult)
  | rereading (service : Nat) (tickReceipt : TickReceipt O) (depth : Nat)
  | reread (service : Nat) (tickReceipt : TickReceipt O) (depth : Nat) (tip : Option JsString)
  | done

/-- What the store does with an append: it stores the commit, it stores it and then fails,
or it fails before. -/
inductive StoreOutcome
  | stored (sha : JsString)
  | storedThenFailed (sha : JsString)
  | failed

structure AuditState (O Bytes : Type) where
  log : AuditLog Bytes
  data : List (TickReceipt O)
  services : List AuditReceiptService
  tasks : List (AuditTask O Bytes)

def AuditState.empty {O Bytes : Type} : AuditState O Bytes := ⟨.empty, [], [], []⟩

inductive AuditEvent (O : Type)
  | dataCommit (tickReceipt : TickReceipt O)
  | construct
  | readForInit (service : Nat) (readable : Bool)
  | commit (service : Nat) (tickReceipt : TickReceipt O)
  | append (task : Nat) (outcome : StoreOutcome)
  | readFresh (task : Nat) (readable : Bool)
  | resume (task : Nat)

section Steps

variable {O Bytes : Type} [DecidableEq O] (config : AuditConfig O Bytes)

/-- An object id of the repository. -/
def AuditConfig.isOid (text : JsString) : Bool :=
  isOidText text && decide (text.length = config.oidLength)

namespace AuditState

variable (s : AuditState O Bytes)

def setTask (i : Nat) (task : AuditTask O Bytes) : AuditState O Bytes :=
  { s with tasks := s.tasks.set i task }

def setService (i : Nat) (service : AuditReceiptService) : AuditState O Bytes :=
  { s with services := s.services.set i service }

/-- The sha that the store gives to a new commit: an id that no published commit has and
that is not the null id. -/
def isNewSha (sha : JsString) : Bool :=
  config.isOid sha && !s.log.entries.has sha && decide (sha ≠ zeroHash config.oidLength)

/-- A data commit of the writer comes with a lamport above all earlier ones. -/
def acceptsData (tickReceipt : TickReceipt O) : Bool :=
  config.isOid tickReceipt.patchSha && decide (tickReceipt.writer = config.writerId) &&
    s.data.all fun earlier => decide (earlier.lamport < tickReceipt.lamport)

/-- The log takes an append whose expected head is its head; `none` where the outcome names
a sha that no new commit can have. -/
def append (i service depth : Nat) (tickReceipt : TickReceipt O)
    (request : AppendAuditRecordRequest Bytes) (outcome : StoreOutcome) :
    Option (AuditState O Bytes) :=
  match outcome with
  | .failed => some (s.setTask i (.appended service tickReceipt depth .failed))
  | .stored sha =>
    if request.expectedHead ≠ s.log.head then
      some (s.setTask i (.appended service tickReceipt depth .conflict))
    else if s.isNewSha config sha then
      some ({ s with log := s.log.publish sha request }.setTask i
        (.appended service tickReceipt depth (.published sha)))
    else none
  | .storedThenFailed sha =>
    if request.expectedHead ≠ s.log.head then
      some (s.setTask i (.appended service tickReceipt depth .conflict))
    else if s.isNewSha config sha then
      some ({ s with log := s.log.publish sha request }.setTask i
        (.appended service tickReceipt depth .failed))
    else none

/-- A task goes on after what it waited for. -/
def resume (i : Nat) (task : AuditTask O Bytes) : Option (AuditState O Bytes) :=
  match task with
  | .initializing service tip =>
    s.services[service]?.map fun own =>
      (s.setService service (own.initialized tip)).setTask i .done
  | .committing service tickReceipt depth =>
    s.services[service]?.map fun own =>
      match own.appendRequest config tickReceipt with
      | .ok request => s.setTask i (.appending service tickReceipt depth request)
      | .error _ => (s.setService service (own.threw depth false)).setTask i .done
  | .appended service tickReceipt depth result =>
    s.services[service]?.map fun own =>
      match result with
      | .published sha =>
        let after := own.published sha
        (s.setService service (if depth = 0 then after else { after with retrying := false })).setTask
          i .done
      | .conflict =>
        if own.retrying then (s.setService service (own.threw depth true)).setTask i .done
        else s.setTask i (.rereading service tickReceipt depth)
      | .failed => (s.setService service (own.threw depth false)).setTask i .done
  | .reread service tickReceipt depth tip =>
    s.services[service]?.map fun own =>
      (s.setService service (own.refreshed tip)).setTask i
        (.committing service tickReceipt (depth + 1))
  | .appending _ _ _ _ | .rereading _ _ _ | .done => none

/-- What an event does; `none` where it cannot happen. -/
def step (event : AuditEvent O) : Option (AuditState O Bytes) :=
  match event with
  | .dataCommit tickReceipt =>
    if s.acceptsData config tickReceipt then some { s with data := s.data ++ [tickReceipt] }
    else none
  | .construct => some { s with services := s.services ++ [.fresh] }
  | .readForInit service readable =>
    let tip := if readable then some s.log.head else none
    if service < s.services.length then
      some { s with tasks := s.tasks ++ [.initializing service tip] }
    else none
  | .commit service tickReceipt =>
    if tickReceipt ∈ s.data then
      s.services[service]?.map fun own =>
        if own.degraded then s.setService service { own with skipped := own.skipped + 1 }
        else if tickReceipt.writer ≠ config.writerId then s.setService service (own.threw 0 false)
        else { s with tasks := s.tasks ++ [.committing service tickReceipt 0] }
    else none
  | .append i outcome =>
    match s.tasks[i]? with
    | some (.appending service tickReceipt depth request) =>
      s.append config i service depth tickReceipt request outcome
    | _ => none
  | .readFresh i readable =>
    match s.tasks[i]? with
    | some (.rereading service tickReceipt depth) =>
      if readable then some (s.setTask i (.reread service tickReceipt depth s.log.head))
      else s.services[service]?.map fun own =>
        (s.setService service (own.threw depth false)).setTask i .done
    | _ => none
  | .resume i =>
    match s.tasks[i]? with
    | some task => s.resume config i task
    | none => none

/-- An event that cannot happen changes nothing. -/
def perform (event : AuditEvent O) : AuditState O Bytes := (s.step config event).getD s

end AuditState

end Steps

end GitWarp
