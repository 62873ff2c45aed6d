import GitWarp.Audit.AuditReceiptService

/-!
# Verification of audit chains

The verifier walks from the tip to the genesis receipt, one commit after another,
and stops at the first error. Every check either stops the walk with the result
so far or lets it go on.
-/
namespace GitWarp

open Js Lib

structure ChainError where
  code : JsString
  message : JsString
  commit : Option JsString

structure ChainWarning where
  code : JsString
  message : JsString

inductive ChainStatus
  | valid | partial_ | brokenChain | dataMismatch | error
  deriving DecidableEq

structure ChainResult where
  status : ChainStatus
  receiptsVerified : Nat
  receiptsScanned : Nat
  tipCommit : Option JsString
  tipAtStart : Option JsString
  genesisCommit : Option JsString
  stoppedAt : Option JsString
  since : Option JsString
  errors : List ChainError
  warnings : List ChainWarning

namespace ChainResult

def start (since : Option JsString) : ChainResult :=
  ⟨.valid, 0, 0, none, none, none, none, since, [], []⟩

/-- `_addError`; an empty commit is left out. -/
def addError (result : ChainResult) (code : String) (message : JsString)
    (commit : Option JsString) : ChainResult :=
  { result with
    errors := result.errors ++ [⟨lit code, message, commit.filter fun sha => decide (sha ≠ [])⟩]
    status := if result.status = .valid ∨ result.status = .partial_ then .error
      else result.status }

def setStatus (result : ChainResult) (status : ChainStatus) : ChainResult :=
  { result with status := status }

def warn (result : ChainResult) (code : String) (message : JsString) : ChainResult :=
  { result with warnings := result.warnings ++ [⟨lit code, message⟩] }

end ChainResult

/-! ### Checks of one receipt -/

/-- `validateOidFormat`: what is wrong with an object id. -/
def oidFormatError (value : JsString) : Option JsString :=
  let normalized := toLowerCase value
  if normalized = [] ∨ normalized.all isLowerHexUnit = false then
    some (lit "contains non-hex characters")
  else if normalized.length ≠ 40 ∧ normalized.length ≠ 64 then
    some (lit "invalid length " ++ numberText normalized.length)
  else none

/-- `validateReceiptSchema` of a record with the nine fields of a receipt. -/
def receiptSchemaError (receipt : AuditReceipt) : Option JsString :=
  if receipt.version ≠ 1 then some (lit "unsupported version: " ++ intText receipt.version)
  else if receipt.graphName = [] then some (lit "graphName must be a non-empty string")
  else if receipt.writerId = [] then some (lit "writerId must be a non-empty string")
  else if receipt.tickStart < 1 then
    some (lit "tickStart must be integer >= 1, got " ++ intText receipt.tickStart)
  else if receipt.tickEnd < receipt.tickStart then
    some (lit "tickEnd must be integer >= tickStart, got " ++ intText receipt.tickEnd)
  else if receipt.tickStart ≠ receipt.tickEnd then
    some (lit "v1 requires tickStart === tickEnd, got " ++ intText receipt.tickStart ++
      lit " !== " ++ intText receipt.tickEnd)
  else if receipt.timestamp < 0 then
    some (lit "timestamp must be non-negative integer, got " ++ intText receipt.timestamp)
  else none

/-- `validateTrailerConsistency`. -/
def trailerError (receipt : AuditReceipt) (decoded : AuditMessage) : Option JsString :=
  if decoded.schema ≠ 1 then
    some (lit "trailer eg-schema must be 1, got " ++ numberText decoded.schema)
  else if decoded.graph ≠ receipt.graphName then
    some (lit "trailer eg-graph '" ++ decoded.graph ++ lit "' !== receipt graphName '" ++
      receipt.graphName ++ lit "'")
  else if decoded.writer ≠ receipt.writerId then
    some (lit "trailer eg-writer '" ++ decoded.writer ++ lit "' !== receipt writerId '" ++
      receipt.writerId ++ lit "'")
  else if toLowerCase decoded.dataCommit ≠ toLowerCase receipt.dataCommit then
    some (lit "trailer eg-data-commit '" ++ decoded.dataCommit ++
      lit "' !== receipt dataCommit '" ++ receipt.dataCommit ++ lit "'")
  else if toLowerCase decoded.opsDigest ≠ toLowerCase receipt.opsDigest then
    some (lit "trailer eg-ops-digest '" ++ decoded.opsDigest ++ lit "' !== receipt opsDigest '" ++
      receipt.opsDigest ++ lit "'")
  else none

section Walk

variable {O Bytes : Type} (config : AuditConfig O Bytes)

/-- `_readReceipt`. The error is the result that the walk stops with. -/
def readReceipt (current : JsString) (commitInfo : AuditLogEntry Bytes) (result : ChainResult) :
    Except ChainResult (AuditReceipt × AuditMessage) :=
  match config.decode commitInfo.receipt with
  | .error e =>
    .error ((result.addError "CBOR_DECODE_FAILED" (lit "CBOR decode failed: " ++ e.message)
      current).setStatus .error)
  | .ok receipt =>
    match decodeAuditMessage commitInfo.message with
    | .error e =>
      .error ((result.addError "TRAILER_MISMATCH" (lit "Trailer decode failed: " ++ e.message)
        current).setStatus .dataMismatch)
    | .ok decodedTrailers => .ok (receipt, decodedTrailers)

/-- `_validateOids`; a null id of any length is no error. -/
def validateOids (receipt : AuditReceipt) (result : ChainResult) (commitSha : JsString) :
    Except ChainResult Unit :=
  match oidFormatError receipt.dataCommit with
  | some error =>
    .error ((result.addError "OID_FORMAT_INVALID" (lit "dataCommit OID invalid: " ++ error)
      commitSha).setStatus .brokenChain)
  | none =>
    match oidFormatError receipt.prevAuditCommit with
    | none => .ok ()
    | some error =>
      if receipt.prevAuditCommit ≠ [] ∧
          receipt.prevAuditCommit = zeroHash receipt.prevAuditCommit.length then .ok ()
      else .error ((result.addError "OID_FORMAT_INVALID"
        (lit "prevAuditCommit OID invalid: " ++ error) commitSha).setStatus .brokenChain)

/-- `_checkOidLengthConsistency`: the length that the chain's ids have. -/
def checkOidLengthConsistency (receipt : AuditReceipt) (chainOidLen : Option Nat)
    (result : ChainResult) (commitSha : JsString) : Except ChainResult Nat :=
  let oidLen := receipt.dataCommit.length
  let mismatch := result.addError "OID_LENGTH_MISMATCH" (lit "prevAuditCommit length " ++
    numberText receipt.prevAuditCommit.length ++ lit " !== dataCommit length " ++
    numberText oidLen) commitSha
  match chainOidLen with
  | none => if receipt.prevAuditCommit.length ≠ oidLen then .error mismatch else .ok oidLen
  | some chainOidLen =>
    if oidLen ≠ chainOidLen then
      .error (result.addError "OID_LENGTH_MISMATCH" (lit "OID length changed from " ++
        numberText chainOidLen ++ lit " to " ++ numberText oidLen) commitSha)
    else if receipt.prevAuditCommit.length ≠ oidLen then .error mismatch
    else .ok chainOidLen

/-- `_validateChainLink`: the receipt against the one that was walked before it. -/
def validateChainLink (currentReceipt prevReceipt : AuditReceipt) (commitSha : JsString)
    (result : ChainResult) : Except ChainResult ChainResult :=
  if prevReceipt.tickStart ≤ currentReceipt.tickEnd then
    .error ((result.addError "TICK_MONOTONICITY" (lit "tick " ++ intText currentReceipt.tickEnd ++
      lit " >= previous " ++ intText prevReceipt.tickStart) commitSha).setStatus .brokenChain)
  else
    let warned := if currentReceipt.tickEnd + 1 < prevReceipt.tickStart then
        result.warn "TICK_GAP" (lit "Gap between tick " ++ intText currentReceipt.tickEnd ++
          lit " and " ++ intText prevReceipt.tickStart)
      else result
    if currentReceipt.writerId ≠ prevReceipt.writerId then
      .error ((warned.addError "WRITER_CONSISTENCY" (lit "writerId changed from '" ++
        currentReceipt.writerId ++ lit "' to '" ++ prevReceipt.writerId ++ lit "'")
        commitSha).setStatus .brokenChain)
    else if currentReceipt.graphName ≠ prevReceipt.graphName then
      .error ((warned.addError "WRITER_CONSISTENCY" (lit "graphName changed from '" ++
        currentReceipt.graphName ++ lit "' to '" ++ prevReceipt.graphName ++ lit "'")
        commitSha).setStatus .brokenChain)
    else .ok warned

/-- The link check, which the tip is spared. -/
def checkLink (receipt : AuditReceipt) (prevReceipt : Option AuditReceipt) (commitSha : JsString)
    (result : ChainResult) : Except ChainResult ChainResult :=
  match prevReceipt with
  | some prevReceipt => validateChainLink receipt prevReceipt commitSha result
  | none => .ok result

/-- `_validateWriterConsistency`. -/
def validateWriterConsistency (receipt : AuditReceipt) (commitSha : JsString)
    (result : ChainResult) : Except ChainResult Unit :=
  if receipt.writerId ≠ config.writerId then
    .error ((result.addError "WRITER_CONSISTENCY" (lit "receipt writerId '" ++ receipt.writerId ++
      lit "' !== expected '" ++ config.writerId ++ lit "'") commitSha).setStatus .brokenChain)
  else if receipt.graphName ≠ config.graphName then
    .error ((result.addError "WRITER_CONSISTENCY" (lit "receipt graphName '" ++
      receipt.graphName ++ lit "' !== expected '" ++ config.graphName ++ lit "'")
      commitSha).setStatus .brokenChain)
  else .ok ()

/-- `_handleGenesisOrContinuation`: where the walk goes on. -/
def handleGenesisOrContinuation (receipt : AuditReceipt) (commitInfo : AuditLogEntry Bytes)
    (since : Option JsString) (chainOidLen : Nat) (current : JsString) (result : ChainResult) :
    Except ChainResult JsString :=
  if receipt.prevAuditCommit = zeroHash chainOidLen then
    let found := { result with genesisCommit := some current }
    if commitInfo.parents ≠ [] then
      .error ((found.addError "GENESIS_HAS_PARENTS" (lit "Genesis commit has " ++
        numberText commitInfo.parents.length ++ lit " parent(s)") current).setStatus .brokenChain)
    else
      match since with
      | some since =>
        .error ((found.addError "SINCE_NOT_FOUND" (lit "Commit " ++ since ++
          lit " not found in chain") none).setStatus .error)
      | none => .error (if found.errors = [] then found.setStatus .valid else found)
  else
    match commitInfo.parents with
    | [parent] =>
      if parent ≠ receipt.prevAuditCommit then
        .error ((result.addError "GIT_PARENT_MISMATCH" (lit "Git parent '" ++ parent ++
          lit "' !== prevAuditCommit '" ++ receipt.prevAuditCommit ++ lit "'")
          current).setStatus .brokenChain)
      else .ok parent
    | parents =>
      .error ((result.addError "CONTINUATION_NO_PARENT" (lit "Continuation commit has " ++
        numberText parents.length ++ lit " parent(s), expected 1") current).setStatus
          .brokenChain)

/-- One round of the walk: the next commit with what is carried on to it. -/
def walkStep (log : AuditLog Bytes) (since : Option JsString) (current : JsString)
    (prevReceipt : Option AuditReceipt) (chainOidLen : Option Nat) (before : ChainResult) :
    Except ChainResult (JsString × AuditReceipt × Nat × ChainResult) := do
  let result := { before with receiptsScanned := before.receiptsScanned + 1 }
  match log.entries.get current with
  | none =>
    .error (result.addError "MISSING_RECEIPT_BLOB" (lit "Cannot read commit " ++ current) current)
  | some commitInfo =>
    let (receipt, decodedTrailers) ← readReceipt config current commitInfo result
    match receiptSchemaError receipt with
    | some schemaErr => .error (result.addError "RECEIPT_SCHEMA_INVALID" schemaErr current)
    | none =>
      validateOids receipt result current
      let oidLen ← checkOidLengthConsistency receipt chainOidLen result current
      match trailerError receipt decodedTrailers with
      | some trailerErr =>
        .error ((result.addError "TRAILER_MISMATCH" trailerErr current).setStatus .dataMismatch)
      | none =>
        let linked ← checkLink receipt prevReceipt current result
        validateWriterConsistency config receipt current linked
        let verified := { linked with receiptsVerified := linked.receiptsVerified + 1 }
        if since = some current then
          let stopped := { verified with stoppedAt := some current }
          .error (if stopped.errors = [] then stopped.setStatus .partial_ else stopped)
        else
          let parent ← handleGenesisOrContinuation receipt commitInfo since oidLen current verified
          pure (parent, receipt, oidLen, verified)

/-- `_walkChain`, for as many commits as the first argument allows. -/
def walkChain (log : AuditLog Bytes) (since : Option JsString) : Nat → JsString →
    Option AuditReceipt → Option Nat → ChainResult → Option ChainResult
  | 0, _, _, _, _ => none
  | fuel + 1, current, prevReceipt, chainOidLen, result =>
    match walkStep config log since current prevReceipt chainOidLen result with
    | .error stopped => some stopped
    | .ok (parent, receipt, oidLen, next) =>
      if parent = [] then some next
      else walkChain log since fuel parent (some receipt) (some oidLen) next

/-- `_checkTipMoved`: the tip that is read after the walk, or a read that failed. -/
def checkTipMoved (tipAfter : Option (Option JsString)) (result : ChainResult) : ChainResult :=
  match tipAfter with
  | some (some tip) =>
    if tip ≠ [] ∧ some tip ≠ result.tipAtStart then
      result.warn "TIP_MOVED_DURING_VERIFY" (lit "Ref tip moved from " ++
        result.tipAtStart.getD (lit "null") ++ lit " to " ++ tip ++ lit " during verification")
    else result
  | _ => result

/-- `verifyChain` over a log that can be read. It walks at most all published commits and one
that is missing. -/
def verifyChain (log : AuditLog Bytes) (since : Option JsString)
    (tipAfter : Option (Option JsString)) : Option ChainResult :=
  let since := since.filter fun sha => decide (sha ≠ [])
  let result := ChainResult.start since
  match log.head with
  | none => some result
  | some tip =>
    if tip = [] then some result
    else
      let started := { result with tipCommit := some tip, tipAtStart := some tip }
      (walkChain config log since (log.entries.size + 1) tip none none started).map
        (checkTipMoved tipAfter)

end Walk

end GitWarp
