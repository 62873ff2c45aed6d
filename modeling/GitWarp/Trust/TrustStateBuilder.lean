import GitWarp.Crdt.LWW
import GitWarp.Lib.OrdMap

/-!
# The trust state builder

Trust records are read in chain order. A record adds or revokes a key, or binds
a writer to a key or takes the binding back. Before it takes effect, its
signature is verified under the public key of its issuer; a record that fails a
check leaves an error behind and nothing else.
-/
namespace GitWarp.Trust

open Js Lib

/-! ### Records -/

inductive TrustSubject
  | keyAdd (keyId publicKey : JsString)
  | keyRevoke (keyId reasonCode : JsString)
  | bindAdd (writerId keyId : JsString)
  | bindRevoke (writerId keyId reasonCode : JsString)
  deriving DecidableEq

/-- The texts of a subject, none of which may be empty. -/
def TrustSubject.texts : TrustSubject → List JsString
  | .keyAdd keyId publicKey => [keyId, publicKey]
  | .keyRevoke keyId reasonCode => [keyId, reasonCode]
  | .bindAdd writerId keyId => [writerId, keyId]
  | .bindRevoke writerId keyId reasonCode => [writerId, keyId, reasonCode]

/-- A decoded record; the last two fields are what `fromDecoded` has checked. -/
structure TrustRecord where
  recordId : JsString
  issuerKeyId : JsString
  issuedAt : JsString
  subject : TrustSubject
  sig : JsString
  signaturePayload : JsString
  subjectComplete : ∀ text ∈ subject.texts, text ≠ []
  signed : sig ≠ []

/-! ### The trust state -/

structure ActiveKeyInfo where
  publicKey : JsString
  addedAt : JsString
  deriving DecidableEq

structure RevokedKeyInfo where
  publicKey : JsString
  revokedAt : JsString
  reasonCode : JsString
  deriving DecidableEq

structure BindingInfo where
  keyId : JsString
  boundAt : JsString
  deriving DecidableEq

structure RevokedBindingInfo where
  keyId : JsString
  revokedAt : JsString
  reasonCode : JsString
  deriving DecidableEq

structure BuildError where
  recordId : JsString
  error : JsString
  deriving DecidableEq

/-- What the builder accumulates. -/
structure TrustBuildContext where
  activeKeys : OrdMap JsString ActiveKeyInfo
  revokedKeys : OrdMap JsString RevokedKeyInfo
  writerBindings : OrdMap JsString BindingInfo
  revokedBindings : OrdMap JsString RevokedBindingInfo
  errors : List BuildError

structure TrustState extends TrustBuildContext where
  recordsProcessed : Nat

def trustStateInvalid (message : JsString) : Failure :=
  ⟨.trustError, lit "E_TRUST_STATE_INVALID", message⟩

def assertNonEmptyString (value field : JsString) : Except Failure Unit :=
  if value = [] then .error (trustStateInvalid (field ++ lit " must be a non-empty string"))
  else .ok ()

/-- `KEY_ID_PATTERN`. -/
def isKeyId (text : JsString) : Bool :=
  (lit "ed25519:").isPrefixOf text && decide ((text.drop 8).length = 64) &&
    (text.drop 8).all isHexUnit

def assertKeyId (keyId field : JsString) : Except Failure Unit := do
  assertNonEmptyString keyId field
  if isKeyId keyId then pure ()
  else throw (trustStateInvalid (field ++ lit " must be an ed25519 key id"))

/-- `BINDING_KEY_SEPARATOR`. -/
def bindingKeySeparator : CodeUnit := 0

def assertWriterId (writerId field : JsString) : Except Failure Unit := do
  assertNonEmptyString writerId field
  if bindingKeySeparator ∈ writerId then
    throw (trustStateInvalid (field ++ lit " must not contain the trust binding separator"))
  else pure ()

def bindingText (writerId keyId : JsString) : JsString := writerId ++ bindingKeySeparator :: keyId

def encodeBindingKey (writerId keyId : JsString) : Except Failure JsString := do
  assertWriterId writerId (lit "writerId")
  assertKeyId keyId (lit "keyId")
  pure (bindingText writerId keyId)

structure ParsedBindingKey where
  writerId : JsString
  keyId : JsString
  deriving DecidableEq

def notOneBinding (field : JsString) : Failure :=
  trustStateInvalid (field ++ lit " key must encode exactly one writer/key binding")

def parseBindingKey (bindingKey field : JsString) : Except Failure ParsedBindingKey := do
  assertNonEmptyString bindingKey field
  match bindingKey.idxOf? bindingKeySeparator with
  | none => throw (notOneBinding field)
  | some separatorIndex =>
    if separatorIndex = 0 ∨ lastIndexOf bindingKeySeparator bindingKey ≠ some separatorIndex then
      throw (notOneBinding field)
    else
      let writerId := bindingKey.take separatorIndex
      let keyId := bindingKey.drop (separatorIndex + 1)
      assertWriterId writerId (field ++ lit ".writerId")
      assertKeyId keyId (field ++ lit ".keyId")
      pure ⟨writerId, keyId⟩

def assertMatchingBindingKey (encodedKeyId valueKeyId field : JsString) : Except Failure Unit :=
  if encodedKeyId = valueKeyId then .ok ()
  else .error (trustStateInvalid (field ++ lit " keyId must match the encoded binding key"))

def checkActiveKey (keyId : JsString) (info : ActiveKeyInfo) : Except Failure Unit := do
  assertKeyId keyId (lit "activeKeys.key")
  assertNonEmptyString info.publicKey (lit "activeKeys.publicKey")
  assertNonEmptyString info.addedAt (lit "activeKeys.addedAt")

def checkRevokedKey (keyId : JsString) (info : RevokedKeyInfo) : Except Failure Unit := do
  assertKeyId keyId (lit "revokedKeys.key")
  assertNonEmptyString info.publicKey (lit "revokedKeys.publicKey")
  assertNonEmptyString info.revokedAt (lit "revokedKeys.revokedAt")
  assertNonEmptyString info.reasonCode (lit "revokedKeys.reasonCode")

def checkWriterBinding (bindingKey : JsString) (info : BindingInfo) : Except Failure Unit := do
  let parsed ← parseBindingKey bindingKey (lit "writerBindings")
  assertKeyId info.keyId (lit "writerBindings.keyId")
  assertNonEmptyString info.boundAt (lit "writerBindings.boundAt")
  assertMatchingBindingKey parsed.keyId info.keyId (lit "writerBindings")

def checkRevokedBinding (bindingKey : JsString) (info : RevokedBindingInfo) :
    Except Failure Unit := do
  let parsed ← parseBindingKey bindingKey (lit "revokedBindings")
  assertKeyId info.keyId (lit "revokedBindings.keyId")
  assertNonEmptyString info.revokedAt (lit "revokedBindings.revokedAt")
  assertNonEmptyString info.reasonCode (lit "revokedBindings.reasonCode")
  assertMatchingBindingKey parsed.keyId info.keyId (lit "revokedBindings")

def checkBuildError (error : BuildError) : Except Failure Unit := do
  assertNonEmptyString error.recordId (lit "errors.recordId")
  assertNonEmptyString error.error (lit "errors.error")

/-- The constructor copies the maps, entry by entry, and checks each. -/
def TrustState.create (ctx : TrustBuildContext) (recordsProcessed : Nat) :
    Except Failure TrustState := do
  ctx.activeKeys.entries.forM fun entry => checkActiveKey entry.1 entry.2
  ctx.revokedKeys.entries.forM fun entry => checkRevokedKey entry.1 entry.2
  ctx.writerBindings.entries.forM fun entry => checkWriterBinding entry.1 entry.2
  ctx.revokedBindings.entries.forM fun entry => checkRevokedBinding entry.1 entry.2
  ctx.errors.forM checkBuildError
  pure ⟨ctx, recordsProcessed⟩

def TrustState.hasActiveKey (state : TrustState) (keyId : JsString) : Except Failure Bool := do
  assertKeyId keyId (lit "keyId")
  pure (state.activeKeys.has keyId)

def TrustState.getBindingsForWriter (state : TrustState) (writerId : JsString) :
    Except Failure (List BindingInfo) := do
  assertWriterId writerId (lit "writerId")
  let parsed ← state.writerBindings.entries.mapM fun entry => do
    let key ← parseBindingKey entry.1 (lit "writerBindings")
    pure (key.writerId, entry.2)
  pure ((parsed.filter fun binding => binding.1 = writerId).map Prod.snd)

/-- The scan stops at the first binding of the writer. -/
def scanRevokedBindings (writerId : JsString) : List JsString → Except Failure Bool
  | [] => pure false
  | bindingKey :: rest => do
    let key ← parseBindingKey bindingKey (lit "revokedBindings")
    if key.writerId = writerId then pure true else scanRevokedBindings writerId rest

def TrustState.hasRevokedBindingsForWriter (state : TrustState) (writerId : JsString) :
    Except Failure Bool := do
  assertWriterId writerId (lit "writerId")
  scanRevokedBindings writerId state.revokedBindings.keys

/-! ### Crypto validation -/

/-- The crypto that the caller injects; either function may throw. -/
structure TrustBuildOptions where
  signatureVerifier : Option (TrustRecord → JsString → Except Failure Bool)
  computeKeyFingerprint : Option (JsString → Except Failure JsString)

/-- A check of one record answers with the text of the error it pushes. -/
abbrev RecordCheck := Except JsString Unit

def validateFingerprint (keyId publicKey : JsString)
    (compute : JsString → Except Failure JsString) : RecordCheck :=
  match compute publicKey with
  | .ok expected =>
    if expected ≠ keyId then
      .error (lit "KEY_ADD fingerprint mismatch: declared " ++ keyId ++ lit ", computed " ++ expected)
    else .ok ()
  | .error err => .error (lit "KEY_ADD fingerprint validation failed: " ++ err.message)

/-- A `KEY_ADD` that names its own key as issuer is verified under the key it declares. -/
def resolveIssuerKey (rec : TrustRecord) (activeKeys : OrdMap JsString ActiveKeyInfo) :
    Option JsString :=
  let active := match activeKeys.get rec.issuerKeyId with
    | some found => if found.publicKey = [] then none else some found.publicKey
    | none => none
  match rec.subject with
  | .keyAdd keyId publicKey => if rec.issuerKeyId = keyId then some publicKey else active
  | _ => active

def validateKeyFingerprint (options : TrustBuildOptions) (rec : TrustRecord) : RecordCheck :=
  match options.computeKeyFingerprint, rec.subject with
  | some compute, .keyAdd keyId publicKey => validateFingerprint keyId publicKey compute
  | _, _ => .ok ()

def validateSignature (verifier : TrustRecord → JsString → Except Failure Bool)
    (rec : TrustRecord) (activeKeys : OrdMap JsString ActiveKeyInfo) : RecordCheck :=
  match resolveIssuerKey rec activeKeys with
  | none => .error (lit "Unknown issuer key for signature verification: " ++ rec.issuerKeyId)
  | some issuerPk =>
    match verifier rec issuerPk with
    | .ok true => .ok ()
    | .ok false =>
      .error (lit "Signature verification failed for issuer key " ++ rec.issuerKeyId)
    | .error err => .error (lit "Signature verification failed: " ++ err.message)

def validateCryptography (options : TrustBuildOptions) (rec : TrustRecord)
    (ctx : TrustBuildContext) : RecordCheck := do
  validateKeyFingerprint options rec
  match options.signatureVerifier with
  | none => pure ()
  | some verifier => validateSignature verifier rec ctx.activeKeys

/-! ### Record handlers -/

namespace TrustBuildContext

def empty : TrustBuildContext := ⟨.empty, .empty, .empty, .empty, []⟩

def pushError (ctx : TrustBuildContext) (recordId error : JsString) : TrustBuildContext :=
  { ctx with errors := ctx.errors ++ [⟨recordId, error⟩] }

def handleKeyAdd (ctx : TrustBuildContext) (keyId publicKey issuedAt recordId : JsString) :
    TrustBuildContext :=
  if ctx.revokedKeys.has keyId then
    ctx.pushError recordId (lit "Cannot re-add revoked key: " ++ keyId)
  else if ctx.activeKeys.has keyId then
    ctx.pushError recordId (lit "Duplicate KEY_ADD for already-active key: " ++ keyId)
  else { ctx with activeKeys := ctx.activeKeys.set keyId ⟨publicKey, issuedAt⟩ }

def handleKeyRevoke (ctx : TrustBuildContext) (keyId reasonCode issuedAt recordId : JsString) :
    TrustBuildContext :=
  if ctx.revokedKeys.has keyId then
    ctx.pushError recordId (lit "Key already revoked: " ++ keyId)
  else
    match ctx.activeKeys.get keyId with
    | none => ctx.pushError recordId (lit "Cannot revoke unknown key: " ++ keyId)
    | some keyInfo =>
      { ctx with
        activeKeys := ctx.activeKeys.delete keyId
        revokedKeys := ctx.revokedKeys.set keyId ⟨keyInfo.publicKey, issuedAt, reasonCode⟩ }

def handleBindAdd (ctx : TrustBuildContext) (writerId keyId issuedAt recordId : JsString) :
    Except Failure TrustBuildContext := do
  let bindingKey ← encodeBindingKey writerId keyId
  if ctx.revokedKeys.has keyId then
    pure (ctx.pushError recordId (lit "Cannot bind writer to revoked key: " ++ keyId))
  else if ctx.activeKeys.has keyId = false then
    pure (ctx.pushError recordId (lit "Cannot bind writer to unknown key: " ++ keyId))
  else pure { ctx with writerBindings := ctx.writerBindings.set bindingKey ⟨keyId, issuedAt⟩ }

def handleBindRevoke (ctx : TrustBuildContext)
    (writerId keyId reasonCode issuedAt recordId : JsString) :
    Except Failure TrustBuildContext := do
  let bindingKey ← encodeBindingKey writerId keyId
  match ctx.writerBindings.get bindingKey with
  | none =>
    pure (ctx.pushError recordId
      (lit "Cannot revoke non-existent binding: writer=" ++ writerId ++ lit " key=" ++ keyId))
  | some _ =>
    pure
      { ctx with
        writerBindings := ctx.writerBindings.delete bindingKey
        revokedBindings := ctx.revokedBindings.set bindingKey ⟨keyId, issuedAt, reasonCode⟩ }

def processRecord (options : TrustBuildOptions) (ctx : TrustBuildContext) (rec : TrustRecord) :
    Except Failure TrustBuildContext :=
  match validateCryptography options rec ctx with
  | .error text => .ok (ctx.pushError rec.recordId text)
  | .ok () =>
    match rec.subject with
    | .keyAdd keyId publicKey =>
      .ok (ctx.handleKeyAdd keyId publicKey rec.issuedAt rec.recordId)
    | .keyRevoke keyId reasonCode =>
      .ok (ctx.handleKeyRevoke keyId reasonCode rec.issuedAt rec.recordId)
    | .bindAdd writerId keyId => ctx.handleBindAdd writerId keyId rec.issuedAt rec.recordId
    | .bindRevoke writerId keyId reasonCode =>
      ctx.handleBindRevoke writerId keyId reasonCode rec.issuedAt rec.recordId

/-- The loop of `buildState`. -/
def processRecords (options : TrustBuildOptions) (records : List TrustRecord) :
    Except Failure TrustBuildContext :=
  records.foldlM (processRecord options) empty

end TrustBuildContext

open TrustBuildContext

def buildState (options : TrustBuildOptions) (records : List TrustRecord) :
    Except Failure TrustState := do
  let ctx ← processRecords options records
  TrustState.create ctx records.length

/-! ### What one record can do -/

/-- The record passes the checks on its fingerprint and its signature. -/
def Verified (options : TrustBuildOptions) (ctx : TrustBuildContext) (rec : TrustRecord) : Prop :=
  validateCryptography options rec ctx = .ok ()

/-- The ways in which a record takes effect. -/
inductive Accepts (options : TrustBuildOptions) (ctx : TrustBuildContext) (rec : TrustRecord) :
    TrustBuildContext → Prop
  | keyAdd (keyId publicKey : JsString) (subject : rec.subject = .keyAdd keyId publicKey)
      (verified : Verified options ctx rec) (unrevoked : ctx.revokedKeys.get keyId = none)
      (inactive : ctx.activeKeys.get keyId = none) :
      Accepts options ctx rec
        { ctx with activeKeys := ctx.activeKeys.set keyId ⟨publicKey, rec.issuedAt⟩ }
  | keyRevoke (keyId reasonCode : JsString) (info : ActiveKeyInfo)
      (subject : rec.subject = .keyRevoke keyId reasonCode) (verified : Verified options ctx rec)
      (unrevoked : ctx.revokedKeys.get keyId = none)
      (active : ctx.activeKeys.get keyId = some info) :
      Accepts options ctx rec
        { ctx with
          activeKeys := ctx.activeKeys.delete keyId
          revokedKeys := ctx.revokedKeys.set keyId ⟨info.publicKey, rec.issuedAt, reasonCode⟩ }
  | bindAdd (writerId keyId : JsString) (info : ActiveKeyInfo)
      (subject : rec.subject = .bindAdd writerId keyId) (verified : Verified options ctx rec)
      (encoded : encodeBindingKey writerId keyId = .ok (bindingText writerId keyId))
      (active : ctx.activeKeys.get keyId = some info) :
      Accepts options ctx rec
        { ctx with
          writerBindings :=
            ctx.writerBindings.set (bindingText writerId keyId) ⟨keyId, rec.issuedAt⟩ }
  | bindRevoke (writerId keyId reasonCode : JsString) (binding : BindingInfo)
      (subject : rec.subject = .bindRevoke writerId keyId reasonCode)
      (verified : Verified options ctx rec)
      (encoded : encodeBindingKey writerId keyId = .ok (bindingText writerId keyId))
      (bound : ctx.writerBindings.get (bindingText writerId keyId) = some binding) :
      Accepts options ctx rec
        { ctx with
          writerBindings := ctx.writerBindings.delete (bindingText writerId keyId)
          revokedBindings :=
            ctx.revokedBindings.set (bindingText writerId keyId)
              ⟨keyId, rec.issuedAt, reasonCode⟩ }

theorem TrustState.create_ok (recordsProcessed) (state)
    (created : TrustState.create ctx recordsProcessed = .ok state) :
    state.toTrustBuildContext = ctx := by
  unfold TrustState.create at created
  simp only [check_then_eq_ok] at created
  rw [← Except.ok.inj created.2.2.2.2.2]

theorem encodeBindingKey_eq (encoded : encodeBindingKey writerId keyId = .ok key) :
    key = bindingText writerId keyId := by
  rw [encodeBindingKey, check_then_eq_ok, check_then_eq_ok] at encoded
  exact (Except.ok.inj encoded.2.2).symm

theorem lit_eq_nil_iff : lit s = [] ↔ s = "" := by
  have units (c : Char) : charUnits c ≠ [] := by
    unfold charUnits
    split <;> exact List.cons_ne_nil _ _
  constructor
  · intro blank
    rw [lit, List.flatMap_eq_nil_iff] at blank
    have none_ : s.toList = [] :=
      List.eq_nil_iff_forall_not_mem.mpr fun c mem => units c (blank c mem)
    exact String.toList_inj.mp none_
  · rintro rfl
    rfl

theorem validateCryptography_text {options ctx rec text}
    (refused : validateCryptography options rec ctx = .error text) : text ≠ [] := by
  unfold validateCryptography at refused
  cases fingerprint : validateKeyFingerprint options rec with
  | error e =>
    rw [fingerprint] at refused
    cases refused
    unfold validateKeyFingerprint validateFingerprint at fingerprint
    split at fingerprint
    · split at fingerprint
      · split at fingerprint
        · cases fingerprint
          simp [lit_eq_nil_iff]
        · cases fingerprint
      · cases fingerprint
        simp [lit_eq_nil_iff]
    · cases fingerprint
  | ok _ =>
    rw [fingerprint] at refused
    cases verifier : options.signatureVerifier with
    | none =>
      rw [verifier] at refused
      cases refused
    | some verify =>
      rw [verifier] at refused
      change validateSignature verify rec ctx.activeKeys = .error text at refused
      unfold validateSignature at refused
      split at refused
      · cases refused
        simp [lit_eq_nil_iff]
      · split at refused <;> cases refused <;> simp [lit_eq_nil_iff]

/-- A record either takes effect, or leaves an error behind and nothing else. -/
theorem processRecord_spec {options ctx next rec} (ran : processRecord options ctx rec = .ok next) :
    Accepts options ctx rec next ∨
      ∃ text, text ≠ [] ∧ next = ctx.pushError rec.recordId text := by
  unfold processRecord at ran
  cases verified : validateCryptography options rec ctx with
  | error text =>
    rw [verified] at ran
    exact Or.inr ⟨text, validateCryptography_text verified, (Except.ok.inj ran).symm⟩
  | ok _ =>
    rw [verified] at ran
    cases subject : rec.subject with
    | keyAdd keyId publicKey =>
      simp only [subject, Except.ok.injEq, handleKeyAdd] at ran
      split at ran
      · exact Or.inr ⟨_, by simp [lit_eq_nil_iff], ran.symm⟩
      next unrevoked =>
        split at ran
        · exact Or.inr ⟨_, by simp [lit_eq_nil_iff], ran.symm⟩
        next inactive =>
          rw [Bool.not_eq_true, OrdMap.has_eq_false_iff] at unrevoked inactive
          rw [← ran]
          exact Or.inl (.keyAdd keyId publicKey subject verified unrevoked inactive)
    | keyRevoke keyId reasonCode =>
      simp only [subject, Except.ok.injEq, handleKeyRevoke] at ran
      split at ran
      · exact Or.inr ⟨_, by simp [lit_eq_nil_iff], ran.symm⟩
      next unrevoked =>
        split at ran
        · exact Or.inr ⟨_, by simp [lit_eq_nil_iff], ran.symm⟩
        next info active =>
          rw [Bool.not_eq_true, OrdMap.has_eq_false_iff] at unrevoked
          rw [← ran]
          exact Or.inl (.keyRevoke keyId reasonCode info subject verified unrevoked active)
    | bindAdd writerId keyId =>
      simp only [subject, handleBindAdd] at ran
      obtain ⟨key, encoded, ran⟩ := bind_eq_ok.mp ran
      have named := encodeBindingKey_eq encoded
      subst named
      split at ran
      · exact Or.inr ⟨_, by simp [lit_eq_nil_iff], (Except.ok.inj ran).symm⟩
      · split at ran
        · exact Or.inr ⟨_, by simp [lit_eq_nil_iff], (Except.ok.inj ran).symm⟩
        next known =>
          rw [Bool.not_eq_false, OrdMap.has_eq_true_iff] at known
          obtain ⟨info, active⟩ := known
          rw [← Except.ok.inj ran]
          exact Or.inl (.bindAdd writerId keyId info subject verified encoded active)
    | bindRevoke writerId keyId reasonCode =>
      simp only [subject, handleBindRevoke] at ran
      obtain ⟨key, encoded, ran⟩ := bind_eq_ok.mp ran
      have named := encodeBindingKey_eq encoded
      subst named
      split at ran
      · exact Or.inr ⟨_, by simp [lit_eq_nil_iff], (Except.ok.inj ran).symm⟩
      next binding bound =>
        rw [← Except.ok.inj ran]
        exact Or.inl (.bindRevoke writerId keyId reasonCode binding subject verified encoded bound)

theorem processRecord_cases {options ctx next rec} (ran : processRecord options ctx rec = .ok next) :
    Accepts options ctx rec next ∨ ∃ text, next = ctx.pushError rec.recordId text := by
  apply (processRecord_spec ran).imp_right
  rintro ⟨text, -, same⟩
  exact ⟨text, same⟩

end GitWarp.Trust
