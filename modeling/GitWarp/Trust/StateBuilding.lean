import GitWarp.Crdt.Dot
import GitWarp.Trust.TrustEvaluator

/-!
# Building the trust state

Decoding asks only that the texts of a subject are not empty. The builder asks for more, at two
places: a handler throws at a binding that it cannot encode, and the constructor of the state
checks every entry and every error that is left at the end. A record that is refused never
disturbs the state, but a single check that fails leaves the whole chain without one.
-/
namespace GitWarp.Trust

open Js Lib TrustBuildContext

/-! ### Decoding -/

/-- What the adapter has decoded; the subject is its own texts. -/
structure DecodedTrustRecord where
  schemaVersion : Nat
  recordType : JsString
  recordId : JsString
  issuerKeyId : JsString
  issuedAt : JsString
  subject : JsString → Option JsString
  alg : JsString
  sig : JsString
  signaturePayload : JsString

def recordInvalid (message : JsString) : Failure :=
  ⟨.trustError, lit "E_TRUST_RECORD_INVALID", message⟩

def requireString (subj : JsString → Option JsString) (key context : String) :
    Except Failure { text : JsString // text ≠ [] } :=
  match subj (lit key) with
  | some (u :: rest) => .ok ⟨u :: rest, List.cons_ne_nil u rest⟩
  | _ => .error (recordInvalid (lit context ++ lit ": missing or empty '" ++ lit key ++ lit "'"))

def validateSubject (recordType : JsString) (subj : JsString → Option JsString) :
    Except Failure { subject : TrustSubject // ∀ text ∈ subject.texts, text ≠ [] } := do
  if recordType = lit "KEY_ADD" then
    let keyId ← requireString subj "keyId" "KEY_ADD subject"
    let publicKey ← requireString subj "publicKey" "KEY_ADD subject"
    pure ⟨.keyAdd keyId publicKey, by simp [TrustSubject.texts, keyId.2, publicKey.2]⟩
  else if recordType = lit "KEY_REVOKE" then
    let keyId ← requireString subj "keyId" "KEY_REVOKE subject"
    let reasonCode ← requireString subj "reasonCode" "KEY_REVOKE subject"
    pure ⟨.keyRevoke keyId reasonCode, by simp [TrustSubject.texts, keyId.2, reasonCode.2]⟩
  else if recordType = lit "WRITER_BIND_ADD" then
    let writerId ← requireString subj "writerId" "WRITER_BIND_ADD subject"
    let keyId ← requireString subj "keyId" "WRITER_BIND_ADD subject"
    pure ⟨.bindAdd writerId keyId, by simp [TrustSubject.texts, writerId.2, keyId.2]⟩
  else if recordType = lit "WRITER_BIND_REVOKE" then
    let writerId ← requireString subj "writerId" "WRITER_BIND_REVOKE subject"
    let keyId ← requireString subj "keyId" "WRITER_BIND_REVOKE subject"
    let reasonCode ← requireString subj "reasonCode" "WRITER_BIND_REVOKE subject"
    pure ⟨.bindRevoke writerId keyId reasonCode,
      by simp [TrustSubject.texts, writerId.2, keyId.2, reasonCode.2]⟩
  else throw (recordInvalid (lit "Unknown record type: " ++ recordType))

def fromDecoded (input : DecodedTrustRecord) : Except Failure TrustRecord := do
  if input.schemaVersion ≠ 1 then
    throw (recordInvalid (lit "Unsupported schema version: " ++ numberText input.schemaVersion))
  let subject ← validateSubject input.recordType input.subject
  if input.alg ≠ lit "ed25519" then
    throw (recordInvalid (lit "Unsupported signature algorithm: " ++ input.alg))
  if signed : input.sig = [] then
    throw ⟨.trustError, lit "E_TRUST_SIGNATURE_MISSING", lit "Empty signature"⟩
  else
    pure
      { recordId := input.recordId
        issuerKeyId := input.issuerKeyId
        issuedAt := input.issuedAt
        subject := subject
        sig := input.sig
        signaturePayload := input.signaturePayload
        subjectComplete := subject.2
        signed := signed }

/-! ### The condition on a chain -/

/-- The ids that the builder accepts: key ids of the right form, and a writer id without the
separator of binding keys. -/
def TrustSubject.WellNamed : TrustSubject → Prop
  | .keyAdd keyId _ => isKeyId keyId = true
  | .keyRevoke _ _ => True
  | .bindAdd writerId keyId | .bindRevoke writerId keyId _ =>
    bindingKeySeparator ∉ writerId ∧ isKeyId keyId = true

/-- A place of the state that keeps the time of a record. -/
inductive Slot
  | activeKey (keyId : JsString)
  | revokedKey (keyId : JsString)
  | binding (bindingKey : JsString)
  | revokedBinding (bindingKey : JsString)

/-- Where an accepted record keeps its time. -/
def TrustSubject.written : TrustSubject → Slot
  | .keyAdd keyId _ => .activeKey keyId
  | .keyRevoke keyId _ => .revokedKey keyId
  | .bindAdd writerId keyId => .binding (bindingText writerId keyId)
  | .bindRevoke writerId keyId _ => .revokedBinding (bindingText writerId keyId)

/-- The entry that a revocation takes away. -/
def TrustSubject.cleared : TrustSubject → Option Slot
  | .keyRevoke keyId _ => some (.activeKey keyId)
  | .bindRevoke writerId keyId _ => some (.binding (bindingText writerId keyId))
  | _ => none

variable (options : TrustBuildOptions)

/-- A later record that is accepted writes the place again or clears it. -/
def Replaced (slot : Slot) : TrustBuildContext → List TrustRecord → Prop
  | _, [] => False
  | ctx, rec :: rest => ∃ next, processRecord options ctx rec = .ok next ∧
      (Accepts options ctx rec next ∧
          (rec.subject.written = slot ∨ rec.subject.cleared = some slot) ∨
        Replaced slot next rest)

/-- Every record that is verified is well named, every record that is refused has an id, and
the time of an accepted one is not empty, or does not last. -/
def Orderly : TrustBuildContext → List TrustRecord → Prop
  | _, [] => True
  | ctx, rec :: rest => (Verified options ctx rec → rec.subject.WellNamed) ∧
      ∀ next, processRecord options ctx rec = .ok next →
        (rec.recordId = [] → Accepts options ctx rec next) ∧
        (Accepts options ctx rec next → rec.issuedAt = [] →
          Replaced options rec.subject.written next rest) ∧
        Orderly next rest

/-- The builder returns a state, and whatever record it did not apply has left an error there
and nothing else. -/
def Total (records : List TrustRecord) : Prop :=
  ∃ state, buildState options records = .ok state ∧
    ∀ before rec after ctx next, records = before ++ rec :: after →
      processRecords options before = .ok ctx → processRecord options ctx rec = .ok next →
      ¬ Accepts options ctx rec next →
        ∃ text, next = ctx.pushError rec.recordId text ∧ ⟨rec.recordId, text⟩ ∈ state.errors

/-! ### What holds of every context -/

namespace TrustBuildContext

def Knows (ctx : TrustBuildContext) (keyId : JsString) : Prop :=
  ctx.activeKeys.has keyId = true ∨ ctx.revokedKeys.has keyId = true

def dateOf (ctx : TrustBuildContext) : Slot → Option JsString
  | .activeKey keyId => (ctx.activeKeys.get keyId).map ActiveKeyInfo.addedAt
  | .revokedKey keyId => (ctx.revokedKeys.get keyId).map RevokedKeyInfo.revokedAt
  | .binding bindingKey => (ctx.writerBindings.get bindingKey).map BindingInfo.boundAt
  | .revokedBinding bindingKey =>
    (ctx.revokedBindings.get bindingKey).map RevokedBindingInfo.revokedAt

/-- What the records' own checks and the handlers guarantee. -/
structure Sound (ctx : TrustBuildContext) : Prop where
  active : ∀ keyId info, ctx.activeKeys.get keyId = some info → info.publicKey ≠ []
  revoked : ∀ keyId info, ctx.revokedKeys.get keyId = some info →
    info.publicKey ≠ [] ∧ info.reasonCode ≠ []
  bindings : ∀ bindingKey info, ctx.writerBindings.get bindingKey = some info →
    ∃ writerId, encodeBindingKey writerId info.keyId = .ok bindingKey
  revokedBindings : ∀ bindingKey info, ctx.revokedBindings.get bindingKey = some info →
    (∃ writerId, encodeBindingKey writerId info.keyId = .ok bindingKey) ∧ info.reasonCode ≠ []
  errors : ∀ e ∈ ctx.errors, e.error ≠ []

end TrustBuildContext

variable {options} {ctx next : TrustBuildContext} {rec : TrustRecord}

theorem sound_empty : empty.Sound where
  active := by simp [empty]
  revoked := by simp [empty]
  bindings := by simp [empty]
  revokedBindings := by simp [empty]
  errors := by simp [empty]

theorem TrustBuildContext.Sound.step (sound : ctx.Sound)
    (ran : processRecord options ctx rec = .ok next) : next.Sound := by
  obtain ⟨active, revoked, bindings, revokedBindings, errors⟩ := sound
  have complete := rec.subjectComplete
  rcases processRecord_spec ran with accepted | ⟨text, some_, rfl⟩
  · cases accepted with
    | keyAdd keyId publicKey subject =>
      rw [subject] at complete
      exact ⟨OrdMap.forall_set (complete _ (by simp [TrustSubject.texts])) active, revoked, bindings,
        revokedBindings, errors⟩
    | keyRevoke keyId reasonCode info subject _ _ held =>
      rw [subject] at complete
      refine ⟨OrdMap.forall_delete active, OrdMap.forall_set ⟨active keyId _ held, ?_⟩ revoked,
        bindings, revokedBindings, errors⟩
      exact complete _ (by simp [TrustSubject.texts])
    | bindAdd writerId keyId info subject _ encoded =>
      exact ⟨active, revoked, OrdMap.forall_set ⟨writerId, encoded⟩ bindings, revokedBindings, errors⟩
    | bindRevoke writerId keyId reasonCode binding subject _ encoded =>
      rw [subject] at complete
      refine ⟨active, revoked, OrdMap.forall_delete bindings,
        OrdMap.forall_set ⟨⟨writerId, encoded⟩, ?_⟩ revokedBindings, errors⟩
      exact complete _ (by simp [TrustSubject.texts])
  · refine ⟨active, revoked, bindings, revokedBindings, fun e mem => ?_⟩
    rcases List.mem_append.mp mem with old | new
    · exact errors e old
    · rw [List.mem_singleton.mp new]
      exact some_

/-! ### What a record adds -/

theorem Accepts.errors (accepted : Accepts options ctx rec next) : next.errors = ctx.errors := by
  cases accepted <;> rfl

theorem Accepts.verified (accepted : Accepts options ctx rec next) : Verified options ctx rec := by
  cases accepted <;> assumption

theorem not_accepts_pushError : ¬ Accepts options ctx rec (ctx.pushError rec.recordId text) := by
  intro accepted
  have same := congrArg List.length accepted.errors
  simp [pushError] at same

theorem Accepts.knows (accepted : Accepts options ctx rec next) (keyId) :
    next.Knows keyId ↔ ctx.Knows keyId ∨ ∃ publicKey, rec.subject = .keyAdd keyId publicKey := by
  simp only [Knows, OrdMap.has_eq_true_iff]
  cases accepted with
  | keyAdd added publicKey subject =>
    by_cases same : added = keyId
    · simp [subject, same]
    · simp [subject, same]
  | keyRevoke revoked reasonCode info subject _ _ held =>
    by_cases same : revoked = keyId
    · subst same
      simp [subject, held]
    · simp [subject, same]
  | bindAdd writerId bound info subject | bindRevoke writerId bound reasonCode binding subject =>
    simp [subject]

theorem Accepts.dateOf (accepted : Accepts options ctx rec next) (slot) :
    rec.subject.written = slot ∧ next.dateOf slot = some rec.issuedAt ∨
      rec.subject.written ≠ slot ∧ rec.subject.cleared = some slot ∧ next.dateOf slot = none ∨
      rec.subject.written ≠ slot ∧ rec.subject.cleared ≠ some slot ∧
        next.dateOf slot = ctx.dateOf slot := by
  cases accepted with
  | keyAdd keyId publicKey subject =>
    rw [subject]
    cases slot <;> simp [TrustSubject.written, TrustSubject.cleared, TrustBuildContext.dateOf]
    next other => by_cases same : keyId = other <;> simp [same]
  | keyRevoke keyId reasonCode info subject =>
    rw [subject]
    cases slot <;> simp [TrustSubject.written, TrustSubject.cleared, TrustBuildContext.dateOf]
    all_goals next other => by_cases same : keyId = other <;> simp [same]
  | bindAdd writerId keyId info subject =>
    rw [subject]
    cases slot <;> simp [TrustSubject.written, TrustSubject.cleared, TrustBuildContext.dateOf]
    next other => by_cases same : bindingText writerId keyId = other <;> simp [same]
  | bindRevoke writerId keyId reasonCode binding subject =>
    rw [subject]
    cases slot <;> simp [TrustSubject.written, TrustSubject.cleared, TrustBuildContext.dateOf]
    all_goals next other => by_cases same : bindingText writerId keyId = other <;> simp [same]

theorem assertKeyId_ok {keyId field : JsString} :
    assertKeyId keyId field = .ok () ↔ isKeyId keyId = true := by
  unfold assertKeyId assertNonEmptyString
  by_cases blank : keyId = []
  · simp [blank, isKeyId, bind, Except.bind]
  · by_cases form : isKeyId keyId = true <;>
      simp [blank, form, bind, Except.bind, pure, Except.pure, throw, throwThe, MonadExceptOf.throw]

theorem encodeBindingKey_ok :
    encodeBindingKey writerId keyId = .ok key ↔ key = bindingText writerId keyId ∧
      writerId ≠ [] ∧ bindingKeySeparator ∉ writerId ∧ isKeyId keyId = true := by
  rw [encodeBindingKey, check_then_eq_ok, check_then_eq_ok, assertWriterId_ok, assertKeyId_ok]
  constructor
  · rintro ⟨⟨named, absent⟩, form, same⟩
    exact ⟨(Except.ok.inj same).symm, named, absent, form⟩
  · rintro ⟨rfl, named, absent, form⟩
    exact ⟨⟨named, absent⟩, form, rfl⟩

/-- A handler throws only at a verified binding that is not well named. -/
theorem processRecord_error (failed : processRecord options ctx rec = .error e) :
    Verified options ctx rec ∧ ¬ rec.subject.WellNamed := by
  unfold processRecord at failed
  have complete := rec.subjectComplete
  cases verified : validateCryptography options rec ctx with
  | error text =>
    rw [verified] at failed
    cases failed
  | ok _ =>
    rw [verified] at failed
    refine ⟨verified, ?_⟩
    cases subject : rec.subject with
    | keyAdd keyId publicKey | keyRevoke keyId reasonCode => simp [subject] at failed
    | bindAdd writerId keyId =>
      rw [subject] at complete
      rintro ⟨absent, form⟩
      have encoded := encodeBindingKey_ok.mpr ⟨rfl, complete writerId (by simp [TrustSubject.texts]),
        absent, form⟩
      simp only [subject, handleBindAdd, encoded, bind, Except.bind] at failed
      split at failed
      · cases failed
      · split at failed <;> cases failed
    | bindRevoke writerId keyId reasonCode =>
      rw [subject] at complete
      rintro ⟨absent, form⟩
      have encoded := encodeBindingKey_ok.mpr ⟨rfl, complete writerId (by simp [TrustSubject.texts]),
        absent, form⟩
      simp only [subject, handleBindRevoke, encoded, bind, Except.bind] at failed
      split at failed <;> cases failed

/-- The key ids of the state have the right form. -/
def TrustBuildContext.KeysNamed (ctx : TrustBuildContext) : Prop :=
  ∀ keyId, ctx.Knows keyId → isKeyId keyId = true

/-- A verified record that a handler lets pass has a well-named subject, if its key is known
under a well-formed id. -/
theorem wellNamed_of_ran (ran : processRecord options ctx rec = .ok next)
    (verified : Verified options ctx rec) (named : next.KeysNamed) : rec.subject.WellNamed := by
  unfold processRecord at ran
  rw [show validateCryptography options rec ctx = .ok () from verified] at ran
  cases subject : rec.subject with
  | keyAdd keyId publicKey =>
    simp only [subject, Except.ok.injEq, handleKeyAdd] at ran
    refine named keyId ?_
    split at ran
    next revoked => exact ran ▸ Or.inr revoked
    · split at ran
      next active => exact ran ▸ Or.inl active
      · rw [← ran]
        exact Or.inl ((OrdMap.has_eq_true_iff _ _).mpr ⟨⟨publicKey, rec.issuedAt⟩, by simp⟩)
  | keyRevoke keyId reasonCode => trivial
  | bindAdd writerId keyId =>
    simp only [subject, handleBindAdd] at ran
    obtain ⟨key, encoded, -⟩ := bind_eq_ok.mp ran
    exact (encodeBindingKey_ok.mp encoded).2.2
  | bindRevoke writerId keyId reasonCode =>
    simp only [subject, handleBindRevoke] at ran
    obtain ⟨key, encoded, -⟩ := bind_eq_ok.mp ran
    exact (encodeBindingKey_ok.mp encoded).2.2

theorem keysNamed_iff (ran : processRecord options ctx rec = .ok next) :
    next.KeysNamed ↔ ctx.KeysNamed ∧ (Verified options ctx rec → rec.subject.WellNamed) := by
  rcases processRecord_spec ran with accepted | ⟨text, -, same⟩
  · constructor
    · intro named
      exact ⟨fun keyId known => named keyId ((accepted.knows keyId).mpr (Or.inl known)),
        fun verified => wellNamed_of_ran ran verified named⟩
    · rintro ⟨named, wellNamed⟩ keyId known
      rcases (accepted.knows keyId).mp known with old | ⟨publicKey, subject⟩
      · exact named keyId old
      · have added := wellNamed accepted.verified
        rw [subject] at added
        exact added
  · have kept : next.KeysNamed ↔ ctx.KeysNamed := by
      rw [same]
      rfl
    rw [kept, iff_self_and]
    exact fun named verified => wellNamed_of_ran ran verified (kept.mpr named)

/-- Every error names its record. -/
def TrustBuildContext.Reported (ctx : TrustBuildContext) : Prop := ∀ e ∈ ctx.errors, e.recordId ≠ []

theorem reported_iff (ran : processRecord options ctx rec = .ok next) :
    next.Reported ↔ ctx.Reported ∧ (rec.recordId = [] → Accepts options ctx rec next) := by
  rcases processRecord_spec ran with accepted | ⟨text, -, rfl⟩
  · rw [TrustBuildContext.Reported, accepted.errors]
    exact ⟨fun reported => ⟨reported, fun _ => accepted⟩, fun both => both.1⟩
  · simp only [TrustBuildContext.Reported, pushError, List.forall_mem_append, List.forall_mem_singleton]
    exact and_congr_right fun _ => ⟨fun some_ none_ => (some_ none_).elim,
      fun refused none_ => not_accepts_pushError (refused none_)⟩

/-- Every time of the state that is empty is still to be replaced. -/
def Dated (options : TrustBuildOptions) (ctx : TrustBuildContext) (records : List TrustRecord) :
    Prop :=
  ∀ slot, ctx.dateOf slot = some [] → Replaced options slot ctx records

theorem dated_iff (ran : processRecord options ctx rec = .ok next) (rest) :
    Dated options next rest ↔ Dated options ctx (rec :: rest) ∧
      (Accepts options ctx rec next → rec.issuedAt = [] →
        Replaced options rec.subject.written next rest) := by
  have once (slot : Slot) : Replaced options slot ctx (rec :: rest) ↔ Accepts options ctx rec next ∧
          (rec.subject.written = slot ∨ rec.subject.cleared = some slot) ∨
        Replaced options slot next rest := by
    simp only [Replaced, ran, Except.ok.injEq, exists_eq_left']
  simp only [Dated, once]
  rcases processRecord_spec ran with accepted | ⟨text, -, same⟩
  · simp only [accepted, true_and, true_implies]
    constructor
    · refine fun dated => ⟨fun slot blank => ?_, fun blank => ?_⟩
      · rcases accepted.dateOf slot with ⟨here, -⟩ | ⟨-, cleared, -⟩ | ⟨-, -, kept⟩
        · exact Or.inl (Or.inl here)
        · exact Or.inl (Or.inr cleared)
        · exact Or.inr (dated slot (kept.trans blank))
      · rcases accepted.dateOf rec.subject.written with ⟨-, now⟩ | ⟨other, -⟩ | ⟨other, -⟩
        · exact dated _ (by rw [now, blank])
        · exact (other rfl).elim
        · exact (other rfl).elim
    · rintro ⟨dated, fresh⟩ slot blank
      rcases accepted.dateOf slot with ⟨rfl, now⟩ | ⟨-, -, gone⟩ | ⟨differ, uncleared, kept⟩
      · exact fresh (Option.some.inj (now.symm.trans blank))
      · cases gone.symm.trans blank
      · rcases dated slot (kept.symm.trans blank) with (here | cleared) | later
        · exact (differ here).elim
        · exact (uncleared cleared).elim
        · exact later
  · have refused : ¬ Accepts options ctx rec next := same ▸ not_accepts_pushError
    simp only [refused, false_and, false_or, false_implies, and_true]
    rw [same]
    rfl

/-! ### The constructor -/

theorem forM_ok {A : Type} {check : A → Except Failure Unit} {items : List A} :
    items.forM check = .ok () ↔ ∀ a ∈ items, check a = .ok () := by
  induction items with
  | nil => simp [pure, Except.pure]
  | cons a rest ih =>
    rw [show (a :: rest).forM check = (check a >>= fun _ => rest.forM check) from rfl,
      check_then_eq_ok, ih, List.forall_mem_cons]

theorem assertNonEmptyString_trust {value field : JsString} :
    assertNonEmptyString value field = .ok () ↔ value ≠ [] := by
  unfold assertNonEmptyString
  split <;> simp [*]

theorem parseBindingKey_encoded (encoded : encodeBindingKey writerId keyId = .ok key) (field) :
    parseBindingKey key field = .ok ⟨writerId, keyId⟩ := by
  obtain ⟨rfl, named, absent, form⟩ := encodeBindingKey_ok.mp encoded
  have digits : bindingKeySeparator ∉ keyId := by
    intro inside
    simp only [isKeyId, Bool.and_eq_true, decide_eq_true_eq, List.all_eq_true] at form
    rw [← List.take_append_drop 8 keyId] at inside
    rcases List.mem_append.mp inside with head | tail
    · obtain ⟨rest, whole⟩ := List.isPrefixOf_iff_prefix.mp form.1.1
      rw [← whole, List.take_left' (by decide)] at head
      revert head
      decide
    · exact absurd (form.2 _ tail) (by decide)
  have found : (bindingText writerId keyId).idxOf? bindingKeySeparator = some writerId.length := by
    simp only [bindingText, List.idxOf?_eq_some_iff]
    refine ⟨by simp, by simp, fun j inside => ?_⟩
    rw [List.getElem_append_left inside]
    exact fun same => absent (same ▸ List.getElem_mem inside)
  have last := Dot.lastIndexOf_append_cons writerId digits
  rw [← bindingText] at last
  have cut : (bindingText writerId keyId).take writerId.length = writerId ∧
      (bindingText writerId keyId).drop (writerId.length + 1) = keyId := by
    simp [bindingText, List.drop_append]
  have some_ : writerId.length ≠ 0 := fun zero => named (List.length_eq_zero_iff.mp zero)
  have wide : bindingText writerId keyId ≠ [] := by simp [bindingText]
  rw [parseBindingKey, assertNonEmptyString_trust.mpr wide]
  simp only [bind, Except.bind, found, some_, last, cut, ne_eq, not_true_eq_false, or_self, if_false]
  rw [(assertWriterId_ok _).mpr ⟨named, absent⟩, assertKeyId_ok.mpr form]
  rfl

theorem create_isOk_iff (sound : ctx.Sound) (recordsProcessed) :
    (∃ state, TrustState.create ctx recordsProcessed = .ok state) ↔
      ctx.KeysNamed ∧ ctx.Reported ∧ ∀ slot, ctx.dateOf slot ≠ some [] := by
  obtain ⟨active, revoked, bindings, revokedBindings, errors⟩ := sound
  simp only [TrustState.create, check_then_eq_ok, forM_ok, Prod.forall, OrdMap.mem_entries_iff,
    checkActiveKey, checkRevokedKey, checkWriterBinding, checkRevokedBinding, checkBuildError,
    assertKeyId_ok, assertNonEmptyString_trust]
  constructor
  · rintro ⟨state, actives, revokeds, bound, unbound, texts, -⟩
    refine ⟨fun keyId known => ?_, fun e mem => (texts e mem).1, fun slot blank => ?_⟩
    · simp only [Knows, OrdMap.has_eq_true_iff] at known
      rcases known with ⟨info, found⟩ | ⟨info, found⟩
      · exact (actives keyId info found).1
      · exact (revokeds keyId info found).1
    · cases slot with
      | activeKey keyId =>
        obtain ⟨info, found, none_⟩ := Option.map_eq_some_iff.mp blank
        exact (actives keyId info found).2.2 none_
      | revokedKey keyId =>
        obtain ⟨info, found, none_⟩ := Option.map_eq_some_iff.mp blank
        exact (revokeds keyId info found).2.2.1 none_
      | binding key =>
        obtain ⟨info, found, none_⟩ := Option.map_eq_some_iff.mp blank
        obtain ⟨parsed, -, rest⟩ := bind_eq_ok.mp (bound key info found)
        simp only [check_then_eq_ok, assertNonEmptyString_trust] at rest
        exact rest.2.1 none_
      | revokedBinding key =>
        obtain ⟨info, found, none_⟩ := Option.map_eq_some_iff.mp blank
        obtain ⟨parsed, -, rest⟩ := bind_eq_ok.mp (unbound key info found)
        simp only [check_then_eq_ok, assertNonEmptyString_trust] at rest
        exact rest.2.1 none_
  · rintro ⟨named, reported, dated⟩
    refine ⟨⟨ctx, recordsProcessed⟩, fun keyId info found => ⟨?_, active _ _ found, ?_⟩,
      fun keyId info found => ⟨?_, (revoked _ _ found).1, ?_, (revoked _ _ found).2⟩,
      fun key info found => ?_, fun key info found => ?_,
      fun e mem => ⟨reported e mem, errors e mem⟩, rfl⟩
    · exact named keyId (Or.inl ((OrdMap.has_eq_true_iff _ _).mpr ⟨info, found⟩))
    · exact fun blank => dated (.activeKey keyId) (by simp [TrustBuildContext.dateOf, found, blank])
    · exact named keyId (Or.inr ((OrdMap.has_eq_true_iff _ _).mpr ⟨info, found⟩))
    · exact fun blank => dated (.revokedKey keyId) (by simp [TrustBuildContext.dateOf, found, blank])
    · obtain ⟨writerId, encoded⟩ := bindings key info found
      have date : info.boundAt ≠ [] := fun blank =>
        dated (.binding key) (by simp [TrustBuildContext.dateOf, found, blank])
      have form := (encodeBindingKey_ok.mp encoded).2.2.2
      simp only [parseBindingKey_encoded encoded, bind, Except.bind, assertKeyId_ok.mpr form,
        assertNonEmptyString_trust.mpr date, assertMatchingBindingKey, if_true]
    · obtain ⟨⟨writerId, encoded⟩, reason⟩ := revokedBindings key info found
      have date : info.revokedAt ≠ [] := fun blank =>
        dated (.revokedBinding key) (by simp [TrustBuildContext.dateOf, found, blank])
      have form := (encodeBindingKey_ok.mp encoded).2.2.2
      simp only [parseBindingKey_encoded encoded, bind, Except.bind, assertKeyId_ok.mpr form,
        assertNonEmptyString_trust.mpr date, assertNonEmptyString_trust.mpr reason,
        assertMatchingBindingKey, if_true]

/-! ### Whole chains -/

/-- From any context that can arise, the state is built exactly from orderly records. -/
theorem built_iff (options) (sound : ctx.Sound) (records) (recordsProcessed) :
    (∃ final state, records.foldlM (processRecord options) ctx = .ok final ∧
        TrustState.create final recordsProcessed = .ok state) ↔
      ctx.KeysNamed ∧ ctx.Reported ∧ Dated options ctx records ∧ Orderly options ctx records := by
  induction records generalizing ctx with
  | nil =>
    simp only [List.foldlM_nil, pure, Except.pure, Except.ok.injEq, exists_and_left,
      exists_eq_left', Dated, Replaced, Orderly, and_true]
    exact create_isOk_iff sound recordsProcessed
  | cons rec rest ih =>
    rw [Orderly]
    cases ran : processRecord options ctx rec with
    | error e =>
      obtain ⟨verified, ill⟩ := processRecord_error ran
      simp [List.foldlM_cons, ran, bind, Except.bind, verified, ill]
    | ok next =>
      simp only [List.foldlM_cons, ran, bind, Except.bind, Except.ok.injEq, forall_eq']
      rw [ih (sound.step ran), keysNamed_iff ran, reported_iff ran, dated_iff ran rest]
      tauto

theorem errors_kept (ran : processRecord options ctx rec = .ok next) (mem : e ∈ ctx.errors) :
    e ∈ next.errors := by
  rcases processRecord_cases ran with accepted | ⟨text, rfl⟩
  · exact accepted.errors ▸ mem
  · exact List.mem_append_left _ mem

theorem errors_kept_run {records : List TrustRecord}
    (ran : records.foldlM (processRecord options) ctx = .ok final) (mem : e ∈ ctx.errors) :
    e ∈ final.errors := by
  induction records generalizing ctx with
  | nil =>
    cases ran
    exact mem
  | cons rec rest ih =>
    obtain ⟨next, first, later⟩ := bind_eq_ok.mp ran
    exact ih later (errors_kept first mem)

theorem trust_build_total_iff (options : TrustBuildOptions) (records : List TrustRecord) :
    Total options records ↔ Orderly options empty records := by
  have built := built_iff options sound_empty records records.length
  have nothing : empty.KeysNamed ∧ empty.Reported ∧ Dated options empty records := by
    refine ⟨fun keyId known => ?_, by simp [TrustBuildContext.Reported, empty], fun slot blank => ?_⟩
    · simp [Knows, OrdMap.has_eq_true_iff, empty] at known
    · cases slot <;> simp [TrustBuildContext.dateOf, empty] at blank
  simp only [nothing, true_and] at built
  rw [← built]
  constructor
  · rintro ⟨state, ran, -⟩
    obtain ⟨final, processed, created⟩ := bind_eq_ok.mp ran
    exact ⟨final, state, processed, created⟩
  · rintro ⟨final, state, processed, created⟩
    refine ⟨state, bind_eq_ok.mpr ⟨final, processed, created⟩, ?_⟩
    rintro before rec after ctx next rfl reached step refused
    obtain accepted | ⟨text, rfl⟩ := processRecord_cases step
    · exact (refused accepted).elim
    refine ⟨text, rfl, ?_⟩
    -- the error is there after the record, and no later record takes it away
    rw [List.foldlM_append] at processed
    obtain ⟨middle, first, later⟩ := bind_eq_ok.mp processed
    cases Except.ok.inj (first.symm.trans reached)
    obtain ⟨next', same, later⟩ := bind_eq_ok.mp later
    cases Except.ok.inj (same.symm.trans step)
    rw [TrustState.create_ok _ state created]
    exact errors_kept_run later (List.mem_append_right _ (List.mem_singleton.mpr rfl))

/-! ### One binding -/

/-- A binding of a writer whose id holds the separator of binding keys. -/
def separatedBinding : DecodedTrustRecord where
  schemaVersion := 1
  recordType := lit "WRITER_BIND_ADD"
  recordId := lit "r"
  issuerKeyId := lit "k"
  issuedAt := lit "2026-01-01T00:00:00Z"
  subject key := if key = lit "writerId" then some [97, 0, 98] else some (lit "k")
  alg := lit "ed25519"
  sig := lit "s"
  signaturePayload := []

theorem separated_binding_throws : ∃ rec, fromDecoded separatedBinding = .ok rec ∧
    ¬ Total ⟨none, none⟩ [rec] := by
  refine ⟨_, rfl, ?_⟩
  rintro ⟨state, built, -⟩
  cases built

end GitWarp.Trust
