import GitWarp.Trust.TrustEvaluator

/-!
# The chain of custody

Whoever adds a key or binds a writer is meant to hold a key that is active at that moment.
The builder does not ask of a `KEY_ADD` that names its own key as issuer that it be the
first record; the chain of custody holds exactly where no such record comes later on.
-/
namespace GitWarp.Trust

open Js Lib TrustBuildContext List

/-! ### Custody -/

/-- The builder with a signature verifier; fingerprints are checked or not. -/
def verifying (verifier : TrustRecord → JsString → Except Failure Bool)
    (computeKeyFingerprint : Option (JsString → Except Failure JsString)) : TrustBuildOptions :=
  ⟨some verifier, computeKeyFingerprint⟩

/-- The record is signed with the key that it names as issuer, and that key is active. -/
def SignedByActive (Signed : TrustRecord → JsString → Prop) (ctx : TrustBuildContext)
    (rec : TrustRecord) : Prop :=
  ∃ info, ctx.activeKeys.get rec.issuerKeyId = some info ∧ Signed rec info.publicKey

/-- Some record of the sequence was processed without an error. -/
def AcceptedAmong (options : TrustBuildOptions) (records : List TrustRecord) : Prop :=
  ∃ before rec after ctx next, records = before ++ rec :: after ∧
    processRecords options before = .ok ctx ∧ processRecord options ctx rec = .ok next ∧
    next.errors = ctx.errors

/-- The key was added by the first accepted record, or by one signed with an active key. -/
def KeyIntroduced (options : TrustBuildOptions) (Signed : TrustRecord → JsString → Prop)
    (records : List TrustRecord) (keyId : JsString) : Prop :=
  ∃ before rec after ctx publicKey, records = before ++ rec :: after ∧
    rec.subject = .keyAdd keyId publicKey ∧ processRecords options before = .ok ctx ∧
    (AcceptedAmong options before → SignedByActive Signed ctx rec)

/-- The binding was made by a record signed with an active key, and has been there ever since. -/
def BindingIntroduced (options : TrustBuildOptions) (Signed : TrustRecord → JsString → Prop)
    (records : List TrustRecord) (writerId keyId : JsString) : Prop :=
  ∃ before rec after ctx, records = before ++ rec :: after ∧
    rec.subject = .bindAdd writerId keyId ∧ processRecords options before = .ok ctx ∧
    SignedByActive Signed ctx rec ∧
    ∀ mid later, before ++ [rec] <+: mid → mid <+: records →
      processRecords options mid = .ok later →
        later.writerBindings.has (bindingText writerId keyId) = true

structure Custody (options : TrustBuildOptions) (Signed : TrustRecord → JsString → Prop)
    (records : List TrustRecord) : Prop where
  disjoint : ∀ before ctx, before <+: records → processRecords options before = .ok ctx →
    ∀ k, ¬ (ctx.activeKeys.has k = true ∧ ctx.revokedKeys.has k = true)
  revocation : ∀ before later ctx next, before <+: later → later <+: records →
    processRecords options before = .ok ctx → processRecords options later = .ok next →
      ∀ k, ctx.revokedKeys.has k = true → next.activeKeys.has k = false
  succession : ∀ before rec ctx next, before ++ [rec] <+: records →
    processRecords options before = .ok ctx → processRecord options ctx rec = .ok next →
      AcceptedAmong options before → ∀ k, ctx.activeKeys.has k = false →
        next.activeKeys.has k = true → SignedByActive Signed ctx rec
  trusted : ∀ before state writerIds policy assessment, before <+: records →
    buildState options before = .ok state →
      evaluateWriters writerIds state policy = .ok assessment →
        ∀ e ∈ assessment.trust.explanations, e.trusted = true →
          ∃ keyId, BindingIntroduced options Signed before e.writerId keyId ∧
            KeyIntroduced options Signed before keyId ∧ state.activeKeys.has keyId = true

/-- Some key is known, be it active or revoked. -/
def Founded (ctx : TrustBuildContext) : Prop :=
  ∃ k, ctx.activeKeys.has k = true ∨ ctx.revokedKeys.has k = true

/-- A `KEY_ADD` for a new key that names that key as its own issuer, and passes every check. -/
def SelfIssued (options : TrustBuildOptions)
    (verifier : TrustRecord → JsString → Except Failure Bool) (ctx : TrustBuildContext)
    (rec : TrustRecord) : Prop :=
  ∃ keyId publicKey, rec.subject = .keyAdd keyId publicKey ∧ rec.issuerKeyId = keyId ∧
    ctx.revokedKeys.has keyId = false ∧ ctx.activeKeys.has keyId = false ∧
    validateKeyFingerprint options rec = .ok () ∧ verifier rec publicKey = .ok true

/-- No such record comes once a key is known. -/
def FoundedOnce (options : TrustBuildOptions)
    (verifier : TrustRecord → JsString → Except Failure Bool) (records : List TrustRecord) :
    Prop :=
  ∀ before rec ctx, before ++ [rec] <+: records → processRecords options before = .ok ctx →
    Founded ctx → ¬ SelfIssued options verifier ctx rec

/-! ### Processing in order -/

variable (options : TrustBuildOptions)

theorem processRecords_snoc {before rec next} :
    processRecords options (before ++ [rec]) = .ok next ↔
      ∃ ctx, processRecords options before = .ok ctx ∧ processRecord options ctx rec = .ok next := by
  rw [processRecords, foldlM_append, bind_eq_ok]
  simp only [foldlM_cons, foldlM_nil, bind_eq_ok, processRecords]
  constructor
  · rintro ⟨ctx, done, next', step, last⟩
    cases last
    exact ⟨ctx, done, step⟩
  · rintro ⟨ctx, done, step⟩
    exact ⟨ctx, done, next, step, rfl⟩

theorem processRecords_invariant (Inv : List TrustRecord → TrustBuildContext → Prop)
    (init : Inv [] empty)
    (step : ∀ before rec ctx next, Inv before ctx → processRecords options before = .ok ctx →
      processRecord options ctx rec = .ok next → Inv (before ++ [rec]) next) (ctx)
    (ran : processRecords options records = .ok ctx) : Inv records ctx := by
  induction records using List.reverseRecOn generalizing ctx with
  | nil =>
    cases ran
    exact init
  | append_singleton before rec ih =>
    obtain ⟨middle, done, last⟩ := (processRecords_snoc options).mp ran
    exact step before rec middle ctx (ih middle done) done last

theorem processRecords_kept {P : TrustBuildContext → Prop}
    (step : ∀ rec ctx next, P ctx → processRecord options ctx rec = .ok next → P next)
    {before later} (ctx next) (extends_ : before <+: later)
    (done : processRecords options before = .ok ctx) (init : P ctx)
    (ran : processRecords options later = .ok next) : P next := by
  obtain ⟨extra, rfl⟩ := extends_
  induction extra using List.reverseRecOn generalizing next with
  | nil =>
    rw [append_nil, done] at ran
    cases ran
    exact init
  | append_singleton extra rec ih =>
    rw [← append_assoc] at ran
    obtain ⟨middle, upto, last⟩ := (processRecords_snoc options).mp ran
    exact step rec middle next (ih middle upto) last

/-! ### Steps -/

theorem pushError_errors_ne {ctx : TrustBuildContext} :
    (ctx.pushError recordId text).errors ≠ ctx.errors := by
  intro same
  have longer := congrArg List.length same
  simp [pushError] at longer

theorem accepts_iff {ctx next rec} (ran : processRecord options ctx rec = .ok next) :
    next.errors = ctx.errors ↔ Accepts options ctx rec next := by
  constructor
  · intro same
    cases processRecord_cases ran with
    | inl accepted => exact accepted
    | inr rejected =>
      obtain ⟨text, rfl⟩ := rejected
      exact absurd same (pushError_errors_ne)
  · intro accepted
    cases accepted <;> rfl

/-! ### What holds of every sequence -/

variable (rec : TrustRecord)

theorem disjoint_kept {next}
    (apart : ∀ k, ¬ (ctx.activeKeys.has k = true ∧ ctx.revokedKeys.has k = true))
    (ran : processRecord options ctx rec = .ok next) :
    ∀ k, ¬ (next.activeKeys.has k = true ∧ next.revokedKeys.has k = true) := by
  cases processRecord_cases ran with
  | inr rejected =>
    obtain ⟨text, rfl⟩ := rejected
    exact apart
  | inl accepted =>
    intro k
    have here := apart k
    simp only [OrdMap.has] at here ⊢
    cases accepted with
    | keyAdd keyId publicKey subject verified unrevoked inactive =>
      by_cases same : keyId = k
      · subst same
        simp [unrevoked]
      · simpa [same] using here
    | keyRevoke keyId reasonCode info subject verified unrevoked active =>
      by_cases same : keyId = k
      · subst same
        simp
      · simpa [same] using here
    | bindAdd writerId keyId info subject verified encoded active
    | bindRevoke writerId keyId reasonCode binding subject verified encoded bound => exact here

theorem disjoint_always (ran : processRecords options records = .ok ctx) :
    ∀ k, ¬ (ctx.activeKeys.has k = true ∧ ctx.revokedKeys.has k = true) := by
  apply processRecords_invariant options
    (fun _ ctx => ∀ k, ¬ (ctx.activeKeys.has k = true ∧ ctx.revokedKeys.has k = true))
    (by simp [empty, OrdMap.has]) ?_ ctx ran
  intro before rec ctx next apart _ step
  exact disjoint_kept options rec apart step

theorem revoked_kept {next} (k) (revoked : ctx.revokedKeys.has k = true)
    (ran : processRecord options ctx rec = .ok next) : next.revokedKeys.has k = true := by
  cases processRecord_cases ran with
  | inr rejected =>
    obtain ⟨text, rfl⟩ := rejected
    exact revoked
  | inl accepted =>
    cases accepted with
    | keyRevoke keyId reasonCode info subject verified unrevoked active =>
      simp only [OrdMap.has, OrdMap.get_set] at revoked ⊢
      split
      · rfl
      · exact revoked
    | keyAdd keyId publicKey subject verified unrevoked inactive
    | bindAdd writerId keyId info subject verified encoded active
    | bindRevoke writerId keyId reasonCode binding subject verified encoded bound => exact revoked

theorem founded_kept {next} (founded : Founded ctx) (ran : processRecord options ctx rec = .ok next) :
    Founded next := by
  cases processRecord_cases ran with
  | inr rejected =>
    obtain ⟨text, rfl⟩ := rejected
    exact founded
  | inl accepted =>
    obtain ⟨k, known⟩ := founded
    cases accepted with
    | keyAdd keyId publicKey subject verified unrevoked inactive =>
      exact ⟨keyId, Or.inl (by simp [OrdMap.has])⟩
    | keyRevoke keyId reasonCode info subject verified unrevoked active =>
      exact ⟨keyId, Or.inr (by simp [OrdMap.has])⟩
    | bindAdd writerId keyId info subject verified encoded active => exact ⟨k, known⟩
    | bindRevoke writerId keyId reasonCode binding subject verified encoded bound =>
      exact ⟨k, known⟩

section Verifying

variable (verifier : TrustRecord → JsString → Except Failure Bool)
  (computeKeyFingerprint : Option (JsString → Except Failure JsString))
  (Signed : TrustRecord → JsString → Prop)

theorem resolveIssuerKey_cases {activeKeys publicKey}
    (resolved : resolveIssuerKey rec activeKeys = some publicKey) :
    (∃ keyId, rec.subject = .keyAdd keyId publicKey ∧ rec.issuerKeyId = keyId) ∨
      ∃ info, activeKeys.get rec.issuerKeyId = some info ∧ info.publicKey = publicKey := by
  unfold resolveIssuerKey at resolved
  cases held : activeKeys.get rec.issuerKeyId with
  | none =>
    simp only [held] at resolved
    cases subject : rec.subject with
    | keyAdd keyId declared =>
      simp only [subject] at resolved
      split at resolved
      next own => exact Or.inl ⟨keyId, by rw [Option.some.inj resolved], own⟩
      · cases resolved
    | _ =>
      rw [subject] at resolved
      cases resolved
  | some info =>
    have active (found : (if info.publicKey = [] then none else some info.publicKey) =
        some publicKey) : ∃ other, some info = some other ∧ other.publicKey = publicKey := by
      split at found
      · cases found
      · exact ⟨info, rfl, Option.some.inj found⟩
    simp only [held] at resolved
    cases subject : rec.subject with
    | keyAdd keyId declared =>
      simp only [subject] at resolved
      split at resolved
      next own => exact Or.inl ⟨keyId, by rw [Option.some.inj resolved], own⟩
      · exact Or.inr (active resolved)
    | _ =>
      rw [subject] at resolved
      exact Or.inr (active resolved)

theorem verified_cases (sound : ∀ rec publicKey, verifier rec publicKey = .ok true →
      Signed rec publicKey) {ctx rec}
    (verified : Verified (verifying verifier computeKeyFingerprint) ctx rec) :
    (∃ keyId publicKey, rec.subject = .keyAdd keyId publicKey ∧ rec.issuerKeyId = keyId ∧
      validateKeyFingerprint (verifying verifier computeKeyFingerprint) rec = .ok () ∧
      verifier rec publicKey = .ok true) ∨
    SignedByActive Signed ctx rec := by
  -- a verified record is signed with the key it declares itself, or with an active key
  unfold Verified validateCryptography at verified
  cases fingerprint : validateKeyFingerprint (verifying verifier computeKeyFingerprint) rec with
  | error text =>
    rw [fingerprint] at verified
    cases verified
  | ok _ =>
    rw [fingerprint] at verified
    change validateSignature verifier rec ctx.activeKeys = .ok () at verified
    unfold validateSignature at verified
    split at verified
    · cases verified
    next publicKey resolved =>
      split at verified
      next answer =>
        cases resolveIssuerKey_cases rec resolved with
        | inl own =>
          obtain ⟨keyId, subject, issuer⟩ := own
          exact Or.inl ⟨keyId, publicKey, subject, issuer, rfl, answer⟩
        | inr active =>
          obtain ⟨info, held, rfl⟩ := active
          exact Or.inr ⟨info, held, sound rec info.publicKey answer⟩
      · cases verified
      · cases verified

/-! ### The first accepted record -/

include verifier computeKeyFingerprint in
theorem founded_of_accepts {ctx next rec}
    (accepted : Accepts (verifying verifier computeKeyFingerprint) ctx rec next) :
    Founded next := by
  cases accepted with
  | keyAdd keyId publicKey subject verified unrevoked inactive =>
    exact ⟨keyId, Or.inl (by simp [OrdMap.has])⟩
  | keyRevoke keyId reasonCode info subject verified unrevoked active =>
    exact ⟨keyId, Or.inr (by simp [OrdMap.has])⟩
  | bindAdd writerId keyId info subject verified encoded active =>
    exact ⟨keyId, Or.inl (by simp [OrdMap.has, active])⟩
  | bindRevoke writerId keyId reasonCode binding subject verified encoded bound =>
    -- not a `KEY_ADD`, so its issuer is active
    cases verified_cases verifier computeKeyFingerprint (fun _ _ => True)
      (fun _ _ _ => trivial) verified with
    | inl own =>
      obtain ⟨k, publicKey, added, -⟩ := own
      rw [subject] at added
      cases added
    | inr signed =>
      obtain ⟨info, active, -⟩ := signed
      exact ⟨rec.issuerKeyId, Or.inl (by simp [OrdMap.has, active])⟩

theorem acceptedAmong_iff
    (ran : processRecords (verifying verifier computeKeyFingerprint) records = .ok ctx) :
    AcceptedAmong (verifying verifier computeKeyFingerprint) records ↔ Founded ctx := by
  -- keys are known exactly when some record has been accepted
  constructor
  · rintro ⟨before, rec, after, middle, next, rfl, done, step, same⟩
    have accepted := (accepts_iff _ step).mp same
    have upto := (processRecords_snoc _).mpr ⟨middle, done, step⟩
    -- what the record leaves behind is never lost
    exact processRecords_kept _ (fun rec ctx next => founded_kept _ rec) next ctx ⟨after, by simp⟩ upto
      (founded_of_accepts verifier computeKeyFingerprint accepted) ran
  · apply processRecords_invariant _
      (fun records ctx => Founded ctx →
        AcceptedAmong (verifying verifier computeKeyFingerprint) records) ?_ ?_ ctx ran
    · rintro ⟨k, known⟩
      simp [empty, OrdMap.has] at known
    · intro before rec ctx next ih done step founded
      cases processRecord_cases step with
      | inl accepted =>
        exact ⟨before, rec, [], ctx, next, rfl, done, step, (accepts_iff _ step).mpr accepted⟩
      | inr rejected =>
        obtain ⟨text, rfl⟩ := rejected
        obtain ⟨b, r, a, c, n, rfl, earlier, took, same⟩ := ih founded
        exact ⟨b, r, a ++ [rec], c, n, by simp, earlier, took, same⟩

/-! ### Where keys and bindings come from -/

variable {verifier computeKeyFingerprint Signed} in
theorem succession_of_foundedOnce
    (sound : ∀ rec publicKey, verifier rec publicKey = .ok true → Signed rec publicKey)
    (once : FoundedOnce (verifying verifier computeKeyFingerprint) verifier records)
    {before rec ctx next} (inside : before ++ [rec] <+: records)
    (done : processRecords (verifying verifier computeKeyFingerprint) before = .ok ctx)
    (step : processRecord (verifying verifier computeKeyFingerprint) ctx rec = .ok next)
    (accepted : AcceptedAmong (verifying verifier computeKeyFingerprint) before)
    (inactive : ctx.activeKeys.has k = false) (active : next.activeKeys.has k = true) :
    SignedByActive Signed ctx rec := by
  -- with no late self-issued key, a key is added under an active one
  have founded := (acceptedAmong_iff verifier computeKeyFingerprint done).mp accepted
  have verified : Verified (verifying verifier computeKeyFingerprint) ctx rec := by
    cases processRecord_cases step with
    | inr rejected =>
      obtain ⟨text, rfl⟩ := rejected
      rw [pushError, inactive] at active
      cases active
    | inl took => cases took <;> assumption
  cases verified_cases verifier computeKeyFingerprint Signed sound verified with
  | inr signed => exact signed
  | inl own =>
    obtain ⟨keyId, publicKey, subject, issuer, fingerprint, answer⟩ := own
    -- a record of this kind that took effect is what the sequence does not have
    cases processRecord_cases step with
    | inr rejected =>
      obtain ⟨text, rfl⟩ := rejected
      rw [pushError, inactive] at active
      cases active
    | inl took =>
      cases took with
      | keyAdd added declared subject' verified unrevoked absent =>
        rw [subject] at subject'
        cases subject'
        exact absurd ⟨keyId, publicKey, subject, issuer,
          (OrdMap.has_eq_false_iff _ _).mpr unrevoked, (OrdMap.has_eq_false_iff _ _).mpr absent,
          fingerprint, answer⟩ (once before rec ctx inside done founded)
      | keyRevoke keyId' reasonCode info subject' | bindAdd writerId keyId' info subject'
      | bindRevoke writerId keyId' reasonCode binding subject' =>
        rw [subject] at subject'
        cases subject'

variable {verifier computeKeyFingerprint Signed} in
theorem active_introduced
    (sound : ∀ rec publicKey, verifier rec publicKey = .ok true → Signed rec publicKey)
    (once : FoundedOnce (verifying verifier computeKeyFingerprint) verifier records)
    (inside : before <+: records)
    (ran : processRecords (verifying verifier computeKeyFingerprint) before = .ok ctx)
    (active : ctx.activeKeys.has k = true) :
    KeyIntroduced (verifying verifier computeKeyFingerprint) Signed before k := by
  -- every active key was introduced
  refine processRecords_invariant _
    (fun before ctx => before <+: records → ctx.activeKeys.has k = true →
      KeyIntroduced (verifying verifier computeKeyFingerprint) Signed before k) ?_ ?_ ctx
    ran inside active
  · intro _ active
    simp [empty, OrdMap.has] at active
  intro before rec ctx next ih done step inside active
  have shorter : before <+: records := (prefix_append before [rec]).trans inside
  cases known : ctx.activeKeys.has k with
  | true =>
    obtain ⟨b, r, a, c, publicKey, whole, subject, earlier, signed⟩ := ih shorter known
    exact ⟨b, r, a ++ [rec], c, publicKey, by simp [whole], subject, earlier, signed⟩
  | false =>
    -- the last record has added it
    have signed : AcceptedAmong (verifying verifier computeKeyFingerprint) before →
        SignedByActive Signed ctx rec := fun accepted =>
      succession_of_foundedOnce sound once inside done step accepted
        known active
    have added : ∃ publicKey, rec.subject = .keyAdd k publicKey := by
      simp only [OrdMap.has] at known active
      cases processRecord_cases step with
      | inr rejected =>
        obtain ⟨text, rfl⟩ := rejected
        rw [pushError, known] at active
        cases active
      | inl took =>
        cases took with
        | keyAdd keyId publicKey subject =>
          simp only [OrdMap.get_set] at active
          split at active
          next same => exact ⟨publicKey, same ▸ subject⟩
          · rw [known] at active
            cases active
        | keyRevoke keyId reasonCode info subject =>
          simp only [OrdMap.get_delete] at active
          split at active
          · cases active
          · rw [known] at active
            cases active
        | bindAdd writerId keyId info subject
        | bindRevoke writerId keyId reasonCode binding subject =>
          rw [known] at active
          cases active
    obtain ⟨publicKey, subject⟩ := added
    exact ⟨before, rec, [], ctx, publicKey, rfl, subject, done, signed⟩

variable {verifier computeKeyFingerprint Signed} in
theorem binding_introduced
    (sound : ∀ rec publicKey, verifier rec publicKey = .ok true → Signed rec publicKey)
    (ran : processRecords (verifying verifier computeKeyFingerprint) records = .ok ctx)
    (bound : ctx.writerBindings.get key = some binding) :
    ∃ writerId, key = bindingText writerId binding.keyId ∧ bindingKeySeparator ∉ writerId ∧
      BindingIntroduced (verifying verifier computeKeyFingerprint) Signed records writerId
        binding.keyId := by
  -- every binding was introduced, for the writer and the key that its text spells
  refine processRecords_invariant _
    (fun records ctx => ∀ key binding, ctx.writerBindings.get key = some binding →
      ∃ writerId, key = bindingText writerId binding.keyId ∧ bindingKeySeparator ∉ writerId ∧
        BindingIntroduced (verifying verifier computeKeyFingerprint) Signed records writerId
          binding.keyId) ?_ ?_ ctx ran key binding bound
  · intro key binding bound
    simp [empty] at bound
  intro before rec ctx next ih done step key binding bound
  -- a binding that was there before is there still: one more prefix to look at
  have older : ctx.writerBindings.get key = some binding →
      ∃ writerId, key = bindingText writerId binding.keyId ∧ bindingKeySeparator ∉ writerId ∧
        BindingIntroduced (verifying verifier computeKeyFingerprint) Signed (before ++ [rec])
          writerId binding.keyId := by
    intro held
    obtain ⟨writerId, text, absent, b, r, a, c, whole, subject, earlier, signed, since⟩ :=
      ih key binding held
    refine ⟨writerId, text, absent, b, r, a ++ [rec], c, by simp [whole], subject, earlier,
      signed, ?_⟩
    intro mid later longer inside run
    rcases prefix_concat_iff.mp inside with rfl | inside
    · rw [(processRecords_snoc _).mpr ⟨ctx, done, step⟩] at run
      cases run
      exact (OrdMap.has_eq_true_iff _ _).mpr ⟨binding, text ▸ bound⟩
    · exact since mid later longer inside run
  cases processRecord_cases step with
  | inr rejected =>
    obtain ⟨text, rfl⟩ := rejected
    exact older bound
  | inl took =>
    cases took with
    | keyAdd keyId publicKey subject | keyRevoke keyId reasonCode info subject => exact older bound
    | bindRevoke writerId keyId reasonCode info subject =>
      simp only [OrdMap.get_delete] at bound
      split at bound
      · cases bound
      · exact older bound
    | bindAdd writerId keyId info subject verified encoded active =>
      simp only [OrdMap.get_set] at bound
      split at bound
      next same =>
        cases bound
        rw [encodeBindingKey, check_then_eq_ok] at encoded
        have absent := ((assertWriterId_ok _).mp encoded.1).2
        refine ⟨writerId, same.symm, absent, before, rec, [], ctx, rfl, subject, done, ?_, ?_⟩
        · cases verified_cases verifier computeKeyFingerprint Signed sound verified with
          | inr signed => exact signed
          | inl own =>
            obtain ⟨k, publicKey, added, -⟩ := own
            rw [subject] at added
            cases added
        · intro mid later longer inside run
          rw [inside.eq_of_length_le longer.length_le,
            (processRecords_snoc _).mpr ⟨ctx, done, step⟩] at run
          cases run
          simp [OrdMap.has]
      · exact older bound

theorem selfIssued_accepted {ctx rec keyId publicKey}
    (subject : rec.subject = .keyAdd keyId publicKey) (issuer : rec.issuerKeyId = keyId)
    (unrevoked : ctx.revokedKeys.has keyId = false) (inactive : ctx.activeKeys.has keyId = false)
    (fingerprint : validateKeyFingerprint (verifying verifier computeKeyFingerprint) rec = .ok ())
    (answer : verifier rec publicKey = .ok true) :
    processRecord (verifying verifier computeKeyFingerprint) ctx rec =
      .ok { ctx with activeKeys := ctx.activeKeys.set keyId ⟨publicKey, rec.issuedAt⟩ } := by
  have resolved : resolveIssuerKey rec ctx.activeKeys = some publicKey := by
    simp only [resolveIssuerKey, subject, issuer, if_true]
  have verified : validateCryptography (verifying verifier computeKeyFingerprint) rec ctx =
      .ok () := by
    rw [validateCryptography, fingerprint]
    change validateSignature verifier rec ctx.activeKeys = .ok ()
    rw [validateSignature, resolved]
    simp only [answer]
  simp [processRecord, verified, subject, handleKeyAdd, unrevoked, inactive]

variable {verifier computeKeyFingerprint Signed} in
/-- The chain of custody holds of a sequence exactly when no record in it, once a key is known,
adds a new key under that key's own signature. -/
theorem custody_iff
    (sound : ∀ rec publicKey, verifier rec publicKey = .ok true → Signed rec publicKey)
    (records : List TrustRecord) :
    Custody (verifying verifier computeKeyFingerprint) Signed records ↔
      FoundedOnce (verifying verifier computeKeyFingerprint) verifier records := by
  constructor
  · intro custody before rec ctx inside done founded selfIssued
    obtain ⟨keyId, publicKey, subject, issuer, unrevoked, inactive, fingerprint, answer⟩ :=
      selfIssued
    have step := selfIssued_accepted verifier computeKeyFingerprint
      subject issuer unrevoked inactive fingerprint answer
    -- the key comes in, though the issuer it names was not active
    obtain ⟨info, active, -⟩ := custody.succession before rec ctx _ inside done step
      ((acceptedAmong_iff verifier computeKeyFingerprint done).mpr founded) keyId
      inactive (by simp [OrdMap.has])
    rw [issuer, (OrdMap.has_eq_false_iff _ _).mp inactive] at active
    cases active
  · intro once
    constructor
    case disjoint => exact fun before ctx _ done => disjoint_always _ done
    case revocation =>
      intro before later ctx next longer _ done ran k revoked
      have still := processRecords_kept _
        (fun rec ctx next held step => revoked_kept _ rec k held step) ctx next longer done revoked ran
      have apart := disjoint_always _ ran k
      rw [still] at apart
      simpa using apart
    case succession =>
      exact fun before rec ctx next inside done step accepted k inactive active =>
        succession_of_foundedOnce sound once inside done step accepted inactive active
    case trusted =>
      intro before state writerIds policy assessment inside built evaluated e member trusted
      obtain ⟨ctx, done, created⟩ := bind_eq_ok.mp built
      have same : state.toTrustBuildContext = ctx := TrustState.create_ok _ state created
      obtain ⟨keyId, binding, absent, bound, active⟩ :=
        evaluateWriters_trusted evaluated e member trusted
      rw [same] at bound active
      obtain ⟨writerId, text, absent', introduced⟩ := binding_introduced sound done bound
      -- the text of the binding spells this writer
      obtain ⟨named, -⟩ := bindingText_inj e.writerId absent absent'
        text
      rw [← named] at introduced
      exact ⟨binding.keyId, introduced, active_introduced sound once inside done active,
        by rw [same]; exact active⟩

end Verifying

/-! ### A handover, and a seizure -/

/-- A scheme in which a signature is the text of the public key. -/
def plainVerifier (rec : TrustRecord) (publicKey : JsString) : Except Failure Bool :=
  .ok (decide (rec.sig = publicKey))

def plainSigned (rec : TrustRecord) (publicKey : JsString) : Prop := rec.sig = publicKey

def keyIdOf (c : Char) : JsString := lit "ed25519:" ++ List.replicate 64 (digitUnit c)

def plainFingerprint (publicKey : JsString) : Except Failure JsString :=
  .ok (keyIdOf (if publicKey = lit "root" then 'a' else 'b'))

def rootAdd : TrustRecord where
  recordId := lit "r1"
  issuerKeyId := keyIdOf 'a'
  issuedAt := lit "2025-06-15T12:00:00Z"
  subject := .keyAdd (keyIdOf 'a') (lit "root")
  sig := lit "root"
  signaturePayload := lit "payload"
  subjectComplete := by decide
  signed := by decide

def secondAdd : TrustRecord where
  recordId := lit "r2"
  issuerKeyId := keyIdOf 'a'
  issuedAt := lit "2025-06-15T12:01:00Z"
  subject := .keyAdd (keyIdOf 'b') (lit "second")
  sig := lit "root"
  signaturePayload := lit "payload"
  subjectComplete := by decide
  signed := by decide

/-- A second key adds itself, without the root's signature. -/
def rogueAdd : TrustRecord where
  recordId := lit "r2"
  issuerKeyId := keyIdOf 'b'
  issuedAt := lit "2025-06-15T12:01:00Z"
  subject := .keyAdd (keyIdOf 'b') (lit "rogue")
  sig := lit "rogue"
  signaturePayload := lit "payload"
  subjectComplete := by decide
  signed := by decide

theorem plain_sound (publicKey) (answer : plainVerifier rec publicKey = .ok true) :
    plainSigned rec publicKey := by
  have same : decide (rec.sig = publicKey) = true := Except.ok.inj answer
  have signed : rec.sig = publicKey := of_decide_eq_true same
  exact signed

/-- Where the root key signs for the second one, custody is handed on. -/
theorem custody_iff_handover :
    Custody (verifying plainVerifier (some plainFingerprint)) plainSigned [rootAdd, secondAdd] := by
  apply (custody_iff plain_sound [rootAdd, secondAdd]).mpr
  rintro before rec ctx inside done founded ⟨keyId, publicKey, subject, issuer, -⟩
  cases before with
  | nil =>
    cases done
    obtain ⟨k, known⟩ := founded
    simp [empty, OrdMap.has] at known
  | cons first rest =>
    -- the only record with another before it names the root as its issuer
    have second : rec = secondAdd := by
      obtain ⟨after, whole⟩ := inside
      cases rest with
      | nil => simp_all
      | cons r more =>
        have long := congrArg List.length whole
        simp at long
    subst second
    cases subject
    exact absurd issuer (by decide)

/-- A key that no active key has signed for is added after the first. -/
theorem custody_seized :
    (∀ rec publicKey, plainVerifier rec publicKey = .ok true → plainSigned rec publicKey) ∧
      ¬ Custody (verifying plainVerifier (some plainFingerprint)) plainSigned
        [rootAdd, rogueAdd] := by
  constructor
  · exact plain_sound
  · intro custody
    obtain ⟨info, active, -⟩ := custody.succession [rootAdd] rogueAdd _ _ (prefix_refl _)
      rfl rfl ⟨[], rootAdd, [], empty, _, rfl, rfl, rfl, rfl⟩ (keyIdOf 'b') (by decide +kernel)
      (by decide +kernel)
    exact Bool.noConfusion
      ((congrArg Option.isSome active).symm.trans (by decide +kernel : _ = false))

end GitWarp.Trust
