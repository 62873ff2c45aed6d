import GitWarp.Js.Digits
import GitWarp.Sync.ReplaySafety

/-!
# A client against the service

A client signs every request with the greatest lamport that its host has
observed, and that only grows when the host observes new patches. The service
asks for a lamport above all earlier ones of the key, and remembers a lamport
before it reserves the nonce and looks at the rate limit.
-/
namespace GitWarp

open Js Lib List

/-! ### Sequential verification -/

/-- What the service holds between two requests. -/
structure AuthState where
  service : SyncAuthService
  markers : ReplaySet

/-- The circumstances that one request meets. -/
structure Circumstances where
  nowMs : Nat
  /-- Markers that were released since the request before. -/
  released : List ReplayIdentity
  /-- The durable set fails, with or without storing the marker. -/
  storeFails : Option Bool

/-- `_reserveNonce`. -/
def reserveNonce (setup : ServerSetup) (markers : ReplaySet) (presented : Presented)
    (circumstances : Circumstances) : Except Refusal Unit × ReplaySet :=
  let added := markers.addIfAbsent (SyncServer.identity setup presented)
    (circumstances.nowMs + acceptanceWindowMs)
  match circumstances.storeFails with
  | some stored =>
    (.error (fail "REPLAY_STORE_UNAVAILABLE" 503), if stored then added.2 else markers)
  | none => if added.1 then (.ok (), added.2) else (.error (fail "REPLAY" 403), markers)

/-- `verify`, run to its end before the next request. -/
def verify (setup : ServerSetup) (state : AuthState) (request : SignedRequest)
    (circumstances : Circumstances) : Except Refusal Unit × AuthState :=
  let markers := state.markers.filterKeys fun identity => !circumstances.released.contains identity
  let checked : Except Refusal (Presented × SyncAuthService) := do
    let presented ← validateHeaders request.headers
    let secret ← state.service.resolveKey presented.keyId
    verifySignature setup.platform request secret presented
    let service ← state.service.validateFreshness presented.timestamp presented.keyId
    pure (presented, service)
  match checked with
  | .error refusal => (.error refusal, ⟨state.service, markers⟩)
  | .ok (presented, service) =>
    match reserveNonce setup markers presented circumstances with
    | (.error refusal, markers) => (.error refusal, ⟨service, markers⟩)
    | (.ok (), markers) =>
      let (allowed, limited) := service.consumeRateLimit presented.keyId circumstances.nowMs
      (allowed, ⟨limited, markers⟩)

/-! ### The client -/

/-- A host that syncs with one remote under one key. -/
structure SyncClient where
  secret : JsString
  keyId : Option JsString
  /-- The path and query of the target. -/
  target : JsString
  maxObservedLamport : Nat

/-- An absent or empty key id is the default one. -/
def SyncClient.resolvedKeyId (client : SyncClient) : JsString :=
  match client.keyId with
  | some keyId => if keyId = [] then lit "default" else keyId
  | none => lit "default"

/-- `resolveAuth`, `resolveHeaders` and `signForRequest`: the request as it is delivered. -/
def SyncClient.request (platform : AuthPlatform) (client : SyncClient) (path : JsString)
    (body : List Byte) (nonce : JsString) : SignedRequest where
  method := lit "POST"
  url := client.target
  headers := .ofList ([(lit "content-type", lit "application/json"),
    (lit "accept", lit "application/json")] ++ signSyncRequest platform
      ⟨lit "POST", path, lit "application/json", body, client.secret, client.resolvedKeyId,
        client.maxObservedLamport⟩ nonce)
  body := some body

/-- One request, first try or retry, with what the host observed before it. -/
structure SyncAttempt where
  observed : Nat
  body : List Byte
  nonce : JsString
  circumstances : Circumstances

def SyncClient.observe (client : SyncClient) (lamport : Nat) : SyncClient :=
  { client with maxObservedLamport := max client.maxObservedLamport lamport }

/-- The answers to the requests of a client, delivered in order. -/
def answers (setup : ServerSetup) (path : JsString) :
    SyncClient → AuthState → List SyncAttempt → List (Except Refusal Unit)
  | _, _, [] => []
  | client, state, delivery :: rest =>
    let current := client.observe delivery.observed
    let (answer, next) := verify setup state
      (current.request setup.platform path delivery.body delivery.nonce) delivery.circumstances
    answer :: answers setup path current next rest

def attachedLamports : Nat → List SyncAttempt → List Nat
  | _, [] => []
  | lamport, delivery :: rest =>
    max lamport delivery.observed :: attachedLamports (max lamport delivery.observed) rest

/-- The service accepts, or cannot serve anybody at the moment. -/
def Welcome (answer : Except Refusal Unit) : Prop :=
  answer = .ok () ∨ answer = .error (fail "RATE_LIMITED" 429) ∨
    answer = .error (fail "REPLAY_STORE_UNAVAILABLE" 503)

/-! ### Hexadecimal text -/

theorem hexCharValue_hexTable (n : Fin 16) : hexCharValue (hexTable n.val) = some n.val := by
  revert n
  decide

theorem isHexUnit_hexTable (n : Fin 16) : isHexUnit (hexTable n.val) = true := by
  revert n
  decide

theorem hexDecode_hexEncode (bytes) : hexDecode (hexEncode bytes) = some bytes := by
  induction bytes with
  | nil => rfl
  | cons b rest ih =>
    have high := hexCharValue_hexTable ⟨b.val / 16, by omega⟩
    have low := hexCharValue_hexTable ⟨b.val % 16, by omega⟩
    have whole : Fin.ofNat 256 (16 * (b.val / 16) + b.val % 16) = b := by
      rw [Nat.div_add_mod]
      exact Fin.ofNat_val_eq_self b
    simp only [hexEncode, flatMap_cons, cons_append, nil_append, hexDecode] at *
    rw [high, low, ih]
    dsimp only
    rw [whole]

theorem isSignature_hexEncode (bytes) (size : bytes.length = 32) :
    isSignature (hexEncode bytes) = true := by
  have length : ∀ bytes : List Byte, (hexEncode bytes).length = 2 * bytes.length := by
    intro bytes
    induction bytes with
    | nil => rfl
    | cons b rest ih =>
      simp only [hexEncode, flatMap_cons, length_append, length_cons, length_nil] at *
      omega
  have hexadecimal : ∀ bytes : List Byte, (hexEncode bytes).all isHexUnit = true := by
    intro bytes
    induction bytes with
    | nil => rfl
    | cons b rest ih =>
      have high := isHexUnit_hexTable ⟨b.val / 16, by omega⟩
      have low := isHexUnit_hexTable ⟨b.val % 16, by omega⟩
      simp only [hexEncode, flatMap_cons, all_append, all_cons, all_nil] at *
      simp [high, low, ih]
  simp [isSignature, length, hexadecimal, size, sigHexLength]

/-! ### Timestamps -/

/-- The lamport is a number of the language, and its text has the form of a timestamp. -/
structure ValidTimestamp (lamport : Nat) : Prop where
  text : isTimestamp (numberText lamport) = true
  double : nearestDouble lamport = lamport

theorem ValidTimestamp.number (valid : ValidTimestamp lamport) :
    timestampNumber (numberText lamport) = lamport := by
  have text := valid.text
  have double := valid.double
  unfold numberText at *
  split at text
  next small => rw [if_pos small, timestampNumber, digitsValue_decimalText, double]
  next large =>
    -- the exponent notation has a letter
    simp only [isTimestamp, exponentText, all_append, Bool.and_eq_true] at text
    have letter : (lit "e+").all isDigitUnit = false := by decide
    simp [letter] at text

/-! ### An honest request reaches the freshness check -/

/-- What the client and the service agree on, and what the platform promises. -/
structure Agreement (setup : ServerSetup) (client : SyncClient) (path : JsString) : Prop where
  secret : setup.keys.get client.resolvedKeyId = some client.secret
  path : setup.platform.urlPath client.target = some path
  digest : ∀ secret text, (setup.platform.hmac secret text).length = 32

theorem resolvedKeyId_ne_nil {client : SyncClient} : client.resolvedKeyId ≠ [] := by
  unfold SyncClient.resolvedKeyId
  split
  · split
    · decide
    next given => exact given
  · decide

/-- The text that the client signs. -/
def SyncClient.canonical (platform : AuthPlatform) (client : SyncClient) (path : JsString)
    (body : List Byte) (nonce : JsString) : JsString :=
  buildCanonicalPayload (some sharedSecretScheme) client.resolvedKeyId
    (platform.toUpperCase (lit "POST")) path (numberText client.maxObservedLamport) nonce
    (lit "application/json") (platform.hash body)

def SyncClient.presented (platform : AuthPlatform) (client : SyncClient) (path : JsString)
    (body : List Byte) (nonce : JsString) : Presented :=
  ⟨hexEncode (platform.hmac client.secret (client.canonical platform path body nonce)),
    numberText client.maxObservedLamport, nonce, client.resolvedKeyId, some sharedSecretScheme⟩

section Honest

variable (setup : ServerSetup) (client : SyncClient) (path : JsString) (body : List Byte)
  (nonce : JsString)

theorem validateHeaders_request
    (digest : ∀ secret text, (setup.platform.hmac secret text).length = 32)
    (timestamp : ValidTimestamp client.maxObservedLamport) (unique : isNonce nonce = true) :
    validateHeaders (client.request setup.platform path body nonce).headers =
      .ok (client.presented setup.platform path body nonce) := by
  have scheme : (client.request setup.platform path body nonce).headers.get authSchemeHeader =
      some sharedSecretScheme := rfl
  have version : (client.request setup.platform path body nonce).headers.get
      (lit "x-warp-sig-version") = some (lit "2") := rfl
  have key : (client.request setup.platform path body nonce).headers.get (lit "x-warp-key-id") =
      some client.resolvedKeyId := rfl
  have signature : (client.request setup.platform path body nonce).headers.get
      (lit "x-warp-signature") = some (hexEncode (setup.platform.hmac client.secret
        (client.canonical setup.platform path body nonce))) := rfl
  have time : (client.request setup.platform path body nonce).headers.get
      (lit "x-warp-timestamp") = some (numberText client.maxObservedLamport) := rfl
  have once : (client.request setup.platform path body nonce).headers.get (lit "x-warp-nonce") =
      some nonce := rfl
  have signed := isSignature_hexEncode _ (digest client.secret
    (client.canonical setup.platform path body nonce))
  -- each of the four values is present and not empty
  have signedText : hexEncode (setup.platform.hmac client.secret
      (client.canonical setup.platform path body nonce)) ≠ [] := by
    intro empty
    rw [empty] at signed
    exact absurd signed (by decide)
  have timeText : numberText client.maxObservedLamport ≠ [] := by
    intro empty
    have text := timestamp.text
    rw [empty] at text
    exact absurd text (by decide)
  have onceText : nonce ≠ [] := by
    rintro rfl
    exact absurd unique (by decide)
  simp only [validateHeaders, validateAuthScheme, presentHeader, scheme, version, key, signature,
    time, once, resolvedKeyId_ne_nil, signedText, timeText, onceText, checkHeaderFormats,
    timestamp.text, unique, signed, bind, Except.bind, pure, Except.pure, if_true, if_false, ne_eq,
    not_true_eq_false, Bool.true_eq_false]
  rfl

theorem verifySignature_request (agreement : Agreement setup client path) :
    verifySignature setup.platform (client.request setup.platform path body nonce) client.secret
      (client.presented setup.platform path body nonce) = .ok () := by
  have contentType : (client.request setup.platform path body nonce).headers.get
      (lit "content-type") = some (lit "application/json") := rfl
  have signature : (client.request setup.platform path body nonce).headers.get
      (lit "x-warp-signature") = some (hexEncode (setup.platform.hmac client.secret
        (client.canonical setup.platform path body nonce))) := rfl
  have target : (client.request setup.platform path body nonce).url = client.target := rfl
  have method : (client.request setup.platform path body nonce).method = lit "POST" := rfl
  have content : (client.request setup.platform path body nonce).body = some body := rfl
  -- both sides sign the same text
  have same : buildCanonicalPayload (some sharedSecretScheme) client.resolvedKeyId
      (setup.platform.toUpperCase (lit "POST")) path (numberText client.maxObservedLamport) nonce
      (lit "application/json") (setup.platform.hash body) =
        client.canonical setup.platform path body nonce := rfl
  simp only [verifySignature, target, method, content, agreement.path, contentType, signature,
    Option.getD_some, hexDecode_hexEncode, SyncClient.presented, same, ne_eq, not_true_eq_false,
    if_false]

theorem verify_request (agreement : Agreement setup client path)
    (keys : state.service.keys = setup.keys) (timestamp : ValidTimestamp client.maxObservedLamport)
    (unique : isNonce nonce = true) (circumstances) :
    verify setup state (client.request setup.platform path body nonce) circumstances =
      let markers := state.markers.filterKeys fun identity =>
        !circumstances.released.contains identity
      match state.service.validateFreshness (numberText client.maxObservedLamport)
          client.resolvedKeyId with
      | .error refusal => (.error refusal, ⟨state.service, markers⟩)
      | .ok service =>
        match reserveNonce setup markers (client.presented setup.platform path body nonce)
            circumstances with
        | (.error refusal, markers) => (.error refusal, ⟨service, markers⟩)
        | (.ok (), markers) =>
          let (allowed, limited) := service.consumeRateLimit client.resolvedKeyId
            circumstances.nowMs
          (allowed, ⟨limited, markers⟩) := by
  -- an honest request is refused for its lamport only, or for the state of the server
  have resolved : state.service.resolveKey client.resolvedKeyId = .ok client.secret := by
    rw [SyncAuthService.resolveKey, keys, agreement.secret]
  have parts : (client.presented setup.platform path body nonce).keyId = client.resolvedKeyId ∧
      (client.presented setup.platform path body nonce).timestamp =
        numberText client.maxObservedLamport := ⟨rfl, rfl⟩
  simp only [verify, validateHeaders_request setup client path body nonce agreement.digest timestamp
    unique, parts.1, parts.2, resolved, verifySignature_request setup client path body nonce
    agreement, bind, Except.bind]
  cases state.service.validateFreshness (numberText client.maxObservedLamport)
    client.resolvedKeyId with
  | error refusal | ok service => rfl

end Honest

/-! ### A run of deliveries -/

/-- The service after the lamports so far, before deliveries with these nonces. -/
structure Ready (setup : ServerSetup) (keyId : JsString) (last : Option Nat) (nonces : List JsString)
    (state : AuthState) : Prop where
  keys : state.service.keys = setup.keys
  last : state.service.lastSeenLamport.get keyId = last
  fresh : ∀ nonce ∈ nonces, state.markers.get ⟨setup.graphName, keyId, nonce⟩ = none

theorem consumeRateLimit_keys (service : SyncAuthService) (keyId nowMs) :
    (service.consumeRateLimit keyId nowMs).2.keys = service.keys := by
  unfold SyncAuthService.consumeRateLimit
  split <;> rfl

theorem consumeRateLimit_welcome (service : SyncAuthService) (keyId nowMs) :
    Welcome (service.consumeRateLimit keyId nowMs).1 := by
  unfold SyncAuthService.consumeRateLimit
  split
  · exact Or.inl rfl
  · dsimp only
    split
    · exact Or.inl rfl
    · exact Or.inr (Or.inl rfl)

theorem reserveNonce_spec (markers presented)
    (absent : markers.get (SyncServer.identity setup presented) = none) :
    ((reserveNonce setup markers presented circumstances).1 = .ok () ∨
      (reserveNonce setup markers presented circumstances).1 =
        .error (fail "REPLAY_STORE_UNAVAILABLE" 503)) ∧
    ∀ identity, identity ≠ SyncServer.identity setup presented →
      (reserveNonce setup markers presented circumstances).2.get identity =
        markers.get identity := by
  have added : markers.addIfAbsent (SyncServer.identity setup presented)
      (circumstances.nowMs + acceptanceWindowMs) =
        (true, markers.set (SyncServer.identity setup presented)
          (circumstances.nowMs + acceptanceWindowMs)) := by
    simp [ReplaySet.addIfAbsent, OrdMap.has, absent]
  have others : ∀ identity, identity ≠ SyncServer.identity setup presented →
      (markers.set (SyncServer.identity setup presented)
        (circumstances.nowMs + acceptanceWindowMs)).get identity = markers.get identity := by
    intro identity apart
    rw [OrdMap.get_set, if_neg (Ne.symm apart)]
  simp only [reserveNonce, added]
  split
  next stored _ =>
    refine ⟨Or.inr rfl, ?_⟩
    cases stored with
    | true => exact others
    | false => exact fun _ _ => rfl
  · exact ⟨Or.inl rfl, others⟩

theorem verify_delivery
    (agreement : Agreement setup client path)
    {delivery : SyncAttempt}
    (ready : Ready setup client.resolvedKeyId last (delivery.nonce :: nonces) state)
    (timestamp : ValidTimestamp client.maxObservedLamport) (unique : isNonce delivery.nonce = true)
    (apart : delivery.nonce ∉ nonces) :
    let done := verify setup state
      (client.request setup.platform path delivery.body delivery.nonce) delivery.circumstances
    ((∀ lamport ∈ last, lamport < client.maxObservedLamport) → Welcome done.1 ∧
      Ready setup client.resolvedKeyId (some client.maxObservedLamport) nonces done.2) ∧
    (¬ (∀ lamport ∈ last, lamport < client.maxObservedLamport) → ¬ Welcome done.1) := by
  -- one delivery: a lamport above the last one is welcome and becomes the last one, any other
  -- lamport is refused as stale
  rw [verify_request setup client path delivery.body delivery.nonce agreement ready.keys
    timestamp unique]
  have stale : ¬ Welcome (.error (fail "STALE_LAMPORT" 403)) := by
    simp only [Welcome, reduceCtorEq, Except.error.injEq, false_or]
    decide
  constructor
  · intro above
    have fresh : state.service.validateFreshness (numberText client.maxObservedLamport)
        client.resolvedKeyId = .ok { state.service with
          lastSeenLamport := state.service.lastSeenLamport.set client.resolvedKeyId
            client.maxObservedLamport } := by
      simp only [SyncAuthService.validateFreshness, timestamp.number, ready.last]
      cases last with
      | none => rfl
      | some lamport =>
        have less := above lamport rfl
        simp only [Nat.not_le.mpr less, if_false]
    rw [fresh]
    dsimp only
    have filtered : ∀ nonce ∈ delivery.nonce :: nonces, (state.markers.filterKeys fun identity =>
        !delivery.circumstances.released.contains identity).get
          ⟨setup.graphName, client.resolvedKeyId, nonce⟩ = none := by
      intro nonce mem
      rw [OrdMap.get_filterKeys, ready.fresh nonce mem]
      split <;> rfl
    obtain ⟨outcome, frame⟩ := reserveNonce_spec _
      (client.presented setup.platform path delivery.body delivery.nonce)
      (filtered delivery.nonce mem_cons_self)
    generalize reserveNonce setup _ (client.presented setup.platform path delivery.body
      delivery.nonce) delivery.circumstances = reserved at outcome frame ⊢
    obtain ⟨reservation, markers⟩ := reserved
    have absent : ∀ nonce ∈ nonces,
        markers.get ⟨setup.graphName, client.resolvedKeyId, nonce⟩ = none := by
      intro nonce mem
      have different : (⟨setup.graphName, client.resolvedKeyId, nonce⟩ : ReplayIdentity) ≠
          SyncServer.identity setup
            (client.presented setup.platform path delivery.body delivery.nonce) := by
        intro same
        have equal : nonce = delivery.nonce := congrArg ReplayIdentity.nonce same
        exact apart (equal ▸ mem)
      have kept := frame _ different
      rw [kept]
      exact filtered nonce (mem_cons_of_mem _ mem)
    rcases outcome with reserved | unavailable
    · dsimp only at reserved
      subst reserved
      refine ⟨consumeRateLimit_welcome _ _ _, ?_, ?_, absent⟩
      · dsimp only
        rw [consumeRateLimit_keys]
        exact ready.keys
      · dsimp only
        rw [SyncAuthService.consumeRateLimit_lastSeen, OrdMap.get_set, if_pos rfl]
    · dsimp only at unavailable
      subst unavailable
      refine ⟨Or.inr (Or.inr rfl), ready.keys, ?_, absent⟩
      rw [OrdMap.get_set, if_pos rfl]
  · intro below
    have refused : state.service.validateFreshness (numberText client.maxObservedLamport)
        client.resolvedKeyId = .error (fail "STALE_LAMPORT" 403) := by
      simp only [SyncAuthService.validateFreshness, timestamp.number, ready.last]
      cases last with
      | none => exact absurd (fun lamport none_ => by cases none_) below
      | some lamport =>
        have less : client.maxObservedLamport ≤ lamport := by
          by_contra more
          exact below fun other same => by cases same; omega
        simp only [less, if_true]
    rw [refused]
    exact stale

theorem Agreement.observe {setup client path} (agreement : Agreement setup client path) :
    Agreement setup (client.observe lamport) path :=
  ⟨agreement.secret, agreement.path, agreement.digest⟩

theorem answers_welcome_iff (client) (agreement : Agreement setup client path) (state last)
    (ready : Ready setup client.resolvedKeyId last (deliveries.map SyncAttempt.nonce) state)
    (timestamps : ∀ lamport ∈ attachedLamports client.maxObservedLamport deliveries,
      ValidTimestamp lamport) (nonces : ∀ delivery ∈ deliveries, isNonce delivery.nonce = true)
    (distinct : (deliveries.map SyncAttempt.nonce).Nodup) :
    (∀ answer ∈ answers setup path client state deliveries, Welcome answer) ↔
      (last.toList ++ attachedLamports client.maxObservedLamport deliveries).IsChain (· < ·) := by
  induction deliveries generalizing client state last with
  | nil => cases last <;> simp [answers, attachedLamports]
  | cons delivery rest ih =>
    rw [map_cons, nodup_cons] at distinct
    have attached : attachedLamports client.maxObservedLamport (delivery :: rest) =
        (client.observe delivery.observed).maxObservedLamport ::
          attachedLamports (client.observe delivery.observed).maxObservedLamport rest := rfl
    rw [attached] at timestamps ⊢
    obtain ⟨welcome, unwelcome⟩ := verify_delivery
      agreement.observe ready
      (timestamps _ mem_cons_self) (nonces delivery mem_cons_self) distinct.1
    have chain : (last.toList ++ (client.observe delivery.observed).maxObservedLamport ::
        attachedLamports (client.observe delivery.observed).maxObservedLamport rest).IsChain
          (· < ·) ↔ (∀ lamport ∈ last, lamport < (client.observe delivery.observed).maxObservedLamport) ∧
            ((client.observe delivery.observed).maxObservedLamport ::
              attachedLamports (client.observe delivery.observed).maxObservedLamport rest).IsChain
                (· < ·) := by
      cases last with
      | none => simp
      | some lamport => simp [isChain_cons_cons]
    rw [chain]
    simp only [answers, forall_mem_cons]
    by_cases above : ∀ lamport ∈ last, lamport < (client.observe delivery.observed).maxObservedLamport
    · obtain ⟨here, next⟩ := welcome above
      have later := ih (client.observe delivery.observed) agreement.observe _
        (some (client.observe delivery.observed).maxObservedLamport) next
        (forall_mem_cons.mp timestamps).2
        (forall_mem_cons.mp nonces).2 distinct.2
      rw [later]
      exact ⟨fun both => ⟨above, both.2⟩, fun both => ⟨here, both.2⟩⟩
    · exact ⟨fun both => absurd both.1 (unwelcome above), fun both => absurd both.1 above⟩

/-- The requests of an honest client, first tries and retries, are all accepted by a server that can
serve them exactly if the client's lamport has grown from each request to the next. -/
theorem honest_requests_accepted_iff (setup : ServerSetup) (client : SyncClient) (path : JsString)
    (agreement : Agreement setup client path) (deliveries : List SyncAttempt)
    (timestamps : ∀ lamport ∈ attachedLamports client.maxObservedLamport deliveries,
      ValidTimestamp lamport) (nonces : ∀ delivery ∈ deliveries, isNonce delivery.nonce = true)
    (distinct : (deliveries.map SyncAttempt.nonce).Nodup) :
    (∀ answer ∈ answers setup path client ⟨setup.service, .empty⟩ deliveries, Welcome answer) ↔
      (attachedLamports client.maxObservedLamport deliveries).IsChain (· < ·) := by
  have ready : Ready setup client.resolvedKeyId none (deliveries.map SyncAttempt.nonce)
      ⟨setup.service, .empty⟩ := ⟨rfl, rfl, fun _ _ => rfl⟩
  have iff_ := answers_welcome_iff client agreement ⟨setup.service, .empty⟩
    none ready timestamps nonces distinct
  rwa [Option.toList_none, nil_append] at iff_

/-! ### A retry -/

def plainClient : SyncClient := ⟨lit "secret", some (lit "k"), lit "/sync", 0⟩

theorem plainAgreement : Agreement SyncServer.plainSetup plainClient (lit "/sync") where
  secret := by decide
  path := rfl
  digest := fun _ _ => length_replicate

/-- A first try and a retry, between which the host has observed nothing. -/
def firstAndRetry : List SyncAttempt :=
  [⟨7, [], SyncServer.plainNonce, ⟨0, [], none⟩⟩,
    ⟨7, [], lit "11111111-1111-4111-8111-111111111111", ⟨0, [], none⟩⟩]

theorem firstAndRetry_timestamps :
    ∀ lamport ∈ attachedLamports plainClient.maxObservedLamport firstAndRetry,
      ValidTimestamp lamport := by
  have only : attachedLamports plainClient.maxObservedLamport firstAndRetry = [7, 7] := by decide
  rw [only]
  intro lamport mem
  simp only [mem_cons, not_mem_nil, or_false, or_self] at mem
  subst mem
  exact ⟨by decide, by decide⟩

theorem honest_requests_accepted_iff_retry :
    (∀ answer ∈ answers SyncServer.plainSetup (lit "/sync") plainClient
      ⟨SyncServer.plainSetup.service, .empty⟩ firstAndRetry, Welcome answer) ↔
        (attachedLamports plainClient.maxObservedLamport firstAndRetry).IsChain (· < ·) :=
  honest_requests_accepted_iff SyncServer.plainSetup plainClient (lit "/sync") plainAgreement
    firstAndRetry firstAndRetry_timestamps (by decide) (by decide)

/-- The retry is refused as stale. -/
theorem retry_refused :
    ∃ (setup : ServerSetup) (client : SyncClient) (path : JsString) (deliveries : List SyncAttempt),
      Agreement setup client path ∧
      (∀ lamport ∈ attachedLamports client.maxObservedLamport deliveries, ValidTimestamp lamport) ∧
      (∀ delivery ∈ deliveries, isNonce delivery.nonce = true) ∧
      (deliveries.map SyncAttempt.nonce).Nodup ∧
      answers setup path client ⟨setup.service, .empty⟩ deliveries =
        [.ok (), .error (fail "STALE_LAMPORT" 403)] :=
  ⟨SyncServer.plainSetup, plainClient, lit "/sync", firstAndRetry, plainAgreement,
    firstAndRetry_timestamps, by decide, by decide, by decide +kernel⟩

end GitWarp
