import GitWarp.Crdt.LWW
import GitWarp.Lib.OrdMap
import Mathlib.Data.Rat.Floor

/-!
# Signed sync requests

The service checks the headers, the signature, that the lamport is above the last one
seen for the key, that the nonce is new to a durable set, and last the rate limit of the
key. The lamports seen live in memory; the nonces outlive the process, but only until
they expire.
-/
namespace GitWarp

open Js Lib

abbrev Byte := Fin 256

/-! ### What the platform provides -/

/-- Hashing, keyed hashing, `URL` parsing and `toUpperCase`. -/
structure AuthPlatform where
  hash : List Byte → JsString
  hmac : JsString → JsString → List Byte
  /-- `none` where the URL does not parse. -/
  urlPath : JsString → Option JsString
  toUpperCase : JsString → JsString

def hexTable (n : Nat) : CodeUnit := if n < 10 then Fin.ofNat 65536 (48 + n) else Fin.ofNat 65536 (87 + n)

def hexEncode (bytes : List Byte) : JsString :=
  bytes.flatMap fun b => [hexTable (b.val / 16), hexTable (b.val % 16)]

def hexCharValue (u : CodeUnit) : Option Nat :=
  if 48 ≤ u.val ∧ u.val ≤ 57 then some (u.val - 48)
  else if 97 ≤ u.val ∧ u.val ≤ 102 then some (u.val - 87)
  else if 65 ≤ u.val ∧ u.val ≤ 70 then some (u.val - 55)
  else none

/-- `hexDecode`; `none` where it throws. -/
def hexDecode : JsString → Option (List Byte)
  | [] => some []
  | [_] => none
  | hi :: lo :: rest =>
    match hexCharValue hi, hexCharValue lo, hexDecode rest with
    | some h, some l, some bytes => some (Fin.ofNat 256 (16 * h + l) :: bytes)
    | _, _, _ => none

/-! ### Requests -/

structure SignedRequest where
  method : JsString
  url : JsString
  headers : OrdMap JsString JsString
  body : Option (List Byte)

/-- `verify` answers with a reason and a status, or throws. -/
inductive Refusal
  | fail (reason : JsString) (status : Nat)
  | thrown
  deriving DecidableEq

def fail (reason : String) (status : Nat) : Refusal := .fail (lit reason) status

def authSchemeHeader : JsString := lit "x-warp-auth-scheme"

def sharedSecretScheme : JsString := lit "shared-secret-hmac-sha256"

/-- What the headers of a request present. -/
structure Presented where
  signature : JsString
  timestamp : JsString
  nonce : JsString
  keyId : JsString
  authScheme : Option JsString
  deriving DecidableEq

/-- `SIG_HEX_LENGTH`. -/
def sigHexLength : Nat := 64

/-- `MAX_TIMESTAMP_DIGITS`. -/
def maxTimestampDigits : Nat := 16

def isHexUnitAnyCase (u : CodeUnit) : Bool := (hexCharValue u).isSome

def isUnit (c : Char) (u : CodeUnit) : Bool := decide (u = digitUnit c)

/-- The third group starts with the version, the fourth with the variant. -/
def noncePattern : List (CodeUnit → Bool) :=
  List.replicate 8 isHexUnitAnyCase ++ [isUnit '-'] ++ List.replicate 4 isHexUnitAnyCase ++
    [isUnit '-', isUnit '4'] ++ List.replicate 3 isHexUnitAnyCase ++ [isUnit '-'] ++
      [fun u => isUnit '8' u || isUnit '9' u || isUnit 'a' u || isUnit 'b' u || isUnit 'A' u ||
        isUnit 'B' u] ++ List.replicate 3 isHexUnitAnyCase ++ [isUnit '-'] ++
          List.replicate 12 isHexUnitAnyCase

def isNonce (text : JsString) : Bool :=
  decide (text.length = noncePattern.length) &&
    (noncePattern.zip text).all fun pair => pair.1 pair.2

def isTimestamp (text : JsString) : Bool :=
  decide (text ≠ []) && text.all isDigitUnit && decide (text.length ≤ maxTimestampDigits)

def isSignature (text : JsString) : Bool :=
  decide (text.length = sigHexLength) && text.all isHexUnit

def checkHeaderFormats (timestamp nonce signature : JsString) : Except Refusal Unit :=
  if isTimestamp timestamp = false then .error (fail "MALFORMED_TIMESTAMP" 400)
  else if isNonce nonce = false then .error (fail "MALFORMED_NONCE" 400)
  else if isSignature signature = false then .error (fail "MALFORMED_SIGNATURE" 400)
  else .ok ()

def validateAuthScheme (headers : OrdMap JsString JsString) :
    Except Refusal (Option JsString) :=
  match headers.get authSchemeHeader with
  | none => .ok none
  | some authScheme =>
    if authScheme = sharedSecretScheme then .ok (some authScheme)
    else .error (fail "UNSUPPORTED_AUTH_SCHEME" 400)

/-- A header that is present and not empty. -/
def presentHeader (headers : OrdMap JsString JsString) (name : String) :
    Except Refusal JsString :=
  match headers.get (lit name) with
  | some value => if value = [] then .error (fail "MISSING_AUTH" 401) else .ok value
  | none => .error (fail "MISSING_AUTH" 401)

def validateHeaders (headers : OrdMap JsString JsString) : Except Refusal Presented := do
  let authScheme ← validateAuthScheme headers
  if headers.get (lit "x-warp-sig-version") ≠ some (lit "2") then
    .error (fail "INVALID_VERSION" 400)
  else
    let keyId ← presentHeader headers "x-warp-key-id"
    let signature ← presentHeader headers "x-warp-signature"
    let timestamp ← presentHeader headers "x-warp-timestamp"
    let nonce ← presentHeader headers "x-warp-nonce"
    checkHeaderFormats timestamp nonce signature
    pure ⟨signature, timestamp, nonce, keyId, authScheme⟩

/-! ### Signatures -/

/-- The text that is signed. -/
def buildCanonicalPayload (authScheme : Option JsString)
    (keyId method path timestamp nonce contentType bodySha256 : JsString) : JsString :=
  let prefixed := match authScheme with
    | none => lit "warp-v2"
    | some scheme => lit "warp-v2|" ++ scheme
  prefixed ++ lit "|" ++ keyId ++ lit "|" ++ method ++ lit "|" ++ path ++ lit "|" ++ timestamp ++
    lit "|" ++ nonce ++ lit "|" ++ contentType ++ lit "|" ++ bodySha256

structure SigningParams where
  method : JsString
  path : JsString
  contentType : JsString
  body : List Byte
  secret : JsString
  keyId : JsString
  lamport : Nat

/-- `signSyncRequest`, with the nonce that `randomUUID` gave. -/
def signSyncRequest (platform : AuthPlatform) (params : SigningParams) (nonce : JsString) :
    List (JsString × JsString) :=
  let timestamp := numberText params.lamport
  let canonical := buildCanonicalPayload (some sharedSecretScheme) params.keyId
    (platform.toUpperCase params.method) params.path timestamp nonce params.contentType
    (platform.hash params.body)
  [(authSchemeHeader, sharedSecretScheme), (lit "x-warp-sig-version", lit "2"),
    (lit "x-warp-key-id", params.keyId), (lit "x-warp-timestamp", timestamp),
    (lit "x-warp-nonce", nonce),
    (lit "x-warp-signature", hexEncode (platform.hmac params.secret canonical))]

def verifySignature (platform : AuthPlatform) (request : SignedRequest) (secret : JsString)
    (presented : Presented) : Except Refusal Unit :=
  let bodySha256 := platform.hash (request.body.getD [])
  let contentType := (request.headers.get (lit "content-type")).getD []
  match platform.urlPath request.url with
  | none => .error .thrown
  | some path =>
    let canonical := buildCanonicalPayload presented.authScheme presented.keyId
      (platform.toUpperCase request.method) path presented.timestamp presented.nonce contentType
      bodySha256
    let expected := platform.hmac secret canonical
    match hexDecode ((request.headers.get (lit "x-warp-signature")).getD []) with
    | none => .error (fail "INVALID_SIGNATURE" 401)
    | some received =>
      if received.length ≠ expected.length then .error (fail "INVALID_SIGNATURE" 401)
      else if expected ≠ received then .error (fail "INVALID_SIGNATURE" 401)
      else .ok ()

/-! ### The rate limiter -/

structure TokenBucketState where
  tokens : Rat
  updatedAtMs : Rat

structure SyncRateLimiter where
  capacity : Nat
  refillTokensPerSecond : Rat
  buckets : OrdMap JsString TokenBucketState

namespace SyncRateLimiter

def refreshedBucket (limiter : SyncRateLimiter) (state : TokenBucketState) (nowMs : Rat) :
    TokenBucketState :=
  let elapsedMs := nowMs - state.updatedAtMs
  if elapsedMs ≤ 0 then ⟨min limiter.capacity state.tokens, state.updatedAtMs⟩
  else
    let refill := elapsedMs / 1000 * limiter.refillTokensPerSecond
    ⟨min limiter.capacity (state.tokens + refill), nowMs⟩

def tryConsume (limiter : SyncRateLimiter) (keyId : JsString) (nowMs : Rat) :
    Bool × SyncRateLimiter :=
  let current := (limiter.buckets.get keyId).getD ⟨limiter.capacity, nowMs⟩
  let refreshed := limiter.refreshedBucket current nowMs
  if refreshed.tokens < 1 then
    (false, { limiter with buckets := limiter.buckets.set keyId refreshed })
  else
    (true, { limiter with
      buckets := limiter.buckets.set keyId ⟨refreshed.tokens - 1, refreshed.updatedAtMs⟩ })

end SyncRateLimiter

/-! ### The service -/

structure SyncAuthService where
  keys : OrdMap JsString JsString
  lastSeenLamport : OrdMap JsString Nat
  rateLimiter : Option SyncRateLimiter

/-- The double nearest to a number below `2 ^ 54`; a tie goes to the even significand. -/
def nearestDouble (n : Nat) : Nat :=
  if n ≤ 2 ^ 53 ∨ n % 2 = 0 then n else if (n - 1) % 4 = 0 then n - 1 else n + 1

/-- `Number(timestamp)` of at most sixteen digits; it is finite and not negative. -/
def timestampNumber (timestamp : JsString) : Nat := nearestDouble (digitsValue timestamp)

namespace SyncAuthService

def resolveKey (service : SyncAuthService) (keyId : JsString) : Except Refusal JsString :=
  match service.keys.get keyId with
  | some secret => .ok secret
  | none => .error (fail "UNKNOWN_KEY_ID" 401)

/-- Whether the lamport is above the last one seen for the key; then it is seen. -/
def validateFreshness (service : SyncAuthService) (timestamp keyId : JsString) :
    Except Refusal SyncAuthService :=
  let lamport := timestampNumber timestamp
  match service.lastSeenLamport.get keyId with
  | some lastSeen =>
    if lamport ≤ lastSeen then .error (fail "STALE_LAMPORT" 403)
    else .ok { service with lastSeenLamport := service.lastSeenLamport.set keyId lamport }
  | none => .ok { service with lastSeenLamport := service.lastSeenLamport.set keyId lamport }

def consumeRateLimit (service : SyncAuthService) (keyId : JsString) (nowMs : Int) :
    Except Refusal Unit × SyncAuthService :=
  match service.rateLimiter with
  | none => (.ok (), service)
  | some limiter =>
    let (allowed, next) := limiter.tryConsume keyId nowMs
    (if allowed then .ok () else .error (fail "RATE_LIMITED" 429),
      { service with rateLimiter := some next })

end SyncAuthService

/-! ### The durable set -/

/-- What a marker is kept for. -/
structure ReplayIdentity where
  graphName : JsString
  keyId : JsString
  nonce : JsString
  deriving DecidableEq

/-- `SYNC_REPLAY_ACCEPTANCE_WINDOW_MS`. -/
def acceptanceWindowMs : Nat := 10 * 60 * 1000

/-- `REPLAY_SWEEP_INTERVAL_MS`. -/
def sweepIntervalMs : Nat := 10 * 60 * 1000

/-- The markers with their expiry times. -/
abbrev ReplaySet := OrdMap ReplayIdentity Nat

/-- `addIfAbsent`: whether the marker was added. -/
def ReplaySet.addIfAbsent (markers : ReplaySet) (identity : ReplayIdentity) (expiresAt : Nat) :
    Bool × ReplaySet :=
  if markers.has identity then (false, markers) else (true, markers.set identity expiresAt)

end GitWarp
