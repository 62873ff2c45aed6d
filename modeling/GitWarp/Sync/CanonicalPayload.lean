import GitWarp.Sync.SyncAuthService

/-!
# What a signature covers

The signed text joins its fields with `|`. The timestamp and the nonce cannot
hold one, but the key id, the method, the path and the content type can, and
the scheme is a field that may be absent. Equal texts have equal fields exactly
when the separators fall into the same fields.
-/
namespace GitWarp

open Js Lib List

def verticalBar : CodeUnit := digitUnit '|'

/-- The fields that are signed for a request. -/
structure PayloadFields where
  authScheme : Option JsString
  keyId : JsString
  method : JsString
  path : JsString
  timestamp : JsString
  nonce : JsString
  contentType : JsString
  bodySha256 : JsString
  deriving DecidableEq

def PayloadFields.payload (fields : PayloadFields) : JsString :=
  buildCanonicalPayload fields.authScheme fields.keyId fields.method fields.path fields.timestamp
    fields.nonce fields.contentType fields.bodySha256

/-- The fields that `verify` signs, once the headers have passed their checks. -/
def payloadFields (platform : AuthPlatform) (request : SignedRequest) :
    Except Refusal PayloadFields := do
  let presented ← validateHeaders request.headers
  match platform.urlPath request.url with
  | none => .error .thrown
  | some path => .ok {
      authScheme := presented.authScheme
      keyId := presented.keyId
      method := platform.toUpperCase request.method
      path := path
      timestamp := presented.timestamp
      nonce := presented.nonce
      contentType := (request.headers.get (lit "content-type")).getD []
      bodySha256 := platform.hash (request.body.getD []) }

/-- The fields of a request are those of the other, and so is its lamport. -/
def SameSigned (one other : PayloadFields) : Prop :=
  one.keyId = other.keyId ∧ one.method = other.method ∧ one.path = other.path ∧
    one.timestamp = other.timestamp ∧ one.nonce = other.nonce ∧
    one.contentType = other.contentType ∧ one.bodySha256 = other.bodySha256 ∧
    timestampNumber one.timestamp = timestampNumber other.timestamp

/-- Both texts name the scheme or neither does, and the free fields hold equally many `|`. -/
def SameSeparators (one other : PayloadFields) : Prop :=
  one.authScheme.isSome = other.authScheme.isSome ∧
    one.keyId.count verticalBar = other.keyId.count verticalBar ∧
    one.method.count verticalBar = other.method.count verticalBar ∧
    one.path.count verticalBar = other.path.count verticalBar ∧
    one.contentType.count verticalBar = other.contentType.count verticalBar

/-! ### What passes the header checks -/

theorem verticalBar_not_mem_timestamp (text) (valid : isTimestamp text = true) :
    verticalBar ∉ text := by
  intro mem
  simp only [isTimestamp, Bool.and_eq_true, all_eq_true] at valid
  have digit := valid.1.2 verticalBar mem
  revert digit
  decide

theorem verticalBar_not_mem_nonce (text) (valid : isNonce text = true) : verticalBar ∉ text := by
  intro mem
  simp only [isNonce, Bool.and_eq_true, decide_eq_true_eq, all_eq_true] at valid
  -- every unit of the text is one that its place in the pattern allows, and no place allows `|`
  have short : text.length ≤ noncePattern.length := Nat.le_of_eq valid.1
  rw [← map_snd_zip short] at mem
  obtain ⟨⟨allows, u⟩, paired, rfl⟩ := mem_map.mp mem
  have refused : noncePattern.all (fun allows => !allows verticalBar) = true := by decide
  have allowed : allows verticalBar = true := valid.2 _ paired
  have barred := all_eq_true.mp refused allows (of_mem_zip paired).1
  rw [allowed] at barred
  cases barred

theorem validateHeaders_checked (passed : validateHeaders headers = .ok presented) :
    isTimestamp presented.timestamp = true ∧ isNonce presented.nonce = true ∧
      ∀ scheme, presented.authScheme = some scheme → scheme = sharedSecretScheme := by
  obtain ⟨authScheme, named, passed⟩ := bind_eq_ok.mp passed
  split at passed
  · cases passed
  · obtain ⟨keyId, -, passed⟩ := bind_eq_ok.mp passed
    obtain ⟨signature, -, passed⟩ := bind_eq_ok.mp passed
    obtain ⟨timestamp, -, passed⟩ := bind_eq_ok.mp passed
    obtain ⟨nonce, -, passed⟩ := bind_eq_ok.mp passed
    obtain ⟨_, formats, built⟩ := bind_eq_ok.mp passed
    cases built
    rw [checkHeaderFormats] at formats
    split at formats
    · cases formats
    next stamped =>
      split at formats
      · cases formats
      next fresh =>
        refine ⟨by simpa using stamped, by simpa using fresh, ?_⟩
        rintro scheme rfl
        rw [validateAuthScheme] at named
        split at named
        · cases named
        · split at named
          next same =>
            cases named
            exact same
          · cases named

theorem payloadFields_checked (passed : payloadFields platform request = .ok fields) :
    verticalBar ∉ fields.timestamp ∧ verticalBar ∉ fields.nonce ∧
      ∀ scheme, fields.authScheme = some scheme → scheme = sharedSecretScheme := by
  obtain ⟨presented, checked, built⟩ := bind_eq_ok.mp passed
  obtain ⟨stamped, fresh, scheme⟩ := validateHeaders_checked checked
  split at built
  · cases built
  · cases built
    exact ⟨verticalBar_not_mem_timestamp _ stamped, verticalBar_not_mem_nonce _ fresh, scheme⟩

/-! ### Taking the text apart -/

theorem field_eq (other) (same : one ++ lit "|" ++ rest = other ++ lit "|" ++ rest')
    (count : one.count verticalBar = other.count verticalBar) : one = other ∧ rest = rest' := by
  -- a field ends at the separator that its own separators count up to
  have bar : lit "|" = [verticalBar] := by decide
  simp only [bar, append_assoc, singleton_append] at same
  induction one generalizing other with
  | nil =>
    cases other with
    | nil => exact ⟨rfl, (List.cons.inj same).2⟩
    | cons u other =>
      rw [← (List.cons.inj same).1] at count
      simp at count
  | cons u one ih =>
    cases other with
    | nil =>
      rw [(List.cons.inj same).1] at count
      simp at count
    | cons v other =>
      obtain ⟨rfl, behind⟩ := List.cons.inj same
      have fewer : one.count verticalBar = other.count verticalBar := by
        simpa [count_cons] using count
      obtain ⟨rfl, rest⟩ := ih other fewer behind
      exact ⟨rfl, rest⟩

/-- The text behind the scheme. -/
def PayloadFields.tail (fields : PayloadFields) : JsString :=
  fields.keyId ++ lit "|" ++ (fields.method ++ lit "|" ++ (fields.path ++ lit "|" ++
    (fields.timestamp ++ lit "|" ++ (fields.nonce ++ lit "|" ++ (fields.contentType ++ lit "|" ++
      fields.bodySha256)))))

def schemeText : Option JsString → JsString
  | none => lit "warp-v2|"
  | some scheme => lit "warp-v2|" ++ scheme ++ lit "|"

theorem PayloadFields.payload_eq (fields : PayloadFields) :
    fields.payload = schemeText fields.authScheme ++ fields.tail := by
  rw [payload, tail]
  have unnamed : lit "warp-v2|" = lit "warp-v2" ++ lit "|" := by decide
  cases fields.authScheme with
  | none => simp [buildCanonicalPayload, schemeText, append_assoc, unnamed]
  | some scheme => simp [buildCanonicalPayload, schemeText, append_assoc]

theorem tail_eq_of_sameSeparators (same : one.tail = other.tail)
    (separators : SameSeparators one other) (stamp : verticalBar ∉ one.timestamp)
    (stamp' : verticalBar ∉ other.timestamp) (fresh : verticalBar ∉ one.nonce)
    (fresh' : verticalBar ∉ other.nonce) : SameSigned one other := by
  obtain ⟨-, keyIds, methods, paths, contentTypes⟩ := separators
  obtain ⟨keyId, same⟩ := field_eq _ same keyIds
  obtain ⟨method, same⟩ := field_eq _ same methods
  obtain ⟨path, same⟩ := field_eq _ same paths
  obtain ⟨timestamp, same⟩ := field_eq _ same
    (by rw [count_eq_zero.mpr stamp, count_eq_zero.mpr stamp'])
  obtain ⟨nonce, same⟩ := field_eq _ same
    (by rw [count_eq_zero.mpr fresh, count_eq_zero.mpr fresh'])
  obtain ⟨contentType, bodySha256⟩ := field_eq _ same contentTypes
  exact ⟨keyId, method, path, timestamp, nonce, contentType, bodySha256, by rw [timestamp]⟩

theorem schemeText_inj (shared : ∀ scheme, one = some scheme → scheme = sharedSecretScheme)
    (shared' : ∀ scheme, other = some scheme → scheme = sharedSecretScheme) :
    (schemeText one).length = (schemeText other).length ↔ one.isSome = other.isSome := by
  cases one with
  | none =>
    cases other with
    | none => simp
    | some scheme =>
      rw [shared' scheme rfl]
      decide
  | some scheme =>
    rw [shared scheme rfl]
    cases other with
    | none => decide
    | some scheme' =>
      rw [shared' scheme' rfl]
      simp

/-- Of two requests with one signed text, the signed fields are equal exactly when the
separators fall into the same fields. -/
theorem signed_payload_unambiguous_iff (platform : AuthPlatform) (one other : SignedRequest)
    (fields fields' : PayloadFields) (passed : payloadFields platform one = .ok fields)
    (passed' : payloadFields platform other = .ok fields')
    (equal : fields.payload = fields'.payload) :
    SameSigned fields fields' ↔ SameSeparators fields fields' := by
  obtain ⟨stamp, fresh, scheme⟩ := payloadFields_checked passed
  obtain ⟨stamp', fresh', scheme'⟩ := payloadFields_checked passed'
  rw [PayloadFields.payload_eq, PayloadFields.payload_eq] at equal
  have lengths := schemeText_inj scheme scheme'
  constructor
  · rintro ⟨keyId, method, path, timestamp, nonce, contentType, bodySha256, -⟩
    refine ⟨lengths.mp ?_, by rw [keyId], by rw [method], by rw [path], by rw [contentType]⟩
    have tails : fields.tail = fields'.tail := by
      simp only [PayloadFields.tail, keyId, method, path, timestamp, nonce, contentType, bodySha256]
    rw [tails] at equal
    exact congrArg List.length (append_cancel_right equal)
  · intro separators
    have tails := (append_inj equal (lengths.mpr separators.1)).2
    exact tail_eq_of_sameSeparators tails separators stamp stamp' fresh fresh'

/-! ### Two requests with one signed text -/

/-- A platform that leaves texts as they are. -/
def plainPlatform : AuthPlatform where
  hash _ := lit "e3b0"
  hmac _ _ := []
  urlPath url := some url
  toUpperCase method := method

def sampleNonce : String := "00000000-0000-4000-8000-000000000000"

/-- A request of the key `k` with the given path, timestamp and content type. -/
def sampleRequest (path timestamp contentType : String) : SignedRequest where
  method := lit "POST"
  url := lit path
  headers := .ofList [(lit "x-warp-sig-version", lit "2"), (lit "x-warp-key-id", lit "k"),
    (lit "x-warp-signature", List.replicate 64 (digitUnit '0')),
    (lit "x-warp-timestamp", lit timestamp), (lit "x-warp-nonce", lit sampleNonce),
    (lit "content-type", lit contentType)]
  body := none

def sampleFields (path timestamp contentType : String) : PayloadFields :=
  ⟨none, lit "k", lit "POST", lit path, lit timestamp, lit sampleNonce, lit contentType, lit "e3b0"⟩

theorem signed_payload_unambiguous_iff_self :
    SameSigned (sampleFields "/sync" "1" "a") (sampleFields "/sync" "1" "a") ↔
      SameSeparators (sampleFields "/sync" "1" "a") (sampleFields "/sync" "1" "a") :=
  signed_payload_unambiguous_iff plainPlatform (sampleRequest "/sync" "1" "a")
    (sampleRequest "/sync" "1" "a") _ _ (by decide +kernel) (by decide +kernel) rfl

/-- A path may end with what the other request has as timestamp, nonce and content type. -/
theorem signed_payload_ambiguous :
    payloadFields plainPlatform (sampleRequest "/sync" "1"
        "a|2|00000000-0000-4000-8000-000000000000|b") =
      .ok (sampleFields "/sync" "1" "a|2|00000000-0000-4000-8000-000000000000|b") ∧
    payloadFields plainPlatform (sampleRequest
        "/sync|1|00000000-0000-4000-8000-000000000000|a" "2" "b") =
      .ok (sampleFields "/sync|1|00000000-0000-4000-8000-000000000000|a" "2" "b") ∧
    (sampleFields "/sync" "1" "a|2|00000000-0000-4000-8000-000000000000|b").payload =
      (sampleFields "/sync|1|00000000-0000-4000-8000-000000000000|a" "2" "b").payload ∧
    ¬ SameSigned (sampleFields "/sync" "1" "a|2|00000000-0000-4000-8000-000000000000|b")
      (sampleFields "/sync|1|00000000-0000-4000-8000-000000000000|a" "2" "b") := by
  refine ⟨by decide +kernel, by decide +kernel, by decide +kernel, ?_⟩
  rintro ⟨-, -, path, -⟩
  revert path
  decide +kernel

end GitWarp
