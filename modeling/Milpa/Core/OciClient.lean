import Milpa.Core.TokenRequest

/-!
# Pulls from a registry

`OciRegistryClient` of `oci_client.rs`: a token, a manifest, the one layer of it with the
source, and the blob of that layer, which the transport streams into a file. The transport is
any function of the requests that were sent before; the token cache, which other fetches
share, the JSON parser and the file system are parameters too. What was pulled is what the
digests say; and a call of `blob` that fails leaves no bytes of a response if and only if
nothing goes wrong after bytes were written (`pull_iff`).
-/

namespace Milpa.Core.OciClient

open BoundedHttp (UrlCrate HttpResponse eqIgnoreAsciiCase)

/-! ### What is given -/

/-- The steps that an error names. -/
inductive Phase where
  | token
  | manifest
  | blob
  deriving DecidableEq

/-- The message of an error. -/
inductive Message where
  | transport (text : Str)
  | failed (m : Message)
  | noChallenge (registry : Str) (status : ℕ)
  | challenge (e : WwwAuthenticate.ChallengeError)
  | tokenStatus (status : ℕ)
  | tokenNotJson (e : Str)
  | noToken
  | manifestStatus (digest : Str) (status : ℕ)
  | mismatch (expected actual : Str)
  | notJson (e : Str)
  | notObject (kind : Str)
  | manifestList
  | blobStatus (digest : Str) (status : ℕ)
  | readingBlob (e : Str)
  | noTarball (artifactType configMediaType : Option Str) (layers : List Str)
  | ambiguousTarball (n : ℕ)

/-- `FetchError`. -/
structure FetchError where
  code : Str
  phase : Option Phase
  message : Message

/-- A request of the client. -/
structure Request where
  method : Str
  url : Str
  headers : List (Str × Str)
  cap : ℕ

/-- What the transport does: its result, and what it has written to the sink, where it has got to it. -/
structure Answer where
  result : Except FetchError HttpResponse
  sink : Option Bytes

/-- `serde_json::Value`; a number by what `as_i64` gives. -/
inductive Json where
  | null
  | bool (b : Bool)
  | number (n : Option ℤ)
  | string (s : Str)
  | array (entries : List Json)
  | object (fields : List (Str × Json))

/-- What the client runs in. -/
structure Env where
  crate : UrlCrate
  http : List Request → Request → Answer
  /-- The token that is in the cache for a registry and a scope, after these requests. -/
  cached : List Request → Str × Str → Option Str
  json : Bytes → Except Str Json
  /-- Why a file that is there cannot be read. -/
  unreadable : Option Str
  /-- A file can be removed. -/
  removes : Bool

/-- The destination: as it was, gone, or with what was written of a response. -/
inductive Dest where
  | before (content : Option Bytes)
  | removed
  | response (got : Bytes)

/-- What is sent, the buffer of `manifest`, and the destination of `blob`. -/
structure World where
  sent : List Request
  body : Bytes
  dest : Dest

/-! ### JSON -/

namespace Json

/-- `get`. -/
def get : Json → Str → Option Json
  | object fields, key => (fields.find? fun f => decide (f.1 = key)).map Prod.snd
  | _, _ => none

/-- `as_str`. -/
def asStr : Json → Option Str
  | string s => some s
  | _ => none

/-- `as_array`. -/
def asArray : Json → Option (List Json)
  | array entries => some entries
  | _ => none

/-- `as_i64`. -/
def asI64 : Json → Option ℤ
  | number n => n
  | _ => none

/-- `is_object`. -/
def isObject : Json → Bool
  | object _ => true
  | _ => false

/-- `json_kind`. -/
def kind : Json → Str
  | null => "null"
  | bool _ => "boolean"
  | number _ => "number"
  | string _ => "string"
  | array _ => "array"
  | object _ => "object"

end Json

/-! ### Manifests -/

/-- `Layer`. -/
structure Layer where
  mediaType : Str
  digest : Str
  size : ℤ

/-- `Manifest`. -/
structure Manifest where
  mediaType : Str
  artifactType : Option Str
  configMediaType : Option Str
  layers : List Layer

/-- `TOKEN_OR_MANIFEST_CAP`. -/
def tokenOrManifestCap : ℕ := 2 ^ 20

/-- `MAX_COMPRESSED_BYTES`. -/
def maxCompressedBytes : ℕ := 4 * 2 ^ 30

/-- `SOURCE_ARTIFACT_TYPE`. -/
def sourceArtifactType : Str := "application/vnd.milpa.source.v1"

/-- `EMPTY_CONFIG_MEDIA_TYPE`. -/
def emptyConfigMediaType : Str := "application/vnd.oci.empty.v1+json"

/-- `SOURCE_LAYER_MEDIA_TYPE`. -/
def sourceLayerMediaType : Str := "application/vnd.milpa.source.v1.tar+gzip"

/-- `MANIFEST_ACCEPT`. -/
def manifestAccept : Str := "application/vnd.oci.image.manifest.v1+json, application/vnd.docker.distribution.manifest.v2+json"

/-- `oci_transport_err`, with the code `FETCH-OCI-PULL-FAILED`. -/
def pullFailed (phase : Phase) (m : Message) : FetchError := ⟨"FETCH-OCI-PULL-FAILED", some phase, m⟩

/-- `wrap_transport_phase`. -/
def wrapTransportPhase (phase : Phase) (e : FetchError) : FetchError :=
  if e.code ≠ "FETCH-DOWNLOAD-FAILED".toList then e else pullFailed phase (.failed e.message)

/-- The digest of bytes, as it is written. -/
def digestOf (bytes : Bytes) : Str := "sha256:".toList ++ hexLower (sha256 bytes)

/-- A layer of the manifest. -/
def readLayer (entry : Json) : Layer where
  mediaType := ((entry.get "mediaType").bind Json.asStr).getD []
  digest := ((entry.get "digest").bind Json.asStr).getD []
  size := ((entry.get "size").bind Json.asI64).getD 0

/-- The manifest of a payload. -/
def readManifest (payload : Json) : Manifest where
  mediaType := ((payload.get "mediaType").bind Json.asStr).getD []
  artifactType := (payload.get "artifactType").bind Json.asStr
  configMediaType := ((payload.get "config").bind (·.get "mediaType")).bind Json.asStr
  layers := (((payload.get "layers").bind Json.asArray).map (·.map readLayer)).getD []

/-- `select_source_layer`. -/
def selectSourceLayer (m : Manifest) : Except FetchError Layer :=
  let artifactTypeOk := m.artifactType.isNone || m.artifactType == some sourceArtifactType
  let configOk := m.configMediaType.isNone || m.configMediaType == some emptyConfigMediaType
  let tarballs := if artifactTypeOk && configOk then m.layers.filter fun l => decide (l.mediaType = sourceLayerMediaType) else []
  match tarballs with
  | [] => .error ⟨"FETCH-OCI-NO-TARBALL", none, .noTarball m.artifactType m.configMediaType (m.layers.map (·.mediaType))⟩
  | [l] => .ok l
  | _ => .error ⟨"FETCH-OCI-AMBIGUOUS-TARBALL", none, .ambiguousTarball tarballs.length⟩

/-! ### Tokens -/

variable (env : Env) (registry repository digest : Str) (size : Option ℤ) (token scheme : Str)

/-- `scope_for`. -/
def scopeFor (repository : Str) : Str := "repository:".toList ++ repository ++ ":pull".toList

/-- A request is sent. -/
def call (req : Request) (w : World) : Answer × World := (env.http w.sent req, { w with sent := w.sent ++ [req] })

/-- `headers.get`, as a text that is not empty. -/
def headerText (r : HttpResponse) (name : Str) : Option Str :=
  ((r.headers.find? fun h => eqIgnoreAsciiCase h.1 name).bind Prod.snd).filter fun s => decide (s ≠ [])

/-- The token of a payload. -/
def tokenOf (payload : Json) : Option Str :=
  (((payload.get "token").bind Json.asStr).filter fun s => decide (s ≠ [])).or
    (((payload.get "access_token").bind Json.asStr).filter fun s => decide (s ≠ []))

/-- `acquire_token`; when the token expires matters to the cache only. -/
def acquireToken (scope : Str) (w : World) : Except FetchError Str × World :=
  let (a, w) := call env ⟨"GET", scheme ++ "://".toList ++ registry ++ "/v2/".toList, [], tokenOrManifestCap⟩ w
  match a.result with
  | .error e => (.error (wrapTransportPhase .token e), w)
  | .ok resp =>
    match headerText resp "WWW-Authenticate" with
    | none => (.error (pullFailed .token (.noChallenge registry resp.status)), w)
    | some wwwAuth =>
      match WwwAuthenticate.tokenUrl env.crate scope wwwAuth with
      | .error e => (.error (pullFailed .token (.challenge e)), w)
      | .ok tokenUrl =>
        let (a, w) := call env ⟨"GET", tokenUrl, [], tokenOrManifestCap⟩ w
        match a.result with
        | .error e => (.error (wrapTransportPhase .token e), w)
        | .ok tokenResp =>
          if tokenResp.status ≠ 200 then (.error (pullFailed .token (.tokenStatus tokenResp.status)), w)
          else
            match env.json (a.sink.getD []) with
            | .error e => (.error (pullFailed .token (.tokenNotJson e)), w)
            | .ok payload =>
              match tokenOf payload with
              | none => (.error (pullFailed .token .noToken), w)
              | some t => (.ok t, w)

/-- `token`. -/
def getToken (w : World) : Except FetchError Str × World :=
  match env.cached w.sent (registry, scopeFor repository) with
  | some t => (.ok t, w)
  | none => acquireToken env registry scheme (scopeFor repository) w

/-- `get_with_auth_retry`; what is in the cache after the token was invalidated is for `cached` to say. -/
def getWithAuthRetry (phase : Phase) (attempt : Str → World → Except FetchError HttpResponse × World) (w : World) :
    Except FetchError HttpResponse × World :=
  match attempt token w with
  | (.error e, w) => (.error (wrapTransportPhase phase e), w)
  | (.ok resp, w) =>
    if resp.status ≠ 401 then (.ok resp, w)
    else
      match getToken env registry repository scheme w with
      | (.error e, w) => (.error e, w)
      | (.ok newToken, w) =>
        match attempt newToken w with
        | (.error e, w) => (.error (wrapTransportPhase phase e), w)
        | (.ok resp, w) => (.ok resp, w)

/-! ### Manifest and blob -/

/-- An attempt at the manifest. -/
def manifestAttempt (tok : Str) (w : World) : Except FetchError HttpResponse × World :=
  let (a, w) := call env ⟨"GET", scheme ++ "://".toList ++ registry ++ "/v2/".toList ++ repository ++ "/manifests/".toList ++ digest,
    [("Accept", manifestAccept), ("Authorization", "Bearer ".toList ++ tok)], tokenOrManifestCap⟩ { w with body := [] }
  (a.result, { w with body := w.body ++ a.sink.getD [] })

/-- `manifest`, from the body on. -/
def verifyManifest (body : Bytes) : Except FetchError Manifest :=
  if digestOf body ≠ digest then .error ⟨"FETCH-OCI-DIGEST-MISMATCH", some .manifest, .mismatch digest (digestOf body)⟩
  else
    match env.json body with
    | .error e => .error (pullFailed .manifest (.notJson e))
    | .ok payload =>
      if payload.isObject = false then .error (pullFailed .manifest (.notObject payload.kind))
      else if (payload.get "manifests").isSome ∧ (payload.get "layers").isNone then .error (pullFailed .manifest .manifestList)
      else .ok (readManifest payload)

/-- `manifest`. -/
def manifest (w : World) : Except FetchError Manifest × World :=
  match getWithAuthRetry env registry repository token scheme .manifest (manifestAttempt env registry repository digest scheme) w with
  | (.error e, w) => (.error e, w)
  | (.ok resp, w) =>
    if resp.status ≠ 200 then (.error (pullFailed .manifest (.manifestStatus digest resp.status)), w)
    else (verifyManifest env digest w.body, w)

/-- The cap of a blob. -/
def blobCap : ℕ :=
  match size with
  | some s => if 0 < s then min s.toNat maxCompressedBytes else maxCompressedBytes
  | none => maxCompressedBytes

/-- The request for a blob. -/
def blobRequest (tok : Str) : Request :=
  ⟨"GET", scheme ++ "://".toList ++ registry ++ "/v2/".toList ++ repository ++ "/blobs/".toList ++ digest,
    [("Authorization", "Bearer ".toList ++ tok)], blobCap size⟩

/-- The destination after an answer. -/
def Dest.after (d : Dest) (a : Answer) : Dest :=
  match a.sink with
  | none => d
  | some got => .response got

/-- An attempt at the blob. -/
def blobAttempt (tok : Str) (w : World) : Except FetchError HttpResponse × World :=
  let (a, w) := call env (blobRequest registry repository digest size scheme tok) w
  (a.result, { w with dest := w.dest.after a })

/-- What is at the destination. -/
def Dest.content : Dest → Option Bytes
  | before content => content
  | removed => none
  | response got => some got

/-- `sha256_of_file`. -/
def sha256OfFile (d : Dest) : Except Str Str :=
  match d.content with
  | none => .error "No such file or directory"
  | some bytes =>
    match env.unreadable with
    | some e => .error e
    | none => .ok (hexLower (sha256 bytes))

/-- `remove_file`, whose result is ignored. -/
def removeFile (d : Dest) : Dest := if env.removes then .removed else d

/-- `blob`, from the response on. -/
def verifyBlob (resp : HttpResponse) (w : World) : Except FetchError Unit × World :=
  if resp.status ≠ 200 then (.error (pullFailed .blob (.blobStatus digest resp.status)), { w with dest := removeFile env w.dest })
  else
    match sha256OfFile env w.dest with
    | .error e => (.error (pullFailed .blob (.readingBlob e)), w)
    | .ok hash =>
      if "sha256:".toList ++ hash ≠ digest then
        (.error ⟨"FETCH-OCI-DIGEST-MISMATCH", some .blob, .mismatch digest ("sha256:".toList ++ hash)⟩, w)
      else (.ok (), w)

/-- `blob`. -/
def blob (w : World) : Except FetchError Unit × World :=
  match getWithAuthRetry env registry repository token scheme .blob (blobAttempt env registry repository digest size scheme) w with
  | (.error e, w) => (.error e, w)
  | (.ok resp, w) => verifyBlob env digest resp w

/-! ### What was pulled -/

variable {env registry repository digest size token scheme}

/-- The file is what the digest of the one layer says, and the layer is listed in the manifest that the digest says. -/
def Pulled (env : Env) (digest : Str) (layer : Layer) (d : Dest) : Prop :=
  ∃ body payload content, digestOf body = digest ∧ env.json body = .ok payload ∧
    (readManifest payload).layers.filter (fun l => decide (l.mediaType = sourceLayerMediaType)) = [layer] ∧
    d.content = some content ∧ digestOf content = layer.digest

theorem verifyManifest_ok {body : Bytes} {m : Manifest} (h : verifyManifest env digest body = .ok m) :
    digestOf body = digest ∧ ∃ payload, env.json body = .ok payload ∧ m = readManifest payload := by
  rw [verifyManifest] at h
  split_ifs at h with hdigest
  cases hjson : env.json body with
  | error e =>
    rw [hjson] at h
    cases h
  | ok payload =>
    rw [hjson] at h
    dsimp only at h
    split_ifs at h
    exact ⟨not_not.mp hdigest, payload, rfl, (Except.ok.inj h).symm⟩

theorem manifest_ok {m : Manifest} {w w' : World} (h : manifest env registry repository digest token scheme w = (.ok m, w')) :
    ∃ body payload, digestOf body = digest ∧ env.json body = .ok payload ∧ m = readManifest payload := by
  rw [manifest] at h
  split at h
  · cases h
  · rename_i resp w _
    by_cases hstatus : resp.status ≠ 200
    · rw [if_pos hstatus] at h
      cases h
    · rw [if_neg hstatus] at h
      obtain ⟨hdigest, payload, hjson, hm⟩ := verifyManifest_ok (Prod.mk.inj h).1
      exact ⟨_, payload, hdigest, hjson, hm⟩

theorem selectSourceLayer_ok {m : Manifest} {layer : Layer} (h : selectSourceLayer m = .ok layer) :
    m.layers.filter (fun l => decide (l.mediaType = sourceLayerMediaType)) = [layer] := by
  rw [selectSourceLayer] at h
  split at h
  · cases h
  · rename_i l htarballs
    obtain rfl := Except.ok.inj h
    split_ifs at htarballs
    exact htarballs
  · cases h

theorem sha256OfFile_ok {d : Dest} {hash : Str} (h : sha256OfFile env d = .ok hash) :
    ∃ content, d.content = some content ∧ "sha256:".toList ++ hash = digestOf content := by
  rw [sha256OfFile] at h
  split at h
  · cases h
  · rename_i bytes hcontent
    split at h
    · cases h
    · exact ⟨bytes, hcontent, by rw [← Except.ok.inj h]; rfl⟩

/-- How the end of `blob` goes, by the status and the hash of the file. -/
theorem verifyBlob_cases (env : Env) (digest : Str) (resp : HttpResponse) (w : World) :
    resp.status ≠ 200 ∧ (∃ e, verifyBlob env digest resp w = (.error e, { w with dest := removeFile env w.dest })) ∨
      resp.status = 200 ∧ (sha256OfFile env w.dest).map ("sha256:".toList ++ ·) ≠ .ok digest ∧
        (∃ e, verifyBlob env digest resp w = (.error e, w)) ∨
      resp.status = 200 ∧ (sha256OfFile env w.dest).map ("sha256:".toList ++ ·) = .ok digest ∧ verifyBlob env digest resp w = (.ok (), w) := by
  rw [verifyBlob]
  by_cases hstatus : resp.status = 200
  · rw [if_neg (not_not.mpr hstatus)]
    cases hhash : sha256OfFile env w.dest with
    | error e => exact .inr (.inl ⟨hstatus, nofun, _, rfl⟩)
    | ok hash =>
      dsimp only
      by_cases hdigest : "sha256:".toList ++ hash = digest
      · rw [if_neg (not_not.mpr hdigest)]
        exact .inr (.inr ⟨hstatus, congrArg _ hdigest, rfl⟩)
      · rw [if_pos hdigest]
        exact .inr (.inl ⟨hstatus, fun heq => hdigest (Except.ok.inj heq), _, rfl⟩)
  · rw [if_pos hstatus]
    exact .inl ⟨hstatus, _, rfl⟩

theorem blob_ok {w w' : World} (h : blob env registry repository digest size token scheme w = (.ok (), w')) :
    ∃ content, w'.dest.content = some content ∧ digestOf content = digest := by
  rw [blob] at h
  split at h
  · cases h
  · rename_i resp w _
    rcases verifyBlob_cases env digest resp w with ⟨-, e, he⟩ | ⟨-, -, e, he⟩ | ⟨-, hdigest, hok⟩
    · cases he.symm.trans h
    · cases he.symm.trans h
    · obtain rfl := (Prod.mk.inj (hok.symm.trans h)).2
      cases hhash : sha256OfFile env w.dest with
      | error e =>
        rw [hhash] at hdigest
        cases hdigest
      | ok hash =>
        rw [hhash] at hdigest
        obtain ⟨content, hcontent, heq⟩ := sha256OfFile_ok hhash
        exact ⟨content, hcontent, heq.symm.trans (Except.ok.inj hdigest)⟩

/-! ### What a failure leaves -/

/-- The destination holds no bytes of a response. -/
def Dest.Clean (d : Dest) : Prop := ∀ got, d = .response got → got = []

/-- What a last response comes to: it has left nothing, or its bytes have the digest, or they can be removed. -/
def Settled (env : Env) (digest : Str) (resp : HttpResponse) (d : Dest) : Prop :=
  d.Clean ∨ if resp.status = 200 then (sha256OfFile env d).map ("sha256:".toList ++ ·) = .ok digest else env.removes = true

theorem clean_removeFile {d : Dest} : (removeFile env d).Clean ↔ d.Clean ∨ env.removes = true := by
  rw [removeFile]
  split_ifs with h
  · exact iff_of_true nofun (.inr h)
  · exact ⟨.inl, fun hd => hd.resolve_right h⟩

theorem settled_iff {resp : HttpResponse} {w : World} :
    (∀ e w', verifyBlob env digest resp w = (.error e, w') → w'.dest.Clean) ↔ Settled env digest resp w.dest := by
  rw [Settled]
  rcases verifyBlob_cases env digest resp w with ⟨hstatus, e, he⟩ | ⟨hstatus, hdigest, e, he⟩ | ⟨hstatus, hdigest, hok⟩
  · rw [he, if_neg hstatus, ← clean_removeFile]
    exact ⟨fun h => h e _ rfl, fun h e' w' heq => (Prod.mk.inj heq).2 ▸ h⟩
  · rw [he, if_pos hstatus]
    exact ⟨fun h => .inl (h e w rfl), fun h e' w' heq => (Prod.mk.inj heq).2 ▸ h.resolve_right hdigest⟩
  · rw [hok, if_pos hstatus]
    exact iff_of_true (fun e w' heq => by cases heq) (.inr hdigest)

theorem acquireToken_dest (scope : Str) (w : World) : (acquireToken env registry scheme scope w).2.dest = w.dest := by
  rw [acquireToken]
  dsimp only [call]
  split
  · rfl
  · split
    · rfl
    · split
      · rfl
      · split
        · rfl
        · split
          · rfl
          · split
            · rfl
            · split <;> rfl

theorem getToken_dest {w w' : World} {result : Except FetchError Str} (h : getToken env registry repository scheme w = (result, w')) :
    w'.dest = w.dest := by
  rw [getToken] at h
  split at h
  · rw [← (Prod.mk.inj h).2]
  · rw [← acquireToken_dest (scopeFor repository) w, h]

/-- What goes well in a call that fails: at each point where it may fail, the answers before it have left nothing. -/
structure CleansUp (env : Env) (registry repository digest : Str) (size : Option ℤ) (token scheme : Str) (w : World) : Prop where
  /-- The request fails, at once or in mid-stream. -/
  failed : ∀ e d, blobAttempt env registry repository digest size scheme token w = (.error e, d) → d.dest.Clean
  answered : ∀ r d, blobAttempt env registry repository digest size scheme token w = (.ok r, d) → r.status ≠ 401 → Settled env digest r d.dest
  /-- There is no other token. -/
  refused : ∀ r d e d', blobAttempt env registry repository digest size scheme token w = (.ok r, d) → r.status = 401 →
    getToken env registry repository scheme d = (.error e, d') → d.dest.Clean
  failedAgain : ∀ r d t d' e d'', blobAttempt env registry repository digest size scheme token w = (.ok r, d) → r.status = 401 →
    getToken env registry repository scheme d = (.ok t, d') → blobAttempt env registry repository digest size scheme t d' = (.error e, d'') →
    d''.dest.Clean
  answeredAgain : ∀ r d t d' r' d'', blobAttempt env registry repository digest size scheme token w = (.ok r, d) → r.status = 401 →
    getToken env registry repository scheme d = (.ok t, d') → blobAttempt env registry repository digest size scheme t d' = (.ok r', d'') →
    Settled env digest r' d''.dest

/-- A call of `blob` that fails leaves no bytes of a response. -/
def FailsClean (env : Env) (registry repository digest : Str) (size : Option ℤ) (token scheme : Str) (w : World) : Prop :=
  ∀ e w', blob env registry repository digest size token scheme w = (.error e, w') → w'.dest.Clean

section Endings

variable {w d d' d'' : World} {e : FetchError} {r r' : HttpResponse} {t : Str}

theorem blob_failed (h : blobAttempt env registry repository digest size scheme token w = (.error e, d)) :
    blob env registry repository digest size token scheme w = (.error (wrapTransportPhase .blob e), d) := by
  rw [blob, getWithAuthRetry, h]

theorem blob_answered (h : blobAttempt env registry repository digest size scheme token w = (.ok r, d)) (hstatus : r.status ≠ 401) :
    blob env registry repository digest size token scheme w = verifyBlob env digest r d := by
  rw [blob, getWithAuthRetry, h]
  dsimp only
  rw [if_pos hstatus]

/-- After a 401 everything depends on the other token. -/
theorem getWithAuthRetry_refused (h : blobAttempt env registry repository digest size scheme token w = (.ok r, d)) (hstatus : r.status = 401) :
    getWithAuthRetry env registry repository token scheme .blob (blobAttempt env registry repository digest size scheme) w =
      match getToken env registry repository scheme d with
      | (.error e, w) => (.error e, w)
      | (.ok newToken, w) =>
        match blobAttempt env registry repository digest size scheme newToken w with
        | (.error e, w) => (.error (wrapTransportPhase .blob e), w)
        | (.ok resp, w) => (.ok resp, w) := by
  rw [getWithAuthRetry, h]
  dsimp only
  rw [if_neg (not_not.mpr hstatus)]

theorem blob_refused (h : blobAttempt env registry repository digest size scheme token w = (.ok r, d)) (hstatus : r.status = 401)
    (htoken : getToken env registry repository scheme d = (.error e, d')) :
    blob env registry repository digest size token scheme w = (.error e, d') := by
  rw [blob, getWithAuthRetry_refused h hstatus, htoken]

theorem blob_failedAgain (h : blobAttempt env registry repository digest size scheme token w = (.ok r, d)) (hstatus : r.status = 401)
    (htoken : getToken env registry repository scheme d = (.ok t, d'))
    (hagain : blobAttempt env registry repository digest size scheme t d' = (.error e, d'')) :
    blob env registry repository digest size token scheme w = (.error (wrapTransportPhase .blob e), d'') := by
  rw [blob, getWithAuthRetry_refused h hstatus, htoken]
  dsimp only
  rw [hagain]

theorem blob_answeredAgain (h : blobAttempt env registry repository digest size scheme token w = (.ok r, d)) (hstatus : r.status = 401)
    (htoken : getToken env registry repository scheme d = (.ok t, d'))
    (hagain : blobAttempt env registry repository digest size scheme t d' = (.ok r', d'')) :
    blob env registry repository digest size token scheme w = verifyBlob env digest r' d'' := by
  rw [blob, getWithAuthRetry_refused h hstatus, htoken]
  dsimp only
  rw [hagain]

end Endings

theorem failsClean_iff (env : Env) (registry repository digest : Str) (size : Option ℤ) (token scheme : Str) (w : World) :
    FailsClean env registry repository digest size token scheme w ↔ CleansUp env registry repository digest size token scheme w := by
  constructor
  · intro h
    refine ⟨fun e d hd => ?_, fun r d hd hstatus => ?_, fun r d e d' hd hstatus ht => ?_, fun r d t d' e d'' hd hstatus ht he => ?_,
      fun r d t d' r' d'' hd hstatus ht hr => ?_⟩
    · exact h _ _ (blob_failed hd)
    · exact settled_iff.mp fun e w' he => h e w' ((blob_answered hd hstatus).trans he)
    · rw [← getToken_dest ht]
      exact h _ _ (blob_refused hd hstatus ht)
    · exact h _ _ (blob_failedAgain hd hstatus ht he)
    · exact settled_iff.mp fun e w' he => h e w' ((blob_answeredAgain hd hstatus ht hr).trans he)
  · intro h e w' hblob
    cases hfirst : blobAttempt env registry repository digest size scheme token w with
    | mk result d =>
      cases result with
      | error e' =>
        obtain rfl := (Prod.mk.inj ((blob_failed hfirst).symm.trans hblob)).2
        exact h.failed e' _ hfirst
      | ok r =>
        by_cases hstatus : r.status = 401
        · cases htoken : getToken env registry repository scheme d with
          | mk result' d' =>
            cases result' with
            | error e' =>
              obtain rfl := (Prod.mk.inj ((blob_refused hfirst hstatus htoken).symm.trans hblob)).2
              rw [getToken_dest htoken]
              exact h.refused r d e' _ hfirst hstatus htoken
            | ok t =>
              cases hagain : blobAttempt env registry repository digest size scheme t d' with
              | mk result'' d'' =>
                cases result'' with
                | error e' =>
                  obtain rfl := (Prod.mk.inj ((blob_failedAgain hfirst hstatus htoken hagain).symm.trans hblob)).2
                  exact h.failedAgain r d t d' e' _ hfirst hstatus htoken hagain
                | ok r' =>
                  exact settled_iff.mpr (h.answeredAgain r d t d' r' d'' hfirst hstatus htoken hagain) e w'
                    ((blob_answeredAgain hfirst hstatus htoken hagain).symm.trans hblob)
        · exact settled_iff.mpr (h.answered r d hfirst hstatus) e w' ((blob_answered hfirst hstatus).symm.trans hblob)

/-- Where `manifest`, `select_source_layer` and `blob` succeed, what was pulled is what the digests say. -/
def PullsVerified (env : Env) (registry repository digest token scheme : Str) : Prop :=
  ∀ w w' m layer v v', manifest env registry repository digest token scheme w = (.ok m, w') → selectSourceLayer m = .ok layer →
    blob env registry repository layer.digest (some layer.size) token scheme v = (.ok (), v') → Pulled env digest layer v'.dest

theorem pullsVerified (env : Env) (registry repository digest token scheme : Str) : PullsVerified env registry repository digest token scheme := by
  intro w w' m layer v v' hmanifest hselect hblob
  obtain ⟨body, payload, hdigest, hjson, rfl⟩ := manifest_ok hmanifest
  obtain ⟨content, hcontent, hlayer⟩ := blob_ok hblob
  exact ⟨body, payload, content, hdigest, hjson, selectSourceLayer_ok hselect, hcontent, hlayer⟩

/-- **A pull is verified, and it fails clean** if and only if at each point of `blob` that may fail the answers before it have
left nothing. -/
theorem pull_iff (env : Env) (registry repository digest layerDigest : Str) (size : Option ℤ) (token scheme : Str) (w : World) :
    PullsVerified env registry repository digest token scheme ∧ FailsClean env registry repository layerDigest size token scheme w ↔
      CleansUp env registry repository layerDigest size token scheme w :=
  ⟨fun h => (failsClean_iff ..).mp h.2, fun h => ⟨pullsVerified env registry repository digest token scheme, (failsClean_iff ..).mpr h⟩⟩

/-- A transport whose connection is reset after one byte. -/
def resetting : Env where
  crate := WwwAuthenticate.textUrls
  http _ _ := ⟨.error ⟨"FETCH-DOWNLOAD-FAILED", none, .transport "reset"⟩, some [1]⟩
  cached _ _ := none
  json _ := .ok .null
  unreadable := none
  removes := true

theorem resetting_leaves_bytes : ¬ ∀ (env : Env) (registry repository digest layerDigest : Str) (size : Option ℤ) (token scheme : Str) (w : World),
    w.dest = .before none → PullsVerified env registry repository digest token scheme ∧
      FailsClean env registry repository layerDigest size token scheme w := by
  intro h
  have hclean := (h resetting "ghcr.io" "o/r" "sha256:00" "sha256:00" none "t" "https" ⟨[], [], .before none⟩ rfl).2 _ _ (blob_failed rfl)
  exact absurd (hclean [1] rfl) (by decide)

end Milpa.Core.OciClient
