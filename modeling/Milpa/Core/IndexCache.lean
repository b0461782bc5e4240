import Milpa.Concurrent.Process
import Milpa.Core.IndexTrust

/-!
# The cache of the index

`load_index_with_history` of `index_cache.rs` as a process over the files of one index: the
index, its stamp, the bundle or the marker that there is none, the baseline with its
metadata, and the payloads of commitments. Each operation on a file is one action, and can
fail. A write is atomic, as the rename is; a stamp or a marker is taken to be written at
once. What the two transports answer, the time and the verifier are given with each call.
The messages, and the directory that is made first, are left out.
-/

namespace Milpa.Core.IndexCache

open Milpa.Kdl Milpa.Concurrent

/-! ### The files -/

/-- The files of one index. -/
structure Slot where
  /-- `<cache_file>`. -/
  index : Option Bytes
  /-- `<cache_file>.at`: the time of the fetch, where it can be read as one. -/
  stamp : Option ℕ
  /-- `<cache_file>.bundle`. -/
  bundle : Option Bytes
  /-- `<cache_file>.no-bundle`. -/
  noBundle : Bool
  /-- `<cache_file>.baseline`. -/
  baseline : Option Bytes
  /-- `<cache_file>.baseline.meta`: what it says. -/
  baselineMeta : Option BaselineMeta
  /-- `<C>.epoch-commitment`, for each pointer. -/
  commitments : Str → Option Bytes

/-- No files. -/
def Slot.empty : Slot := ⟨none, none, none, false, none, none, fun _ => none⟩

/-- The operations on the files. -/
inductive CacheOp where
  | readStamp
  | readIndex
  | indexIsFile
  | markerExists
  | bundleLooksOk
  | readBundle
  | removeBundle
  | removeMarker
  | baselineIsFile
  | readBaseline
  | readMeta
  | writeMarker
  | writeBundle
  | writeIndex
  | writeStamp
  | writeBaseline
  | writeMeta
  /-- The second read of the index, for the pointer. -/
  | readPointer
  | readSidecar
  | writeSidecar
  deriving DecidableEq, Repr

/-- An action of a load. -/
abbrev CacheEvent := Event CacheOp Slot

/-! ### Calls -/

/-- What does not depend on the call: the KDL parser, SHA-256 for digests of violations, the readers of JSON. -/
structure CacheEnv where
  kdlParse : Str → Except Str (List KdlNode)
  sha256Hex : Str → Str
  seams : TrustSeams

/-- `BundleError`. -/
inductive BundleError where
  | notFound
  | other (message : Str)
  deriving DecidableEq, Repr

/-- `EpochCommitmentInputs`, with what its transport answers. -/
structure EpochCommitmentInputs where
  verifier : Verifier
  expectedSigner : Str
  trustBundle : TrustBundle
  httpGet : Except Str Bytes
  entryTrustPolicy : TrustPolicy

/-- The arguments of `load_index_with_history`, with what its transports answer. -/
structure Call where
  url : Str
  httpGet : Except Str Bytes
  ttlSeconds : ℕ
  nowUnix : ℕ
  config : Option IndexTrustConfig
  verifier : Option Verifier
  bundleHttpGet : Option (Except BundleError Bytes)
  refresh : Bool
  indexHistoryPolicy : TrustPolicy
  epoch : Option EpochCommitmentInputs

/-- The gate of a call, where it is active. -/
structure TrustGate where
  config : IndexTrustConfig
  verifier : Verifier
  bundleHttpGet : Except BundleError Bytes

/-- `trust_active`, with what it asserts to be there. -/
def Call.trustGate (c : Call) : Option TrustGate :=
  match c.config, c.verifier, c.bundleHttpGet with
  | some config, some verifier, some bundleHttpGet =>
    if config.policy = .off then none else some ⟨config, verifier, bundleHttpGet⟩
  | _, _, _ => none

/-- The errors of a load. -/
inductive LoadError where
  /-- `MILPA-INTERNAL-IO`: an operation on a file has failed, or the file is not there. -/
  | io
  /-- `MILPA-INTERNAL-IO`: the cached index is no text. -/
  | cachedNotUtf8
  /-- The cached index is not accepted by the parser. -/
  | cachedIndex (e : TngError)
  /-- `TNG-KDL-SYNTAX`: what was fetched is no text. -/
  | candidateNotUtf8
  /-- What the gate of the history refuses. -/
  | history (e : GateError)
  /-- What `enforce_index_trust` refuses: the slug of the result. -/
  | trust (result : VerificationResult)
  /-- `MILPA-INDEX-UNREACHABLE`: the second failure in a row of a bundle. -/
  | recovery (result : VerificationResult)
  /-- `MILPA-INDEX-UNREACHABLE`: the bundle in the cache is inconsistent, and nothing can be fetched. -/
  | inconsistentOffline
  /-- `MILPA-INDEX-UNREACHABLE`: nothing can be fetched, and nothing is cached. -/
  | unreachable
  | epoch (e : EpochError)
  deriving DecidableEq, Repr

/-- `GatedIndex`, with the status that is stamped onto its index. -/
structure GatedIndex where
  index : Index
  verification : Option VerificationResult
  bundleInfo : Option IndexBundleInfo
  epochCommitmentStatus : EpochCommitmentStatus
  deriving DecidableEq, Repr

/-- `FetchedIndex`. -/
structure FetchedIndex where
  index : Index
  verification : Option VerificationResult
  bundleInfo : Option IndexBundleInfo

/-! ### Operations -/

/-- A load, on its way. -/
abbrev Load := Process CacheOp Slot LoadError

/-- An operation that only looks, with what stands for a failure. -/
def look {α : Type} (op : CacheOp) (get : Slot → α) (failed : α) : Load α := .act op id (fun s => pure (get s)) (pure failed)

/-- A file that must be there. -/
def readFile (op : CacheOp) (get : Slot → Option Bytes) : Load Bytes :=
  .act op id (fun s => match get s with | some bytes => pure bytes | none => .fail .io) (.fail .io)

/-- A write whose failure is ignored. -/
def attempt (op : CacheOp) (write : Slot → Slot) : Load Unit := .act op write (fun _ => pure ()) (pure ())

/-- `atomic_write_bytes`, and `?`. -/
def atomicWrite (op : CacheOp) (write : Slot → Slot) : Load Unit := .act op write (fun _ => pure ()) (.fail .io)

/-- `?`, with the error as a load has it. -/
def orFail {ε α : Type} (r : Except ε α) (f : ε → LoadError) : Load α := Process.ofExcept (r.mapError f)

/-- `delete_bundle_sidecars`. -/
def deleteBundleSidecars : Load Unit := do
  attempt .removeBundle fun s => { s with bundle := none }
  attempt .removeMarker fun s => { s with noBundle := false }

/-- `write_index_to_cache`. -/
def writeIndexToCache (bytes : Bytes) (nowUnix : ℕ) : Load Unit := do
  atomicWrite .writeIndex fun s => { s with index := some bytes }
  attempt .writeStamp fun s => { s with stamp := some nowUnix }

/-! ### The commitment -/

section

variable (env : CacheEnv)

/-- The pointer of a text; what cannot be read has none. -/
def pointerOf (bytes : Bytes) : Option Str :=
  match fromUtf8 bytes with
  | some text => (rawAttestationEpochCommitment env.kdlParse text).toOption.join
  | none => none

/-- `read_cached_epoch_commitment_pointer`. -/
def readCachedEpochCommitmentPointer : Load (Option Str) := look .readPointer (fun s => s.index.bind (pointerOf env)) none

/-- Only a sidecar that has armed the commitment is kept. -/
def keepSidecar (pointer : Str) (sidecar : Option Bytes) (status : EpochCommitmentStatus) : Load Unit :=
  match sidecar, status with
  | some bytes, .armed _ _ =>
    attempt .writeSidecar fun s => { s with commitments := Function.update s.commitments pointer (some bytes) }
  | _, _ => pure ()

/-- `load_epoch_commitment_status`. -/
def loadEpochCommitmentStatus (epoch : EpochCommitmentInputs) (pointer : Option Str) : Load EpochCommitmentStatus :=
  match pointer with
  | none => pure .unarmed
  | some pointer => do
    let cached ← look .readSidecar (fun s => s.commitments pointer) none
    let sidecar := cached <|> epoch.httpGet.toOption
    let status := evaluateEpochCommitment env.seams epoch.verifier epoch.trustBundle epoch.expectedSigner (some pointer)
      sidecar sidecar.isNone
    keepSidecar pointer sidecar status
    return status

/-- `mint_enforced`. -/
def mintEnforced (fetched : FetchedIndex) (status : EpochCommitmentStatus) (entryTrustPolicy indexHistoryPolicy : TrustPolicy) :
    Except EpochError GatedIndex := do
  enforceEpochCommitment status
  checkEpochRatchetRequirement status entryTrustPolicy indexHistoryPolicy
  return ⟨fetched.index, fetched.verification, fetched.bundleInfo, status⟩

/-- `apply_epoch_fold`. -/
def applyEpochFold (fetched : FetchedIndex) (indexHistoryPolicy : TrustPolicy) (epoch : EpochCommitmentInputs) : Load GatedIndex := do
  let pointer ← readCachedEpochCommitmentPointer env
  let status ← loadEpochCommitmentStatus env epoch pointer
  orFail (mintEnforced fetched status epoch.entryTrustPolicy indexHistoryPolicy) .epoch

/-- The mint: without inputs for the phase the status stays what the parser gives. -/
def mint (c : Call) (fetched : FetchedIndex) : Load GatedIndex :=
  match c.epoch with
  | some epoch => applyEpochFold env fetched c.indexHistoryPolicy epoch
  | none => pure ⟨fetched.index, fetched.verification, fetched.bundleInfo, .unarmed⟩

/-! ### The gate of the history -/

/-- The baseline as a text, where there is one. -/
def readBaselineText : Load (Option Str) := do
  if ← look .baselineIsFile (fun s => s.baseline.isSome) false then
    let raw ← readFile .readBaseline Slot.baseline
    match fromUtf8 raw with
    | some text => return some text
    | none => .fail (.history (.baselineCorrupt false))
  else return none

/-- `run_ratchet_gate` on a text, with what is read of the baseline. -/
def gateOf (c : Call) (candidate : Str) (baseline : Option Str) (existingMeta : BaselineMeta) : Except GateError GateDecision :=
  evaluateGate env.kdlParse env.sha256Hex c.indexHistoryPolicy candidate baseline existingMeta c.nowUnix c.url

/-- `run_ratchet_gate`. -/
def gate (c : Call) (candidate : Bytes) : Load GateDecision :=
  match fromUtf8 candidate with
  | none => .fail .candidateNotUtf8
  | some text =>
    if c.indexHistoryPolicy = .off then orFail (gateOf env c text none ⟨none, none, none⟩) .history
    else do
      let baseline ← readBaselineText
      let existingMeta ← look .readMeta (fun s => s.baselineMeta.getD ⟨none, none, none⟩) ⟨none, none, none⟩
      orFail (gateOf env c text baseline existingMeta) .history

/-- A write that is made where there is something to write. -/
def writeIf (write : Bool) (p : Load Unit) : Load Unit := if write then p else pure ()

/-- The metadata, where the decision has some. -/
def writeNewMeta (newMeta : Option BaselineMeta) : Load Unit :=
  match newMeta with
  | some m => atomicWrite .writeMeta fun s => { s with baselineMeta := some m }
  | none => pure ()

/-- `apply_ratchet_writes`, without the warning. -/
def ratchetWrites (decision : GateDecision) (candidate : Bytes) : Load Unit := do
  writeIf decision.advance (atomicWrite .writeBaseline fun s => { s with baseline := some candidate })
  writeNewMeta decision.newMeta

/-! ### From the cache -/

/-- `verify_and_enforce`. -/
def verifyAndEnforce (g : TrustGate) (index bundle : Bytes) (maxAge : Option ℕ) : Load VerificationResult := do
  let result := g.verifier index bundle g.config.trustBundle g.config.expectedSigner maxAge
  orFail (enforceIndexTrust result g.config.policy) .trust
  return result

/-- The result that stands for a bundle that is not there. -/
def missingBundle (g : TrustGate) : Load (Option VerificationResult × Option IndexBundleInfo) := do
  orFail (enforceIndexTrust .bundleMissing g.config.policy) .trust
  return (some .bundleMissing, none)

/-- The bundle in the cache, against the index: `none` where it is inconsistent. -/
def cachedVerification (g : TrustGate) (index : Bytes) : Load (Option (Option VerificationResult × Option IndexBundleInfo)) := do
  if ← look .markerExists Slot.noBundle false then
    let witness ← missingBundle g
    return some witness
  else if ← look .bundleLooksOk (fun s => s.bundle.any fun bytes => !bytes.isEmpty) false then
    let bundle ← readFile .readBundle Slot.bundle
    let result ← verifyAndEnforce g index bundle none
    return some (some result, env.seams.describeIndexBundle bundle)
  else
    deleteBundleSidecars
    return none

/-- The part of `try_serve_from_cache` after the gate. -/
def serveCached (c : Call) (index : Bytes) (witness : Option VerificationResult × Option IndexBundleInfo) : Load GatedIndex :=
  match fromUtf8 index with
  | none => .fail .cachedNotUtf8
  | some text => do
    let parsed ← orFail (Index.parse env.kdlParse text) .cachedIndex
    mint env c ⟨parsed, witness.1, witness.2⟩

/-- What there is to serve, if the gate has found something. -/
def serveIf (c : Call) (index : Bytes) (witness : Option (Option VerificationResult × Option IndexBundleInfo)) :
    Load (Option GatedIndex) :=
  match witness with
  | some witness => do
    let gated ← serveCached env c index witness
    return some gated
  | none => return none

/-- `try_serve_from_cache`. -/
def tryServeFromCache (c : Call) : Load (Option GatedIndex) := do
  let index ← readFile .readIndex Slot.index
  match c.trustGate with
  | some g =>
    let witness ← cachedVerification env g index
    serveIf env c index witness
  | none => serveIf env c index (some (none, none))

/-! ### From the network -/

/-- The check of a fetched pair: on a recovery only what is trusted is let through. -/
def checkFetched (g : TrustGate) (isRecovery : Bool) (index bundle : Bytes) : Load VerificationResult :=
  if isRecovery then
    match g.verifier index bundle g.config.trustBundle g.config.expectedSigner (some g.config.maxAgeSeconds) with
    | .trusted => pure .trusted
    | result => .fail (.recovery result)
  else verifyAndEnforce g index bundle (some g.config.maxAgeSeconds)

/-- What a fetch has found of the index, and what the gate of the history decided. -/
abbrev Persisted := GateDecision × Option VerificationResult × Option IndexBundleInfo

/-- A pair was fetched. -/
def persistPair (c : Call) (g : TrustGate) (isRecovery : Bool) (index bundle : Bytes) : Load Persisted := do
  let result ← checkFetched g isRecovery index bundle
  let decision ← gate env c index
  attempt .removeMarker fun s => { s with noBundle := false }
  atomicWrite .writeBundle fun s => { s with bundle := some bundle }
  writeIndexToCache index c.nowUnix
  return (decision, some result, env.seams.describeIndexBundle bundle)

/-- There is no bundle at its URL. -/
def persistWithoutBundle (c : Call) (g : TrustGate) (isRecovery : Bool) (index : Bytes) : Load Persisted :=
  if isRecovery then .fail (.recovery .bundleMissing)
  else if g.config.policy = .strict then .fail (.trust .bundleMissing)
  else do
    let decision ← gate env c index
    attempt .writeMarker fun s => { s with noBundle := true }
    writeIndexToCache index c.nowUnix
    let witness ← missingBundle g
    return (decision, witness)

/-- The bundle could not be fetched. -/
def persistUnfetched (c : Call) (g : TrustGate) (isRecovery : Bool) (index : Bytes) : Load Persisted :=
  if isRecovery ∧ g.config.policy = .strict then .fail (.recovery .bundleMissing)
  else do
    let witness ← missingBundle g
    let decision ← gate env c index
    writeIf isRecovery (attempt .writeMarker fun s => { s with noBundle := true })
    writeIndexToCache index c.nowUnix
    return (decision, witness)

/-- The gate is not active. -/
def persistUngated (c : Call) (index : Bytes) : Load Persisted := do
  let decision ← gate env c index
  writeIndexToCache index c.nowUnix
  return (decision, none, none)

/-- The index was fetched: the gates, then the writes. -/
def persist (c : Call) (isRecovery : Bool) (index : Bytes) : Load Persisted :=
  match c.trustGate with
  | none => persistUngated env c index
  | some g =>
    match g.bundleHttpGet with
    | .ok bundle => persistPair env c g isRecovery index bundle
    | .error .notFound => persistWithoutBundle env c g isRecovery index
    | .error (.other _) => persistUnfetched env c g isRecovery index

/-- State 2, with an index. -/
def loadFetched (c : Call) (isRecovery : Bool) (index : Bytes) : Load GatedIndex := do
  let (decision, verification, bundleInfo) ← persist env c isRecovery index
  ratchetWrites decision index
  mint env c ⟨decision.index, verification, bundleInfo⟩

/-- `Ok(None)` where nothing can be fetched. -/
def orInconsistent (served : Option GatedIndex) : Load GatedIndex :=
  match served with
  | some gated => return gated
  | none => .fail .inconsistentOffline

/-- State 3, or state 4. -/
def loadOffline (c : Call) : Load GatedIndex := do
  if ← look .indexIsFile (fun s => s.index.isSome) false then
    let served ← tryServeFromCache env c
    orInconsistent served
  else .fail .unreachable

/-- States 2 to 4. -/
def loadFromNetwork (c : Call) (isRecovery : Bool) : Load GatedIndex :=
  match c.httpGet with
  | .ok index => loadFetched env c isRecovery index
  | .error _ => loadOffline env c

/-- The stamp is fresh. -/
def isFresh (c : Call) (stamp : Option ℕ) : Bool := stamp.any fun fetchedAt => decide (c.nowUnix - fetchedAt < c.ttlSeconds)

/-- The cache is fresh: no refresh is forced. -/
def cacheIsFresh (c : Call) : Load Bool :=
  if c.refresh then pure false else look .readStamp (fun s => isFresh c s.stamp) false

/-- What state 1 has found, or the recovery. -/
def orRecover (c : Call) (served : Option GatedIndex) : Load GatedIndex :=
  match served with
  | some gated => return gated
  | none => loadFromNetwork env c true

/-- `load_index_with_history`. -/
def loadIndexWithHistory (c : Call) : Load GatedIndex := do
  if ← cacheIsFresh c then
    let served ← tryServeFromCache env c
    orRecover env c served
  else loadFromNetwork env c false

end

end Milpa.Core.IndexCache
