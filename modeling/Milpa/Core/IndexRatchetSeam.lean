import Milpa.Core.Ratchet
import Milpa.Core.Registry

/-!
# The gate of the index history

`index_ratchet_seam.rs`: the state of the ratchet that an index is, and the decision
whether a candidate is served and becomes the next baseline. The KDL parser and SHA-256
are parameters. The notices of yanked versions, which are printed, are left out.
-/

namespace Milpa.Core

open Milpa.Kdl

/-! ### The fields at the root -/

/-- The document of a text, for another walk over its nodes. -/
def docOf (kdlParse : Str → Except Str (List KdlNode)) (text : Str) : Except TngError (List KdlNode) :=
  match kdlParse text with
  | .error e => .error (.kdlSyntax e)
  | .ok doc => .ok doc

/-- `raw_schema_version`. -/
def rawSchemaVersion (kdlParse : Str → Except Str (List KdlNode)) (text : Str) : Except TngError (Option ℤ) := do
  let doc ← docOf kdlParse text
  return (rootInteger doc "schema_version").bind toI64

/-- What `raw_attestation_epoch` and `raw_attestation_epoch_commitment` do, with the name of the field. -/
def rawRootString (kdlParse : Str → Except Str (List KdlNode)) (text field : Str) : Except TngError (Option Str) := do
  let doc ← docOf kdlParse text
  let value := (nodeNamed doc field).bind firstArgStr
  validateOpt (fun s => validateNoControlChars s field) value
  return value

/-- `raw_attestation_epoch`. -/
def rawAttestationEpoch (kdlParse : Str → Except Str (List KdlNode)) (text : Str) : Except TngError (Option Str) :=
  rawRootString kdlParse text "attestation-epoch"

/-- `raw_attestation_epoch_commitment`. -/
def rawAttestationEpochCommitment (kdlParse : Str → Except Str (List KdlNode)) (text : Str) :
    Except TngError (Option Str) :=
  rawRootString kdlParse text "attestation-epoch-commitment"

/-! ### The texts of the digest -/

/-- The record of a provenance, in `provenance_canonical_raw`. -/
def provenanceRaw : Provenance → Str
  | .git url refSpec commitSha => ['\x1f'].intercalate ["git", url, refSpec, commitSha.getD []]
  | .oci registry repository digest sourceUrl =>
    ['\x1f'].intercalate ["oci", registry, repository, digest, sourceUrl.getD []]

/-- `provenance_canonical_raw`. -/
def provenanceCanonicalRaw (provenances : List Provenance) : Str :=
  ['\x1e'].intercalate (sortByKey id (provenances.map provenanceRaw))

/-- `encode_attestation`. -/
def encodeAttestation (att : EntryAttestation) : AttestationValue :=
  match att.kind with
  | .authorSigned signer => ⟨authorSigned, some signer, att.bundlePin⟩
  | .milpaVendored => ⟨milpaVendored, none, att.bundlePin⟩

/-- `attestation_canonical_raw`. -/
def attestationCanonicalRaw (att : EntryAttestation) : Str :=
  let (kind, signer) := match att.kind with
    | .authorSigned signer => (authorSigned, signer)
    | .milpaVendored => (milpaVendored, [])
  ['\x1f'].intercalate [kind, signer, att.bundlePin.getD []]

/-- `rekor_canonical_raw`. -/
def rekorCanonicalRaw (r : RekorRef) : Str := ['\x1f'].intercalate [r.uuid, r.logIndex, r.integratedTime]

/-! ### The state of an index -/

/-- What does not fit into an `i64` is cut off at its ends. -/
def saturateI64 (n : ℤ) : ℤ := max (-2 ^ 63) (min n (2 ^ 63 - 1))

/-- The nanoseconds that a time of publication is encoded as: `saturating_mul`, then `saturating_add`. -/
def encodeTimestamp (ts : Timestamp) : ℤ := saturateI64 (saturateI64 (ts.unixSeconds * 1000000000) + ts.nanos)

/-- `set`, where there is a field. -/
def RatchetEntry.setOpt (e : RatchetEntry) (name : Str) (field : Option RawField) : RatchetEntry :=
  match field with
  | some f => e.set name f
  | none => e

/-- The entry of the fields at the root, in `index_state_from`. -/
def rootFields (schemaVersion : Option ℤ) (attestationEpoch attestationEpochCommitment : Option Str) : RatchetEntry :=
  ((RatchetEntry.new.setOpt "schema_version" (schemaVersion.map fun v => .new (.int v) rfl)).setOpt
    "attestation-epoch" (attestationEpoch.map fun e => .new (.str e) rfl)).setOpt
    "attestation-epoch-commitment" (attestationEpochCommitment.map fun c => .new (.str c) rfl)

/-- The entry of a version, in `index_state_from`. -/
def versionEntry (iv : IndexVersion) : RatchetEntry :=
  let entry := RatchetEntry.new
  let entry := entry.setOpt "content_hash" (if iv.contentHash.isEmpty then none else some (.new (.str iv.contentHash) rfl))
  let entry := entry.setOpt "published_at" (iv.publishedAt.map fun ts =>
    .withRaw (.int (encodeTimestamp ts)) (iv.publishedAtRaw.getD []))
  let entry := entry.setOpt "dep_decl" (iv.depDecl.map fun d => .new (.str d) rfl)
  let entry := entry.setOpt "dep_decl_schema_version" (iv.depDeclSchemaVersion.map fun v => .new (.int v) rfl)
  let entry := entry.setOpt "provenances" (if iv.provenances.isEmpty then none
    else some (.withRaw (.provenanceList iv.provenances) (provenanceCanonicalRaw iv.provenances)))
  let entry := entry.set "yanked" (.new (.bool iv.yanked) rfl)
  let entry := entry.setOpt "yanked_reason" (iv.yankedReason.map fun r => .new (.str r) rfl)
  let entry := entry.setOpt "attestation" (iv.attestation.map fun att =>
    .withRaw (.attestation (encodeAttestation att)) (attestationCanonicalRaw att))
  entry.setOpt "rekor" ((iv.attestation.bind EntryAttestation.rekor).map fun r => .withRaw (.rekor r) (rekorCanonicalRaw r))

/-- The key of a version of a package. -/
def versionKey (pkg : Package) (iv : IndexVersion) : EntryKey := ⟨iv.namespace, pkg.name, iv.version⟩

/-- The versions of an index with their keys, in the order in which they are inserted. -/
def keyedVersions (index : Index) : List (EntryKey × IndexVersion) :=
  index.packages.flatMap fun pkg => pkg.versions.map fun iv => (versionKey pkg iv, iv)

/-- `index_state_from`. -/
def indexStateFrom (schemaVersion : Option ℤ) (attestationEpoch attestationEpochCommitment : Option Str) (index : Index) :
    IndexState :=
  (keyedVersions index).foldl (fun state e => state.insert e.1 (versionEntry e.2))
    (BTreeMap.empty.insert .root (rootFields schemaVersion attestationEpoch attestationEpochCommitment))

/-- `build_index_state`. -/
def buildIndexState (kdlParse : Str → Except Str (List KdlNode)) (text : Str) : Except TngError (Index × IndexState) := do
  let index ← Index.parse kdlParse text
  let schemaVersion ← rawSchemaVersion kdlParse text
  let attestationEpoch ← rawAttestationEpoch kdlParse text
  let attestationEpochCommitment ← rawAttestationEpochCommitment kdlParse text
  return (index, indexStateFrom schemaVersion attestationEpoch attestationEpochCommitment index)

/-! ### The decision -/

/-- `BaselineMeta`. -/
structure BaselineMeta where
  establishedAt : Option Str
  reportedDigest : Option Str
  reportedAt : Option Str
  deriving DecidableEq, Repr

/-- What `format_violation_message` puts into words. -/
structure ViolationMessage where
  violations : List Violation
  digest : Str
  recurring : Bool
  reportedAt : Option Str
  deriving DecidableEq, Repr

/-- The errors of the gate. -/
inductive GateError where
  /-- The candidate is not accepted by the parser. -/
  | tng (e : TngError)
  /-- `TNG-INDEX-BASELINE-CORRUPT`, with the hint at a newer version. -/
  | baselineCorrupt (versionSkew : Bool)
  /-- The class of the first violation as the slug, under `strict`. -/
  | violation (code : Option ViolationClass) (message : ViolationMessage) (url : Str)
  deriving DecidableEq, Repr

/-- `GateDecision`. -/
structure GateDecision where
  index : Index
  advance : Bool
  newMeta : Option BaselineMeta
  warnMessage : Option ViolationMessage
  deriving DecidableEq, Repr

/-- `parse_baseline`. -/
def parseBaseline (kdlParse : Str → Except Str (List KdlNode)) (text : Str) : Except GateError IndexState :=
  match buildIndexState kdlParse text with
  | .ok (_, state) => .ok state
  | .error (.schemaUnknown _) => .error (.baselineCorrupt true)
  | .error _ => .error (.baselineCorrupt false)

/-- `iso_timestamp`. -/
def isoTimestamp (nowUnix : ℤ) : Str :=
  let (y, m, d) := Timestamp.civilFromDays (nowUnix / 86400)
  let secsOfDay := nowUnix % 86400
  Timestamp.paddedInt 4 y ++ ('-' :: (Timestamp.paddedInt 2 m ++ ('-' :: (Timestamp.paddedInt 2 d ++
    ('T' :: (Timestamp.paddedInt 2 (secsOfDay / 3600) ++ (':' :: (Timestamp.paddedInt 2 (secsOfDay % 3600 / 60) ++
    (':' :: (Timestamp.paddedInt 2 (secsOfDay % 60) ++ ("+00:00" : Str)))))))))))

/-- `evaluate_gate`. -/
def evaluateGate (kdlParse : Str → Except Str (List KdlNode)) (sha256Hex : Str → Str) (policy : TrustPolicy)
    (candidateText : Str) (baselineText : Option Str) (existingMeta : BaselineMeta) (nowUnix : ℤ) (url : Str) :
    Except GateError GateDecision :=
  match buildIndexState kdlParse candidateText with
  | .error e => .error (.tng e)
  | .ok (index, candidateState) =>
    if policy = .off then .ok ⟨index, false, none, none⟩
    else
      match baselineText with
      | none => .ok ⟨index, true, some ⟨some (isoTimestamp nowUnix), none, none⟩, none⟩
      | some baselineText => do
        let baselineState ← parseBaseline kdlParse baselineText
        let outcome := check baselineState candidateState
        if outcome.clean then
          return ⟨index, true, some ⟨some ((existingMeta.establishedAt.filter fun s => !s.isEmpty).getD
            (isoTimestamp nowUnix)), none, none⟩, none⟩
        else
          let digest := canonicalDigest sha256Hex outcome.violations
          let recurring := decide (existingMeta.reportedDigest = some digest)
          let message : ViolationMessage := ⟨outcome.violations, digest, recurring, existingMeta.reportedAt⟩
          if policy = .strict then throw (.violation (outcome.violations.head?.map Violation.cls) message url)
          else
            let newMeta := if recurring then none
              else some ⟨existingMeta.establishedAt, some digest, some (isoTimestamp nowUnix)⟩
            return ⟨index, false, newMeta, some message⟩

/-! ### The sidecar -/

/-- `run_ratchet_gate`, with the baseline sidecar as it is: `off` does not read it. -/
def runRatchetGate (kdlParse : Str → Except Str (List KdlNode)) (sha256Hex : Str → Str) (policy : TrustPolicy)
    (baseline : Option Str) (existingMeta : BaselineMeta) (candidate : Str) (nowUnix : ℤ) (url : Str) :
    Except GateError GateDecision :=
  evaluateGate kdlParse sha256Hex policy candidate (if policy = .off then none else baseline)
    (if policy = .off then ⟨none, none, none⟩ else existingMeta) nowUnix url

/-- What `apply_ratchet_writes` leaves as the baseline sidecar. -/
def applyRatchetWrites (baseline : Option Str) (decision : GateDecision) (candidate : Str) : Option Str :=
  if decision.advance then some candidate else baseline

end Milpa.Core
