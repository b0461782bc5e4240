import Milpa.Core.IndexRatchetSeam
import Milpa.Solver.ParseVersion
import Milpa.Types.Sha256
import Mathlib.Data.Sum.Order

/-!
# The trust gate of the index

What `index_trust.rs` does with the answer of the verifier, and the commitment to the
packages of before the epoch, `epoch_commitment.rs`. The verifier, and the readers of the
JSON of a bundle and of the payload of a commitment, are parameters (`TrustSeams`).
-/

namespace Milpa.Core

open Milpa.Solver

/-! ### Verification -/

/-- `VerificationResult`. -/
inductive VerificationResult where
  | trusted
  | sigInvalid
  | digestMismatch
  | signerMismatch
  | bundleStale
  | bundleMissing
  | bundleMalformed
  deriving DecidableEq, Repr

namespace VerificationResult

/-- `VerificationResult::value`. -/
def value : VerificationResult → Str
  | trusted => "trusted"
  | sigInvalid => "sig-invalid"
  | digestMismatch => "digest-mismatch"
  | signerMismatch => "signer-mismatch"
  | bundleStale => "bundle-stale"
  | bundleMissing => "bundle-missing"
  | bundleMalformed => "bundle-malformed"

/-- `VerificationResult::to_slug`: what is trusted has none. -/
def toSlug : VerificationResult → Option Str
  | trusted => none
  | sigInvalid => some "TNG-INDEX-SIGNATURE-INVALID"
  | digestMismatch => some "TNG-INDEX-DIGEST-MISMATCH"
  | signerMismatch => some "TNG-INDEX-SIGNER-MISMATCH"
  | bundleStale => some "TNG-INDEX-BUNDLE-STALE"
  | bundleMissing => some "TNG-INDEX-BUNDLE-MISSING"
  | bundleMalformed => some "TNG-INDEX-BUNDLE-MALFORMED"

/-- The slugs tell the results apart. -/
theorem toSlug_injective : Function.Injective toSlug := by
  intro a b h
  cases a <;> cases b <;> first | rfl | exact absurd h (by decide)

end VerificationResult

/-- `TrustBundle`. -/
structure TrustBundle where
  rawJson : Bytes
  label : Str
  deriving DecidableEq, Repr

/-- `IndexTrustConfig`. -/
structure IndexTrustConfig where
  policy : TrustPolicy
  trustBundle : TrustBundle
  expectedSigner : Str
  maxAgeSeconds : ℕ
  deriving DecidableEq, Repr

/-- `IndexBundleInfo`. -/
structure IndexBundleInfo where
  integratedTime : ℤ
  rekorLogIndex : Str
  subjectSha256 : Option Str
  signerSan : Option Str
  oidcIssuer : Option Str
  deriving DecidableEq, Repr

/-- `IndexBundleVerifier::verify`: the bytes, their bundle, the trust root, the signer, and the bound on the age. -/
abbrev Verifier := Bytes → Bytes → TrustBundle → Str → Option ℕ → VerificationResult

/-- What `enforce_index_trust` does with a result, without the warning: what it refuses is an error with the result. -/
def enforceIndexTrust (result : VerificationResult) (policy : TrustPolicy) : Except VerificationResult Unit :=
  if policy = .off ∨ result = .trusted then .ok ()
  else if policy = .strict then .error result
  else .ok ()

/-- Under `strict` only what is trusted is let through. -/
theorem enforceIndexTrust_strict {result : VerificationResult} :
    enforceIndexTrust result .strict = if result = .trusted then .ok () else .error result := by
  simp [enforceIndexTrust]

theorem enforceIndexTrust_error {result e : VerificationResult} {policy : TrustPolicy} (h : enforceIndexTrust result policy = .error e) :
    e = result ∧ result ≠ .trusted ∧ policy = .strict := by
  unfold enforceIndexTrust at h
  split_ifs at h with hpass hstrict
  cases h
  exact ⟨rfl, fun htrusted => hpass (.inr htrusted), hstrict⟩

/-! ### The commitment -/

/-- `PreEpochIdentity`. -/
structure PreEpochIdentity where
  «namespace» : Str
  name : Str
  version : Str
  contentHash : Str
  deriving DecidableEq, Repr

/-- `version_sort_key`: what is no version comes after all versions. -/
def versionSortKey (version : Str) : VersionKey ⊕ₗ Str :=
  match parseVersion version with
  | some v => toLex (.inl v.precedenceKey)
  | none => toLex (.inr version)

/-- `identity_sort_key`. -/
def identitySortKey (id : PreEpochIdentity) : Str ×ₗ Str ×ₗ (VersionKey ⊕ₗ Str) ×ₗ Str ×ₗ Str :=
  toLex (id.namespace, toLex (id.name, toLex (versionSortKey id.version, toLex (id.contentHash, id.version))))

/-- The first of equal elements stays, as in `sorted_deduped`. -/
def dedupFirst (identities : List PreEpochIdentity) : List PreEpochIdentity := (identities.reverse.dedup).reverse

/-- `sorted_deduped`. -/
def sortedDeduped (identities : List PreEpochIdentity) : List PreEpochIdentity :=
  sortByKey identitySortKey (dedupFirst identities)

/-- `encode_identity`. -/
def encodeIdentity (id : PreEpochIdentity) : Str := ['\x1f'].intercalate [id.namespace, id.name, id.version, id.contentHash]

/-- The bytes of a text. -/
def utf8 (text : Str) : Bytes := (String.ofList text).toUTF8.data.toList

/-- `str::from_utf8`. -/
def fromUtf8 (bytes : Bytes) : Option Str := (String.fromUTF8? ⟨bytes.toArray⟩).map String.toList

/-- `canonical_bytes`. -/
def canonicalBytes (identities : List PreEpochIdentity) : Bytes :=
  utf8 (['\x1e'].intercalate ((sortedDeduped identities).map encodeIdentity))

/-- `canonical_preimage`. -/
def canonicalPreimage (identities : List PreEpochIdentity) : Bytes := utf8 "milpa-preepoch-v1:" ++ canonicalBytes identities

/-- `commitment_digest`. -/
def commitmentDigest (identities : List PreEpochIdentity) : Str := hexLower (sha256 (canonicalPreimage identities))

/-- `EpochCommitmentStatus`; the set of the identities is a list of them. -/
inductive EpochCommitmentStatus where
  | unarmed
  | armed (identities : List PreEpochIdentity) (integratedTime : ℤ)
  | armingInvalid (reason : Str)
  deriving DecidableEq, Repr

/-- The readers of JSON. -/
structure TrustSeams where
  /-- `describe_index_bundle`. -/
  describeIndexBundle : Bytes → Option IndexBundleInfo
  /-- `parse_sidecar_payload`. -/
  parseSidecarPayload : Bytes → Option (List PreEpochIdentity × Bytes)

/-- `is_valid_commitment_pointer`. -/
def isValidCommitmentPointer (pointer : Str) : Bool :=
  pointer.length == 64 && pointer.all fun c => decide ('0' ≤ c ∧ c ≤ '9') || decide ('a' ≤ c ∧ c ≤ 'f')

/-- The part of `evaluate_epoch_commitment` that has the bytes. -/
def evaluateSidecar (seams : TrustSeams) (verifier : Verifier) (trustBundle : TrustBundle) (expectedSigner pointer : Str)
    (sidecar : Bytes) : EpochCommitmentStatus :=
  match seams.parseSidecarPayload sidecar with
  | none => .armingInvalid "sidecar malformed"
  | some (identities, bundle) =>
    if commitmentDigest identities ≠ pointer then .armingInvalid "hash(S) != C"
    else
      match verifier (canonicalPreimage identities) bundle trustBundle expectedSigner none with
      | .trusted =>
        match seams.describeIndexBundle bundle with
        | none => .armingInvalid "sidecar bundle malformed"
        | some info => .armed (dedupFirst identities) info.integratedTime
      | result => .armingInvalid result.value

/-- `evaluate_epoch_commitment`. -/
def evaluateEpochCommitment (seams : TrustSeams) (verifier : Verifier) (trustBundle : TrustBundle) (expectedSigner : Str)
    (pointer : Option Str) (sidecar : Option Bytes) (fetchFailed : Bool) : EpochCommitmentStatus :=
  match pointer with
  | none => .unarmed
  | some pointer =>
    if isValidCommitmentPointer pointer = false then .armingInvalid "malformed commitment pointer"
    else
      match fetchFailed, sidecar with
      | false, some sidecar => evaluateSidecar seams verifier trustBundle expectedSigner pointer sidecar
      | _, _ => .armingInvalid "sidecar unfetchable"

/-- `Unarmed` says that there is no pointer. -/
theorem evaluateEpochCommitment_eq_unarmed {seams : TrustSeams} {verifier : Verifier} {trustBundle : TrustBundle}
    {expectedSigner : Str} {pointer : Option Str} {sidecar : Option Bytes} {fetchFailed : Bool} :
    evaluateEpochCommitment seams verifier trustBundle expectedSigner pointer sidecar fetchFailed = .unarmed ↔ pointer = none := by
  constructor
  · intro h
    cases pointer with
    | none => rfl
    | some pointer =>
      rw [evaluateEpochCommitment.eq_def] at h
      dsimp only at h
      split_ifs at h
      split at h
      · rw [evaluateSidecar] at h
        split at h
        · cases h
        · split_ifs at h
          split at h
          · split at h <;> cases h
          · cases h
      · cases h
  · rintro rfl
    rfl

/-- The errors of the commitment. -/
inductive EpochError where
  /-- `TNG-INDEX-EPOCH-COMMITMENT-INVALID`. -/
  | commitmentInvalid (reason : Str)
  /-- `TNG-INDEX-EPOCH-RATCHET-REQUIRED`. -/
  | ratchetRequired
  deriving DecidableEq, Repr

/-- `enforce_epoch_commitment`. -/
def enforceEpochCommitment (status : EpochCommitmentStatus) : Except EpochError Unit :=
  match status with
  | .armingInvalid reason => .error (.commitmentInvalid reason)
  | _ => .ok ()

/-- `check_epoch_ratchet_requirement`. -/
def checkEpochRatchetRequirement (status : EpochCommitmentStatus) (entryTrustPolicy indexHistoryPolicy : TrustPolicy) :
    Except EpochError Unit :=
  match status with
  | .armed _ _ => rejectIf (entryTrustPolicy = .strict ∧ indexHistoryPolicy ≠ .strict) .ratchetRequired
  | _ => .ok ()

end Milpa.Core
