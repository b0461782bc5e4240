import Milpa.Core.ArtifactCache
import Milpa.Core.Graph

/-!
# The gate of the entries

`evaluate_entry_attestation` and `enforce_entry_trust` of `entry_trust.rs`, and the stores of
bundles as far as the gate looks at them. The verifier is a parameter. Under the strict policy,
with an armed epoch, the gate decides for an identity and an attestation what the mandate asks
of them (`entryGate_eq_ok_iff`); whether the identity is the one that was published is up to its
callers.
-/

namespace Milpa.Core

open Result

/-! ### Bundles -/

/-- `BundleStoreBackend`. -/
inductive BundleStoreBackend where
  | http
  | file
  deriving DecidableEq, Repr

/-- The errors of `EntryBundleStore::get`. -/
inductive BundleError where
  /-- `TNG-ENTRY-BUNDLE-MISSING`, whose text the gate drops. -/
  | missing
  /-- `TNG-ENTRY-BUNDLE-PIN-MISMATCH`. -/
  | pinMismatch (pin computed : Str)
  deriving DecidableEq, Repr

/-- `EntryBundleStore`. -/
structure EntryBundleStore where
  backend : BundleStoreBackend
  /-- The bytes that are found for a pin, before they are verified. -/
  bundle : Str → Option Bytes

/-- The bare digest of a bundle. -/
def bundleDigest (bytes : Bytes) : Str := hexLower (sha256 bytes)

/-- `get`, with `verify`. -/
def EntryBundleStore.get (store : EntryBundleStore) (pin : Str) : Except BundleError Bytes :=
  match store.bundle pin with
  | none => .error .missing
  | some bytes => if bundleDigest bytes = pin then .ok bytes else .error (.pinMismatch pin (bundleDigest bytes))

/-- `FileEntryBundleStore`, with what can be read. -/
def fileEntryBundleStore (read : Str → Option Bytes) (dir : Str) : EntryBundleStore where
  backend := .file
  bundle pin := read (dir ++ '/' :: (pin ++ ".bundle"))

section

open ArtifactCache

/-- `HttpEntryBundleStore`, with what is in the cache and what the server answers. -/
def httpEntryBundleStore (baseUrl : Str) (cached : Str → Node) (answer : Str → Response) : EntryBundleStore where
  backend := .http
  bundle pin :=
    let fetched := (httpGetBytes ⟨.entryBundle, baseUrl⟩ pin (answer pin)).toOption
    match cached pin with
    | .file bytes => if bundleDigest bytes = pin then some bytes else fetched
    | _ => fetched

/-- What `get` of a store of artifacts gives, as an answer of a store of bundles. -/
def bundleAnswer : Except ArtifactError Bytes → Except BundleError Bytes
  | .ok bytes => .ok bytes
  | .error (.fetchFailed ..) => .error .missing
  | .error (.hashMismatch _ expected computed) => .error (.pinMismatch expected computed)

theorem bundleAnswer_afterFetch (store : ArtifactStore) (pin : Str) (response : Response) (node : Node) (h : store.kind = .entryBundle) :
    bundleAnswer ((afterFetch store pin response).run node).1 =
      match (httpGetBytes store pin response).toOption with
      | none => .error .missing
      | some bytes => if bundleDigest bytes = pin then .ok bytes else .error (.pinMismatch pin (bundleDigest bytes)) := by
  have hhash (bytes : Bytes) : store.kind.hash bytes = bundleDigest bytes := by
    rw [h]
    rfl
  rw [afterFetch_eq]
  cases hfetch : httpGetBytes store pin response with
  | error e =>
    obtain ⟨detail, rfl⟩ : ∃ detail, e = .fetchFailed store.kind pin (store.artifactUrl (store.kind.urlToken pin)) detail := by
      unfold httpGetBytes at hfetch
      dsimp only at hfetch
      split at hfetch
      · exact ⟨_, (Except.error.inj hfetch).symm⟩
      · split_ifs at hfetch
        · exact ⟨_, (Except.error.inj hfetch).symm⟩
        · exact ⟨_, (Except.error.inj hfetch).symm⟩
    rfl
  | ok bytes =>
    dsimp only
    rw [hhash]
    split_ifs with hpin
    · simp only [Except.toOption, if_pos hpin]
      rfl
    · simp only [Except.toOption, if_neg hpin]
      rfl

/-- **The store of bundles answers what a call to its cache alone comes to.** -/
theorem get_httpEntryBundleStore (baseUrl : Str) (cached : Str → Node) (answer : Str → Response) (pin : Str) :
    (httpEntryBundleStore baseUrl cached answer).get pin =
      bundleAnswer ((getArtifact ⟨.entryBundle, baseUrl⟩ pin (answer pin)).run (cached pin)).1 := by
  have hfetch (node : Node) := bundleAnswer_afterFetch ⟨.entryBundle, baseUrl⟩ pin (answer pin) node rfl
  rw [getArtifact_eq, Concurrent.Process.run_act, EntryBundleStore.get, httpEntryBundleStore]
  dsimp only
  cases hnode : cached pin with
  | file bytes =>
    dsimp only [afterRead, id]
    change _ = bundleAnswer (Concurrent.Process.run (if bundleDigest bytes = pin then pure bytes else _) _).1
    split_ifs with hpin
    · simp only [if_pos hpin]
      rfl
    · exact (hfetch .absent).symm
  | absent => exact (hfetch .absent).symm
  | unreadable => exact (hfetch .unreadable).symm
  | directory => exact (hfetch .directory).symm

end

/-! ### The verifier -/

/-- `VerifierOutcome`. -/
inductive VerifierOutcome where
  | trusted
  | bundleMalformed
  | digestMismatch
  | subjectMismatch
  | signatureInvalid
  | signerMismatch
  deriving DecidableEq, Repr

/-- `EntryVerificationResult`. -/
inductive EntryVerificationResult where
  | trusted
  | unattested
  | bundleMissing
  | bundleMalformed
  | digestMismatch
  | subjectMismatch
  | signatureInvalid
  | signerMismatch
  deriving DecidableEq, Repr

/-- `EntryVerificationResult::from`. -/
def VerifierOutcome.widen : VerifierOutcome → EntryVerificationResult
  | trusted => .trusted
  | bundleMalformed => .bundleMalformed
  | digestMismatch => .digestMismatch
  | subjectMismatch => .subjectMismatch
  | signatureInvalid => .signatureInvalid
  | signerMismatch => .signerMismatch

/-- `EntryVerificationResult::to_slug`: what is trusted has none. -/
def EntryVerificationResult.toSlug : EntryVerificationResult → Option Str
  | trusted => none
  | unattested => some "TNG-ENTRY-UNATTESTED"
  | bundleMissing => some "TNG-ENTRY-BUNDLE-MISSING"
  | bundleMalformed => some "TNG-ENTRY-BUNDLE-MALFORMED"
  | digestMismatch => some "TNG-ENTRY-DIGEST-MISMATCH"
  | subjectMismatch => some "TNG-ENTRY-SUBJECT-MISMATCH"
  | signatureInvalid => some "TNG-ENTRY-SIGNATURE-INVALID"
  | signerMismatch => some "TNG-ENTRY-SIGNER-MISMATCH"

/-- `EntrySubject`. -/
structure EntrySubject where
  name : Str
  sha256 : Str
  deriving DecidableEq, Repr

/-- `pkg:tianguis/{namespace}/{name}@{version}`. -/
def entryCoordinate («namespace» name version : Str) : Str :=
  "pkg:tianguis/" ++ («namespace» ++ '/' :: (name ++ '@' :: version))

/-- `build_entry_subject`. -/
def buildEntrySubject («namespace» name version contentHash : Str) : Except IdentityError EntrySubject := do
  let (_, hexDigest) ← splitIdentityScheme contentHash
  return ⟨entryCoordinate «namespace» name version, hexDigest⟩

/-- `EntryBundleVerifier::verify`: the subject, the bundle, the trust root, and the signer. -/
abbrev EntryBundleVerifier := EntrySubject → Bytes → TrustBundle → Str → VerifierOutcome

/-! ### The epoch -/

/-- `EpochMembership`. -/
inductive EpochMembership where
  | preEpoch
  | postEpoch
  deriving DecidableEq, Repr

/-- `classify_epoch_membership`. -/
def classifyEpochMembership (status : EpochCommitmentStatus) (identity : PreEpochIdentity) : Option EpochMembership :=
  match status with
  | .armed identities _ => some (if identity ∈ identities then .preEpoch else .postEpoch)
  | .unarmed | .armingInvalid _ => none

/-- `effective_epoch_policy`. -/
def effectiveEpochPolicy (policy : TrustPolicy) (membership : Option EpochMembership) : TrustPolicy :=
  if membership = some .postEpoch then policy else if policy = .off then .off else .warn

/-! ### The gate -/

/-- `EntryTrustConfig`. -/
structure EntryTrustConfig where
  policy : TrustPolicy
  trustBundle : TrustBundle
  expectedVendorSigner : Str
  verifier : EntryBundleVerifier
  bundleStore : Option EntryBundleStore
  breakGlass : Bool

/-- `EntryGateOutcome`. -/
structure EntryGateOutcome where
  result : EntryVerificationResult
  epochMembership : Option EpochMembership
  cause : Option Str
  deriving DecidableEq, Repr

/-- The texts of `hint_for`, `bundle_missing_hint` and `verify_bundle_missing_hint`. -/
inductive HintText where
  | ofResult (result : EntryVerificationResult)
  | unpublished
  | fileMirror
  | httpMirror
  | noSource
  | uncachedFile
  | uncached
  deriving DecidableEq, Repr

/-- A hint: the text, the cause in parentheses, and the suffix for the epoch. -/
structure Hint where
  text : HintText
  cause : Option Str
  epochMembership : Option EpochMembership
  deriving DecidableEq, Repr

/-- The errors of the gate. -/
inductive EntryTrustError where
  /-- An error of a content hash. -/
  | identity (e : IdentityError)
  /-- `TNG-ENTRY-BUNDLE-PIN-MISMATCH`. -/
  | pinMismatch (pin computed : Str)
  /-- `{slug}`: `entry-trust strict: {slug} for {coordinate} — {hint}`. -/
  | strict (result : EntryVerificationResult) (coordinate : Str) (hint : Hint)
  deriving DecidableEq

/-- The signer that is expected, by the kind of an attestation. -/
def EntryTrustConfig.expectedSigner (cfg : EntryTrustConfig) : AttestationKind → Str
  | .authorSigned signer => signer
  | .milpaVendored => cfg.expectedVendorSigner

/-- `evaluate_entry_attestation`. -/
def evaluateEntryAttestation (cfg : EntryTrustConfig) (attestation : Option EntryAttestation)
    (contentHash «namespace» name version : Str) (epochStatus : EpochCommitmentStatus) : Except EntryTrustError EntryGateOutcome :=
  let epochMembership := classifyEpochMembership epochStatus ⟨«namespace», name, version, contentHash⟩
  match attestation with
  | none => .ok ⟨.unattested, epochMembership, none⟩
  | some att =>
    match att.bundlePin with
    | none => .ok ⟨.bundleMissing, epochMembership, some "no-pin"⟩
    | some pin =>
      match cfg.bundleStore with
      | none => .ok ⟨.bundleMissing, epochMembership, some "unfetchable"⟩
      | some store =>
        match store.get pin with
        | .error (.pinMismatch pin computed) => .error (.pinMismatch pin computed)
        | .error .missing => .ok ⟨.bundleMissing, epochMembership, some "unfetchable"⟩
        | .ok bundleBytes => do
          let subject ← (buildEntrySubject «namespace» name version contentHash).mapError .identity
          let outcome := cfg.verifier subject bundleBytes cfg.trustBundle (cfg.expectedSigner att.kind)
          return ⟨outcome.widen, epochMembership, none⟩

/-- The hint of a result that is not trusted. -/
def hintText (outcome : EntryGateOutcome) (backend : Option BundleStoreBackend) (verifyContext : Bool) : HintText :=
  if outcome.result = .bundleMissing then
    if verifyContext then
      match backend with
      | some .file => .uncachedFile
      | _ => .uncached
    else if outcome.cause = some "no-pin".toList then .unpublished
    else
      match backend with
      | some .file => .fileMirror
      | some .http => .httpMirror
      | none => .noSource
  else .ofResult outcome.result

/-- `enforce_entry_trust`; what it prints is not kept. -/
def enforceEntryTrust (outcome : EntryGateOutcome) (policy : TrustPolicy) («namespace» name version : Str)
    (backend : Option BundleStoreBackend) (verifyContext breakGlass : Bool) : Except EntryTrustError Unit :=
  let effectivePolicy := effectiveEpochPolicy policy outcome.epochMembership
  if policy = .off ∨ outcome.result = .trusted then .ok ()
  else if effectivePolicy = .off then .ok ()
  else if breakGlass = true ∧ effectivePolicy = .strict ∧ outcome.result = .bundleMissing ∧ outcome.cause = some "unfetchable".toList then
    .ok ()
  else if effectivePolicy = .strict then
    .error (.strict outcome.result (entryCoordinate «namespace» name version)
      ⟨hintText outcome backend verifyContext, outcome.cause, outcome.epochMembership⟩)
  else .ok ()

/-- What `build_graph` does with a selected package: the two functions, one after the other. -/
def entryGate (cfg : EntryTrustConfig) (epochStatus : EpochCommitmentStatus) (attestation : Option EntryAttestation)
    (id : PreEpochIdentity) : Except EntryTrustError Unit := do
  let outcome ← evaluateEntryAttestation cfg attestation id.contentHash id.namespace id.name id.version epochStatus
  enforceEntryTrust outcome cfg.policy id.namespace id.name id.version (cfg.bundleStore.map EntryBundleStore.backend) false cfg.breakGlass

/-- The identity that `build_graph` gives to the gate. -/
def gateIdentity (c : Candidate) (key : DepKey) : PreEpochIdentity := ⟨c.registryNamespace, key.name, c.version.display, c.identity⟩

/-- The gate, among the errors of a resolve. -/
def entryTrustOf (raise : EntryTrustError → ResError) (cfg : EntryTrustConfig) (epochStatus : EpochCommitmentStatus) :
    Resolver.EntryTrust := fun c key => (entryGate cfg epochStatus c.attestation (gateIdentity c key)).mapError raise

/-! ### The mandate -/

/-- The bundle that is found for an attestation, with its pin. -/
def FindsBundle (cfg : EntryTrustConfig) (attestation : Option EntryAttestation) (pin : Str) (bytes : Bytes) : Prop :=
  ∃ att, attestation = some att ∧ att.bundlePin = some pin ∧ ∃ store, cfg.bundleStore = some store ∧ store.bundle pin = some bytes

/-- The verifier trusts the bundle of an attestation for an identity: for its coordinate, the digest of its content hash and the
signer of the kind, on bytes with the hash of the pin. -/
def Trusts (cfg : EntryTrustConfig) (attestation : Option EntryAttestation) (id : PreEpochIdentity) : Prop :=
  ∃ att bytes, attestation = some att ∧ FindsBundle cfg attestation (bundleDigest bytes) bytes ∧
    ∃ scheme digest, splitIdentityScheme id.contentHash = .ok (scheme, digest) ∧
      cfg.verifier ⟨entryCoordinate id.namespace id.name id.version, digest⟩ bytes cfg.trustBundle (cfg.expectedSigner att.kind) = .trusted

/-- What is asked of a package: it is grandfathered or trusted, and no bytes with another hash are found for its pin. -/
structure Mandate (cfg : EntryTrustConfig) (S : List PreEpochIdentity) (attestation : Option EntryAttestation) (id : PreEpochIdentity) :
    Prop where
  pinned : ∀ pin bytes, FindsBundle cfg attestation pin bytes → bundleDigest bytes = pin
  covered : id ∈ S ∨ Trusts cfg attestation id

/-- The strict policy, without break-glass. -/
structure StrictTrust (cfg : EntryTrustConfig) : Prop where
  policy : cfg.policy = .strict
  noBreakGlass : cfg.breakGlass = false

/-- What `enforce_entry_trust` lets through under the strict policy. -/
theorem enforceEntryTrust_eq_ok {outcome : EntryGateOutcome} {«namespace» name version : Str} {backend : Option BundleStoreBackend}
    {verifyContext : Bool} :
    enforceEntryTrust outcome .strict «namespace» name version backend verifyContext false = .ok () ↔
      outcome.result = .trusted ∨ outcome.epochMembership ≠ some .postEpoch := by
  unfold enforceEntryTrust effectiveEpochPolicy
  by_cases hresult : outcome.result = .trusted
  · simp [hresult]
  · by_cases hepoch : outcome.epochMembership = some .postEpoch
    · simp [hresult, hepoch]
    · simp [hresult, hepoch]

theorem classify_armed {S : List PreEpochIdentity} {E : ℤ} {id : PreEpochIdentity} :
    classifyEpochMembership (.armed S E) id ≠ some .postEpoch ↔ id ∈ S := by
  unfold classifyEpochMembership
  by_cases h : id ∈ S <;> simp [h]

theorem widen_eq_trusted {outcome : VerifierOutcome} : outcome.widen = .trusted ↔ outcome = .trusted := by
  cases outcome <;> simp [VerifierOutcome.widen]

section

variable {cfg : EntryTrustConfig} {S : List PreEpochIdentity} {E : ℤ} {status : EpochCommitmentStatus}
  {attestation : Option EntryAttestation} {id : PreEpochIdentity}

/-- Without a bundle nothing is trusted, and nothing is wrong. -/
theorem mandate_of_no_bundle (h : ∀ pin bytes, ¬ FindsBundle cfg attestation pin bytes) : Mandate cfg S attestation id ↔ id ∈ S := by
  constructor
  · rintro ⟨-, hmem | ⟨att, bytes, -, hfinds, -⟩⟩
    · exact hmem
    · exact absurd hfinds (h _ _)
  · exact fun hmem => ⟨fun pin bytes hfinds => absurd hfinds (h pin bytes), .inl hmem⟩

theorem findsBundle_some {att : EntryAttestation} {pin : Str} {bytes : Bytes} :
    FindsBundle cfg (some att) pin bytes ↔
      att.bundlePin = some pin ∧ ∃ store, cfg.bundleStore = some store ∧ store.bundle pin = some bytes :=
  ⟨fun ⟨_, hatt, h⟩ => Option.some.inj hatt ▸ h, fun h => ⟨att, rfl, h⟩⟩

/-- With a bundle, the mandate is about this one. -/
theorem mandate_of_bundle {att : EntryAttestation} {pin digest scheme : Str} {bytes : Bytes}
    (hfinds : FindsBundle cfg (some att) pin bytes) (hscheme : splitIdentityScheme id.contentHash = .ok (scheme, digest)) :
    Mandate cfg S (some att) id ↔ bundleDigest bytes = pin ∧ (id ∈ S ∨
      cfg.verifier ⟨entryCoordinate id.namespace id.name id.version, digest⟩ bytes cfg.trustBundle (cfg.expectedSigner att.kind) =
        .trusted) := by
  have hunique {pin' : Str} {bytes' : Bytes} (h : FindsBundle cfg (some att) pin' bytes') : pin' = pin ∧ bytes' = bytes := by
    obtain ⟨hpin, store, hstore, hbytes⟩ := findsBundle_some.mp hfinds
    obtain ⟨hpin', store', hstore', hbytes'⟩ := findsBundle_some.mp h
    obtain rfl := Option.some.inj (hpin'.symm.trans hpin)
    obtain rfl := Option.some.inj (hstore'.symm.trans hstore)
    exact ⟨rfl, Option.some.inj (hbytes'.symm.trans hbytes)⟩
  constructor
  · rintro ⟨hpinned, hcovered⟩
    refine ⟨hpinned pin bytes hfinds, hcovered.imp_right ?_⟩
    rintro ⟨att', bytes', hatt, hfinds', scheme', digest', hscheme', htrusted⟩
    obtain rfl := Option.some.inj hatt
    obtain ⟨-, rfl⟩ := hunique hfinds'
    obtain ⟨-, rfl⟩ := Prod.ext_iff.mp (Except.ok.inj (hscheme'.symm.trans hscheme))
    exact htrusted
  · rintro ⟨rfl, hcovered⟩
    refine ⟨fun pin' bytes' hfinds' => ?_, hcovered.imp_right fun htrusted => ⟨att, bytes, rfl, hfinds, scheme, digest, hscheme, htrusted⟩⟩
    obtain ⟨rfl, rfl⟩ := hunique hfinds'
    rfl

/-- The gate without a bundle: the result is not that of the verifier. -/
theorem evaluate_of_no_bundle (h : ∀ pin bytes, ¬ FindsBundle cfg attestation pin bytes) :
    ∃ result cause, result ≠ .trusted ∧
      evaluateEntryAttestation cfg attestation id.contentHash id.namespace id.name id.version status =
        .ok ⟨result, classifyEpochMembership status id, cause⟩ := by
  unfold evaluateEntryAttestation
  cases attestation with
  | none => exact ⟨.unattested, none, by simp, rfl⟩
  | some att =>
    cases hpin : att.bundlePin with
    | none => exact ⟨.bundleMissing, some "no-pin", by simp, by simp only [hpin]⟩
    | some pin =>
      cases hstore : cfg.bundleStore with
      | none => exact ⟨.bundleMissing, some "unfetchable", by simp, by simp only [hpin]⟩
      | some store =>
        cases hbundle : store.bundle pin with
        | none => exact ⟨.bundleMissing, some "unfetchable", by simp, by simp only [hpin, EntryBundleStore.get, hbundle]⟩
        | some bytes => exact absurd ⟨att, rfl, hpin, store, hstore, hbundle⟩ (h pin bytes)

/-- The gate with a bundle: it is verified, and then the verifier is asked. -/
theorem evaluate_of_bundle {att : EntryAttestation} {pin digest scheme : Str} {bytes : Bytes}
    (hfinds : FindsBundle cfg (some att) pin bytes) (hscheme : splitIdentityScheme id.contentHash = .ok (scheme, digest)) :
    evaluateEntryAttestation cfg (some att) id.contentHash id.namespace id.name id.version status =
      if bundleDigest bytes = pin then
        .ok ⟨(cfg.verifier ⟨entryCoordinate id.namespace id.name id.version, digest⟩ bytes cfg.trustBundle
          (cfg.expectedSigner att.kind)).widen, classifyEpochMembership status id, none⟩
      else .error (.pinMismatch pin (bundleDigest bytes)) := by
  obtain ⟨hpin, store, hstore, hbundle⟩ := findsBundle_some.mp hfinds
  have hsubject : buildEntrySubject id.namespace id.name id.version id.contentHash =
      .ok ⟨entryCoordinate id.namespace id.name id.version, digest⟩ := by
    rw [buildEntrySubject, hscheme]
    rfl
  unfold evaluateEntryAttestation
  simp only [hpin, hstore, EntryBundleStore.get, hbundle, hsubject]
  split_ifs with h
  · rfl
  · rfl

/-- **Under the strict policy and with an armed epoch, the gate lets an identity through exactly if the mandate holds of it.** -/
theorem entryGate_eq_ok_iff (hstrict : StrictTrust cfg) (hscheme : ':' ∈ id.contentHash) :
    entryGate cfg (.armed S E) attestation id = .ok () ↔ Mandate cfg S attestation id := by
  obtain ⟨hpolicy, hglass⟩ := hstrict
  obtain ⟨scheme, digest, hsplit⟩ := List.eq_append_cons_of_mem hscheme
  have hidentity : splitIdentityScheme id.contentHash = .ok (scheme, digest) := by
    rw [splitIdentityScheme, Str.splitOnce_eq_some.mpr hsplit]
  unfold entryGate
  rw [hpolicy, hglass, bind_eq_ok]
  simp only [enforceEntryTrust_eq_ok]
  by_cases hbundle : ∃ pin bytes, FindsBundle cfg attestation pin bytes
  · obtain ⟨pin, bytes, hfinds⟩ := hbundle
    obtain ⟨att, rfl⟩ : ∃ att, attestation = some att := hfinds.imp fun att h => h.1
    rw [mandate_of_bundle hfinds hidentity, evaluate_of_bundle hfinds hidentity]
    split_ifs with hpin
    · simp [hpin, widen_eq_trusted, classify_armed, or_comm]
    · simp [hpin]
  · have hnone : ∀ pin bytes, ¬ FindsBundle cfg attestation pin bytes := fun pin bytes h => hbundle ⟨pin, bytes, h⟩
    obtain ⟨result, cause, hresult, hevaluate⟩ : ∃ result cause, result ≠ .trusted ∧
        evaluateEntryAttestation cfg attestation id.contentHash id.namespace id.name id.version (.armed S E) =
          .ok ⟨result, classifyEpochMembership (.armed S E) id, cause⟩ := evaluate_of_no_bundle hnone
    rw [mandate_of_no_bundle hnone, hevaluate]
    simp [hresult, classify_armed]

end

end Milpa.Core
