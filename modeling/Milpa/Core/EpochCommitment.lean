import Milpa.Core.IndexTrust
import Milpa.Types.Delimited

/-!
# What the commitment commits to

`commitment_digest` hashes the identities in a sorted order, the fields of one separated by
`U+001F` and the identities by `U+001E`. The order is total, so the digest depends on the set
alone; but `parse_sidecar_payload` accepts any strings, and two sets have one digest where a
field holds a separator (`commitsToSets_iff`).
-/

namespace Milpa.Core

/-! ### The sidecar -/

/-- `serde_json::Value`. The names of the members of an object are distinct. -/
inductive JsonValue where
  | null
  | bool (b : Bool)
  | number (text : Str)
  | string (s : Str)
  | array (items : List JsonValue)
  | object (members : List (Str × JsonValue))

namespace JsonValue

/-- `as_object`, then `get`. -/
def get : JsonValue → Str → Option JsonValue
  | object members, name => (members.find? fun m => decide (m.1 = name)).map Prod.snd
  | _, _ => none

/-- `as_array`. -/
def asArray : JsonValue → Option (List JsonValue)
  | array items => some items
  | _ => none

/-- `as_str`. -/
def asStr : JsonValue → Option Str
  | string s => some s
  | _ => none

/-- `is_object`. -/
def isObject : JsonValue → Bool
  | object _ => true
  | _ => false

end JsonValue

/-- One round of the loop of `parse_sidecar_payload`. -/
def entryIdentity (entry : JsonValue) : Option PreEpochIdentity := do
  let «namespace» ← (← entry.get "namespace").asStr
  let name ← (← entry.get "name").asStr
  let version ← (← entry.get "version").asStr
  let contentHash ← (← entry.get "content_hash").asStr
  return ⟨«namespace», name, version, contentHash⟩

/-- `parse_sidecar_payload`, with the reader and the writer of JSON. -/
def parseSidecarPayload (fromSlice : Bytes → Option JsonValue) (toVec : JsonValue → Option Bytes) (payloadBytes : Bytes) :
    Option (List PreEpochIdentity × Bytes) := do
  let payload ← fromSlice payloadBytes
  let rawIdentities ← (← payload.get "identities").asArray
  let identities ← rawIdentities.mapM entryIdentity
  let rawBundle ← payload.get "bundle"
  guard (rawBundle.isObject = true)
  let bundleBytes ← toVec rawBundle
  return (identities, bundleBytes)

/-- The object of an identity. -/
def identityValue (id : PreEpochIdentity) : JsonValue :=
  .object [("namespace", .string id.namespace), ("name", .string id.name), ("version", .string id.version),
    ("content_hash", .string id.contentHash)]

/-- A sidecar that lists identities. -/
def sidecarValue (identities : List PreEpochIdentity) (bundle : List (Str × JsonValue)) : JsonValue :=
  .object [("identities", .array (identities.map identityValue)), ("bundle", .object bundle)]

theorem entryIdentity_identityValue (id : PreEpochIdentity) : entryIdentity (identityValue id) = some id := rfl

theorem mapM_entryIdentity (identities : List PreEpochIdentity) :
    (identities.map identityValue).mapM entryIdentity = some identities := by
  induction identities with
  | nil => rfl
  | cons id identities ih =>
    rw [List.map_cons, List.mapM_cons, entryIdentity_identityValue, ih]
    rfl

/-- **Any strings are accepted in the four fields**, in any order and as often as they are listed. -/
theorem parseSidecarPayload_sidecarValue {fromSlice : Bytes → Option JsonValue} {toVec : JsonValue → Option Bytes}
    {payloadBytes bundleBytes : Bytes} {identities : List PreEpochIdentity} {bundle : List (Str × JsonValue)}
    (hread : fromSlice payloadBytes = some (sidecarValue identities bundle)) (hwrite : toVec (.object bundle) = some bundleBytes) :
    parseSidecarPayload fromSlice toVec payloadBytes = some (identities, bundleBytes) := by
  have hidentities : (sidecarValue identities bundle).get "identities" = some (.array (identities.map identityValue)) := rfl
  have hbundle : (sidecarValue identities bundle).get "bundle" = some (.object bundle) := rfl
  simp only [parseSidecarPayload, hread, Option.bind_eq_bind, Option.bind_some, hidentities, hbundle, JsonValue.asArray,
    mapM_entryIdentity, JsonValue.isObject, guard, if_true, hwrite]
  rfl

/-! ### The order -/

/-- The fields of an identity. -/
def PreEpochIdentity.fields (id : PreEpochIdentity) : List Str := [id.namespace, id.name, id.version, id.contentHash]

theorem fields_injective : Function.Injective PreEpochIdentity.fields := by
  rintro ⟨«namespace», name, version, contentHash⟩ ⟨namespace', name', version', contentHash'⟩ h
  simp only [PreEpochIdentity.fields, List.cons.injEq, and_true] at h
  obtain ⟨rfl, rfl, rfl, rfl⟩ := h
  rfl

theorem encodeIdentity_eq (id : PreEpochIdentity) : encodeIdentity id = ['\x1f'].intercalate id.fields := rfl

/-- The text of the version, which comes last, makes the order total. -/
theorem identitySortKey_injective : Function.Injective identitySortKey := by
  rintro ⟨«namespace», name, version, contentHash⟩ ⟨namespace', name', version', contentHash'⟩ h
  simp only [identitySortKey, toLex_inj, Prod.mk.injEq] at h
  obtain ⟨rfl, rfl, -, rfl, rfl⟩ := h
  rfl

theorem mem_dedupFirst {identities : List PreEpochIdentity} {id : PreEpochIdentity} : id ∈ dedupFirst identities ↔ id ∈ identities := by
  rw [dedupFirst, List.mem_reverse, List.mem_dedup, List.mem_reverse]

theorem nodup_dedupFirst (identities : List PreEpochIdentity) : ((dedupFirst identities).map identitySortKey).Nodup :=
  (List.nodup_reverse.mpr (List.nodup_dedup _)).map identitySortKey_injective

theorem mem_sortedDeduped {identities : List PreEpochIdentity} {id : PreEpochIdentity} :
    id ∈ sortedDeduped identities ↔ id ∈ identities := mem_sortByKey.trans mem_dedupFirst

/-- The lists are equal as sets. -/
def SameSet (S T : List PreEpochIdentity) : Prop := ∀ id, id ∈ S ↔ id ∈ T

/-- Lists of one set are sorted to one list. -/
theorem sortedDeduped_eq_iff {S T : List PreEpochIdentity} : sortedDeduped S = sortedDeduped T ↔ SameSet S T := by
  constructor
  · intro h id
    rw [← mem_sortedDeduped, h, mem_sortedDeduped]
  · intro h
    exact sortByKey_eq_of_mem_iff (nodup_dedupFirst S) (nodup_dedupFirst T) fun id =>
      mem_dedupFirst.trans ((h id).trans mem_dedupFirst.symm)

/-! ### The text -/

theorem utf8_injective : Function.Injective utf8 := by
  intro s t h
  have hbytes : (String.ofList s).toUTF8 = (String.ofList t).toUTF8 := ByteArray.ext (Array.toList_inj.mp h)
  exact String.ofList_injective (String.toByteArray_inj.mp hbytes)

/-- What `canonical_bytes` encodes. -/
def canonicalText (identities : List PreEpochIdentity) : Str :=
  ['\x1e'].intercalate ((sortedDeduped identities).map encodeIdentity)

theorem canonicalPreimage_eq_iff {S T : List PreEpochIdentity} :
    canonicalPreimage S = canonicalPreimage T ↔ canonicalText S = canonicalText T := by
  rw [canonicalPreimage, canonicalPreimage, List.append_cancel_left_eq]
  exact utf8_injective.eq_iff

/-- The fields of the identities have characters of `A`. -/
def Over (A : Set Char) (identities : List PreEpochIdentity) : Prop := ∀ id ∈ identities, ∀ f ∈ id.fields, ∀ c ∈ f, c ∈ A

theorem not_mem_of_over {A : Set Char} {identities : List PreEpochIdentity} (h : Over A identities) {c : Char} (hc : c ∉ A) :
    ∀ id ∈ identities, ∀ f ∈ id.fields, c ∉ f := fun id hid f hf hmem => hc (h id hid f hf c hmem)

/-- Without separators in the fields, the text says which identities there are. -/
theorem sortedDeduped_eq_of_canonicalText_eq {A : Set Char} (hfield : '\x1f' ∉ A) (hrecord : '\x1e' ∉ A)
    {S T : List PreEpochIdentity} (hS : Over A S) (hT : Over A T) (h : canonicalText S = canonicalText T) :
    sortedDeduped S = sortedDeduped T := by
  have hrecords {R : List PreEpochIdentity} (hR : Over A R) : ∀ r ∈ (sortedDeduped R).map encodeIdentity, '\x1e' ∉ r ∧ r ≠ [] := by
    intro r hr
    obtain ⟨id, hid, rfl⟩ := List.mem_map.mp hr
    refine ⟨fun hmem => ?_, by simp [encodeIdentity, List.intercalate_cons_cons]⟩
    rcases Str.mem_of_mem_intercalate hmem with hmem | ⟨f, hf, hmem⟩
    · exact absurd hmem (by decide)
    · exact not_mem_of_over hR hrecord id (mem_sortedDeduped.mp hid) f hf hmem
  have hencoded := Delimited.intercalate_inj_of_ne_nil (fun r hr => (hrecords hS r hr).1) (fun r hr => (hrecords hT r hr).1)
    (fun r hr => (hrecords hS r hr).2) (fun r hr => (hrecords hT r hr).2) h
  refine Delimited.eq_of_map_eq (fun id hid id' hid' heq => fields_injective ?_) hencoded
  exact Delimited.intercalate_inj (not_mem_of_over hS hfield id (mem_sortedDeduped.mp hid))
    (not_mem_of_over hT hfield id' (mem_sortedDeduped.mp hid')) (List.cons_ne_nil _ _) (List.cons_ne_nil _ _) heq

/-! ### The commitment -/

/-- SHA-256 tells the two preimages apart, if they differ. -/
def NoCollision (S T : List PreEpochIdentity) : Prop :=
  sha256 (canonicalPreimage S) = sha256 (canonicalPreimage T) → canonicalPreimage S = canonicalPreimage T

theorem commitmentDigest_eq_iff {S T : List PreEpochIdentity} (h : NoCollision S T) :
    commitmentDigest S = commitmentDigest T ↔ canonicalText S = canonicalText T := by
  rw [commitmentDigest, commitmentDigest, hexLower_injective.eq_iff, ← canonicalPreimage_eq_iff]
  exact ⟨h, congrArg sha256⟩

theorem evaluateEpochCommitment_sidecar (seams : TrustSeams) (verifier : Verifier) (trustBundle : TrustBundle)
    (expectedSigner pointer : Str) (sidecar : Bytes) (fetchFailed : Bool) :
    evaluateEpochCommitment seams verifier trustBundle expectedSigner (some pointer) (some sidecar) fetchFailed =
      if isValidCommitmentPointer pointer = false then .armingInvalid "malformed commitment pointer"
      else if fetchFailed = true then .armingInvalid "sidecar unfetchable"
      else evaluateSidecar seams verifier trustBundle expectedSigner pointer sidecar := by
  cases fetchFailed <;> rfl

/-- Only a sidecar whose list has the digest arms the epoch, and it arms it with the set of the list. -/
theorem of_armed {seams : TrustSeams} {verifier : Verifier} {trustBundle : TrustBundle} {expectedSigner pointer : Str}
    {sidecar bundle : Bytes} {fetchFailed : Bool} {S identities : List PreEpochIdentity} {integratedTime : ℤ}
    (hparse : seams.parseSidecarPayload sidecar = some (S, bundle))
    (h : evaluateEpochCommitment seams verifier trustBundle expectedSigner (some pointer) (some sidecar) fetchFailed =
      .armed identities integratedTime) :
    commitmentDigest S = pointer ∧ identities = dedupFirst S := by
  rw [evaluateEpochCommitment_sidecar] at h
  split_ifs at h
  simp only [evaluateSidecar, hparse] at h
  split_ifs at h with hdigest
  split at h
  · split at h
    · cases h
    · obtain ⟨rfl, -⟩ := EpochCommitmentStatus.armed.inj h
      exact ⟨not_not.mp hdigest, rfl⟩
  · cases h

/-- Sidecars that list one set arm the epoch alike. -/
theorem evaluateSidecar_of_sameSet {seams : TrustSeams} {verifier : Verifier} {trustBundle : TrustBundle}
    {expectedSigner pointer : Str} {sidecar sidecar' bundle : Bytes} {S T identities : List PreEpochIdentity} {integratedTime : ℤ}
    (hS : seams.parseSidecarPayload sidecar = some (S, bundle)) (hT : seams.parseSidecarPayload sidecar' = some (T, bundle))
    (hsame : SameSet S T)
    (h : evaluateSidecar seams verifier trustBundle expectedSigner pointer sidecar = .armed identities integratedTime) :
    evaluateSidecar seams verifier trustBundle expectedSigner pointer sidecar' = .armed (dedupFirst T) integratedTime := by
  have hpreimage : canonicalPreimage T = canonicalPreimage S := by
    rw [canonicalPreimage_eq_iff, canonicalText, canonicalText, sortedDeduped_eq_iff.mpr hsame]
  simp only [evaluateSidecar, hS] at h
  simp only [evaluateSidecar, hT, commitmentDigest, hpreimage]
  rw [commitmentDigest] at h
  split_ifs at h with hdigest
  rw [if_neg hdigest]
  split at h
  · split at h
    · cases h
    · exact congrArg (EpochCommitmentStatus.armed (dedupFirst T)) (EpochCommitmentStatus.armed.inj h).2
  · cases h

/-- The commitment commits to the set, for identities whose fields have characters of `A`. -/
structure CommitsToSets (A : Set Char) : Prop where
  digest : ∀ S T, Over A S → Over A T → NoCollision S T → (commitmentDigest S = commitmentDigest T ↔ SameSet S T)
  /-- A pointer is armed with one set, whatever sidecars are served for it and whoever verifies them. -/
  armed : ∀ fromSlice toVec describe describe' verifier verifier' trustBundle trustBundle' expectedSigner expectedSigner' pointer
    sidecar sidecar' bundle bundle' fetchFailed fetchFailed' S T identities identities' integratedTime integratedTime',
    parseSidecarPayload fromSlice toVec sidecar = some (S, bundle) →
    parseSidecarPayload fromSlice toVec sidecar' = some (T, bundle') → Over A S → Over A T → NoCollision S T →
    evaluateEpochCommitment ⟨describe, parseSidecarPayload fromSlice toVec⟩ verifier trustBundle expectedSigner (some pointer)
      (some sidecar) fetchFailed = .armed identities integratedTime →
    evaluateEpochCommitment ⟨describe', parseSidecarPayload fromSlice toVec⟩ verifier' trustBundle' expectedSigner' (some pointer)
      (some sidecar') fetchFailed' = .armed identities' integratedTime' → SameSet identities identities'
  /-- Neither the order nor the repetitions in which a sidecar lists the set matter. -/
  listing : ∀ fromSlice toVec describe verifier trustBundle expectedSigner pointer sidecar sidecar' bundle S T identities
    integratedTime, parseSidecarPayload fromSlice toVec sidecar = some (S, bundle) →
    parseSidecarPayload fromSlice toVec sidecar' = some (T, bundle) → SameSet S T →
    evaluateEpochCommitment ⟨describe, parseSidecarPayload fromSlice toVec⟩ verifier trustBundle expectedSigner (some pointer)
      (some sidecar) false = .armed identities integratedTime →
    ∃ identities', evaluateEpochCommitment ⟨describe, parseSidecarPayload fromSlice toVec⟩ verifier trustBundle expectedSigner
      (some pointer) (some sidecar') false = .armed identities' integratedTime ∧ SameSet identities identities'

/-- The name and the namespace run into each other. -/
def fieldClash : List PreEpochIdentity × List PreEpochIdentity := ([⟨['\x1f'], [], [], []⟩], [⟨[], ['\x1f'], [], []⟩])

/-- The content hash of one identity and the namespace of the next run into each other. -/
def recordClash : List PreEpochIdentity × List PreEpochIdentity :=
  ([⟨[], [], [], ['\x1e']⟩, ⟨['\x1e'], [], [], []⟩], [⟨[], [], [], []⟩, ⟨['\x1e', '\x1e'], [], [], []⟩])

theorem not_commitsToSets_of_clash {A : Set Char} {S T : List PreEpochIdentity} (hS : Over A S) (hT : Over A T)
    (htext : canonicalText S = canonicalText T) {id : PreEpochIdentity} (hid : id ∈ S) (hnot : id ∉ T) : ¬ CommitsToSets A := by
  intro h
  have hcollision : NoCollision S T := fun _ => canonicalPreimage_eq_iff.mpr htext
  have hsame := (h.digest S T hS hT hcollision).mp ((commitmentDigest_eq_iff hcollision).mpr htext)
  exact hnot ((hsame id).mp hid)

/-- **The commitment commits to the set of the identities just as long as no separator may stand in a field.** -/
theorem commitsToSets_iff {A : Set Char} : CommitsToSets A ↔ '\x1f' ∉ A ∧ '\x1e' ∉ A := by
  constructor
  · intro h
    refine ⟨fun hfield => ?_, fun hrecord => ?_⟩
    · refine not_commitsToSets_of_clash (S := fieldClash.1) (T := fieldClash.2) ?_ ?_ (by decide)
        List.mem_cons_self (by decide) h
      · simpa [Over, fieldClash, PreEpochIdentity.fields] using hfield
      · simpa [Over, fieldClash, PreEpochIdentity.fields] using hfield
    · refine not_commitsToSets_of_clash (S := recordClash.1) (T := recordClash.2) ?_ ?_ (by decide)
        List.mem_cons_self (by decide) h
      · simpa [Over, recordClash, PreEpochIdentity.fields] using hrecord
      · simpa [Over, recordClash, PreEpochIdentity.fields] using hrecord
  · rintro ⟨hfield, hrecord⟩
    have hdigest : ∀ S T, Over A S → Over A T → NoCollision S T → (commitmentDigest S = commitmentDigest T ↔ SameSet S T) := by
      intro S T hS hT hcollision
      rw [commitmentDigest_eq_iff hcollision, ← sortedDeduped_eq_iff]
      exact ⟨sortedDeduped_eq_of_canonicalText_eq hfield hrecord hS hT, fun h => by rw [canonicalText, canonicalText, h]⟩
    constructor
    case digest => exact hdigest
    case armed =>
      intro fromSlice toVec describe describe' verifier verifier' trustBundle trustBundle' expectedSigner expectedSigner' pointer
        sidecar sidecar' bundle bundle' fetchFailed fetchFailed' S T identities identities' integratedTime integratedTime'
        hparseS hparseT hS hT hcollision harmed harmed'
      obtain ⟨hpointer, rfl⟩ := of_armed hparseS harmed
      obtain ⟨hpointer', rfl⟩ := of_armed hparseT harmed'
      have hsame := (hdigest S T hS hT hcollision).mp (hpointer.trans hpointer'.symm)
      exact fun id => mem_dedupFirst.trans ((hsame id).trans mem_dedupFirst.symm)
    case listing =>
      intro fromSlice toVec describe verifier trustBundle expectedSigner pointer sidecar sidecar' bundle S T identities
        integratedTime hparseS hparseT hsame harmed
      obtain ⟨-, rfl⟩ := of_armed hparseS harmed
      refine ⟨dedupFirst T, ?_, fun id => mem_dedupFirst.trans ((hsame id).trans mem_dedupFirst.symm)⟩
      rw [evaluateEpochCommitment_sidecar] at harmed ⊢
      split_ifs at harmed with hvalid
      rw [if_neg hvalid, if_neg Bool.false_ne_true]
      exact evaluateSidecar_of_sameSet hparseS hparseT hsame harmed

/-- A digest is a pointer. -/
theorem isValidCommitmentPointer_hexLower (d : Digest) : isValidCommitmentPointer (hexLower d) = true := by
  have hdigit : ∀ n : Fin 16, (decide ('0' ≤ Nat.digitChar n ∧ Nat.digitChar n ≤ '9') ||
      decide ('a' ≤ Nat.digitChar n ∧ Nat.digitChar n ≤ 'f')) = true := by decide
  rw [isValidCommitmentPointer, Bool.and_eq_true]
  constructor
  · simp [hexLower, List.length_flatMap, d.length_eq]
  · rw [hexLower, List.all_eq_true]
    intro c hc
    obtain ⟨b, -, hc⟩ := List.mem_flatMap.mp hc
    have hb := b.toNat_lt
    rcases List.mem_pair.mp hc with rfl | rfl
    · exact hdigit ⟨b.toNat / 16, by omega⟩
    · exact hdigit ⟨b.toNat % 16, by omega⟩

theorem armed_of_trusted {seams : TrustSeams} {verifier : Verifier} {trustBundle : TrustBundle} {expectedSigner : Str}
    {sidecar bundle : Bytes} {S : List PreEpochIdentity} {info : IndexBundleInfo}
    (hparse : seams.parseSidecarPayload sidecar = some (S, bundle))
    (htrusted : verifier (canonicalPreimage S) bundle trustBundle expectedSigner none = .trusted)
    (hinfo : seams.describeIndexBundle bundle = some info) :
    evaluateEpochCommitment seams verifier trustBundle expectedSigner (some (commitmentDigest S)) (some sidecar) false =
      .armed (dedupFirst S) info.integratedTime := by
  have hvalid : ¬ isValidCommitmentPointer (commitmentDigest S) = false := by
    rw [commitmentDigest, isValidCommitmentPointer_hexLower]
    exact Bool.noConfusion
  rw [evaluateEpochCommitment_sidecar, if_neg hvalid, if_neg Bool.false_ne_true]
  simp only [evaluateSidecar, hparse, htrusted, hinfo, ne_eq, not_true_eq_false, if_false]

/-- A package `json` of a namespace whose name goes on after a separator. -/
def splitInNamespace : List PreEpochIdentity := [⟨"nim\x1fjson", "parse", "1.0.0", "h"⟩]

/-- A package of the namespace `nim` whose name goes on after a separator. -/
def splitInName : List PreEpochIdentity := [⟨"nim", "json\x1fparse", "1.0.0", "h"⟩]

/-- A reader of two sidecars. -/
def readTwo (payload : Bytes) : Option JsonValue :=
  some (sidecarValue (if payload = [] then splitInNamespace else splitInName) [])

/-- A bundle that is empty and says nothing. -/
def twoSeams : TrustSeams := ⟨fun _ => some ⟨0, [], none, none, none⟩, parseSidecarPayload readTwo fun _ => some []⟩

/-- Two sets have one digest, and both arm the pointer that it is. -/
theorem two_sets_armed :
    commitmentDigest splitInNamespace = commitmentDigest splitInName ∧
      evaluateEpochCommitment twoSeams (fun _ _ _ _ _ => .trusted) ⟨[], []⟩ [] (some (commitmentDigest splitInName)) (some [])
        false = .armed splitInNamespace 0 ∧
      evaluateEpochCommitment twoSeams (fun _ _ _ _ _ => .trusted) ⟨[], []⟩ [] (some (commitmentDigest splitInName)) (some [0])
        false = .armed splitInName 0 ∧ ¬ SameSet splitInNamespace splitInName := by
  have hpreimage : canonicalPreimage splitInNamespace = canonicalPreimage splitInName := by decide
  have hdigest : commitmentDigest splitInNamespace = commitmentDigest splitInName := by
    rw [commitmentDigest, commitmentDigest, hpreimage]
  have hfirst : twoSeams.parseSidecarPayload [] = some (splitInNamespace, []) := parseSidecarPayload_sidecarValue rfl rfl
  have hsecond : twoSeams.parseSidecarPayload [0] = some (splitInName, []) := parseSidecarPayload_sidecarValue rfl rfl
  have hinfo : twoSeams.describeIndexBundle [] = some ⟨0, [], none, none, none⟩ := rfl
  refine ⟨hdigest, ?_, ?_, fun h => ?_⟩
  · rw [← hdigest]
    exact armed_of_trusted hfirst rfl hinfo
  · exact armed_of_trusted hsecond rfl hinfo
  · exact absurd ((h _).mp List.mem_cons_self) (by decide)

end Milpa.Core
