import Milpa.Core.IndexRatchetSeam
import Milpa.Core.RatchetLaws

/-!
# The state of an index

What `index_state_from` puts under each key: the entry of the last version that is
inserted for it, or the fields at the root (`get?_indexStateFrom`).
-/

namespace Milpa.Core

/-! ### Entries -/

theorem value_setOpt (e : RatchetEntry) (name : Str) (field : Option RawField) (f : Str) :
    (e.setOpt name field).value f = if f = name then field.elim (e.value f) RawField.value else e.value f := by
  cases field with
  | none => simp [RatchetEntry.setOpt]
  | some field => rw [RatchetEntry.setOpt, RatchetEntry.value_set]; rfl

/-- What an entry says about a version, its time of publication encoded. -/
structure Describes (e : RatchetEntry) (iv : IndexVersion) (encode : Timestamp → ℤ) : Prop where
  contentHash : e.value "content_hash" = if iv.contentHash = [] then none else some (.str iv.contentHash)
  publishedAt : e.value "published_at" = iv.publishedAt.map fun ts => .int (encode ts)
  depDecl : e.value "dep_decl" = iv.depDecl.map .str
  depDeclSchemaVersion : e.value "dep_decl_schema_version" = iv.depDeclSchemaVersion.map .int
  provenances : asProvenanceList (e.value "provenances") = iv.provenances
  yanked : e.value "yanked" = some (.bool iv.yanked)
  attestation : e.value "attestation" = iv.attestation.map fun att => .attestation (encodeAttestation att)
  rekor : e.value "rekor" = (iv.attestation.bind EntryAttestation.rekor).map .rekor

theorem describes_versionEntry (iv : IndexVersion) : Describes (versionEntry iv) iv encodeTimestamp where
  contentHash := by
    by_cases h : iv.contentHash = [] <;> simp [versionEntry, value_setOpt, RatchetEntry.value_set, RawField.new, h]
  publishedAt := by
    cases h : iv.publishedAt <;> simp [versionEntry, value_setOpt, RatchetEntry.value_set, h]
  depDecl := by
    cases h : iv.depDecl <;> simp [versionEntry, value_setOpt, RatchetEntry.value_set, RawField.new, h]
  depDeclSchemaVersion := by
    cases h : iv.depDeclSchemaVersion <;> simp [versionEntry, value_setOpt, RatchetEntry.value_set, RawField.new, h]
  provenances := by
    by_cases h : iv.provenances = [] <;>
      simp [versionEntry, value_setOpt, RatchetEntry.value_set, asProvenanceList, h]
  yanked := by simp [versionEntry, value_setOpt, RatchetEntry.value_set, RawField.new]
  attestation := by
    cases h : iv.attestation <;> simp [versionEntry, value_setOpt, RatchetEntry.value_set, h]
  rekor := by
    cases h : iv.attestation.bind EntryAttestation.rekor <;> simp [versionEntry, value_setOpt, RatchetEntry.value_set, h]

/-- What an entry says about the fields at the root, and nothing else. -/
structure DescribesRoot (e : RatchetEntry) (schemaVersion : Option ℤ)
    (attestationEpoch attestationEpochCommitment : Option Str) : Prop where
  schemaVersion : e.value "schema_version" = schemaVersion.map .int
  attestationEpoch : e.value "attestation-epoch" = attestationEpoch.map .str
  attestationEpochCommitment : e.value "attestation-epoch-commitment" = attestationEpochCommitment.map .str
  others : ∀ f : Str, f ≠ "schema_version".toList → f ≠ "attestation-epoch".toList →
    f ≠ "attestation-epoch-commitment".toList → e.value f = none

theorem describesRoot_rootFields (schemaVersion : Option ℤ) (attestationEpoch attestationEpochCommitment : Option Str) :
    DescribesRoot (rootFields schemaVersion attestationEpoch attestationEpochCommitment) schemaVersion attestationEpoch
      attestationEpochCommitment where
  schemaVersion := by cases schemaVersion <;> simp [rootFields, value_setOpt, RawField.new]
  attestationEpoch := by cases attestationEpoch <;> simp [rootFields, value_setOpt, RawField.new]
  attestationEpochCommitment := by cases attestationEpochCommitment <;> simp [rootFields, value_setOpt, RawField.new]
  others := fun f h1 h2 h3 => by
    rw [rootFields, value_setOpt, if_neg h3, value_setOpt, if_neg h2, value_setOpt, if_neg h1]
    rfl

theorem wellKinded_versionEntry (iv : IndexVersion) : WellKinded (versionEntry iv) := by
  intro v hv
  rw [(describes_versionEntry iv).attestation] at hv
  obtain ⟨att, -, rfl⟩ := Option.map_eq_some_iff.mp hv
  refine ⟨_, rfl, ?_⟩
  cases h : att.kind with
  | authorSigned signer => exact Or.inl (by rw [encodeAttestation, h])
  | milpaVendored => exact Or.inr (by rw [encodeAttestation, h])

theorem wellKinded_rootFields (schemaVersion : Option ℤ) (attestationEpoch attestationEpochCommitment : Option Str) :
    WellKinded (rootFields schemaVersion attestationEpoch attestationEpochCommitment) := by
  intro v hv
  rw [(describesRoot_rootFields schemaVersion attestationEpoch attestationEpochCommitment).others _ (by decide)
    (by decide) (by decide)] at hv
  exact absurd hv (by simp)

/-! ### States -/

/-- The last version that is inserted under a key. -/
def lastVersion (index : Index) (key : EntryKey) : Option IndexVersion :=
  ((keyedVersions index).reverse.find? fun e => decide (e.1 = key)).map Prod.snd

section

variable (schemaVersion : Option ℤ) (attestationEpoch attestationEpochCommitment : Option Str) (index : Index)

/-- **Under a key there is the entry of its last version; under the key of the root, where there is none, the fields at
the root.** -/
theorem get?_indexStateFrom (key : EntryKey) :
    (indexStateFrom schemaVersion attestationEpoch attestationEpochCommitment index).get? key =
      ((lastVersion index key).map versionEntry).or
        (if key = .root then some (rootFields schemaVersion attestationEpoch attestationEpochCommitment) else none) := by
  rw [indexStateFrom, BTreeMap.get?_foldl_insert, BTreeMap.get?_insert, BTreeMap.get?_empty, lastVersion, Option.map_map]
  rfl

theorem wellFormed_indexStateFrom :
    WellFormed (indexStateFrom schemaVersion attestationEpoch attestationEpochCommitment index) where
  root := by
    rw [get?_indexStateFrom, if_pos rfl]
    cases lastVersion index .root with
    | none => exact ⟨_, rfl⟩
    | some iv => exact ⟨_, rfl⟩
  kinded := by
    intro key e he
    rw [get?_indexStateFrom] at he
    cases hlast : lastVersion index key with
    | some iv =>
      rw [hlast] at he
      obtain rfl := Option.some.inj he
      exact wellKinded_versionEntry iv
    | none =>
      rw [hlast, Option.map_none, Option.none_or] at he
      split_ifs at he
      obtain rfl := Option.some.inj he
      exact wellKinded_rootFields _ _ _

end

theorem wellFormed_of_parseBaseline {kdlParse : Str → Except Str (List Kdl.KdlNode)} {text : Str} {s : IndexState}
    (h : parseBaseline kdlParse text = .ok s) : WellFormed s := by
  unfold parseBaseline at h
  split at h
  · next index state hbuild =>
    obtain rfl := Except.ok.inj h
    obtain ⟨index', -, hbuild⟩ := Result.bind_eq_ok.mp hbuild
    obtain ⟨schemaVersion, -, hbuild⟩ := Result.bind_eq_ok.mp hbuild
    obtain ⟨epoch, -, hbuild⟩ := Result.bind_eq_ok.mp hbuild
    obtain ⟨commitment, -, hbuild⟩ := Result.bind_eq_ok.mp hbuild
    obtain ⟨rfl, rfl⟩ := Prod.mk.inj (Result.pure_eq_ok.mp hbuild)
    exact wellFormed_indexStateFrom schemaVersion epoch commitment index
  · simp at h
  · simp at h

end Milpa.Core
