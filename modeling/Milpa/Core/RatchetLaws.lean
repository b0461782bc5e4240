import Mathlib.Data.Multiset.AddSub
import Milpa.Core.Ratchet

/-!
# Dominance

What it means that one state of the index dominates another (`Dominates`): every entry is
still there, and each field of it is one that its order allows. Dominance is reflexive
and transitive, and `check` is clean just where the candidate dominates the baseline
(`check_advanced_iff`).
-/

namespace Milpa.Core

/-! ### Entries -/

/-- The fields that are set once. -/
def setOnceFields : List Str := ["content_hash", "published_at", "rekor", "attestation-epoch", "attestation-epoch-commitment"]

/-- An attestation that may follow another one: the same kind with the same signer and the same pin, or that of the
author after that of the vendor. -/
def AttestationFollows (a a' : AttestationValue) : Prop :=
  (a'.kind = a.kind ∧ (a.kind = authorSigned → a'.signer = a.signer) ∧ a'.bundlePin = a.bundlePin) ∨
    (a.kind = milpaVendored ∧ a'.kind = authorSigned)

/-- An entry dominates another one of its key. -/
structure EntryDominates (b c : RatchetEntry) : Prop where
  /-- What is set once stays as it is. -/
  setOnce : ∀ f ∈ setOnceFields, ∀ v, b.value f = some v → c.value f = some v
  /-- So do the declared dependencies with the version of their schema, once there is one of the two. -/
  depDecl : (∃ f ∈ depDeclGroup, b.value f ≠ none) → ∀ f ∈ depDeclGroup, c.value f = b.value f
  /-- No provenance is removed. -/
  provenances : (asProvenanceList (b.value "provenances") : Multiset Provenance) ≤ asProvenanceList (c.value "provenances")
  /-- An attestation is neither stripped nor re-attributed, downgraded or re-pinned. -/
  attestation : ∀ a, b.value "attestation" = some (.attestation a) →
    ∃ a', c.value "attestation" = some (.attestation a') ∧ AttestationFollows a a'
  /-- The version of the schema does not decrease. -/
  schemaVersion : asI64 (b.value "schema_version") ≤ asI64 (c.value "schema_version")

theorem AttestationFollows.refl (a : AttestationValue) : AttestationFollows a a := Or.inl ⟨rfl, fun _ => rfl, rfl⟩

theorem AttestationFollows.trans {a b c : AttestationValue} (hab : AttestationFollows a b) (hbc : AttestationFollows b c) :
    AttestationFollows a c := by
  have hne : authorSigned ≠ milpaVendored := by decide
  rcases hab with ⟨hk, hs, hp⟩ | ⟨ha, hb⟩
  · rcases hbc with ⟨hk', hs', hp'⟩ | ⟨hb, hc⟩
    · exact Or.inl ⟨hk'.trans hk, fun ha => (hs' (hk.trans ha)).trans (hs ha), hp'.trans hp⟩
    · exact Or.inr ⟨hk ▸ hb, hc⟩
  · rcases hbc with ⟨hk', -, -⟩ | ⟨hb', -⟩
    · exact Or.inr ⟨ha, hk'.trans hb⟩
    · exact absurd (hb.symm.trans hb') hne

theorem EntryDominates.refl (e : RatchetEntry) : EntryDominates e e where
  setOnce := fun _ _ _ h => h
  depDecl := fun _ _ _ => rfl
  provenances := le_refl _
  attestation := fun a ha => ⟨a, ha, .refl a⟩
  schemaVersion := le_refl _

theorem EntryDominates.trans {a b c : RatchetEntry} (hab : EntryDominates a b) (hbc : EntryDominates b c) :
    EntryDominates a c where
  setOnce := fun f hf v hv => hbc.setOnce f hf v (hab.setOnce f hf v hv)
  depDecl := by
    intro hset f hf
    have hb := hab.depDecl hset
    obtain ⟨g, hg, hne⟩ := hset
    exact (hbc.depDecl ⟨g, hg, (hb g hg).symm ▸ hne⟩ f hf).trans (hb f hf)
  provenances := hab.provenances.trans hbc.provenances
  attestation := by
    intro a ha
    obtain ⟨a', ha', hfollows⟩ := hab.attestation a ha
    obtain ⟨a'', ha'', hfollows'⟩ := hbc.attestation a' ha'
    exact ⟨a'', ha'', hfollows.trans hfollows'⟩
  schemaVersion := hab.schemaVersion.trans hbc.schemaVersion

/-! ### The orders -/

theorem dominatesSetOnce_eq_none {b c : Option FieldValue} :
    dominatesSetOnce b c = none ↔ ∀ v, b = some v → c = some v := by
  cases b with
  | none => simp [dominatesSetOnce]
  | some b =>
    cases c with
    | none => simp [dominatesSetOnce]
    | some c => simp [dominatesSetOnce, eq_comm]

theorem dominatesLockstep_eq_none {b c : RatchetEntry} :
    dominatesLockstep (depDeclGroup.map b.value) (depDeclGroup.map c.value) = none ↔
      ((∃ f ∈ depDeclGroup, b.value f ≠ none) → ∀ f ∈ depDeclGroup, c.value f = b.value f) := by
  have hany : ∀ e : RatchetEntry, (depDeclGroup.map e.value).any Option.isSome = true ↔
      ∃ f ∈ depDeclGroup, e.value f ≠ none := by
    intro e
    simp [List.any_eq_true, Option.isSome_iff_ne_none]
  have heq : depDeclGroup.map b.value = depDeclGroup.map c.value ↔ ∀ f ∈ depDeclGroup, c.value f = b.value f := by
    rw [List.map_inj_left]
    exact forall₂_congr fun _ _ => eq_comm
  unfold dominatesLockstep
  rw [← heq, ← hany b]
  split_ifs with hb hc hne
  · exact iff_of_false (by simp) fun h => hne (h hb)
  · exact iff_of_true rfl fun _ => not_not.mp hne
  · refine iff_of_false (by simp) fun h => hc ?_
    rw [← h hb]
    exact hb
  · simp [hb]

theorem removeEach_eq_none {bs cs : List Provenance} : removeEach bs cs = none ↔ (bs : Multiset Provenance) ≤ cs := by
  induction bs generalizing cs with
  | nil => exact iff_of_true rfl (Multiset.zero_le _)
  | cons b bs ih =>
    rw [removeEach]
    split_ifs with hb
    · have hcs : b ::ₘ (cs : Multiset Provenance).erase b = cs := Multiset.cons_erase (by simpa using hb)
      rw [ih, ← Multiset.coe_erase, ← Multiset.cons_coe, ← Multiset.cons_le_cons_iff b, hcs]
    · refine iff_of_false (by simp) fun h => hb ?_
      simpa using Multiset.mem_of_le h (by simp)

/-- The attestation of an entry is one, of one of the two kinds. -/
def WellKinded (e : RatchetEntry) : Prop :=
  ∀ v, e.value "attestation" = some v → ∃ a, v = .attestation a ∧ (a.kind = authorSigned ∨ a.kind = milpaVendored)

theorem dominatesAttestation_eq_none {b c : RatchetEntry} (hb : WellKinded b) (hc : WellKinded c) :
    dominatesAttestation (b.value "attestation") (c.value "attestation") = none ↔
      ∀ a, b.value "attestation" = some (.attestation a) →
        ∃ a', c.value "attestation" = some (.attestation a') ∧ AttestationFollows a a' := by
  have hne : milpaVendored ≠ authorSigned := by decide
  cases hbv : b.value "attestation" with
  | none => simp [dominatesAttestation]
  | some vb =>
    obtain ⟨a, rfl, ha⟩ := hb vb hbv
    cases hcv : c.value "attestation" with
    | none => simp [dominatesAttestation]
    | some vc =>
      obtain ⟨a', rfl, ha'⟩ := hc vc hcv
      simp only [dominatesAttestation, Option.some.injEq, FieldValue.attestation.injEq, forall_eq', exists_eq_left',
        AttestationFollows]
      rcases ha with ha | ha <;> rcases ha' with ha' | ha' <;> rw [ha, ha']
      · grind
      · grind
      · grind
      · grind

theorem dominatesMultiset_eq_none {b c : Option FieldValue} :
    dominatesMultiset b c = none ↔ (asProvenanceList b : Multiset Provenance) ≤ asProvenanceList c := removeEach_eq_none

theorem dominatesOrdinal_eq_none {b c : Option FieldValue} : dominatesOrdinal b c = none ↔ asI64 b ≤ asI64 c := by
  simp [dominatesOrdinal]

theorem fieldViolation_eq_nil {key : EntryKey} {field : Str} {kind : Option ViolationKind} {b c : Str} :
    fieldViolation key field kind b c = [] ↔ kind = none := by
  cases kind <;> simp [fieldViolation]

/-- **`dominates_entry` reports nothing just where the entry dominates.** -/
theorem dominatesEntry_eq_nil_iff {key : EntryKey} {b c : RatchetEntry} (hb : WellKinded b) (hc : WellKinded c) :
    dominatesEntry key b c = [] ↔ EntryDominates b c := by
  have hfields : (∀ p ∈ lattice, dispatch p.2 (b.value p.1) (c.value p.1) = none) ↔
      (∀ f ∈ setOnceFields, ∀ v, b.value f = some v → c.value f = some v) ∧
      (∀ a, b.value "attestation" = some (.attestation a) →
        ∃ a', c.value "attestation" = some (.attestation a') ∧ AttestationFollows a a') ∧
      (asProvenanceList (b.value "provenances") : Multiset Provenance) ≤ asProvenanceList (c.value "provenances") ∧
      asI64 (b.value "schema_version") ≤ asI64 (c.value "schema_version") := by
    simp only [lattice, List.forall_mem_cons, List.not_mem_nil, false_implies, implies_true, and_true, dispatch,
      setOnceFields, dominatesAppendOnce, dominatesAdvisory, dominatesSetOnce_eq_none,
      dominatesAttestation_eq_none hb hc, dominatesMultiset_eq_none, dominatesOrdinal_eq_none, true_and]
    constructor
    · rintro ⟨hhash, hpublished, hrekor, hatt, hprov, hschema, hepoch, hcommitment⟩
      exact ⟨⟨hhash, hpublished, hrekor, hepoch, hcommitment⟩, hatt, hprov, hschema⟩
    · rintro ⟨⟨hhash, hpublished, hrekor, hepoch, hcommitment⟩, hatt, hprov, hschema⟩
      exact ⟨hhash, hpublished, hrekor, hatt, hprov, hschema, hepoch, hcommitment⟩
  rw [dominatesEntry, List.append_eq_nil_iff, fieldViolation_eq_nil, dominatesLockstep_eq_none, List.flatMap_eq_nil_iff]
  simp only [fieldViolation_eq_nil]
  rw [hfields]
  constructor
  · rintro ⟨hdecl, honce, hatt, hprov, hschema⟩
    exact ⟨honce, hdecl, hprov, hatt, hschema⟩
  · rintro ⟨honce, hdecl, hprov, hatt, hschema⟩
    exact ⟨hdecl, honce, hatt, hprov, hschema⟩

/-! ### States -/

/-- A state dominates another one: each of its entries is still there, and dominates. -/
def Dominates (s s' : IndexState) : Prop :=
  ∀ key e, s.get? key = some e → ∃ e', s'.get? key = some e' ∧ EntryDominates e e'

theorem Dominates.refl (s : IndexState) : Dominates s s := fun _ e he => ⟨e, he, .refl e⟩

theorem Dominates.trans {s s' s'' : IndexState} (h : Dominates s s') (h' : Dominates s' s'') : Dominates s s'' := by
  intro key e he
  obtain ⟨e', he', hdom⟩ := h key e he
  obtain ⟨e'', he'', hdom'⟩ := h' key e' he'
  exact ⟨e'', he'', hdom.trans hdom'⟩

/-- A state that an index can be: it has an entry at the root, and its attestations are of the two kinds. -/
structure WellFormed (s : IndexState) : Prop where
  root : ∃ e, s.get? .root = some e
  kinded : ∀ key e, s.get? key = some e → WellKinded e

theorem checkEntry_eq_nil_iff {s s' : IndexState} (hs : WellFormed s) (hs' : WellFormed s') {key : EntryKey}
    {e : RatchetEntry} (he : s.get? key = some e) :
    (checkEntry s' key e).1 = [] ↔ key ≠ .root → ∃ e', s'.get? key = some e' ∧ EntryDominates e e' := by
  unfold checkEntry
  split_ifs with hroot
  · exact iff_of_true rfl fun hne => absurd (EntryKey.isRoot_iff.mp hroot) hne
  · have hne : key ≠ .root := fun h => hroot (EntryKey.isRoot_iff.mpr h)
    cases he' : s'.get? key with
    | none => simp [hne]
    | some e' => simp [hne, dominatesEntry_eq_nil_iff (hs.kinded key e he) (hs'.kinded key e' he')]

/-- **`check` is clean just where the candidate dominates the baseline.** -/
theorem check_advanced_iff {s s' : IndexState} (hs : WellFormed s) (hs' : WellFormed s') :
    (check s s').advanced = true ↔ Dominates s s' := by
  obtain ⟨r, hr⟩ := hs.root
  obtain ⟨r', hr'⟩ := hs'.root
  have hroots : rootEntry s = r ∧ rootEntry s' = r' := by simp [rootEntry, hr, hr']
  have hentries : (s.entries.map fun e => checkEntry s' e.1 e.2).flatMap Prod.fst = [] ↔
      ∀ key e, s.get? key = some e → key ≠ .root → ∃ e', s'.get? key = some e' ∧ EntryDominates e e' := by
    rw [List.flatMap_eq_nil_iff, List.forall_mem_map]
    constructor
    · intro h key e he
      exact (checkEntry_eq_nil_iff hs hs' he).mp (h (key, e) (BTreeMap.mem_entries.mpr he))
    · rintro h ⟨key, e⟩ hmem
      have he := BTreeMap.mem_entries.mp hmem
      exact (checkEntry_eq_nil_iff hs hs' he).mpr (h key e he)
  rw [check, List.isEmpty_iff, List.append_eq_nil_iff, hentries, hroots.1, hroots.2,
    dominatesEntry_eq_nil_iff (hs.kinded _ _ hr) (hs'.kinded _ _ hr')]
  constructor
  · rintro ⟨hroot, hothers⟩ key e he
    by_cases hkey : key = .root
    · subst hkey
      obtain rfl : r = e := Option.some.inj (hr.symm.trans he)
      exact ⟨r', hr', hroot⟩
    · exact hothers key e he hkey
  · intro h
    refine ⟨?_, fun key e he _ => h key e he⟩
    obtain ⟨e', he', hdom⟩ := h .root r hr
    obtain rfl : r' = e' := Option.some.inj (hr'.symm.trans he')
    exact hdom

theorem clean_check (s s' : IndexState) : (check s s').clean = (check s s').advanced := by
  have hperm := @sortByKey_eq_nil _ _ _ sortKey (dominatesEntry .root (rootEntry s) (rootEntry s') ++
    (s.entries.map fun e => checkEntry s' e.1 e.2).flatMap Prod.fst)
  rw [RatchetOutcome.clean, check, Bool.eq_iff_iff, List.isEmpty_iff, List.isEmpty_iff]
  exact hperm

end Milpa.Core
