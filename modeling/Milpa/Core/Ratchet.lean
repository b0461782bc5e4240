import Milpa.Order.BTreeMap
import Milpa.Types.Registry
import Milpa.Types.Sort

/-!
# The ratchet

`ratchet.rs`: does a candidate state of the index dominate the baseline? Each field of an
entry has an order of its own; the check compares entry by entry, field by field, and
reports what fails.
-/

namespace Milpa.Core

/-! ### Fields -/

/-- `OrderKind`. -/
inductive OrderKind where
  | setOnce
  | attestationMonotone
  | appendOnlyMultiset
  | advisoryMutable
  | ordinalNonDecreasing
  | appendOnce
  deriving DecidableEq, Repr

/-- The classes of violations, in the order of `class_rank`. -/
inductive ViolationClass where
  | rootMutated
  | rollback
  | entryMutated
  deriving DecidableEq, Repr

/-- The slug of a class. -/
def ViolationClass.slug : ViolationClass → Str
  | .rootMutated => "TNG-INDEX-ROOT-MUTATED"
  | .rollback => "TNG-INDEX-ROLLBACK"
  | .entryMutated => "TNG-ENTRY-MUTATED"

/-- `class_rank`. -/
def ViolationClass.rank : ViolationClass → ℕ
  | .rootMutated => 0
  | .rollback => 1
  | .entryMutated => 2

/-- The kinds of violations. -/
inductive ViolationKind where
  | frozenChanged
  | frozenUnset
  | monotoneStripped
  | monotoneReattributed
  | monotoneDowngraded
  | monotoneRepinned
  | provenanceRemoved
  | rootFieldChanged
  deriving DecidableEq, Repr

/-- The text of a kind. -/
def ViolationKind.text : ViolationKind → Str
  | .frozenChanged => "frozen-changed"
  | .frozenUnset => "frozen-unset"
  | .monotoneStripped => "monotone-stripped"
  | .monotoneReattributed => "monotone-reattributed"
  | .monotoneDowngraded => "monotone-downgraded"
  | .monotoneRepinned => "monotone-repinned"
  | .provenanceRemoved => "provenance-removed"
  | .rootFieldChanged => "root-field-changed"

/-- `EntryKey`. -/
structure EntryKey where
  «namespace» : Str
  name : Str
  version : Str
  deriving Repr

namespace EntryKey

/-- The parts of a key, in the order in which keys are compared. -/
def parts (k : EntryKey) : Str ×ₗ Str ×ₗ Str := toLex (k.namespace, toLex (k.name, k.version))

theorem parts_injective : Function.Injective parts := by
  rintro ⟨ns, name, version⟩ ⟨ns', name', version'⟩ h
  simp only [parts, toLex_inj, Prod.mk.injEq] at h
  rw [h.1, h.2.1, h.2.2]

instance : LinearOrder EntryKey := LinearOrder.lift' parts parts_injective

/-- `root`: the key of the fields at the root of the document. -/
def root : EntryKey := ⟨[], [], []⟩

/-- `is_root`. -/
def isRoot (k : EntryKey) : Bool := k.namespace.isEmpty && k.name.isEmpty && k.version.isEmpty

theorem isRoot_iff {k : EntryKey} : k.isRoot = true ↔ k = root := by
  obtain ⟨ns, name, version⟩ := k
  simp [isRoot, root, and_assoc]

end EntryKey

/-- `AttestationValue`. -/
structure AttestationValue where
  kind : Str
  signer : Option Str
  bundlePin : Option Str
  deriving DecidableEq, Repr

/-- `FieldValue`. -/
inductive FieldValue where
  | str (s : Str)
  | int (i : ℤ)
  | bool (b : Bool)
  | provenanceList (items : List Provenance)
  | attestation (a : AttestationValue)
  | rekor (r : RekorRef)
  deriving DecidableEq, Repr

/-- The values that have a text of their own. -/
def FieldValue.scalarText : FieldValue → Option Str
  | .str s => some s
  | .int i => some (if i < 0 then '-' :: Str.ofNat i.natAbs else Str.ofNat i.natAbs)
  | .bool b => some (if b then "true" else "false")
  | _ => none

/-- `RawField`: a value, and the text as it was served. A value that has no text of its own comes with one. -/
structure RawField where
  value : Option FieldValue
  raw : Option Str
  rendered : ∀ v ∈ value, (raw.or v.scalarText).isSome = true

namespace RawField

/-- `absent`. -/
def absent : RawField := ⟨none, none, by simp⟩

/-- `new`, of a value that has a text. -/
def new (v : FieldValue) (h : v.scalarText.isSome = true) : RawField := ⟨some v, none, by simpa using h⟩

/-- `with_raw`. -/
def withRaw (v : FieldValue) (raw : Str) : RawField := ⟨some v, some raw, by simp⟩

/-- `raw_str`. -/
def rawStr (f : RawField) : Str :=
  match h : f.value with
  | none => []
  | some v => (f.raw.or v.scalarText).get (f.rendered v h)

@[simp] theorem value_absent : absent.value = none := rfl

@[simp] theorem value_new (v : FieldValue) (h : v.scalarText.isSome = true) : (new v h).value = some v := rfl

@[simp] theorem value_withRaw (v : FieldValue) (raw : Str) : (withRaw v raw).value = some v := rfl

end RawField

/-- `RatchetEntry`. -/
structure RatchetEntry where
  fields : Str → Option RawField

namespace RatchetEntry

/-- `new`. -/
def new : RatchetEntry := ⟨fun _ => none⟩

/-- `set`. -/
def set (e : RatchetEntry) (name : Str) (field : RawField) : RatchetEntry :=
  ⟨fun f => if f = name then some field else e.fields f⟩

/-- `get`. -/
def get (e : RatchetEntry) (name : Str) : RawField := (e.fields name).getD .absent

/-- The value of a field. -/
def value (e : RatchetEntry) (name : Str) : Option FieldValue := (e.get name).value

@[simp] theorem value_new (f : Str) : new.value f = none := rfl

theorem value_set (e : RatchetEntry) (name : Str) (field : RawField) (f : Str) :
    (e.set name field).value f = if f = name then field.value else e.value f := by
  simp only [value, get, set]
  split_ifs <;> rfl

end RatchetEntry

/-- `IndexState`. -/
abbrev IndexState := BTreeMap EntryKey RatchetEntry

/-! ### Violations -/

/-- `Violation`. -/
structure Violation where
  cls : ViolationClass
  entryKey : EntryKey
  field : Str
  kind : ViolationKind
  baselineValue : Str
  candidateValue : Str
  deriving DecidableEq, Repr

/-- `Transition`: the version was yanked, or no longer is. -/
structure Transition where
  entryKey : EntryKey
  yanked : Bool
  reason : Option Str
  deriving DecidableEq, Repr

/-- `RatchetOutcome`. -/
structure RatchetOutcome where
  violations : List Violation
  advanced : Bool
  transitions : List Transition

/-- `clean`. -/
def RatchetOutcome.clean (o : RatchetOutcome) : Bool := o.violations.isEmpty

/-- `lattice`. -/
def lattice : List (Str × OrderKind) :=
  [("content_hash", .setOnce), ("published_at", .setOnce), ("rekor", .setOnce), ("attestation", .attestationMonotone),
    ("provenances", .appendOnlyMultiset), ("yanked", .advisoryMutable), ("schema_version", .ordinalNonDecreasing),
    ("attestation-epoch", .setOnce), ("attestation-epoch-commitment", .appendOnce)]

/-- `LOCKSTEP_GROUPS`: its one group. -/
def depDeclGroup : List Str := ["dep_decl", "dep_decl_schema_version"]

/-! ### The orders -/

/-- `dominates_set_once`. -/
def dominatesSetOnce : Option FieldValue → Option FieldValue → Option ViolationKind
  | none, _ => none
  | some _, none => some .frozenUnset
  | some b, some c => if b ≠ c then some .frozenChanged else none

/-- `dominates_append_once`. -/
def dominatesAppendOnce (baseline candidate : Option FieldValue) : Option ViolationKind :=
  dominatesSetOnce baseline candidate

/-- `as_i64`: what is absent is `1`. -/
def asI64 : Option FieldValue → ℤ
  | some (.int i) => i
  | _ => 1

/-- `dominates_ordinal`. -/
def dominatesOrdinal (baseline candidate : Option FieldValue) : Option ViolationKind :=
  if asI64 candidate < asI64 baseline then some .rootFieldChanged else none

def authorSigned : Str := "author-signed"

def milpaVendored : Str := "milpa-vendored"

/-- `dominates_attestation`. -/
def dominatesAttestation (baseline candidate : Option FieldValue) : Option ViolationKind :=
  match baseline, candidate with
  | some (.attestation _), none => some .monotoneStripped
  | some (.attestation b), some (.attestation c) =>
    if b.kind = c.kind then
      if b.kind = authorSigned ∧ b.signer ≠ c.signer then some .monotoneReattributed
      else if b.bundlePin ≠ c.bundlePin then some .monotoneRepinned
      else none
    else if b.kind = authorSigned ∧ c.kind = milpaVendored then some .monotoneDowngraded
    else none
  | _, _ => none

/-- `as_provenance_list`. -/
def asProvenanceList : Option FieldValue → List Provenance
  | some (.provenanceList items) => items
  | _ => []

/-- The loop of `dominates_multiset`: takes each record of the baseline out of the candidate's. -/
def removeEach : List Provenance → List Provenance → Option ViolationKind
  | [], _ => none
  | b :: bItems, cRemaining => if b ∈ cRemaining then removeEach bItems (cRemaining.erase b) else some .provenanceRemoved

/-- `dominates_multiset`. -/
def dominatesMultiset (baseline candidate : Option FieldValue) : Option ViolationKind :=
  removeEach (asProvenanceList baseline) (asProvenanceList candidate)

/-- `dominates_advisory`. -/
def dominatesAdvisory (_baseline _candidate : Option FieldValue) : Option ViolationKind := none

/-- `dispatch`. -/
def dispatch : OrderKind → Option FieldValue → Option FieldValue → Option ViolationKind
  | .setOnce => dominatesSetOnce
  | .ordinalNonDecreasing => dominatesOrdinal
  | .attestationMonotone => dominatesAttestation
  | .appendOnlyMultiset => dominatesMultiset
  | .advisoryMutable => dominatesAdvisory
  | .appendOnce => dominatesAppendOnce

/-- The comparison of a group that moves in lockstep. -/
def dominatesLockstep (baseline candidate : List (Option FieldValue)) : Option ViolationKind :=
  if baseline.any Option.isSome then
    if candidate.any Option.isSome then if baseline ≠ candidate then some .frozenChanged else none
    else some .frozenUnset
  else none

/-- `lockstep_raw`. -/
def lockstepRaw (e : RatchetEntry) (group : List Str) : Str :=
  ['\x1f'].intercalate (group.map fun f => (e.get f).rawStr)

/-! ### The fold -/

/-- The violation of a field, if it has one. -/
def fieldViolation (key : EntryKey) (field : Str) (kind : Option ViolationKind) (baselineValue candidateValue : Str) :
    List Violation :=
  match kind with
  | none => []
  | some kind =>
    [⟨if key.isRoot then .rootMutated else .entryMutated, key, field, if key.isRoot then .rootFieldChanged else kind,
      baselineValue, candidateValue⟩]

/-- `dominates_entry`. -/
def dominatesEntry (key : EntryKey) (baselineEntry candidateEntry : RatchetEntry) : List Violation :=
  fieldViolation key "dep_decl"
      (dominatesLockstep (depDeclGroup.map baselineEntry.value) (depDeclGroup.map candidateEntry.value))
      (lockstepRaw baselineEntry depDeclGroup) (lockstepRaw candidateEntry depDeclGroup) ++
    lattice.flatMap fun (field, kind) =>
      fieldViolation key field (dispatch kind (baselineEntry.value field) (candidateEntry.value field))
        (baselineEntry.get field).rawStr (candidateEntry.get field).rawStr

/-- `rollback_violation`. -/
def rollbackViolation (key : EntryKey) : Violation := ⟨.rollback, key, [], .frozenUnset, "present", []⟩

/-- The text of a field that is one. -/
def strOf : Option FieldValue → Option Str
  | some (.str s) => some s
  | _ => none

/-- `yank_transition`. -/
def yankTransition (key : EntryKey) (baselineEntry candidateEntry : RatchetEntry) : List Transition :=
  let b := decide (baselineEntry.value "yanked" = some (.bool true))
  let c := decide (candidateEntry.value "yanked" = some (.bool true))
  if b = c then []
  else if c then [⟨key, true, strOf (candidateEntry.value "yanked_reason")⟩]
  else [⟨key, false, strOf (baselineEntry.value "yanked_reason")⟩]

/-- `sort_key`. -/
def sortKey (v : Violation) : ℕ ×ₗ EntryKey ×ₗ Str := toLex (v.cls.rank, toLex (v.entryKey, v.field))

/-- What one entry of the baseline adds to the outcome. -/
def checkEntry (candidate : IndexState) (key : EntryKey) (bEntry : RatchetEntry) : List Violation × List Transition :=
  if key.isRoot then ([], [])
  else
    match candidate.get? key with
    | none => ([rollbackViolation key], [])
    | some cEntry => (dominatesEntry key bEntry cEntry, yankTransition key bEntry cEntry)

/-- The entry of the fields at the root. -/
def rootEntry (state : IndexState) : RatchetEntry := (state.get? .root).getD .new

/-- `Baseline::check`. -/
def check (baseline candidate : IndexState) : RatchetOutcome :=
  let entries := baseline.entries.map fun e => checkEntry candidate e.1 e.2
  let violations := dominatesEntry .root (rootEntry baseline) (rootEntry candidate) ++ entries.flatMap Prod.fst
  ⟨sortByKey sortKey violations, violations.isEmpty, entries.flatMap Prod.snd⟩

/-! ### The digest -/

/-- The line of a violation in the digest. -/
def digestLine (v : Violation) : Str :=
  ['\t'].intercalate [v.cls.slug, v.entryKey.namespace, v.entryKey.name, v.entryKey.version, v.field, v.kind.text,
    v.candidateValue] ++ ['\n']

/-- `canonical_digest`, with SHA-256 in hexadecimal as a parameter. -/
def canonicalDigest (sha256Hex : Str → Str) (violations : List Violation) : Str :=
  sha256Hex ((sortByKey sortKey violations).flatMap digestLine)

end Milpa.Core
