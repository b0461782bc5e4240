import Milpa.Core.IndexState
import Milpa.Core.RegistryLookup
import Milpa.Kdl.Reader

/-!
# What an index serves and what its state says

The gate looks at the state of an index, and the resolver at the index. The state says
what is served just where no package is declared twice in a way that matters, the times
of publication fit into an `i64`, and no version has the key of the root
(`buildIndexState_faithful_iff`).
-/

namespace Milpa.Core

open Milpa.Kdl Milpa.Solver

/-! ### Packages -/

/-- A package as `Index::parse` makes it: its versions have its namespace, and no two of them have the same text. -/
structure ParsedPackage (pkg : Package) : Prop where
  namespaces : ∀ iv ∈ pkg.versions, iv.namespace = pkg.namespace
  nodup : (pkg.versions.map IndexVersion.version).Nodup

theorem newestFirst_perm (versions : List IndexVersion) : (newestFirst versions).Perm versions := by
  have hparseable : ((versions.filterMap fun v => (parseVersion v.version).map fun parsed => (parsed, v)).map Prod.snd) =
      versions.filter fun v => !(parseVersion v.version).isNone := by
    induction versions with
    | nil => rfl
    | cons v vs ih => cases h : parseVersion v.version <;> simp [h, ih]
  unfold newestFirst
  refine (((sortByKey_perm _ _).map Prod.snd).append_right _).trans ?_
  rw [hparseable]
  exact List.perm_append_comm.trans (List.filter_append_perm _ versions)

theorem parsedPackage_newestFirst {name «namespace» : Str} {versions : List IndexVersion}
    (h : ParsedPackage ⟨name, «namespace», versions⟩) : ParsedPackage ⟨name, «namespace», newestFirst versions⟩ where
  namespaces := fun iv hiv => h.namespaces iv ((newestFirst_perm versions).mem_iff.mp hiv)
  nodup := (((newestFirst_perm versions).map _).nodup_iff).mpr h.nodup

theorem parseVersionNode_eq_ok {«namespace» pkgName ver : Str} {node : KdlNode} {iv : IndexVersion}
    {diagnostics : List Diagnostic} (h : parseVersionNode «namespace» pkgName ver node = .ok (iv, diagnostics)) :
    iv.version = ver ∧ iv.namespace = «namespace» := by
  unfold parseVersionNode at h
  obtain ⟨_, -, h⟩ := Result.bind_eq_ok.mp h
  obtain ⟨_, -, h⟩ := Result.bind_eq_ok.mp h
  obtain ⟨_, -, h⟩ := Result.bind_eq_ok.mp h
  obtain ⟨_, -, h⟩ := Result.bind_eq_ok.mp h
  obtain ⟨_, -, h⟩ := Result.bind_eq_ok.mp h
  obtain ⟨rfl, -⟩ := Prod.mk.inj (Result.pure_eq_ok.mp h)
  exact ⟨rfl, rfl⟩

theorem parsedPackage_versionChild {name «namespace» : Str} {versions versions' : List IndexVersion} {child : KdlNode}
    (h : ParsedPackage ⟨name, «namespace», versions⟩) (hr : versionChild «namespace» name versions child = .ok versions') :
    ParsedPackage ⟨name, «namespace», versions'⟩ := by
  unfold versionChild at hr
  split_ifs at hr
  · split at hr
    · obtain rfl := Except.ok.inj hr
      exact h
    · next ver _ =>
      obtain ⟨_, -, hr⟩ := Result.bind_eq_ok.mp hr
      split_ifs at hr with hseen
      · obtain rfl := Result.pure_eq_ok.mp hr
        exact h
      · obtain ⟨⟨iv, diagnostics⟩, hiv, hr⟩ := Result.bind_eq_ok.mp hr
        obtain rfl := Result.pure_eq_ok.mp hr
        obtain ⟨hversion, hnamespace⟩ := parseVersionNode_eq_ok hiv
        constructor
        · intro iv' hiv'
          rcases List.mem_append.mp hiv' with hiv' | hiv'
          · exact h.namespaces iv' hiv'
          · rw [List.mem_singleton.mp hiv']
            exact hnamespace
        · rw [List.map_append, List.nodup_append]
          refine ⟨h.nodup, List.nodup_singleton _, ?_⟩
          rintro v hv v' hv' rfl
          rw [List.map_singleton, List.mem_singleton, hversion] at hv'
          exact hseen (hv' ▸ hv)
  · obtain rfl := Except.ok.inj hr
    exact h

theorem parsedPackage_of_indexOf {doc : List KdlNode} {index : Index} (h : indexOf doc = .ok index) :
    ∀ pkg ∈ index.packages, ParsedPackage pkg := by
  obtain ⟨_, -, h⟩ := Result.bind_eq_ok.mp h
  obtain ⟨packages, hpackages, h⟩ := Result.bind_eq_ok.mp h
  obtain rfl := Result.pure_eq_ok.mp h
  refine Result.foldlM_invariant (P := fun packages => ∀ pkg ∈ packages, ParsedPackage pkg) hpackages (by simp) ?_
  intro packages node packages' hinv hr
  unfold packageNode at hr
  split_ifs at hr
  · split at hr
    · obtain rfl := Except.ok.inj hr
      exact hinv
    · next name _ =>
      obtain ⟨_, -, hr⟩ := Result.bind_eq_ok.mp hr
      obtain ⟨_, -, hr⟩ := Result.bind_eq_ok.mp hr
      obtain ⟨_, -, hr⟩ := Result.bind_eq_ok.mp hr
      obtain ⟨versions, hversions, hr⟩ := Result.bind_eq_ok.mp hr
      obtain rfl := Result.pure_eq_ok.mp hr
      intro pkg hpkg
      rcases List.mem_append.mp hpkg with hpkg | hpkg
      · exact hinv pkg hpkg
      · rw [List.mem_singleton.mp hpkg]
        apply parsedPackage_newestFirst
        refine Result.foldlM_invariant (P := fun vs => ParsedPackage ⟨name, _, vs⟩) hversions ⟨by simp, by simp⟩ ?_
        exact fun _ _ _ => parsedPackage_versionChild
  · obtain rfl := Except.ok.inj hr
    exact hinv

/-! ### What is served -/

/-- A lookup gives a record for a coordinate. -/
inductive Served (index : Index) : EntryKey → IndexVersion → Prop where
  | qualified {«namespace» name : Str} {pkg : Package} {iv : IndexVersion}
      (h : Index.lookupQualified index «namespace» name = some pkg) (hiv : iv ∈ pkg.versions) :
      Served index ⟨«namespace», name, iv.version⟩ iv
  | bare {name : Str} {pkg : Package} {iv : IndexVersion} (h : Index.lookupBare index name = .found pkg)
      (hiv : iv ∈ pkg.versions) : Served index ⟨pkg.namespace, name, iv.version⟩ iv
  | resolvedQualified {«namespace» name : Str} {vs : VersionSet} {constraintDesc : Option Str} {ivs : List IndexVersion}
      {iv : IndexVersion} (h : Index.resolveNamedAllQualified index «namespace» name vs constraintDesc = .ok ivs)
      (hiv : iv ∈ ivs) : Served index ⟨«namespace», name, iv.version⟩ iv
  | resolved {name : Str} {vs : VersionSet} {constraintDesc : Option Str} {ivs : List IndexVersion} {iv : IndexVersion}
      (h : Index.resolveNamedAll index name vs constraintDesc = .ok ivs) (hiv : iv ∈ ivs) :
      Served index ⟨iv.namespace, name, iv.version⟩ iv

theorem Served.exists_qualified {index : Index} (hparsed : ∀ pkg ∈ index.packages, ParsedPackage pkg) {key : EntryKey}
    {iv : IndexVersion} (h : Served index key iv) :
    ∃ pkg, Index.lookupQualified index key.namespace key.name = some pkg ∧ iv ∈ pkg.versions ∧ iv.version = key.version := by
  cases h with
  | qualified h hiv => exact ⟨_, h, hiv, rfl⟩
  | bare h hiv => exact ⟨_, lookupQualified_of_lookupBare h, hiv, rfl⟩
  | resolvedQualified h hiv =>
    unfold Index.resolveNamedAllQualified at h
    dsimp only at h
    split at h
    · simp at h
    · next pkg hpkg => exact ⟨pkg, hpkg, List.mem_of_mem_filter ((resolveIn_eq_ok h).2 ▸ hiv), rfl⟩
  | resolved h hiv =>
    unfold Index.resolveNamedAll at h
    split at h
    · simp at h
    · simp at h
    · next pkg hpkg =>
      have hlookup := lookupQualified_of_lookupBare hpkg
      have hmem : iv ∈ pkg.versions := List.mem_of_mem_filter ((resolveIn_eq_ok h).2 ▸ hiv)
      have hnamespace := (hparsed pkg (lookupQualified_eq_some hlookup).1).namespaces _ hmem
      exact ⟨pkg, hnamespace ▸ hlookup, hmem, rfl⟩

/-! ### Faithfulness -/

/-- The nanoseconds of a time since the epoch. -/
def exactNanos (ts : Timestamp) : ℤ := ts.unixSeconds * 1000000000 + ts.nanos

/-- The state says of each coordinate what is served for it, no more, and of the root what the document says. -/
structure Faithful (doc : List KdlNode) (index : Index) (s : IndexState) : Prop where
  served : ∀ key iv, Served index key iv → ∃ e, s.get? key = some e ∧ Describes e iv exactNanos
  onlyServed : ∀ key e, key ≠ .root → s.get? key = some e → ∃ iv, Served index key iv
  root : ∃ e, s.get? .root = some e ∧ DescribesRoot e (rootInteger doc "schema_version")
    ((nodeNamed doc "attestation-epoch").bind firstArgStr) ((nodeNamed doc "attestation-epoch-commitment").bind firstArgStr)

/-- A candidate that passes the check serves nothing that does not dominate the baseline. -/
def ServesDominating (index : Index) (s : IndexState) : Prop :=
  ∀ baseline, WellFormed baseline → (check baseline s).advanced = true →
    ∀ key iv, Served index key iv → ∀ e, baseline.get? key = some e →
      ∃ e', Describes e' iv exactNanos ∧ EntryDominates e e'

/-- The last record of a version says what the one that is served says. -/
structure SameRecord (last iv : IndexVersion) : Prop where
  contentHash : last.contentHash = iv.contentHash
  /-- The time of publication that is encoded, cut off where it does not fit into an `i64`, is the one that is served. -/
  publishedAt : last.publishedAt.map encodeTimestamp = iv.publishedAt.map exactNanos
  depDecl : last.depDecl = iv.depDecl
  depDeclSchemaVersion : last.depDeclSchemaVersion = iv.depDeclSchemaVersion
  provenances : last.provenances = iv.provenances
  yanked : last.yanked = iv.yanked
  attestation : last.attestation = iv.attestation

/-- An index whose state can say what it serves. -/
structure Extractable (doc : List KdlNode) (index : Index) : Prop where
  /-- Of the packages with one coordinate the first has every version, and it says of it what the last one says. -/
  sameRecord : ∀ pkg ∈ index.packages, ∀ iv ∈ pkg.versions, ∃ first, ∃ iv' ∈ first.versions, ∃ last,
    Index.lookupQualified index pkg.namespace pkg.name = some first ∧ iv'.version = iv.version ∧
      lastVersion index ⟨pkg.namespace, pkg.name, iv.version⟩ = some last ∧ SameRecord last iv'
  /-- No version has the key of the root. -/
  named : ∀ pkg ∈ index.packages, ∀ iv ∈ pkg.versions, (⟨pkg.namespace, pkg.name, iv.version⟩ : EntryKey) ≠ .root
  /-- The version of the schema, which the parser bounds from above only, fits into an `i64`. -/
  schemaVersion : ∀ n ∈ rootInteger doc "schema_version", -2 ^ 63 ≤ n

theorem Describes.sameRecord {e : RatchetEntry} {last iv : IndexVersion} (h : Describes e last encodeTimestamp)
    (h' : Describes e iv exactNanos) : SameRecord last iv where
  contentHash := by
    have := h.contentHash.symm.trans h'.contentHash
    grind
  publishedAt := by
    have := h.publishedAt.symm.trans h'.publishedAt
    have hinj : Function.Injective FieldValue.int := fun _ _ h => FieldValue.int.inj h
    apply Option.map_injective hinj
    rw [Option.map_map, Option.map_map]
    exact this
  depDecl := Option.map_injective (fun _ _ h => FieldValue.str.inj h) (h.depDecl.symm.trans h'.depDecl)
  depDeclSchemaVersion :=
    Option.map_injective (fun _ _ h => FieldValue.int.inj h) (h.depDeclSchemaVersion.symm.trans h'.depDeclSchemaVersion)
  provenances := h.provenances.symm.trans h'.provenances
  yanked := by
    have := h.yanked.symm.trans h'.yanked
    simpa using this
  attestation := by
    have hatt := h.attestation.symm.trans h'.attestation
    have hrekor := Option.map_injective (fun _ _ h => FieldValue.rekor.inj h) (h.rekor.symm.trans h'.rekor)
    obtain ⟨_, _, _, _, _, a, _, _, _, _, _, _⟩ := last
    obtain ⟨_, _, _, _, _, b, _, _, _, _, _, _⟩ := iv
    cases a with
    | none =>
      cases b with
      | none => rfl
      | some b => simp at hatt
    | some a =>
      cases b with
      | none => simp at hatt
      | some b =>
        obtain ⟨ka, ra, pa⟩ := a
        obtain ⟨kb, rb, pb⟩ := b
        have hne : authorSigned ≠ milpaVendored := by decide
        cases ka <;> cases kb <;> simp_all [encodeAttestation]

theorem SameRecord.describes {e : RatchetEntry} {last iv : IndexVersion} (hsame : SameRecord last iv)
    (h : Describes e last encodeTimestamp) : Describes e iv exactNanos where
  contentHash := hsame.contentHash ▸ h.contentHash
  publishedAt := by
    have := congrArg (Option.map FieldValue.int) hsame.publishedAt
    rw [Option.map_map, Option.map_map] at this
    exact h.publishedAt.trans this
  depDecl := hsame.depDecl ▸ h.depDecl
  depDeclSchemaVersion := hsame.depDeclSchemaVersion ▸ h.depDeclSchemaVersion
  provenances := hsame.provenances ▸ h.provenances
  yanked := hsame.yanked ▸ h.yanked
  attestation := hsame.attestation ▸ h.attestation
  rekor := hsame.attestation ▸ h.rekor

theorem exists_lastVersion {index : Index} {pkg : Package} (hparsed : ParsedPackage pkg) (hpkg : pkg ∈ index.packages)
    {iv : IndexVersion} (hiv : iv ∈ pkg.versions) :
    ∃ last, lastVersion index ⟨pkg.namespace, pkg.name, iv.version⟩ = some last := by
  have hmem : ((⟨pkg.namespace, pkg.name, iv.version⟩ : EntryKey), iv) ∈ keyedVersions index := by
    refine List.mem_flatMap.mpr ⟨pkg, hpkg, List.mem_map.mpr ⟨iv, hiv, ?_⟩⟩
    rw [versionKey, hparsed.namespaces iv hiv]
  have hsome : ((keyedVersions index).reverse.find? fun e =>
      decide (e.1 = (⟨pkg.namespace, pkg.name, iv.version⟩ : EntryKey))).isSome = true :=
    List.find?_isSome.mpr ⟨_, List.mem_reverse.mpr hmem, by simp⟩
  obtain ⟨e, he⟩ := Option.isSome_iff_exists.mp hsome
  exact ⟨e.2, by rw [lastVersion, he]; rfl⟩

theorem lastVersion_eq_some {index : Index} {key : EntryKey} {last : IndexVersion} (h : lastVersion index key = some last) :
    ∃ pkg ∈ index.packages, last ∈ pkg.versions ∧ versionKey pkg last = key := by
  obtain ⟨e, he, rfl⟩ := Option.map_eq_some_iff.mp h
  obtain ⟨pkg, hpkg, hmem⟩ := List.mem_flatMap.mp (List.mem_reverse.mp (List.mem_of_find?_eq_some he))
  obtain ⟨iv, hiv, rfl⟩ := List.mem_map.mp hmem
  have hkey := List.find?_some he
  exact ⟨pkg, hpkg, hiv, of_decide_eq_true hkey⟩

section

variable {kdlParse : Str → Except Str (List KdlNode)} {text : Str} {doc : List KdlNode} {index : Index} {s : IndexState}

theorem buildIndexState_eq_ok (hdoc : kdlParse text = .ok doc) (h : buildIndexState kdlParse text = .ok (index, s)) :
    (∀ pkg ∈ index.packages, ParsedPackage pkg) ∧ (∀ n ∈ rootInteger doc "schema_version", n ≤ 1) ∧
      s = indexStateFrom ((rootInteger doc "schema_version").bind toI64)
        ((nodeNamed doc "attestation-epoch").bind firstArgStr)
        ((nodeNamed doc "attestation-epoch-commitment").bind firstArgStr) index := by
  have hdocOf : docOf kdlParse text = .ok doc := by rw [docOf, hdoc]
  obtain ⟨index', hparse, h⟩ := Result.bind_eq_ok.mp h
  obtain ⟨schemaVersion, hschema, h⟩ := Result.bind_eq_ok.mp h
  obtain ⟨epoch, hepoch, h⟩ := Result.bind_eq_ok.mp h
  obtain ⟨commitment, hcommitment, h⟩ := Result.bind_eq_ok.mp h
  obtain ⟨rfl, rfl⟩ := Prod.mk.inj (Result.pure_eq_ok.mp h)
  have hindex : indexOf doc = .ok index := by
    unfold Index.parse at hparse
    split_ifs at hparse
    rwa [hdoc] at hparse
  have hstring {field : Str} {value : Option Str} (h : rawRootString kdlParse text field = .ok value) :
      value = (nodeNamed doc field).bind firstArgStr := by
    rw [rawRootString, hdocOf, Result.ok_bind] at h
    obtain ⟨_, -, h⟩ := Result.bind_eq_ok.mp h
    exact Result.pure_eq_ok.mp h
  refine ⟨parsedPackage_of_indexOf hindex, ?_, ?_⟩
  · intro n hn
    obtain ⟨_, hcheck, -⟩ := Result.bind_eq_ok.mp hindex
    rw [checkSchemaVersion, Option.mem_def.mp hn] at hcheck
    by_contra hlt
    simp [show 1 < n by omega] at hcheck
  · rw [rawSchemaVersion, hdocOf, Result.ok_bind] at hschema
    rw [Result.pure_eq_ok.mp hschema, hstring hepoch, hstring hcommitment]

/-- The entry at the root is that of the fields at the root, where no version has its key. -/
theorem describesRoot_iff (hparsed : ∀ pkg ∈ index.packages, ParsedPackage pkg)
    (hle : ∀ n ∈ rootInteger doc "schema_version", n ≤ 1) (epoch commitment : Option Str) :
    (∃ e, (indexStateFrom ((rootInteger doc "schema_version").bind toI64) epoch commitment index).get? .root = some e ∧
        DescribesRoot e (rootInteger doc "schema_version") epoch commitment) ↔
      (∀ pkg ∈ index.packages, ∀ iv ∈ pkg.versions, (⟨pkg.namespace, pkg.name, iv.version⟩ : EntryKey) ≠ .root) ∧
        ∀ n ∈ rootInteger doc "schema_version", -2 ^ 63 ≤ n := by
  rw [get?_indexStateFrom, if_pos rfl]
  constructor
  · rintro ⟨e, he, hroot⟩
    have hnone : lastVersion index .root = none := by
      cases hlast : lastVersion index .root with
      | none => rfl
      | some last =>
        rw [hlast] at he
        obtain rfl := Option.some.inj he
        have := hroot.others "yanked" (by decide) (by decide) (by decide)
        rw [(describes_versionEntry last).yanked] at this
        simp at this
    refine ⟨?_, ?_⟩
    · intro pkg hpkg iv hiv hkey
      obtain ⟨last, hlast⟩ := exists_lastVersion (hparsed pkg hpkg) hpkg hiv
      rw [hkey, hnone] at hlast
      simp at hlast
    · intro n hn
      rw [hnone] at he
      obtain rfl := Option.some.inj he
      have hvalue := hroot.schemaVersion.symm.trans (describesRoot_rootFields _ epoch commitment).schemaVersion
      rw [Option.mem_def.mp hn, Option.bind_some] at hvalue
      have hfits : -9223372036854775808 ≤ n ∧ n < 9223372036854775808 := by simpa [toI64] using hvalue
      omega
  · rintro ⟨hnamed, hge⟩
    have hnone : lastVersion index .root = none := by
      by_contra hsome
      obtain ⟨last, hlast⟩ := Option.ne_none_iff_exists'.mp hsome
      obtain ⟨pkg, hpkg, hiv, hkey⟩ := lastVersion_eq_some hlast
      refine hnamed pkg hpkg last hiv ?_
      rw [← hkey, versionKey, (hparsed pkg hpkg).namespaces last hiv]
    have hfits : (rootInteger doc "schema_version").bind toI64 = rootInteger doc "schema_version" := by
      cases hn : rootInteger doc "schema_version" with
      | none => rfl
      | some n =>
        have h1 := hle n hn
        have h2 := hge n hn
        rw [Option.bind_some, toI64, if_pos ⟨h2, by omega⟩]
    refine ⟨_, by rw [hnone]; rfl, ?_⟩
    rw [hfits]
    exact describesRoot_rootFields _ _ _

/-- **The state says what is served just where the index is extractable**, and then the gate lets nothing be served that
does not dominate the baseline. -/
theorem buildIndexState_faithful_iff (hdoc : kdlParse text = .ok doc) (h : buildIndexState kdlParse text = .ok (index, s)) :
    Faithful doc index s ∧ ServesDominating index s ↔ Extractable doc index := by
  obtain ⟨hparsed, hle, hs⟩ := buildIndexState_eq_ok hdoc h
  have hget (key : EntryKey) (hne : key ≠ .root) : s.get? key = (lastVersion index key).map versionEntry := by
    rw [hs, get?_indexStateFrom, if_neg hne, Option.or_none]
  have hroot := describesRoot_iff hparsed hle ((nodeNamed doc "attestation-epoch").bind firstArgStr)
    ((nodeNamed doc "attestation-epoch-commitment").bind firstArgStr)
  rw [← hs] at hroot
  constructor
  · rintro ⟨hfaithful, -⟩
    obtain ⟨hnamed, hge⟩ := hroot.mp hfaithful.root
    refine ⟨?_, hnamed, hge⟩
    intro pkg hpkg iv hiv
    obtain ⟨last, hlast⟩ := exists_lastVersion (hparsed pkg hpkg) hpkg hiv
    have he := hget _ (hnamed pkg hpkg iv hiv)
    rw [hlast] at he
    obtain ⟨iv', hserved⟩ := hfaithful.onlyServed _ _ (hnamed pkg hpkg iv hiv) he
    obtain ⟨first, hfirst, hiv', hversion⟩ := hserved.exists_qualified hparsed
    obtain ⟨e, he', hdescribes⟩ := hfaithful.served _ _ hserved
    obtain rfl := Option.some.inj (he.symm.trans he')
    exact ⟨first, iv', hiv', last, hfirst, hversion, hlast, (describes_versionEntry last).sameRecord hdescribes⟩
  · intro hex
    have hserved : ∀ key iv, Served index key iv → ∃ e, s.get? key = some e ∧ Describes e iv exactNanos := by
      intro key iv hserved
      obtain ⟨pkg, hlookup, hiv, hversion⟩ := hserved.exists_qualified hparsed
      obtain ⟨hpkg, hname, hnamespace⟩ := lookupQualified_eq_some hlookup
      obtain ⟨first, iv', hiv', last, hfirst, hversion', hlast, hsame⟩ := hex.sameRecord pkg hpkg iv hiv
      have hkey : (⟨pkg.namespace, pkg.name, iv.version⟩ : EntryKey) = key := by rw [hname, hnamespace, hversion]
      obtain rfl : pkg = first := by
        rw [hname, hnamespace, hlookup] at hfirst
        exact Option.some.inj hfirst
      obtain rfl : iv' = iv := List.inj_on_of_nodup_map (hparsed pkg hpkg).nodup hiv' hiv hversion'
      refine ⟨versionEntry last, ?_, hsame.describes (describes_versionEntry last)⟩
      rw [← hkey, hget _ (hex.named pkg hpkg iv' hiv), hlast]
      rfl
    refine ⟨⟨hserved, ?_, hroot.mpr ⟨hex.named, hex.schemaVersion⟩⟩, ?_⟩
    · intro key e hne he
      rw [hget key hne] at he
      obtain ⟨last, hlast, -⟩ := Option.map_eq_some_iff.mp he
      obtain ⟨pkg, hpkg, hiv, hkey⟩ := lastVersion_eq_some hlast
      obtain ⟨first, iv', hiv', -, hfirst, hversion, -⟩ := hex.sameRecord pkg hpkg last hiv
      refine ⟨iv', ?_⟩
      rw [← hkey, versionKey, (hparsed pkg hpkg).namespaces last hiv, ← hversion]
      exact .qualified hfirst hiv'
    · intro baseline hbaseline hcheck key iv hiv e he
      obtain ⟨e', he', hdom⟩ := (check_advanced_iff hbaseline (hs ▸ wellFormed_indexStateFrom _ _ _ _)).mp hcheck key e he
      obtain ⟨e'', he'', hdescribes⟩ := hserved key iv hiv
      obtain rfl := Option.some.inj (he'.symm.trans he'')
      exact ⟨e', hdescribes, hdom⟩

end

/-- An index with one version of a package. -/
def onceText : Str :=
  "package \"a\" \x7b\nnamespace \"n\"\nversion \"1.0.0\" \x7b\ncontent_hash \"x\"\n\x7d\n\x7d\n"

/-- The package declared once more, with another content hash. -/
def twiceText : Str :=
  onceText ++ ("package \"a\" \x7b\nnamespace \"n\"\nversion \"1.0.0\" \x7b\ncontent_hash \"y\"\n\x7d\n\x7d\n" : Str)

/-- The record that is read for a content hash. -/
def hashRecord (contentHash : Str) : IndexVersion where
  version := "1.0.0"
  contentHash := contentHash
  provenances := []
  depDecl := none
  depDeclSchemaVersion := none
  attestation := none
  «namespace» := "n"
  publishedAt := none
  yanked := false
  yankedAt := none
  yankedReason := none
  publishedAtRaw := none

theorem buildIndexState_faithful_iff_once :
    ∃ doc index s, read onceText = .ok doc ∧ buildIndexState read onceText = .ok (index, s) ∧ Faithful doc index s ∧
      ServesDominating index s := by
  obtain ⟨doc, hdoc⟩ : ∃ doc, read onceText = .ok doc := Result.isOk_iff.mp (by decide)
  obtain ⟨⟨index, s⟩, hbuild⟩ : ∃ p, buildIndexState read onceText = .ok p := Result.isOk_iff.mp (by decide)
  have hindex : (buildIndexState read onceText).map Prod.fst = .ok ⟨[⟨"a", "n", [hashRecord "x"]⟩]⟩ := by decide
  rw [hbuild] at hindex
  obtain rfl := Except.ok.inj hindex
  have hschema : (read onceText).map (rootInteger · "schema_version") = .ok none := by decide
  rw [hdoc] at hschema
  refine ⟨doc, _, s, hdoc, hbuild, (buildIndexState_faithful_iff hdoc hbuild).mpr ⟨?_, by decide, ?_⟩⟩
  · intro pkg hpkg iv hiv
    obtain rfl := List.mem_singleton.mp hpkg
    obtain rfl := List.mem_singleton.mp hiv
    exact ⟨_, _, hiv, hashRecord "x", by decide, rfl, by decide, rfl, rfl, rfl, rfl, rfl, rfl, rfl⟩
  · have hnone : rootInteger doc "schema_version" = none := Except.ok.inj hschema
    rw [hnone]
    simp

theorem not_faithful_twice :
    ¬ ∀ kdlParse text doc index s, kdlParse text = .ok doc → buildIndexState kdlParse text = .ok (index, s) →
      Faithful doc index s ∧ ServesDominating index s := by
  intro hall
  obtain ⟨doc, hdoc⟩ : ∃ doc, read twiceText = .ok doc := Result.isOk_iff.mp (by decide)
  obtain ⟨⟨index, s⟩, hbuild⟩ : ∃ p, buildIndexState read twiceText = .ok p := Result.isOk_iff.mp (by decide)
  have hindex : (buildIndexState read twiceText).map Prod.fst =
      .ok ⟨[⟨"a", "n", [hashRecord "x"]⟩, ⟨"a", "n", [hashRecord "y"]⟩]⟩ := by decide
  have hstate : (buildIndexState read twiceText).map (fun p => (p.2.get? ⟨"n", "a", "1.0.0"⟩).map
      fun e => e.value "content_hash") = .ok (some (some (.str "y"))) := by decide
  rw [hbuild] at hindex hstate
  obtain rfl := Except.ok.inj hindex
  -- the first package is served, and the state has the hash of the second one
  have hserved : Served ⟨[⟨"a", "n", [hashRecord "x"]⟩, ⟨"a", "n", [hashRecord "y"]⟩]⟩ ⟨"n", "a", "1.0.0"⟩
      (hashRecord "x") := @Served.qualified _ _ _ ⟨"a", "n", [hashRecord "x"]⟩ _ (by decide) (List.mem_singleton_self _)
  obtain ⟨e, he, hdescribes⟩ := (hall read twiceText doc _ s hdoc hbuild).1.served _ _ hserved
  have hvalue : (s.get? ⟨"n", "a", "1.0.0"⟩).map (fun e => e.value "content_hash") = some (some (.str "y")) :=
    Except.ok.inj hstate
  rw [he, Option.map_some, hdescribes.contentHash] at hvalue
  exact absurd hvalue (by decide)

end Milpa.Core
