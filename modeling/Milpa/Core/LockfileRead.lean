import Milpa.Core.GitUrlTwice
import Milpa.Core.LockfileDoc

/-!
# Reading the document of a lockfile

What the parts of `parse_lockfile` make of the document that a lockfile is
(`lockfileOf_lockDoc`): each block is read as what it was written for, but for the
source, which is normalized once more, and the time bound, whose text must be accepted.
`ValidLock` is what every lockfile has that was read from some text
(`validLock_of_lockfileOf`).
-/

namespace Milpa.Core

open Milpa.Kdl

/-! ### Blocks -/

/-- A source block is read as the source in it, normalized. -/
theorem parseSourceBlock_sourceNode (sid : SourceId) (name : Str) :
    parseSourceBlock (sourceNode sid) name =
      match normalizeSource sid with
      | .ok s => .ok s
      | .error e => .error (.sourceId e) := by
  cases sid with
  | member memberName => rfl
  | fetchable origin =>
    cases origin with
    | git url gitRef subpath => cases gitRef <;> cases subpath <;> rfl
    | oci registry repository digest subpath => cases digest <;> cases subpath <;> rfl
    | tarball url subpath => cases subpath <;> rfl
    | «local» path => rfl
    | registry registry ns name => cases ns <;> rfl

theorem foldlM_submodules (name : Str) (fields subs rest : List (Str × Str)) :
    (rest.map submoduleNode).foldlM (provenanceField name) ⟨fields, subs⟩ = .ok ⟨fields, subs ++ rest⟩ := by
  induction rest generalizing subs with
  | nil =>
    rw [List.append_nil]
    rfl
  | cons sub rest ih =>
    have hstep : provenanceField name ⟨fields, subs⟩ (submoduleNode sub) = .ok ⟨fields, subs ++ [sub]⟩ := rfl
    rw [List.map_cons, List.foldlM_cons, hstep]
    exact (ih (subs ++ [sub])).trans (by rw [List.append_assoc]; rfl)

/-- A record whose submodules are in order. -/
def ValidProvenance : ProvenanceRecord → Prop
  | .git _ _ _ _ submoduleShas => SortedByKey Prod.fst submoduleShas
  | _ => True

theorem parseProvenance_provenanceNode {p : ProvenanceRecord} (h : ValidProvenance p) (name : Str) :
    parseProvenance (provenanceNode p) name = .ok p := by
  cases p with
  | git url refSpec commitSha origin subs =>
    have hfold : ∀ front : List KdlNode, ∀ fields : List (Str × Str),
        front.foldlM (provenanceField name) ⟨[], []⟩ = .ok ⟨fields, []⟩ →
        (front ++ subs.map submoduleNode).foldlM (provenanceField name) ⟨[], []⟩ = .ok ⟨fields, subs⟩ := by
      intro front fields hfront
      rw [List.foldlM_append, hfront]
      exact foldlM_submodules name fields [] subs
    have hsort : sortByKey Prod.fst subs = subs := sortByKey_eq_self h
    rw [parseProvenance, provenanceNode, KdlNode.children_mk, provenanceFieldNodes]
    cases refSpec <;> cases commitSha <;> rw [hfold _ _ rfl] <;>
      exact congrArg (fun s => Except.ok (ProvenanceRecord.git url _ _ origin s)) hsort
  | tarball url sha256 origin => cases sha256 <;> rfl
  | «local» path origin => rfl
  | member name origin => rfl
  | oci registry repository digest origin => rfl
  | root name origin => rfl

theorem predicateOf_predicateEntry {p : Predicate} (hsingle : SingleValued p) (hknown : p.name ∈ knownPredicateNames) :
    predicateOf (predicateEntry p) = some p := by
  obtain ⟨name, values, negated⟩ := p
  obtain ⟨v, rfl⟩ : ∃ v, values = [v] := hsingle
  rw [predicateOf, predicateEntry]
  dsimp only
  rw [if_pos hknown]
  cases negated <;> rfl

theorem parseCondRequire_condRequireNode {cr : CondRequire} (h : ValidCond cr) :
    parseCondRequire (condRequireNode cr) = some cr := by
  obtain ⟨name, predicates⟩ := cr
  obtain ⟨hne, hsingle, hknown⟩ := h
  match predicates, hne with
  | [p], _ =>
    have hp := predicateOf_predicateEntry (hsingle p List.mem_cons_self) (hknown p List.mem_cons_self)
    have harg : predicateOf (arg name) = none := rfl
    have hentries : [arg name, predicateEntry p].filterMap predicateOf = [p] := by
      rw [List.filterMap_cons_none harg, List.filterMap_cons_some hp, List.filterMap_nil]
    have hnode : parseCondRequire (condRequireNode ⟨name, [p]⟩) =
        if [arg name, predicateEntry p].filterMap predicateOf = [] then none
        else some ⟨name, [arg name, predicateEntry p].filterMap predicateOf⟩ := rfl
    rw [hnode, hentries, if_neg (by simp)]
  | p :: q :: ps, _ =>
    have hwhen : ∀ l : List Predicate, (∀ p ∈ l, SingleValued p) → (∀ p ∈ l, p.name ∈ knownPredicateNames) →
        (l.map fun p => KdlNode.mk "when" [predicateEntry p] []).flatMap (fun child =>
          if child.name = "when".toList then child.entries.filterMap predicateOf else []) = l := by
      intro l hs hk
      induction l with
      | nil => rfl
      | cons a l ih =>
        obtain ⟨hs1, hs2⟩ := List.forall_mem_cons.mp hs
        obtain ⟨hk1, hk2⟩ := List.forall_mem_cons.mp hk
        rw [List.map_cons, List.flatMap_cons, ih hs2 hk2]
        simp [predicateOf_predicateEntry hs1 hk1]
    have hnode : parseCondRequire (condRequireNode ⟨name, p :: q :: ps⟩) =
        let predicates := ((p :: q :: ps).map fun p => KdlNode.mk "when" [predicateEntry p] []).flatMap fun child =>
          if child.name = "when".toList then child.entries.filterMap predicateOf else []
        if predicates = [] then none else some ⟨name, predicates⟩ := rfl
    rw [hnode, hwhen _ hsingle hknown]
    exact if_neg (by simp)

/-- An attestation whose author is named. -/
def ValidAttestation (att : LockAttestation) : Prop := att.kind ≠ .authorSigned []

theorem parseLockAttestation_attestationNode {att : LockAttestation} (h : ValidAttestation att) :
    parseLockAttestation (attestationNode att) = some att := by
  obtain ⟨kind, rekor, bundlePin, ns⟩ := att
  cases kind with
  | authorSigned signer =>
    have hs : signer ≠ [] := fun hnil => h (by rw [hnil])
    have hnode : parseLockAttestation (attestationNode ⟨.authorSigned signer, rekor, bundlePin, ns⟩) =
        if signer ≠ [] then some ⟨.authorSigned signer, rekor, bundlePin, ns⟩ else none := by
      cases rekor <;> cases bundlePin <;> rfl
    rw [hnode, if_pos hs]
  | milpaVendored => cases rekor <;> cases bundlePin <;> rfl

/-! ### Fields of a dependency -/

theorem foldlM_toList {s : LockedDep} {α : Type} {f : α → KdlNode} {value : Option α}
    (put : LockedDep → Option α → LockedDep) (hnone : put s none = s) (hsome : ∀ v ∈ value, depField s (f v) = .ok (put s (some v))) :
    (value.toList.map f).foldlM depField s = .ok (put s value) := by
  cases value with
  | none =>
    rw [hnone]
    rfl
  | some v =>
    rw [Option.toList_some, List.map_singleton, List.foldlM_cons, hsome v rfl]
    rfl

theorem depField_identity (s : LockedDep) (i : Str) :
    depField s (strNode "identity" [i]) =
      match parseIdentity i with
      | .ok _ => .ok { s with identity := some i }
      | .error e => .error (.depIdentityInvalid s.name e) := rfl

theorem depField_aliases (s : LockedDep) (names : List Str) :
    depField s (strNode "aliases" names) =
      match (stringArgs (strNode "aliases" names)).find? fun a => !validFlagName a with
      | some a => .error (.depAliasInvalid a)
      | none => .ok { s with aliases := sortByKey id (stringArgs (strNode "aliases" names)) } := rfl

theorem depField_condRequireNode (s : LockedDep) (cr : CondRequire) :
    depField s (condRequireNode cr) =
      match parseCondRequire (condRequireNode cr) with
      | some cr => .ok { s with condRequires := s.condRequires ++ [cr] }
      | none => .ok s := by
  unfold condRequireNode
  split <;> rfl

theorem foldlM_conds {s : LockedDep} {crs : List CondRequire} (h : ∀ cr ∈ crs, ValidCond cr) :
    (crs.map condRequireNode).foldlM depField s = .ok { s with condRequires := s.condRequires ++ crs } := by
  induction crs generalizing s with
  | nil => simp [pure, Except.pure]
  | cons cr crs ih =>
    obtain ⟨hcr, hcrs⟩ := List.forall_mem_cons.mp h
    have hstep : depField s (condRequireNode cr) = .ok { s with condRequires := s.condRequires ++ [cr] } := by
      rw [depField_condRequireNode, parseCondRequire_condRequireNode hcr]
    rw [List.map_cons, List.foldlM_cons, hstep]
    exact (ih hcrs).trans (by simp)

theorem foldlM_provenances {s : LockedDep} {ps : List ProvenanceRecord} (h : ∀ p ∈ ps, ValidProvenance p) :
    (ps.map provenanceNode).foldlM depField s = .ok { s with provenances := s.provenances ++ ps } := by
  induction ps generalizing s with
  | nil => simp [pure, Except.pure]
  | cons p ps ih =>
    obtain ⟨hp, hps⟩ := List.forall_mem_cons.mp h
    have hstep : depField s (provenanceNode p) = .ok { s with provenances := s.provenances ++ [p] } := by
      have hdispatch : depField s (provenanceNode p) = (do
          let p ← parseProvenance (provenanceNode p) s.name
          return { s with provenances := s.provenances ++ [p] }) := rfl
      rw [hdispatch, parseProvenance_provenanceNode hp]
      rfl
    rw [List.map_cons, List.foldlM_cons, hstep]
    exact (ih hps).trans (by simp)

/-- What every dependency has that was read from a lockfile. -/
structure ValidDep (d : LockedDep) : Prop where
  name : validFlagName d.name = true
  «namespace» : ∀ ns ∈ d.namespace, ns ≠ [] ∧ validFlagName ns = true
  identity : ∀ i ∈ d.identity, ∃ r, parseIdentity i = .ok r
  srcDir : ¬ (d.srcDir ≠ [] ∧ containsUnsafeChar d.srcDir = true)
  declared : ∀ v ∈ d.declaredVersionSource, v ∈ versionSources
  aliases : ∀ a ∈ d.aliases, validFlagName a = true
  sorted : SortedByKey id d.aliases
  conds : ∀ cr ∈ d.condRequires, ValidCond cr
  attestation : ∀ att ∈ d.attestation, ValidAttestation att
  provenances : ∀ p ∈ d.provenances, ValidProvenance p
  source : ∀ sid ∈ d.sourceId, ∃ raw, normalizeSource raw = .ok sid

theorem stringArgs_strNode (name : Str) (values : List Str) : stringArgs (strNode name values) = values := by
  induction values with
  | nil => rfl
  | cons v vs ih =>
    have : stringArgs (strNode name (v :: vs)) = v :: stringArgs (strNode name vs) := rfl
    rw [this, ih]

/-- A list of strings that is left out where it is empty. -/
theorem foldlM_strings {s : LockedDep} {name : Str} {values : List Str}
    (put : LockedDep → List Str → LockedDep) (hnil : put s [] = s) (hcons : depField s (strNode name values) = .ok (put s values)) :
    (if values = [] then [] else [strNode name values]).foldlM depField s = .ok (put s values) := by
  split_ifs with h
  · rw [h, hnil]
    rfl
  · rw [List.foldlM_cons, hcons]
    rfl

/-- A part of a fold, then the rest. -/
theorem foldlM_append_trans {α β ε : Type} {f : β → α → Except ε β} {l l' : List α} {a b c : β}
    (h : l.foldlM f a = .ok b) (h' : l'.foldlM f b = .ok c) : (l ++ l').foldlM f a = .ok c :=
  (Result.foldlM_append_ok h).trans h'

/-- A dependency as it is read: its source is normalized once more. -/
def rereadDep (d : LockedDep) : LockedDep := { d with sourceId := d.sourceId.map normalForm }

/-- The children of a dependency are read as the dependency, its source normalized. -/
theorem foldlM_depFieldNodes {d : LockedDep} (h : ValidDep d) :
    (depFieldNodes d).foldlM depField (emptyDep d.name) = .ok (rereadDep d) := by
  -- The dependency after each of the fields, in the order in which they are written.
  let s₁ : LockedDep := { emptyDep d.name with «namespace» := d.namespace }
  let s₂ : LockedDep := { s₁ with sourceId := d.sourceId.map normalForm }
  let s₃ : LockedDep := { s₂ with identity := d.identity }
  let s₄ : LockedDep := { s₃ with version := d.version }
  let s₅ : LockedDep := { s₄ with declaredVersionSource := d.declaredVersionSource }
  let s₆ : LockedDep := { s₅ with srcDir := d.srcDir, requires := d.requires }
  let s₇ : LockedDep := { s₆ with condRequires := d.condRequires }
  let s₈ : LockedDep := { s₇ with aliases := d.aliases }
  let s₉ : LockedDep := { s₈ with activeFlags := d.activeFlags }
  let s₁₀ : LockedDep := { s₉ with attestation := d.attestation }
  let s₁₁ : LockedDep := { s₁₀ with depDecl := d.depDecl }
  have h₁ : (optNode "namespace" d.namespace).foldlM depField (emptyDep d.name) = .ok s₁ :=
    foldlM_toList (fun s v => { s with «namespace» := v }) rfl fun ns hns => by
      obtain ⟨hne, hvalid⟩ := h.namespace ns hns
      have hdispatch : depField (emptyDep d.name) (strNode "namespace" [ns]) =
          if ns = [] then .ok (emptyDep d.name)
          else if validFlagName ns = false then .error (.depNamespaceInvalid d.name ns)
          else .ok { emptyDep d.name with «namespace» := some ns } := rfl
      rw [hdispatch, if_neg hne, if_neg (by simp [hvalid])]
  have h₂ : (d.sourceId.toList.map sourceNode).foldlM depField s₁ = .ok s₂ :=
    foldlM_toList (fun s v => { s with sourceId := v.map normalForm }) rfl fun sid hsid => by
      obtain ⟨raw, hraw⟩ := h.source sid hsid
      have hdispatch : depField s₁ (sourceNode sid) = (do
          let sid ← parseSourceBlock (sourceNode sid) d.name
          return { s₁ with sourceId := some sid }) := rfl
      rw [hdispatch, parseSourceBlock_sourceNode, normalizeSource_of_normalized hraw]
      rfl
  have h₃ : (optNode "identity" d.identity).foldlM depField s₂ = .ok s₃ :=
    foldlM_toList (fun s v => { s with identity := v }) rfl fun i hi => by
      obtain ⟨r, hr⟩ := h.identity i hi
      rw [depField_identity, hr]
  have h₄ : [strNode "version" [d.version]].foldlM depField s₃ = .ok s₄ := rfl
  have h₅ : (optNode "declared_version_source" d.declaredVersionSource).foldlM depField s₄ = .ok s₅ :=
    foldlM_toList (fun s v => { s with declaredVersionSource := v }) rfl fun v hv => by
      have hdispatch : depField s₄ (strNode "declared_version_source" [v]) =
          .ok { s₄ with declaredVersionSource := (some v).filter fun s => decide (s ∈ versionSources) } := rfl
      rw [hdispatch, Option.filter_some, if_pos (by simpa using h.declared v hv)]
  have h₆ : [strNode "src_dir" [d.srcDir], strNode "requires" d.requires].foldlM depField s₅ = .ok s₆ := by
    have hdir : depField s₅ (strNode "src_dir" [d.srcDir]) =
        if d.srcDir ≠ [] ∧ containsUnsafeChar d.srcDir = true then .error (.srcDirUnsafe d.name)
        else .ok { s₅ with srcDir := d.srcDir } := rfl
    have hrequires : ∀ s, depField s (strNode "requires" d.requires) =
        .ok { s with requires := stringArgs (strNode "requires" d.requires) } := fun _ => rfl
    rw [List.foldlM_cons, hdir, if_neg h.srcDir, Result.ok_bind, List.foldlM_cons, hrequires, stringArgs_strNode]
    rfl
  have h₇ : (d.condRequires.map condRequireNode).foldlM depField s₆ = .ok s₇ := foldlM_conds h.conds
  have h₈ : (if d.aliases = [] then [] else [strNode "aliases" d.aliases]).foldlM depField s₇ = .ok s₈ :=
    foldlM_strings (fun s v => { s with aliases := v }) rfl (by
      have hvalid : d.aliases.find? (fun a => !validFlagName a) = none := by
        rw [List.find?_eq_none]
        intro a ha
        simp [h.aliases a ha]
      rw [depField_aliases, stringArgs_strNode, hvalid, sortByKey_eq_self h.sorted])
  have h₉ : (if d.activeFlags = [] then [] else [strNode "active_flags" d.activeFlags]).foldlM depField s₈ = .ok s₉ :=
    foldlM_strings (fun s v => { s with activeFlags := v }) rfl (by
      have hdispatch : depField s₈ (strNode "active_flags" d.activeFlags) =
          .ok { s₈ with activeFlags := stringArgs (strNode "active_flags" d.activeFlags) } := rfl
      rw [hdispatch, stringArgs_strNode])
  have h₁₀ : (d.attestation.toList.map attestationNode).foldlM depField s₉ = .ok s₁₀ :=
    foldlM_toList (fun s v => { s with attestation := v }) rfl fun att hatt => by
      have hdispatch : depField s₉ (attestationNode att) =
          .ok { s₉ with attestation := parseLockAttestation (attestationNode att) } := rfl
      rw [hdispatch, parseLockAttestation_attestationNode (h.attestation att hatt)]
  have h₁₁ : (optNode "dep_decl" d.depDecl).foldlM depField s₁₀ = .ok s₁₁ :=
    foldlM_toList (fun s v => { s with depDecl := v }) rfl fun _ _ => rfl
  have h₁₂ : (d.provenances.map provenanceNode).foldlM depField s₁₁ = .ok (rereadDep d) :=
    foldlM_provenances h.provenances
  have hfront := foldlM_append_trans (foldlM_append_trans (foldlM_append_trans (foldlM_append_trans
    (foldlM_append_trans h₁ h₂) h₃) h₄) h₅) h₆
  exact foldlM_append_trans (foldlM_append_trans (foldlM_append_trans (foldlM_append_trans (foldlM_append_trans
    (foldlM_append_trans hfront h₇) h₈) h₉) h₁₀) h₁₁) h₁₂

theorem ValidDep.sortedDep {d : LockedDep} (h : ValidDep d) : ValidDep (sortedDep d) where
  name := h.name
  «namespace» := h.namespace
  identity := h.identity
  srcDir := h.srcDir
  declared := h.declared
  aliases := fun a ha => h.aliases a (mem_sortByKey.mp ha)
  sorted := sortedByKey_sortByKey id d.aliases
  conds := fun cr hcr => h.conds cr (mem_sortByKey.mp hcr)
  attestation := h.attestation
  provenances := fun p hp => h.provenances p (mem_sortByKey.mp hp)
  source := h.source

/-- **A dependency that is written is read in its order, its source normalized.** -/
theorem parseDep_depNode {d : LockedDep} (h : ValidDep d) : parseDep (depNode d) = .ok (rereadDep (sortedDep d)) := by
  have hname : depName (depNode d) = .ok d.name := by
    have hdispatch : depName (depNode d) =
        if validFlagName d.name = false then .error (.depNameInvalid d.name) else .ok d.name := rfl
    rw [hdispatch, if_neg (by simp [h.name])]
  rw [parseDep, hname]
  exact foldlM_depFieldNodes h.sortedDep

/-! ### Lockfiles -/

/-- What every lockfile has that was read. -/
structure ValidLock (l : Lockfile) : Prop where
  version : l.version = lockfileSchemaVersion
  nanos : ∀ ts ∈ l.excludeNewer, ts.nanos < 10 ^ 9
  deps : ∀ d ∈ l.deps, ValidDep d

/-- A lockfile as it is read from what is written of it. -/
def rereadLock (l : Lockfile) : Lockfile := { l with deps := l.deps.map fun d => rereadDep (sortedDep d) }

theorem foldlM_depNodes {ds : List LockedDep} (h : ∀ d ∈ ds, ValidDep d) (f : LockFields) :
    (ds.map depNode).foldlM lockField f = .ok { f with deps := f.deps ++ ds.map fun d => rereadDep (sortedDep d) } := by
  induction ds generalizing f with
  | nil => simp [pure, Except.pure]
  | cons d ds ih =>
    obtain ⟨hd, hds⟩ := List.forall_mem_cons.mp h
    have hstep : lockField f (depNode d) = .ok { f with deps := f.deps ++ [rereadDep (sortedDep d)] } := by
      have hdispatch : lockField f (depNode d) = (do
          let d ← parseDep (depNode d)
          return { f with deps := f.deps ++ [d] }) := rfl
      rw [hdispatch, parseDep_depNode hd]
      rfl
    rw [List.map_cons, List.foldlM_cons, hstep]
    exact (ih hds _).trans (by simp)

theorem lockField_version {version : ℕ} (h : version < 2 ^ 32) (f : LockFields) :
    lockField f (.mk "version" [⟨none, none, .integer version⟩] []) = .ok { f with version := some version } := by
  have hscalar : scalarU32 (.mk "version" [⟨none, none, .integer version⟩] []) "version" =
      if 0 ≤ (version : ℤ) ∧ (version : ℤ) < 2 ^ 32 then .ok (version : ℤ).toNat
      else .error (.fieldOutOfRange "version" version) := rfl
  rw [if_pos ⟨by omega, by exact_mod_cast h⟩] at hscalar
  have hdispatch : lockField f (.mk "version" [⟨none, none, .integer version⟩] []) = (do
      let version ← scalarU32 (.mk "version" [⟨none, none, .integer version⟩] []) "version"
      return { f with version := some version }) := rfl
  rw [hdispatch, hscalar]
  rfl

theorem lockField_excludeNewer (ts : Timestamp) (f : LockFields) :
    lockField f (strNode "exclude_newer" [ts.formatIso8601Timestamp]) =
      match Timestamp.parseIso8601Timestamp ts.formatIso8601Timestamp with
      | some ts => .ok { f with excludeNewer := some ts }
      | none => .error (.fieldTimestamp "exclude_newer" ts.formatIso8601Timestamp) := by
  have hscalar : scalarTimestamp (strNode "exclude_newer" [ts.formatIso8601Timestamp]) "exclude_newer" =
      match Timestamp.parseIso8601Timestamp ts.formatIso8601Timestamp with
      | some ts => .ok ts
      | none => .error (.fieldTimestamp "exclude_newer" ts.formatIso8601Timestamp) := rfl
  have hdispatch : lockField f (strNode "exclude_newer" [ts.formatIso8601Timestamp]) = (do
      let ts ← scalarTimestamp (strNode "exclude_newer" [ts.formatIso8601Timestamp]) "exclude_newer"
      return { f with excludeNewer := some ts }) := rfl
  rw [hdispatch, hscalar]
  cases Timestamp.parseIso8601Timestamp ts.formatIso8601Timestamp <;> rfl

/-- The nodes before the dependencies are read as what they say, if the time bound is accepted. -/
theorem foldlM_headNodes {l : Lockfile} (h : ValidLock l) (hyear : ∀ ts ∈ l.excludeNewer, 0 ≤ ts.year ∧ ts.year ≤ 9999) :
    (headNodes l).foldlM lockField ⟨[], none, none, none⟩ =
      .ok ⟨[], some l.strategy, some l.version, l.excludeNewer⟩ := by
  have hversion : l.version < 2 ^ 32 := by
    rw [h.version]
    decide
  have hnewer : (l.excludeNewer.toList.map fun ts => strNode "exclude_newer" [ts.formatIso8601Timestamp]).foldlM lockField
      ⟨[], some l.strategy, some l.version, none⟩ = .ok ⟨[], some l.strategy, some l.version, l.excludeNewer⟩ := by
    cases hts : l.excludeNewer with
    | none => rfl
    | some ts =>
      have hparse := Timestamp.parse_format (hyear ts hts) (h.nanos ts hts)
      rw [Option.toList_some, List.map_singleton, List.foldlM_cons, lockField_excludeNewer, hparse]
      rfl
  rw [headNodes, List.cons_append, List.foldlM_cons, lockField_version hversion]
  exact hnewer

/-- **A lockfile that is written is read in its order, its sources normalized**, if the year of its time bound has
four digits. -/
theorem lockfileOf_lockDoc {l : Lockfile} (h : ValidLock l)
    (hyear : ∀ ts ∈ l.excludeNewer, 0 ≤ ts.year ∧ ts.year ≤ 9999) : lockfileOf (lockDoc l) = .ok (rereadLock l) := by
  have hfold := (Result.foldlM_append_ok (foldlM_headNodes h hyear)).trans (foldlM_depNodes h.deps _)
  rw [lockfileOf, lockDoc, hfold, Result.ok_bind]
  dsimp only
  rw [if_neg (by simp [h.version])]
  rfl

/-- A time bound whose year does not have four digits is written, but not read. -/
theorem lockfileOf_lockDoc_of_year {l : Lockfile} (h : ValidLock l) {ts : Timestamp} (hts : l.excludeNewer = some ts)
    (hyear : ts.year < 0 ∨ 9999 < ts.year) :
    lockfileOf (lockDoc l) = .error (.fieldTimestamp "exclude_newer" ts.formatIso8601Timestamp) := by
  have hversion : l.version < 2 ^ 32 := by
    rw [h.version]
    decide
  have hhead : (headNodes l ++ l.deps.map depNode).foldlM lockField ⟨[], none, none, none⟩ =
      .error (.fieldTimestamp "exclude_newer" ts.formatIso8601Timestamp) := by
    rw [headNodes, hts, List.append_assoc, List.cons_append, List.foldlM_cons, lockField_version hversion, Result.ok_bind]
    show (lockField ⟨[], some l.strategy, some l.version, none⟩ (strNode "exclude_newer" [ts.formatIso8601Timestamp]) >>= _) = _
    rw [lockField_excludeNewer, Timestamp.parse_format_of_year hyear]
    rfl
  rw [lockfileOf, lockDoc, hhead]
  rfl

end Milpa.Core
