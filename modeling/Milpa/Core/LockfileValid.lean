import Milpa.Core.LockfileRead

/-!
# What a lockfile that was read has

`parse_lockfile` lets nothing through that its checks reject (`validLock_of_lockfileOf`):
each loop keeps what the checks of its rounds say.
-/

namespace Milpa.Core

open Milpa.Kdl

/-! ### Blocks -/

theorem validCond_of_predicates {name : Str} {entries : List KdlEntry} {predicates : List Predicate}
    (h : ∀ p ∈ predicates, ∃ e ∈ entries, predicateOf e = some p) (hne : predicates ≠ []) :
    ValidCond ⟨name, predicates⟩ := by
  have hpred : ∀ p ∈ predicates, SingleValued p ∧ p.name ∈ knownPredicateNames := by
    intro p hp
    obtain ⟨⟨ty, key, value⟩, -, he⟩ := h p hp
    cases key with
    | none => simp [predicateOf] at he
    | some key =>
      simp only [predicateOf] at he
      split_ifs at he with hknown
      obtain ⟨val, -, rfl⟩ := Option.map_eq_some_iff.mp he
      exact ⟨⟨val, rfl⟩, hknown⟩
  exact ⟨hne, fun p hp => (hpred p hp).1, fun p hp => (hpred p hp).2⟩

theorem validCond_of_parse {node : KdlNode} {cr : CondRequire} (h : parseCondRequire node = some cr) : ValidCond cr := by
  unfold parseCondRequire at h
  split at h
  · simp at h
  · next name hname =>
    dsimp only at h
    split_ifs at h with hchildren hne hne
    · obtain rfl := Option.some.inj h
      refine @validCond_of_predicates _ (node.children.flatMap KdlNode.entries) _ ?_ hne
      intro p hp
      obtain ⟨child, hchild, hp⟩ := List.mem_flatMap.mp hp
      split_ifs at hp
      · obtain ⟨e, he, hpe⟩ := List.mem_filterMap.mp hp
        exact ⟨e, List.mem_flatMap.mpr ⟨child, hchild, he⟩, hpe⟩
      · simp at hp
    · obtain rfl := Option.some.inj h
      exact validCond_of_predicates (fun p hp => List.mem_filterMap.mp hp) hne

theorem validAttestation_of_parse {node : KdlNode} {att : LockAttestation} (h : parseLockAttestation node = some att) :
    ValidAttestation att := by
  unfold parseLockAttestation at h
  dsimp only at h
  split at h
  · simp at h
  · split_ifs at h
    · split at h
      · next s _ =>
        split_ifs at h with hs
        obtain rfl := Option.some.inj h
        simpa [ValidAttestation] using hs
      · simp at h
    · obtain rfl := Option.some.inj h
      simp [ValidAttestation]

theorem validProvenance_of_parse {node : KdlNode} {name : Str} {p : ProvenanceRecord}
    (h : parseProvenance node name = .ok p) : ValidProvenance p := by
  obtain ⟨f, -, h⟩ := Result.bind_eq_ok.mp h
  split at h
  · exact absurd h Result.throw_ne_ok
  · obtain ⟨origin, -, h⟩ := Result.bind_eq_ok.mp h
    unfold provenanceOf at h
    dsimp only at h
    rcases Result.ok_ite h with h | h
    · obtain ⟨url, -, h⟩ := Result.bind_eq_ok.mp h
      obtain rfl := Result.pure_eq_ok.mp h
      exact sortedByKey_sortByKey Prod.fst f.submoduleShas
    rcases Result.ok_ite h with h | h
    · obtain ⟨url, -, h⟩ := Result.bind_eq_ok.mp h
      obtain rfl := Result.pure_eq_ok.mp h
      trivial
    rcases Result.ok_ite h with h | h
    · obtain ⟨path, -, h⟩ := Result.bind_eq_ok.mp h
      obtain rfl := Result.pure_eq_ok.mp h
      trivial
    rcases Result.ok_ite h with h | h
    · obtain ⟨memberName, -, h⟩ := Result.bind_eq_ok.mp h
      obtain rfl := Result.pure_eq_ok.mp h
      trivial
    rcases Result.ok_ite h with h | h
    · obtain ⟨registry, -, h⟩ := Result.bind_eq_ok.mp h
      obtain ⟨repository, -, h⟩ := Result.bind_eq_ok.mp h
      obtain ⟨digest, -, h⟩ := Result.bind_eq_ok.mp h
      obtain rfl := Result.pure_eq_ok.mp h
      trivial
    rcases Result.ok_ite h with h | h
    · obtain ⟨rootName, -, h⟩ := Result.bind_eq_ok.mp h
      obtain rfl := Result.pure_eq_ok.mp h
      trivial
    exact absurd h Result.throw_ne_ok

theorem normalized_of_parseSourceBlock {node : KdlNode} {name : Str} {sid : SourceId}
    (h : parseSourceBlock node name = .ok sid) : ∃ raw, normalizeSource raw = .ok sid := by
  obtain ⟨fields, -, h⟩ := Result.bind_eq_ok.mp h
  split at h
  · exact absurd h Result.throw_ne_ok
  · obtain ⟨raw, -, h⟩ := Result.bind_eq_ok.mp h
    split at h
    · next sid' hsid =>
      obtain rfl := Result.pure_eq_ok.mp h
      exact ⟨raw, hsid⟩
    · exact absurd h Result.throw_ne_ok

/-! ### Dependencies -/

theorem validDep_emptyDep {name : Str} (h : validFlagName name = true) : ValidDep (emptyDep name) where
  name := h
  «namespace» := by simp [emptyDep]
  identity := by simp [emptyDep]
  srcDir := by simp [emptyDep]
  declared := by simp [emptyDep]
  aliases := by simp [emptyDep]
  sorted := by simp [emptyDep, SortedByKey]
  conds := by simp [emptyDep]
  attestation := by simp [emptyDep]
  provenances := by simp [emptyDep]
  source := by simp [emptyDep]

/-- One round of the loop of `parse_dep` keeps what it has checked. -/
theorem validDep_of_depField {d d' : LockedDep} {child : KdlNode} (hd : ValidDep d) (h : depField d child = .ok d') :
    ValidDep d' := by
  unfold depField at h
  rcases Result.ok_ite h with h | h
  · -- `namespace`
    split at h
    · next ns _ =>
      split_ifs at h with hnil hvalid
      · exact Except.ok.inj h ▸ hd
      · obtain rfl := Except.ok.inj h
        exact { hd with «namespace» := by simpa using ⟨hnil, by simpa using hvalid⟩ }
    · exact Except.ok.inj h ▸ hd
  rcases Result.ok_ite h with h | h
  · -- `identity`
    obtain ⟨val, -, h⟩ := Result.bind_eq_ok.mp h
    split at h
    · next r hr =>
      obtain rfl := Result.pure_eq_ok.mp h
      exact { hd with identity := by simpa using ⟨r.1, r.2, hr⟩ }
    · exact absurd h Result.throw_ne_ok
  rcases Result.ok_ite h with h | h
  · -- `version`
    obtain ⟨version, -, h⟩ := Result.bind_eq_ok.mp h
    obtain rfl := Result.pure_eq_ok.mp h
    exact { hd with }
  rcases Result.ok_ite h with h | h
  · -- `declared_version_source`
    obtain rfl := Except.ok.inj h
    exact { hd with declared := fun v hv => by simpa using (Option.filter_eq_some_iff.mp hv).2 }
  rcases Result.ok_ite h with h | h
  · -- `src_dir`
    obtain ⟨s, -, h⟩ := Result.bind_eq_ok.mp h
    split_ifs at h with hunsafe
    obtain rfl := Result.pure_eq_ok.mp h
    exact { hd with srcDir := hunsafe }
  rcases Result.ok_ite h with h | h
  · -- `requires`
    obtain rfl := Except.ok.inj h
    exact { hd with }
  rcases Result.ok_ite h with h | h
  · -- `aliases`
    dsimp only at h
    split at h
    · simp at h
    · next hnone =>
      obtain rfl := Except.ok.inj h
      refine { hd with aliases := fun a ha => ?_, sorted := sortedByKey_sortByKey id _ }
      simpa using List.find?_eq_none.mp hnone a (mem_sortByKey.mp ha)
  rcases Result.ok_ite h with h | h
  · -- `active_flags`
    obtain rfl := Except.ok.inj h
    exact { hd with }
  rcases Result.ok_ite h with h | h
  · -- `dep_decl`
    obtain rfl := Except.ok.inj h
    exact { hd with }
  rcases Result.ok_ite h with h | h
  · -- `cond-require`
    split at h
    · next cr hcr =>
      obtain rfl := Except.ok.inj h
      refine { hd with conds := ?_ }
      exact List.forall_mem_append.mpr ⟨hd.conds, List.forall_mem_singleton.mpr (validCond_of_parse hcr)⟩
    · exact Except.ok.inj h ▸ hd
  rcases Result.ok_ite h with h | h
  · -- `source`
    obtain ⟨sid, hsid, h⟩ := Result.bind_eq_ok.mp h
    obtain rfl := Result.pure_eq_ok.mp h
    exact { hd with source := by simpa using normalized_of_parseSourceBlock hsid }
  rcases Result.ok_ite h with h | h
  · -- `provenance`
    obtain ⟨p, hp, h⟩ := Result.bind_eq_ok.mp h
    obtain rfl := Result.pure_eq_ok.mp h
    refine { hd with provenances := ?_ }
    exact List.forall_mem_append.mpr ⟨hd.provenances, List.forall_mem_singleton.mpr (validProvenance_of_parse hp)⟩
  rcases Result.ok_ite h with h | h
  · -- `attestation`
    obtain rfl := Except.ok.inj h
    exact { hd with attestation := fun att hatt => validAttestation_of_parse hatt }
  exact Except.ok.inj h ▸ hd

theorem validFlagName_of_depName {node : KdlNode} {name : Str} (h : depName node = .ok name) :
    validFlagName name = true := by
  unfold depName at h
  split at h
  · split at h
    · split_ifs at h with hvalid
      obtain rfl := Except.ok.inj h
      simpa using hvalid
    · simp at h
  · simp at h

theorem validDep_of_parseDep {node : KdlNode} {d : LockedDep} (h : parseDep node = .ok d) : ValidDep d := by
  obtain ⟨name, hname, h⟩ := Result.bind_eq_ok.mp h
  exact Result.foldlM_invariant h (validDep_emptyDep (validFlagName_of_depName hname))
    fun _ _ _ hd hstep => validDep_of_depField hd hstep

/-! ### Lockfiles -/

/-- What the loop of `parse_lockfile` has gathered is valid. -/
structure ValidFields (f : LockFields) : Prop where
  deps : ∀ d ∈ f.deps, ValidDep d
  nanos : ∀ ts ∈ f.excludeNewer, ts.nanos < 10 ^ 9

theorem nanos_lt_of_scalarTimestamp {node : KdlNode} {field : Str} {ts : Timestamp}
    (h : scalarTimestamp node field = .ok ts) : ts.nanos < 10 ^ 9 := by
  unfold scalarTimestamp at h
  split at h
  · split at h
    · simp at h
    · split at h
      · next hparse =>
        obtain rfl := Except.ok.inj h
        exact Timestamp.nanos_lt_of_parse hparse
      · simp at h
  · simp at h

theorem validFields_of_lockField {f f' : LockFields} {node : KdlNode} (hf : ValidFields f)
    (h : lockField f node = .ok f') : ValidFields f' := by
  unfold lockField at h
  split_ifs at h with hversion hstrategy hnewer hdep
  · obtain ⟨version, -, h⟩ := Result.bind_eq_ok.mp h
    obtain rfl := Result.pure_eq_ok.mp h
    exact { hf with }
  · split at h
    · split at h
      · obtain rfl := Except.ok.inj h
        exact { hf with }
      · exact Except.ok.inj h ▸ hf
    · exact Except.ok.inj h ▸ hf
  · obtain ⟨ts, hts, h⟩ := Result.bind_eq_ok.mp h
    obtain rfl := Result.pure_eq_ok.mp h
    exact { hf with nanos := by simpa using nanos_lt_of_scalarTimestamp hts }
  · obtain ⟨d, hd, h⟩ := Result.bind_eq_ok.mp h
    obtain rfl := Result.pure_eq_ok.mp h
    refine { hf with deps := ?_ }
    exact List.forall_mem_append.mpr ⟨hf.deps, List.forall_mem_singleton.mpr (validDep_of_parseDep hd)⟩
  · exact Except.ok.inj h ▸ hf

/-- **A lockfile that was read is valid.** -/
theorem validLock_of_lockfileOf {doc : List KdlNode} {l : Lockfile} (h : lockfileOf doc = .ok l) : ValidLock l := by
  obtain ⟨f, hf, h⟩ := Result.bind_eq_ok.mp h
  have hvalid : ValidFields f := Result.foldlM_invariant hf ⟨by simp, by simp⟩
    fun _ _ _ hf hstep => validFields_of_lockField hf hstep
  split at h
  · exact absurd h Result.throw_ne_ok
  · next version _ =>
    split_ifs at h with hversion
    split at h
    · exact absurd h Result.throw_ne_ok
    · obtain rfl := Result.pure_eq_ok.mp h
      exact ⟨by simpa using hversion, hvalid.nanos, hvalid.deps⟩

theorem validLock_of_parseLockfile {kdlParse : Str → Except Str (List KdlNode)} {text : Str} {l : Lockfile}
    (h : parseLockfile kdlParse text = .ok l) : ValidLock l := by
  unfold parseLockfile at h
  split_ifs at h
  split at h
  · simp at h
  · exact validLock_of_lockfileOf h

/-- What was read can be written. -/
theorem ValidLock.writable {l : Lockfile} (h : ValidLock l) : WritableLock l := fun d hd => (h.deps d hd).conds

end Milpa.Core
