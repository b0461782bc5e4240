import Milpa.Core.LockfileCodec

/-!
# The provenances that are read

What a lockfile has for provenances when it was written and is read again, whether or not
the reader takes it as it was: the records of each dependency in the order of the
formatter, their submodules in order (`provenances_of_parse`). The reader takes every
record that is written.
-/

namespace Milpa.Core

open Milpa.Kdl

/-- A record as it is read again. -/
def rereadProvenance : ProvenanceRecord → ProvenanceRecord
  | .git url refSpec commitSha origin submoduleShas => .git url refSpec commitSha origin (sortByKey Prod.fst submoduleShas)
  | p => p

/-- A record is read, whatever it says. -/
theorem parseProvenance_written (p : ProvenanceRecord) (name : Str) :
    parseProvenance (provenanceNode p) name = .ok (rereadProvenance p) := by
  cases p with
  | git url refSpec commitSha origin subs =>
    have hfold : ∀ front : List KdlNode, ∀ fields : List (Str × Str),
        front.foldlM (provenanceField name) ⟨[], []⟩ = .ok ⟨fields, []⟩ →
        (front ++ subs.map submoduleNode).foldlM (provenanceField name) ⟨[], []⟩ = .ok ⟨fields, subs⟩ := by
      intro front fields hfront
      rw [List.foldlM_append, hfront]
      exact foldlM_submodules name fields [] subs
    rw [parseProvenance, provenanceNode, KdlNode.children_mk, provenanceFieldNodes]
    cases refSpec <;> cases commitSha <;> rw [hfold _ _ rfl] <;> rfl
  | tarball url sha256 origin => cases sha256 <;> rfl
  | «local» path origin => rfl
  | member name origin => rfl
  | oci registry repository digest origin => rfl
  | root name origin => rfl

/-! ### A dependency -/

/-- A field of a dependency other than a record leaves its name and its records alone. -/
theorem depField_frame {d d' : LockedDep} {child : KdlNode} (hname : child.name ≠ "provenance".toList)
    (h : depField d child = .ok d') : d'.name = d.name ∧ d'.provenances = d.provenances := by
  unfold depField at h
  rcases Result.ok_ite h with h | h
  · -- `namespace`
    split at h
    · split_ifs at h <;> obtain rfl := Except.ok.inj h <;> exact ⟨rfl, rfl⟩
    · exact Except.ok.inj h ▸ ⟨rfl, rfl⟩
  rcases Result.ok_ite h with h | h
  · -- `identity`
    obtain ⟨val, -, h⟩ := Result.bind_eq_ok.mp h
    split at h
    · obtain rfl := Result.pure_eq_ok.mp h
      exact ⟨rfl, rfl⟩
    · exact absurd h Result.throw_ne_ok
  rcases Result.ok_ite h with h | h
  · -- `version`
    obtain ⟨version, -, h⟩ := Result.bind_eq_ok.mp h
    obtain rfl := Result.pure_eq_ok.mp h
    exact ⟨rfl, rfl⟩
  rcases Result.ok_ite h with h | h
  · -- `declared_version_source`
    exact Except.ok.inj h ▸ ⟨rfl, rfl⟩
  rcases Result.ok_ite h with h | h
  · -- `src_dir`
    obtain ⟨s, -, h⟩ := Result.bind_eq_ok.mp h
    split_ifs at h
    obtain rfl := Result.pure_eq_ok.mp h
    exact ⟨rfl, rfl⟩
  rcases Result.ok_ite h with h | h
  · -- `requires`
    exact Except.ok.inj h ▸ ⟨rfl, rfl⟩
  rcases Result.ok_ite h with h | h
  · -- `aliases`
    dsimp only at h
    split at h
    · cases h
    · exact Except.ok.inj h ▸ ⟨rfl, rfl⟩
  rcases Result.ok_ite h with h | h
  · -- `active_flags`
    exact Except.ok.inj h ▸ ⟨rfl, rfl⟩
  rcases Result.ok_ite h with h | h
  · -- `dep_decl`
    exact Except.ok.inj h ▸ ⟨rfl, rfl⟩
  rcases Result.ok_ite h with h | h
  · -- `cond-require`
    split at h <;> exact Except.ok.inj h ▸ ⟨rfl, rfl⟩
  rcases Result.ok_ite h with h | h
  · -- `source`
    obtain ⟨sid, -, h⟩ := Result.bind_eq_ok.mp h
    obtain rfl := Result.pure_eq_ok.mp h
    exact ⟨rfl, rfl⟩
  rw [if_neg hname] at h
  rcases Result.ok_ite h with h | h
  · -- `attestation`
    exact Except.ok.inj h ▸ ⟨rfl, rfl⟩
  exact Except.ok.inj h ▸ ⟨rfl, rfl⟩

theorem foldlM_provenanceNodes (s : LockedDep) (ps : List ProvenanceRecord) :
    (ps.map provenanceNode).foldlM depField s = .ok { s with provenances := s.provenances ++ ps.map rereadProvenance } := by
  induction ps generalizing s with
  | nil => simp [pure, Except.pure]
  | cons p ps ih =>
    have hstep : depField s (provenanceNode p) = .ok { s with provenances := s.provenances ++ [rereadProvenance p] } := by
      have hdispatch : depField s (provenanceNode p) = (do
          let p ← parseProvenance (provenanceNode p) s.name
          return { s with provenances := s.provenances ++ [p] }) := rfl
      rw [hdispatch, parseProvenance_written]
      rfl
    rw [List.map_cons, List.foldlM_cons, hstep]
    exact (ih _).trans (by simp)

/-- The children of a dependency before its records. -/
def frontNodes (d : LockedDep) : List KdlNode :=
  optNode "namespace" d.namespace ++ d.sourceId.toList.map sourceNode ++ optNode "identity" d.identity ++
    [strNode "version" [d.version]] ++ optNode "declared_version_source" d.declaredVersionSource ++
    [strNode "src_dir" [d.srcDir], strNode "requires" d.requires] ++ d.condRequires.map condRequireNode ++
    (if d.aliases = [] then [] else [strNode "aliases" d.aliases]) ++
    (if d.activeFlags = [] then [] else [strNode "active_flags" d.activeFlags]) ++
    d.attestation.toList.map attestationNode ++ optNode "dep_decl" d.depDecl

theorem depFieldNodes_eq (d : LockedDep) : depFieldNodes d = frontNodes d ++ d.provenances.map provenanceNode := rfl

theorem name_of_mem_optNode {name : Str} {value : Option Str} {n : KdlNode} (h : n ∈ optNode name value) : n.name = name := by
  obtain ⟨v, -, rfl⟩ := List.mem_map.mp h
  rfl

theorem name_ne_of_mem_frontNodes {d : LockedDep} {n : KdlNode} (h : n ∈ frontNodes d) : n.name ≠ "provenance".toList := by
  have hstr : ∀ {name : Str} {values : List Str} {n : KdlNode}, n = strNode name values → n.name = name := fun h => h ▸ rfl
  simp only [frontNodes, List.mem_append, List.mem_cons, List.mem_map, List.not_mem_nil, or_false] at h
  rcases h with (((((((((h | ⟨sid, -, rfl⟩) | h) | h) | h) | h | h) | ⟨cr, -, rfl⟩) | h) | h) | ⟨att, -, rfl⟩) | h
  · rw [name_of_mem_optNode h]; decide
  · exact (by decide : "source".toList ≠ "provenance".toList)
  · rw [name_of_mem_optNode h]; decide
  · rw [hstr h]; decide
  · rw [name_of_mem_optNode h]; decide
  · rw [hstr h]; decide
  · rw [hstr h]; decide
  · unfold condRequireNode
    split <;> exact (by decide : "cond-require".toList ≠ "provenance".toList)
  · split_ifs at h
    · cases h
    · rw [hstr (List.mem_singleton.mp h)]; decide
  · split_ifs at h
    · cases h
    · rw [hstr (List.mem_singleton.mp h)]; decide
  · exact (by decide : "attestation".toList ≠ "provenance".toList)
  · rw [name_of_mem_optNode h]; decide

/-- **A dependency that is read has its name and its records**, in the order of the formatter. -/
theorem provenances_of_parseDep {d d' : LockedDep} (h : parseDep (depNode d) = .ok d') :
    d'.name = d.name ∧ d'.provenances = (sortByKey provenanceSortKey d.provenances).map rereadProvenance := by
  obtain ⟨name, hname, h⟩ := Result.bind_eq_ok.mp h
  have hdispatch : depName (depNode d) =
      if validFlagName d.name = false then .error (.depNameInvalid d.name) else .ok d.name := rfl
  rw [hdispatch] at hname
  split_ifs at hname
  obtain rfl := Except.ok.inj hname
  have hchildren : (depNode d).children = frontNodes (sortedDep d) ++ (sortedDep d).provenances.map provenanceNode := rfl
  rw [hchildren, List.foldlM_append] at h
  obtain ⟨front, hfront, h⟩ := Result.bind_eq_ok.mp h
  rw [foldlM_provenanceNodes] at h
  obtain rfl := Except.ok.inj h
  have hframe : front.name = d.name ∧ front.provenances = [] :=
    Result.foldlM_invariant_of_mem (P := fun s : LockedDep => s.name = d.name ∧ s.provenances = []) hfront ⟨rfl, rfl⟩
      fun s child s' hchild hs hstep => by
        obtain ⟨hname, hprovs⟩ := depField_frame (name_ne_of_mem_frontNodes hchild) hstep
        exact ⟨hname.trans hs.1, hprovs.trans hs.2⟩
  refine ⟨hframe.1, ?_⟩
  show front.provenances ++ _ = _
  rw [hframe.2, List.nil_append]
  rfl

/-! ### A lockfile -/

theorem lockField_frame {f f' : LockFields} {node : KdlNode} (hname : node.name ≠ "dep".toList) (h : lockField f node = .ok f') :
    f'.deps = f.deps := by
  unfold lockField at h
  rcases Result.ok_ite h with h | h
  · obtain ⟨version, -, h⟩ := Result.bind_eq_ok.mp h
    exact Result.pure_eq_ok.mp h ▸ rfl
  rcases Result.ok_ite h with h | h
  · split at h
    · split at h <;> exact Except.ok.inj h ▸ rfl
    · exact Except.ok.inj h ▸ rfl
  rcases Result.ok_ite h with h | h
  · obtain ⟨ts, -, h⟩ := Result.bind_eq_ok.mp h
    exact Result.pure_eq_ok.mp h ▸ rfl
  rw [if_neg hname] at h
  exact Except.ok.inj h ▸ rfl

/-- The names of the dependencies, with their records. -/
def recordsOf (deps : List LockedDep) : List (Str × List ProvenanceRecord) := deps.map fun d => (d.name, d.provenances)

/-- The same, as the reader has it of what is written. -/
def rereadRecords (deps : List LockedDep) : List (Str × List ProvenanceRecord) :=
  deps.map fun d => (d.name, (sortByKey provenanceSortKey d.provenances).map rereadProvenance)

theorem records_of_foldlM {ds : List LockedDep} {f f' : LockFields} (h : (ds.map depNode).foldlM lockField f = .ok f') :
    recordsOf f'.deps = recordsOf f.deps ++ rereadRecords ds := by
  induction ds generalizing f with
  | nil =>
    obtain rfl := Except.ok.inj h
    simp [rereadRecords]
  | cons d ds ih =>
    rw [List.map_cons, List.foldlM_cons] at h
    obtain ⟨f₁, hstep, h⟩ := Result.bind_eq_ok.mp h
    have hdispatch : lockField f (depNode d) = (do
        let d ← parseDep (depNode d)
        return { f with deps := f.deps ++ [d] }) := rfl
    rw [hdispatch] at hstep
    obtain ⟨d', hd', hstep⟩ := Result.bind_eq_ok.mp hstep
    obtain rfl := Result.pure_eq_ok.mp hstep
    obtain ⟨hname, hprovs⟩ := provenances_of_parseDep hd'
    rw [ih h]
    simp [recordsOf, rereadRecords, hname, hprovs]

theorem records_of_lockfileOf {l l' : Lockfile} (h : lockfileOf (lockDoc l) = .ok l') :
    recordsOf l'.deps = rereadRecords l.deps := by
  obtain ⟨f, hf, h⟩ := Result.bind_eq_ok.mp h
  rw [lockDoc, List.foldlM_append] at hf
  obtain ⟨head, hhead, hf⟩ := Result.bind_eq_ok.mp hf
  have hnames : ∀ n ∈ headNodes l, n.name ≠ "dep".toList := by
    intro n hn
    simp only [headNodes, List.mem_append, List.mem_cons, List.mem_map, List.not_mem_nil, or_false] at hn
    rcases hn with (rfl | rfl) | ⟨ts, -, rfl⟩
    · exact (by decide : "version".toList ≠ "dep".toList)
    · exact (by decide : "strategy".toList ≠ "dep".toList)
    · exact (by decide : "exclude_newer".toList ≠ "dep".toList)
  have hempty : head.deps = [] :=
    Result.foldlM_invariant_of_mem (P := fun f : LockFields => f.deps = []) hhead rfl
      fun f n f' hn hf hstep => (lockField_frame (hnames n hn) hstep).trans hf
  have hdeps := records_of_foldlM hf
  rw [hempty] at hdeps
  split at h
  · cases h
  · split_ifs at h
    split at h
    · cases h
    · obtain rfl := Result.pure_eq_ok.mp h
      exact hdeps

/-- A lockfile that was written is read from the nodes that it was written as. -/
theorem lockfileOf_of_parse {kdlParse : Str → Except Str (List KdlNode)} (hk : Conforms kdlParse) {l l' : Lockfile} {text : Str}
    (hwritable : WritableLock l) (htext : formatLockfile l = some text) (hparse : parseLockfile kdlParse text = .ok l') :
    lockfileOf (lockDoc l) = .ok l' := by
  obtain ⟨lines, hlines, hlaid⟩ := formatLines_laidOut hwritable
  have hjoin : joinLines lines = text := by
    rw [formatLockfile, hlines] at htext
    exact Option.some.inj htext
  have hdoc := hk.parse_laidOut hlaid
  rw [hjoin] at hdoc
  unfold parseLockfile at hparse
  split_ifs at hparse
  cases hp : kdlParse text with
  | error e =>
    rw [hp] at hparse
    cases hparse
  | ok doc =>
    rw [hp] at hparse hdoc
    have hlegible : ∀ s ∈ nodesStrings (lockDoc l), Legible s := by
      by_contra hne
      push Not at hne
      obtain ⟨s, hs, hillegible⟩ := hne
      have hnone : decodeBody (escape s) = none := by rw [decodeBody_escape, if_neg hillegible]
      rw [decodeNodes_mapStrs_eq_none _ hs hnone] at hdoc
      cases hdoc
    have hdecode : decodeNodes (mapStrs escape (lockDoc l)) = some (lockDoc l) :=
      decodeNodes_mapStrs _ fun s hs => by rw [decodeBody_escape, if_pos (hlegible s hs)]
    rw [hdecode] at hdoc
    obtain rfl : doc = lockDoc l := Option.some.inj hdoc
    exact hparse

/-- **What is read of a lockfile that was written has the records of its dependencies**, in the order of the formatter. -/
theorem provenances_of_parse {kdlParse : Str → Except Str (List KdlNode)} (hk : Conforms kdlParse) {l l' : Lockfile} {text : Str}
    (hwritable : WritableLock l) (htext : formatLockfile l = some text) (hparse : parseLockfile kdlParse text = .ok l') :
    recordsOf l'.deps = rereadRecords l.deps :=
  records_of_lockfileOf (lockfileOf_of_parse hk hwritable htext hparse)

/-! ### Names -/

/-- Each round of a fold that goes through goes through. -/
theorem exists_step_of_foldlM {α β ε : Type} {f : β → α → Except ε β} {l : List α} {b r : β} (h : l.foldlM f b = .ok r) {a : α}
    (ha : a ∈ l) : ∃ s s', f s a = .ok s' := by
  induction l generalizing b with
  | nil => cases ha
  | cons first rest ih =>
    rw [List.foldlM_cons] at h
    obtain ⟨s, hs, h⟩ := Result.bind_eq_ok.mp h
    rcases List.mem_cons.mp ha with rfl | ha
    · exact ⟨b, s, hs⟩
    · exact ih h ha

/-- The names of a dependency that is read were checked. -/
theorem names_of_parseDep {d d' : LockedDep} (h : parseDep (depNode d) = .ok d') :
    validFlagName d.name = true ∧ ∀ name ∈ d.aliases, validFlagName name = true := by
  obtain ⟨name, hname, h⟩ := Result.bind_eq_ok.mp h
  have hdispatch : depName (depNode d) =
      if validFlagName d.name = false then .error (.depNameInvalid d.name) else .ok d.name := rfl
  rw [hdispatch] at hname
  split_ifs at hname with hvalid
  refine ⟨by simpa using hvalid, fun name hmem => ?_⟩
  have hsorted : name ∈ (sortedDep d).aliases := mem_sortByKey.mpr hmem
  have hne : (sortedDep d).aliases ≠ [] := List.ne_nil_of_mem hsorted
  have hchild : strNode "aliases" (sortedDep d).aliases ∈ (depNode d).children := by
    refine List.mem_append_left _ (List.mem_append_left _ (List.mem_append_left _ (List.mem_append_left _ (List.mem_append_right _ ?_))))
    rw [if_neg hne]
    exact List.mem_singleton_self _
  obtain ⟨s, s', hs⟩ := exists_step_of_foldlM h hchild
  rw [depField_aliases, stringArgs_strNode] at hs
  split at hs
  · cases hs
  · rename_i hnone
    simpa using List.find?_eq_none.mp hnone name hsorted

/-- **The names of a lockfile that is read were checked.** -/
theorem names_of_lockfileOf {l l' : Lockfile} (h : lockfileOf (lockDoc l) = .ok l') :
    ∀ d ∈ l.deps, validFlagName d.name = true ∧ ∀ name ∈ d.aliases, validFlagName name = true := by
  obtain ⟨f, hf, -⟩ := Result.bind_eq_ok.mp h
  intro d hd
  have hmem : depNode d ∈ lockDoc l := List.mem_append_right _ (List.mem_map_of_mem hd)
  obtain ⟨s, s', hs⟩ := exists_step_of_foldlM hf hmem
  have hdispatch : lockField s (depNode d) = (do
      let d ← parseDep (depNode d)
      return { s with deps := s.deps ++ [d] }) := rfl
  rw [hdispatch] at hs
  obtain ⟨d', hd', -⟩ := Result.bind_eq_ok.mp hs
  exact names_of_parseDep hd'

end Milpa.Core
