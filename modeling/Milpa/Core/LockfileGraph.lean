import Milpa.Core.GraphExact
import Milpa.Core.LockfileCodec

/-!
# The lockfile of a resolve

`from_graph`, and what the next command makes of the lockfile that a resolve writes: it
reads it again, in the order of the formatter, just where the names that the resolver let
through pass the checks of the reader (`recorded_iff`).
-/

namespace Milpa.Core

open Milpa.Kdl Milpa.Nesting Resolver

/-! ### From a graph -/

/-- `req_name_to_lockfile`. -/
def reqNameToLockfile (s : Str) : Str :=
  match s.splitOnceStr "::" with
  | some (ns, name) => ns ++ '/' :: name
  | none => s

/-- The namespace that an attestation is recorded with. -/
def attestationNamespace : Option SourceId → Str
  | some (.fetchable (.registry _ ns _)) => ns.getD []
  | _ => []

/-- `locked_from_resolved`, from the sorted conditional requires on. -/
def lockedDep (d : ResolvedDep) (condRequires : List CondRequire) : LockedDep where
  name := d.name
  «namespace» := d.namespace
  identity := opt d.identity
  version := d.version.display
  srcDir := d.srcDir
  requires := sortByKey id (d.requires.map reqNameToLockfile)
  provenances := d.provenances
  activeFlags := d.activeFlags
  depDecl := d.depDecl
  condRequires := condRequires
  aliases := d.aliases
  attestation := d.attestation.map fun a => ⟨a.kind, a.rekor, a.bundlePin, attestationNamespace d.sourceId⟩
  declaredVersionSource := d.declaredVersionSource
  sourceId := d.sourceId

/-- `locked_from_resolved`; `none` where a sort key does not exist. -/
def lockedFromResolved (d : ResolvedDep) : Option LockedDep := do
  let keyed ← d.condRequires.mapM fun cr => (condRequireSortKey cr).map fun key => (key, cr)
  return lockedDep d ((sortByKey Prod.fst keyed).map Prod.snd)

/-- The order of the dependencies. -/
def lockedKey (d : LockedDep) : Str ×ₗ Str := toLex (d.namespace.getD [], d.name)

/-- `from_graph`. -/
def fromGraph (graph : List ResolvedDep) (strategy : Str) (excludeNewer : Option Timestamp) : Option Lockfile := do
  let deps ← graph.mapM lockedFromResolved
  return ⟨lockfileSchemaVersion, strategy, excludeNewer, sortByKey lockedKey deps⟩

/-- A graph is written as a lockfile, and this is read again, in the order of the formatter. -/
def Recorded (kdlParse : Str → Except Str (List KdlNode)) (graph : List ResolvedDep) (strategy : Str)
    (excludeNewer : Option Timestamp) : Prop :=
  ∃ l, fromGraph graph strategy excludeNewer = some l ∧
    ∃ text, formatLockfile l = some text ∧ parseLockfile kdlParse text = .ok (sortedLock l)

/-! ### What is written and read -/

variable {kdlParse : Str → Except Str (List KdlNode)} {l : Lockfile}

@[simp] theorem sortedLock_sortedLock (l : Lockfile) : sortedLock (sortedLock l) = sortedLock l := by
  simp [sortedLock]

theorem lockDoc_sortedLock (l : Lockfile) : lockDoc (sortedLock l) = lockDoc l := by
  have hdeps : (sortedLock l).deps.map depNode = l.deps.map depNode := by
    simp [sortedLock, depNode_sortedDep]
  rw [lockDoc, lockDoc, hdeps]
  rfl

theorem readable_sortedLock (l : Lockfile) : Readable (sortedLock l) ↔ Readable l := by
  constructor
  · rintro ⟨hlegible, hshallow, hyear⟩
    rw [lockDoc_sortedLock] at hlegible hshallow
    exact ⟨hlegible, hshallow, hyear⟩
  · rintro ⟨hlegible, hshallow, hyear⟩
    rw [← lockDoc_sortedLock] at hlegible hshallow
    exact ⟨hlegible, hshallow, hyear⟩

/-- The text of a lockfile is that of the lockfile in its order. -/
theorem formatLockfile_sorted (h : ValidLock (sortedLock l)) : formatLockfile l = formatLockfile (sortedLock l) := by
  have hwritable : WritableLock l := fun d hd cr hcr =>
    (h.deps _ (List.mem_map_of_mem hd)).conds cr (mem_sortByKey.mpr hcr)
  have hnodes : (sortedLock l).deps.map (fun d => ((depNode d).mapStr escape).lines 0 ++ [[]]) =
      l.deps.map fun d => ((depNode d).mapStr escape).lines 0 ++ [[]] := by
    simp [sortedLock, depNode_sortedDep]
  rw [formatLockfile, formatLockfile, formatLines_eq hwritable, formatLines_eq h.writable, hnodes]
  rfl

/-- A lockfile is read again in its order just where it could have been read, is readable, and its sources are tidy. -/
theorem readBack_iff (hk : Conforms kdlParse) (l : Lockfile) :
    (∃ text, formatLockfile l = some text ∧ parseLockfile kdlParse text = .ok (sortedLock l)) ↔
      ValidLock (sortedLock l) ∧ Readable l ∧ ∀ d ∈ l.deps, ∀ sid ∈ d.sourceId, TidySource sid := by
  have htidy : (∀ d ∈ (sortedLock l).deps, ∀ sid ∈ d.sourceId, TidySource sid) ↔ ∀ d ∈ l.deps, ∀ sid ∈ d.sourceId, TidySource sid :=
    List.forall_mem_map
  rw [← readable_sortedLock, ← htidy]
  constructor
  · rintro ⟨text, htext, hparse⟩
    have hvalid : ValidLock (sortedLock l) := validLock_of_parseLockfile hparse
    obtain ⟨text', htext', hread, herror⟩ := parseLockfile_formatLockfile hk hvalid
    rw [← formatLockfile_sorted hvalid, htext, Option.some.injEq] at htext'
    subst htext'
    by_cases hr : Readable (sortedLock l)
    · have hreread := (hread hr).symm.trans hparse
      refine ⟨hvalid, hr, (rereadLock_eq_sortedLock_iff hvalid).mp ?_⟩
      rw [sortedLock_sortedLock]
      exact Except.ok.inj hreread
    · obtain ⟨e, he⟩ := herror hr
      rw [he] at hparse
      cases hparse
  · rintro ⟨hvalid, hr, hsources⟩
    obtain ⟨text, htext, hread, -⟩ := parseLockfile_formatLockfile hk hvalid
    refine ⟨text, (formatLockfile_sorted hvalid).trans htext, ?_⟩
    rw [hread hr, (rereadLock_eq_sortedLock_iff hvalid).mpr hsources, sortedLock_sortedLock]

/-! ### Loops that can fail -/

/-- What a loop gives, and that it gives something for each element. -/
theorem mem_of_mapM_eq_some {α β : Type*} {f : α → Option β} {l : List α} {r : List β} (h : l.mapM f = some r) :
    (∀ b ∈ r, ∃ a ∈ l, f a = some b) ∧ ∀ a ∈ l, ∃ b, f a = some b := by
  induction l generalizing r with
  | nil =>
    obtain rfl : [] = r := by simpa using h
    exact ⟨nofun, nofun⟩
  | cons a l ih =>
    rw [List.mapM_cons] at h
    obtain ⟨b, hb, h⟩ := Option.bind_eq_some_iff.mp h
    obtain ⟨bs, hbs, h⟩ := Option.bind_eq_some_iff.mp h
    obtain rfl := Option.some.inj h
    obtain ⟨hfrom, hsome⟩ := ih hbs
    refine ⟨fun c hc => ?_, fun a' ha' => ?_⟩
    · rcases List.mem_cons.mp hc with rfl | hc
      · exact ⟨a, List.mem_cons_self, hb⟩
      · obtain ⟨a', ha', heq⟩ := hfrom c hc
        exact ⟨a', List.mem_cons_of_mem a ha', heq⟩
    · rcases List.mem_cons.mp ha' with rfl | ha'
      · exact ⟨b, hb⟩
      · exact hsome a' ha'

/-! ### Conditional requires -/

theorem condRequireSortKey_of_single {cr : CondRequire} (h : ∀ p ∈ cr.predicates, SingleValued p) :
    condRequireSortKey cr = some (condKey cr) := by
  rw [condRequireSortKey, mapM_eq_map fun p hp => formatPredicateProp_eq (h p hp)]
  rfl

theorem singleValued_of_sortKey {cr : CondRequire} {key : Str ×ₗ Str} (h : condRequireSortKey cr = some key) :
    ∀ p ∈ cr.predicates, SingleValued p := by
  obtain ⟨props, hprops, -⟩ := Option.map_eq_some_iff.mp h
  intro p hp
  obtain ⟨prop, hprop⟩ := (mem_of_mapM_eq_some hprops).2 p hp
  unfold formatPredicateProp at hprop
  split at hprop
  · next v hv => exact ⟨v, hv⟩
  · cases hprop

/-- The conditional requires of a node have predicates, and each of them one value. -/
theorem conds_of_condRequiresOf {σ : ResolveState} {c : Candidate} {conds : List CondRequire} (h : condRequiresOf σ c = some conds) :
    ∀ cr ∈ conds, cr.predicates ≠ [] ∧ ∀ p ∈ cr.predicates, SingleValued p := by
  obtain ⟨keyed, hkeyed, h⟩ := Option.bind_eq_some_iff.mp h
  obtain rfl := Option.some.inj h
  intro cr hcr
  obtain ⟨⟨key, cr'⟩, hmem, rfl⟩ := List.mem_map.mp hcr
  obtain ⟨cr₀, hcond, hkey⟩ := (mem_of_mapM_eq_some hkeyed).1 _ (mem_sortByKey.mp hmem)
  obtain ⟨key', hkey', heq⟩ := Option.map_eq_some_iff.mp hkey
  obtain ⟨rfl, rfl⟩ := Prod.mk.inj heq
  refine ⟨?_, singleValued_of_sortKey hkey'⟩
  obtain ⟨e, -, he⟩ := List.mem_flatMap.mp hcond
  obtain ⟨ps, hps, rfl⟩ := List.mem_map.mp he
  simpa using (List.mem_filter.mp hps).2

/-- The conditional requires of a graph. -/
theorem conds_of_graph {σ : ResolveState} {solution : Solution} {trust : Option EntryTrust} {graph : List ResolvedDep}
    (h : graphOf σ solution trust = .ok graph) :
    ∀ d ∈ graph, ∀ cr ∈ d.condRequires, cr.predicates ≠ [] ∧ ∀ p ∈ cr.predicates, SingleValued p := by
  intro d hd
  have hbuild : buildGraph (finalize σ solution).1 solution trust (finalize σ solution).2 = .ok graph := h
  obtain ⟨u, -, h⟩ := Result.bind_eq_ok.mp hbuild
  obtain ⟨c, -, hnode⟩ := Result.exists_of_mem_mapM h d hd
  unfold buildNode at hnode
  split at hnode
  · cases hnode
  · next conds hconds =>
    obtain ⟨u, -, hnode⟩ := Result.bind_eq_ok.mp hnode
    obtain rfl := Result.pure_eq_ok.mp hnode
    exact conds_of_condRequiresOf hconds

/-! ### What a run gives -/

theorem sound_gateOnly {ctx : ResolveCtx} {σ σ' : ResolveState} {item : Item} {out : Option Item} (hr : σ.binding.Sound)
    (h : gateOnly ctx σ item = .ok (out, σ')) : σ'.binding.Sound := by
  obtain ⟨decision, binding, haccepted, hsubmit, rfl, -⟩ := gateOnly_cases h
  rw [binding_recordDiscovery]
  exact hr.submit haccepted rfl hsubmit

theorem sound_step {ctx : ResolveCtx} {c c' : Config} (hr : c.state.binding.Sound) (h : Step ctx c c') : c'.state.binding.Sound := by
  cases h with
  | gate htasks hgate => exact sound_gateOnly hr hgate
  | suppress htasks hgate => exact sound_gateOnly hr hgate
  | admitted htasks => exact hr
  | dispatch htasks hwork =>
    show BindingResolver.Sound _
    rw [binding_dispatch hwork]
    exact hr
  | startFixpoint htasks hphase => exact hr
  | round htasks hphase hiters hround hchange =>
    obtain ⟨requests, -, henriched, -⟩ := fixpointRound_cases hround
    show BindingResolver.Sound _
    rw [henriched.binding]
    exact hr
  | startSolve htasks hphase hiters hround hchange hconflicts => exact hr
  | query htasks hphase hquery =>
    show BindingResolver.Sound _
    rw [binding_query hquery]
    exact hr

theorem sound_of_reachable {ctx : ResolveCtx} {c : Config} (h : Reachable ctx c) : c.state.binding.Sound := by
  obtain ⟨c₀, hstart, hrun⟩ := h
  exact hrun.invariant (sound_of_starts hstart) fun _ _ => sound_step

/-- What the nodes of a graph have that the reader checks too. -/
structure FromRun (d : ResolvedDep) : Prop where
  declared : ∀ v ∈ d.declaredVersionSource, v ∈ versionSources
  source : ∀ sid ∈ d.sourceId, ∃ raw, normalizeSource raw = .ok sid
  conds : ∀ cr ∈ d.condRequires, cr.predicates ≠ [] ∧ ∀ p ∈ cr.predicates, SingleValued p

theorem fromRun_of_graph {ctx : ResolveCtx} {c : Config} {solution : Solution} {trust : Option EntryTrust} {graph : List ResolvedDep}
    (hreach : Reachable ctx c) (h : graphOf c.state solution trust = .ok graph) : ∀ d ∈ graph, FromRun d := by
  intro d hd
  obtain ⟨name, -, cand, -, hnode⟩ := mem_graph h hd
  have hdeclared : d.declaredVersionSource = (redirected c.state solution cand).declaredVersionSource.map VersionSource.asStr :=
    congrArg ResolvedDep.declaredVersionSource hnode
  have hsource : d.sourceId = c.state.binding.bindings (c.state.depkeyForSolvedName (redirected c.state solution cand).name) :=
    congrArg ResolvedDep.sourceId hnode
  refine ⟨fun v hv => ?_, fun sid hsid => ?_, conds_of_graph h d hd⟩
  · rw [hdeclared] at hv
    obtain ⟨source, -, rfl⟩ := Option.map_eq_some_iff.mp hv
    cases source <;> decide
  · rw [hsource] at hsid
    obtain ⟨raw, haccepted, hraw⟩ := (sound_of_reachable hreach).normal _ _ hsid
    exact ⟨raw, normalizeSource_eq_ok.mpr ⟨haccepted, hraw⟩⟩

/-! ### What the reader asks -/

/-- `locked_from_resolved`, where the sort keys exist. -/
def recordedDep (d : ResolvedDep) : LockedDep := lockedDep d (sortByKey condKey d.condRequires)

/-- `from_graph`, where the sort keys exist. -/
def lockOf (graph : List ResolvedDep) (strategy : Str) (excludeNewer : Option Timestamp) : Lockfile :=
  ⟨lockfileSchemaVersion, strategy, excludeNewer, sortByKey lockedKey (graph.map recordedDep)⟩

/-- What the reader asks of a dependency and no step of a resolve promises. -/
structure RecordableDep (d : ResolvedDep) : Prop where
  name : validFlagName d.name = true
  «namespace» : ∀ ns ∈ d.namespace, ns ≠ [] ∧ validFlagName ns = true
  identity : d.identity ≠ [] → ∃ r, parseIdentity d.identity = .ok r
  srcDir : d.srcDir ≠ [] → containsUnsafeChar d.srcDir = false
  aliases : ∀ a ∈ d.aliases, validFlagName a = true
  predicates : ∀ cr ∈ d.condRequires, ∀ p ∈ cr.predicates, p.name ∈ knownPredicateNames
  attestation : ∀ att ∈ d.attestation, att.kind ≠ .authorSigned []
  provenances : ∀ p ∈ d.provenances, ValidProvenance p
  tidy : ∀ sid ∈ d.sourceId, TidySource sid

/-- What the reader asks of a graph. -/
structure Recordable (graph : List ResolvedDep) (strategy : Str) (excludeNewer : Option Timestamp) : Prop where
  deps : ∀ d ∈ graph, RecordableDep d
  nanos : ∀ ts ∈ excludeNewer, ts.nanos < 10 ^ 9
  readable : Readable (lockOf graph strategy excludeNewer)

theorem fromGraph_eq {graph : List ResolvedDep} (h : ∀ d ∈ graph, FromRun d) (strategy : Str) (excludeNewer : Option Timestamp) :
    fromGraph graph strategy excludeNewer = some (lockOf graph strategy excludeNewer) := by
  have hdep : ∀ d ∈ graph, lockedFromResolved d = some (recordedDep d) := by
    intro d hd
    have hkeys : ∀ cr ∈ d.condRequires, ((condRequireSortKey cr).map fun key => (key, cr)) = some (condKey cr, cr) := by
      intro cr hcr
      rw [condRequireSortKey_of_single ((h d hd).conds cr hcr).2]
      rfl
    rw [lockedFromResolved, mapM_eq_map hkeys]
    show some (lockedDep d _) = _
    rw [sortByKey_keyed, recordedDep]
  rw [fromGraph, mapM_eq_map hdep]
  rfl

/-- The reader takes a node of a run just where it is recordable. -/
theorem recordableDep_iff {d : ResolvedDep} (h : FromRun d) :
    RecordableDep d ↔ ValidDep (sortedDep (recordedDep d)) ∧ ∀ sid ∈ d.sourceId, TidySource sid := by
  have hidentity : (∀ i ∈ opt d.identity, ∃ r, parseIdentity i = .ok r) ↔ (d.identity ≠ [] → ∃ r, parseIdentity d.identity = .ok r) := by
    rw [opt]
    by_cases hnil : d.identity = []
    · simp [hnil]
    · simp [hnil]
  have hsrc : (¬ (d.srcDir ≠ [] ∧ containsUnsafeChar d.srcDir = true)) ↔ (d.srcDir ≠ [] → containsUnsafeChar d.srcDir = false) := by
    rw [not_and, Bool.not_eq_true]
  have hmem : ∀ cr, cr ∈ (sortedDep (recordedDep d)).condRequires ↔ cr ∈ d.condRequires := by
    intro cr
    show cr ∈ sortByKey condKey (sortByKey condKey d.condRequires) ↔ _
    rw [mem_sortByKey, mem_sortByKey]
  constructor
  · intro hd
    refine ⟨⟨hd.name, hd.namespace, hidentity.mpr hd.identity, hsrc.mpr hd.srcDir, h.declared, fun a ha => hd.aliases a (mem_sortByKey.mp ha),
      sortedByKey_sortByKey id d.aliases, fun cr hcr => ?_, ?_, fun p hp => hd.provenances p (mem_sortByKey.mp hp), h.source⟩, hd.tidy⟩
    · obtain ⟨hnonempty, hsingle⟩ := h.conds cr ((hmem cr).mp hcr)
      exact ⟨hnonempty, hsingle, hd.predicates cr ((hmem cr).mp hcr)⟩
    · intro att hatt
      obtain ⟨a, ha, rfl⟩ := Option.map_eq_some_iff.mp hatt
      exact hd.attestation a ha
  · rintro ⟨hvalid, htidy⟩
    exact ⟨hvalid.name, hvalid.namespace, hidentity.mp hvalid.identity, hsrc.mp hvalid.srcDir,
      fun a ha => hvalid.aliases a (mem_sortByKey.mpr ha), fun cr hcr => (hvalid.conds cr ((hmem cr).mpr hcr)).known,
      fun a ha => hvalid.attestation _ (Option.mem_map_of_mem _ ha), fun p hp => hvalid.provenances p (mem_sortByKey.mpr hp), htidy⟩

/-- A graph of a run is recorded just where it is recordable. -/
theorem recorded_of_fromRun (hk : Conforms kdlParse) {graph : List ResolvedDep} (h : ∀ d ∈ graph, FromRun d) (strategy : Str)
    (excludeNewer : Option Timestamp) : Recorded kdlParse graph strategy excludeNewer ↔ Recordable graph strategy excludeNewer := by
  have hdeps : ∀ P : LockedDep → Prop, (∀ d ∈ (lockOf graph strategy excludeNewer).deps, P d) ↔ ∀ d ∈ graph, P (recordedDep d) := by
    intro P
    show (∀ d ∈ sortByKey lockedKey (graph.map recordedDep), P d) ↔ _
    simp only [mem_sortByKey, List.forall_mem_map]
  have hread : Recorded kdlParse graph strategy excludeNewer ↔
      ∃ text, formatLockfile (lockOf graph strategy excludeNewer) = some text ∧
        parseLockfile kdlParse text = .ok (sortedLock (lockOf graph strategy excludeNewer)) := by
    rw [Recorded, fromGraph_eq h]
    simp
  rw [hread, readBack_iff hk]
  constructor
  · rintro ⟨hvalid, hreadable, htidy⟩
    refine ⟨fun d hd => (recordableDep_iff (h d hd)).mpr ⟨?_, (hdeps _).mp htidy d hd⟩, hvalid.nanos, hreadable⟩
    exact (hdeps fun d => ValidDep (sortedDep d)).mp (fun d hd => hvalid.deps _ (List.mem_map_of_mem hd)) d hd
  · intro hgraph
    refine ⟨⟨rfl, hgraph.nanos, List.forall_mem_map.mpr ?_⟩, hgraph.readable, ?_⟩
    · exact (hdeps fun d => ValidDep (sortedDep d)).mpr fun d hd => ((recordableDep_iff (h d hd)).mp (hgraph.deps d hd)).1
    · exact (hdeps fun d => ∀ sid ∈ d.sourceId, TidySource sid).mpr fun d hd => (hgraph.deps d hd).tidy

/-- **The lockfile of a resolve is read again** just where the reader takes what the resolver let through. -/
theorem recorded_iff :
    ∀ kdlParse ctx c solution trust graph strategy excludeNewer, Conforms kdlParse → Reachable ctx c → graphOf c.state solution trust = .ok graph →
      (Recorded kdlParse graph strategy excludeNewer ↔ Recordable graph strategy excludeNewer) :=
  fun _ _ _ _ _ _ strategy excludeNewer hk hreach hgraph => recorded_of_fromRun hk (fromRun_of_graph hreach hgraph) strategy excludeNewer

/-! ### Two resolves -/

instance (kdlParse : Str → Except Str (List KdlNode)) (graph : List ResolvedDep) (strategy : Str) (excludeNewer : Option Timestamp) :
    Decidable (Recorded kdlParse graph strategy excludeNewer) :=
  inferInstanceAs (Decidable (∃ l ∈ fromGraph graph strategy excludeNewer, ∃ text ∈ formatLockfile l,
    parseLockfile kdlParse text = .ok (sortedLock l)))

/-- An identity of so many equal digits. -/
def plainIdentity (digit : Char) : Str := "dag-sha256:".toList ++ List.replicate 64 digit

/-- A package whose `.nimble` file requires a URL. -/
def requirer (url : Str) : PackageTree :=
  ⟨plainIdentity 'a', none, BTreeMap.empty.insert "lib.nimble" (some ⟨[.url url none []], none, none⟩)⟩

/-- What there is to fetch. -/
def requirerWorld (url : Str) : ResolveCtx :=
  { ResolveCtx.offline with fetch := fetchFrom [("https://h/lib", requirer url), (url, treeOf (plainIdentity 'b') Manifest.initial)] }

/-- A root that depends on that package. -/
def requirerUser : Manifest := { Manifest.initial with name := some "app", deps := [.url (urlDep "lib" "https://h/lib" "main" none)] }

/-- The solution in that world. -/
def requirerSolution (url : Str) : Solution :=
  (BTreeMap.empty.insert ("git+https://h/lib#ref=main" : Str) urlDepVersion).insert ("git+".toList ++ url ++ "#ref=HEAD".toList) urlDepVersion

/-- The resolve in that world comes to a graph that is so far recorded or not. -/
def records (url : Str) (recorded : Bool) : Bool :=
  comesTo (fun _ => true) (requirerWorld url) requirerUser 9 fun c =>
    match graphOf c.state (requirerSolution url) none with
    | .ok graph => decide (Resolver.Closed c.state (requirerSolution url)) && decide (Recorded read graph "semver" none) == recorded
    | .error _ => false

theorem exists_of_records {url : Str} {recorded : Bool} (h : records url recorded = true) :
    ∃ ctx c graph, Reachable ctx c ∧ Resolver.Closed c.state (requirerSolution url) ∧
      graphOf c.state (requirerSolution url) none = .ok graph ∧ (Recorded read graph "semver" none ↔ recorded = true) := by
  obtain ⟨c₀, c, hstart, hrun, hgood⟩ := run_of_comesTo h
  split at hgood
  · rename_i graph hgraph
    obtain ⟨hclosed, hrecorded⟩ := (Bool.and_eq_true _ _).mp hgood
    refine ⟨_, c, graph, ⟨c₀, hstart, hrun⟩, of_decide_eq_true hclosed, hgraph, ?_⟩
    rw [← beq_iff_eq.mp hrecorded, decide_eq_true_iff]
  · cases hgood

theorem recorded_iff_mylib :
    ∃ ctx c graph, Conforms read ∧ Reachable ctx c ∧ graphOf c.state (requirerSolution "https://h/mylib") none = .ok graph ∧
      Recordable graph "semver" none := by
  have h : records "https://h/mylib" true = true := by decide +kernel
  obtain ⟨ctx, c, graph, hreach, -, hgraph, hrecorded⟩ := exists_of_records h
  exact ⟨ctx, c, graph, conforms_read, hreach, hgraph,
    (recorded_iff _ _ _ _ _ _ _ _ conforms_read hreach hgraph).mp (hrecorded.mpr rfl)⟩

/-- The last part of a URL becomes a name with a dot, which the reader does not take. -/
theorem dotted_name_not_read :
    ¬ ∀ kdlParse ctx c solution trust graph strategy excludeNewer, Conforms kdlParse → Reachable ctx c → Resolver.Closed c.state solution →
      graphOf c.state solution trust = .ok graph → Recorded kdlParse graph strategy excludeNewer := by
  intro hall
  have h : records "https://h/my.lib" false = true := by decide +kernel
  obtain ⟨ctx, c, graph, hreach, hclosed, hgraph, hrecorded⟩ := exists_of_records h
  cases hrecorded.mp (hall _ _ _ _ _ _ _ _ conforms_read hreach hclosed hgraph)

end Milpa.Core
