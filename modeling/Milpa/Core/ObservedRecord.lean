import Milpa.Core.FetchedRecords
import Milpa.Core.LockfileGraph
import Milpa.Core.ProvenanceRead

/-!
# The first record of a dependency

A node of a graph has the record of what was fetched before the others, and a frozen fetch
takes the first record for it. The formatter sorts the records, declared ones first: what
was fetched comes first again just where no mirror is declared and no package that is
folded into the node has a record that sorts before it (`observed_kept_iff`).
-/

namespace Milpa

/-- The kinds of provenances, in the order of `provenance_sort_key`. -/
inductive ProvenanceKind where
  | git
  | tarball
  | oci
  | local
  | member
  | root
  deriving DecidableEq, Repr

/-- Where a record leads: its kind and what locates the package. -/
def ProvenanceRecord.place : ProvenanceRecord → ProvenanceKind × List Str
  | .git url refSpec _ _ _ => (.git, url :: refSpec.toList)
  | .tarball url _ _ => (.tarball, [url])
  | .oci registry repository digest _ => (.oci, [registry, repository, digest])
  | .local path _ => (.local, [path])
  | .member name _ => (.member, [name])
  | .root name _ => (.root, [name])

/-- A list with an element that is not above the others begins with it when it is sorted. -/
theorem head?_sortByKey_of_le {α κ : Type} [LinearOrder κ] {key : α → κ} {a : α} {l : List α} (h : ∀ b ∈ l, key a ≤ key b) :
    (sortByKey key (a :: l)).head? = some a := by
  show (List.orderedInsert (fun a b => key a ≤ key b) a (sortByKey key l)).head? = some a
  cases hsort : sortByKey key l with
  | nil => rfl
  | cons b rest =>
    have hb : b ∈ l := mem_sortByKey.mp (hsort ▸ List.mem_cons_self)
    rw [List.orderedInsert_cons, if_pos (h b hb)]
    rfl

/-- The first element of a sorted list is not above any other. -/
theorem le_of_head?_sortByKey {α κ : Type} [LinearOrder κ] {key : α → κ} {m : α} {l : List α} (h : (sortByKey key l).head? = some m) :
    m ∈ l ∧ ∀ a ∈ l, key m ≤ key a := by
  have hsorted := sortedByKey_sortByKey key l
  obtain ⟨rest, hrest⟩ := List.head?_eq_some_iff.mp h
  refine ⟨mem_sortByKey.mp (hrest ▸ List.mem_cons_self), fun a ha => ?_⟩
  rw [SortedByKey, hrest, List.pairwise_cons] at hsorted
  have ha' : a ∈ sortByKey key l := mem_sortByKey.mpr ha
  rw [hrest] at ha'
  rcases List.mem_cons.mp ha' with rfl | ha'
  · exact le_rfl
  · exact hsorted.1 a ha'

theorem sortByKey_map {α β κ : Type} [LinearOrder κ] (key : β → κ) (f : α → β) (l : List α) :
    sortByKey key (l.map f) = (sortByKey (fun a => key (f a)) l).map f :=
  (List.map_insertionSort (r := fun a b => key (f a) ≤ key (f b)) (s := fun a b => key a ≤ key b) f l fun _ _ _ _ => Iff.rfl).symm

end Milpa

namespace Milpa.Core

open Milpa.Kdl Resolver

/-! ### The order of the records -/

/-- The part of the sort key that is about the place. -/
def placeKey (p : ProvenanceRecord) : ℕ ×ₗ Str ×ₗ Str := (ofLex (provenanceSortKey p)).2

/-- The part of the sort key that is about the origin. -/
def originRank (p : ProvenanceRecord) : ℕ :=
  if p.origin = "declared".toList then 0 else if p.origin = "observed".toList then 1 else 99

theorem provenanceSortKey_eq (p : ProvenanceRecord) : provenanceSortKey p = toLex (originRank p, placeKey p) := by
  cases p <;> rfl

/-- Records that lead to one place have one key for it. -/
theorem placeKey_congr {p q : ProvenanceRecord} (h : p.place = q.place) : placeKey p = placeKey q := by
  cases p <;> cases q <;> simp only [ProvenanceRecord.place, Prod.mk.injEq, List.cons.injEq, reduceCtorEq, false_and, and_true,
    true_and] at h
  case git.git url refSpec _ _ _ url' refSpec' _ _ _ =>
    obtain ⟨rfl, href⟩ := h
    have : refSpec = refSpec' := by cases refSpec <;> cases refSpec' <;> simp_all
    subst this
    rfl
  case tarball.tarball => subst h; rfl
  case local.local => subst h; rfl
  case member.member => subst h; rfl
  case oci.oci =>
    obtain ⟨rfl, rfl, rfl⟩ := h
    rfl
  case root.root => subst h; rfl

/-- A record comes before the one of what was fetched: a mirror that is declared, or a record whose kind and place sort before. -/
def Displaces (p first : ProvenanceRecord) : Prop := p.origin = "declared".toList ∨ placeKey p < placeKey first

/-- Records as a node of a run has them: what was fetched, then mirrors of it, and what was fetched elsewhere. -/
structure NodeRecords (first : ProvenanceRecord) (others : List ProvenanceRecord) : Prop where
  observed : first.origin = "observed".toList
  others : ∀ p ∈ others, p.origin = "observed".toList ∨ p.origin = "declared".toList ∧ p.place ≠ first.place

theorem lt_iff_displaces {first : ProvenanceRecord} {others : List ProvenanceRecord} (h : NodeRecords first others)
    {p : ProvenanceRecord} (hp : p ∈ others) : provenanceSortKey p < provenanceSortKey first ↔ Displaces p first := by
  have hrank : originRank first = 1 := by rw [originRank, h.observed]; rfl
  rw [provenanceSortKey_eq, provenanceSortKey_eq, Prod.Lex.toLex_lt_toLex, hrank, Displaces]
  rcases h.others p hp with horigin | ⟨horigin, -⟩
  · have : originRank p = 1 := by rw [originRank, horigin]; rfl
    have hne : ¬ p.origin = "declared".toList := by rw [horigin]; decide
    rw [this, or_iff_right hne]
    simp
  · have : originRank p = 0 := by rw [originRank, horigin]; rfl
    rw [this]
    simp [horigin]

/-- What was fetched comes first again when no other record comes before it. -/
theorem head?_place_iff {first : ProvenanceRecord} {others : List ProvenanceRecord} (h : NodeRecords first others) :
    (sortByKey provenanceSortKey (first :: others)).head?.map ProvenanceRecord.place = some first.place ↔
      ∀ p ∈ others, ¬ Displaces p first := by
  constructor
  · intro hhead p hp hdisplaces
    obtain ⟨m, hm, hplace⟩ := Option.map_eq_some_iff.mp hhead
    obtain ⟨hmem, hle⟩ := le_of_head?_sortByKey hm
    have hlt : provenanceSortKey m < provenanceSortKey first :=
      (hle p (List.mem_cons_of_mem _ hp)).trans_lt ((lt_iff_displaces h hp).mpr hdisplaces)
    rcases List.mem_cons.mp hmem with rfl | hmem
    · exact lt_irrefl _ hlt
    · -- The least record is another mirror, or sorts before by its place.
      rcases h.others m hmem with horigin | ⟨-, hne⟩
      · rcases (lt_iff_displaces h hmem).mp hlt with hdeclared | hplaceKey
        · rw [horigin] at hdeclared
          exact absurd hdeclared (by decide)
        · exact hplaceKey.ne (placeKey_congr hplace)
      · exact hne hplace
  · intro hnone
    rw [head?_sortByKey_of_le fun p hp => not_lt.mp fun hlt => hnone p hp ((lt_iff_displaces h hp).mp hlt)]
    rfl

/-! ### The records of a node -/

theorem nodeRecords_of_graph {ctx : ResolveCtx} {c : Config} {solution : Solution} {trust : Option EntryTrust} {graph : List ResolvedDep}
    (hreach : Reachable ctx c) (h : graphOf c.state solution trust = .ok graph) {d : ResolvedDep} (hd : d ∈ graph) :
    ∃ first others, d.provenances = first :: others ∧ NodeRecords first others := by
  have hevery := observed_of_reachable hreach
  have hpicked : ∀ {name cand}, picked c.state solution name = some cand → Observed cand := fun hcand => by
    obtain ⟨v, -, hcand⟩ := Option.bind_eq_some_iff.mp hcand
    exact hevery _ v _ hcand
  obtain ⟨name, -, cand, hcand, hnode⟩ := mem_graph h hd
  have hobserved := hpicked hcand
  have hprovs : d.provenances = provenancesOf c.state solution (canonicalAliases c.state solution) (redirected c.state solution cand) :=
    congrArg ResolvedDep.provenances hnode
  refine ⟨_, _, hprovs, ?_, fun p hp => ?_⟩
  · show (cand.provenance.getD (.local [] "observed")).origin = _
    cases hprovenance : cand.provenance with
    | none => rfl
    | some q => exact hobserved.origin q hprovenance
  · rcases List.mem_append.mp hp with hp | hp
    · obtain ⟨mirror, hmirror, rfl⟩ := List.mem_map.mp hp
      obtain ⟨url, refSpec, commit, submodules, hprovenance, hne⟩ := hobserved.mirrors mirror hmirror
      refine .inr ⟨rfl, fun hplace => hne ?_⟩
      have hfirst : observedRecord (redirected c.state solution cand) = .git url refSpec commit "observed" submodules := by
        show cand.provenance.getD _ = _
        rw [hprovenance]
        rfl
      rw [hfirst] at hplace
      exact (List.cons.inj (Prod.mk.inj hplace).2).1
    · obtain ⟨other, -, hother⟩ := List.mem_filterMap.mp hp
      obtain ⟨folded, hfolded, hrecord⟩ := Option.bind_eq_some_iff.mp hother
      exact .inl ((hpicked hfolded).origin p hrecord)

/-! ### What a frozen fetch reads -/

/-- Another record comes before the first one of a node. -/
def Displaced (d : ResolvedDep) : Prop :=
  ∃ first ∈ d.provenances.head?, ∃ p ∈ d.provenances.tail, Displaces p first

/-- The order in which the nodes are written. -/
def nodeKey (d : ResolvedDep) : Str ×ₗ Str := lockedKey (recordedDep d)

/-- The first record of each dependency of a lockfile leads to where the first one of its node leads. -/
def KeepsObserved (graph : List ResolvedDep) (l : Lockfile) : Prop :=
  l.deps.map (fun d => (d.name, d.provenances.head?.map ProvenanceRecord.place)) =
    (sortByKey nodeKey graph).map fun d => (d.name, d.provenances.head?.map ProvenanceRecord.place)

/-- The clauses of all conditions have names that the reader knows. -/
def KnownPredicates (graph : List ResolvedDep) : Prop :=
  ∀ d ∈ graph, ∀ cr ∈ d.condRequires, ∀ p ∈ cr.predicates, p.name ∈ knownPredicateNames

theorem place_rereadProvenance (p : ProvenanceRecord) : (rereadProvenance p).place = p.place := by
  cases p <;> rfl

theorem writable_lockOf {graph : List ResolvedDep} (h : ∀ d ∈ graph, FromRun d) (hknown : KnownPredicates graph) (strategy : Str)
    (excludeNewer : Option Timestamp) : WritableLock (lockOf graph strategy excludeNewer) := by
  intro d hd cr hcr
  obtain ⟨node, hnode, rfl⟩ := List.mem_map.mp (mem_sortByKey.mp hd)
  have hcr : cr ∈ node.condRequires := mem_sortByKey.mp hcr
  obtain ⟨hne, hsingle⟩ := (h node hnode).conds cr hcr
  exact ⟨hne, hsingle, hknown node hnode cr hcr⟩

/-- The first records of what is read again. -/
theorem heads_of_parse {kdlParse : Str → Except Str (List KdlNode)} (hk : Conforms kdlParse) {graph : List ResolvedDep}
    (h : ∀ d ∈ graph, FromRun d) (hknown : KnownPredicates graph) {strategy : Str} {excludeNewer : Option Timestamp}
    {l l' : Lockfile} {text : Str} (hlock : fromGraph graph strategy excludeNewer = some l) (htext : formatLockfile l = some text)
    (hparse : parseLockfile kdlParse text = .ok l') :
    l'.deps.map (fun d => (d.name, d.provenances.head?.map ProvenanceRecord.place)) =
      (sortByKey nodeKey graph).map fun d =>
        (d.name, (sortByKey provenanceSortKey d.provenances).head?.map ProvenanceRecord.place) := by
  rw [fromGraph_eq h, Option.some.injEq] at hlock
  subst hlock
  have hrecords := provenances_of_parse hk (writable_lockOf h hknown strategy excludeNewer) htext hparse
  have hheads := congrArg (List.map fun e : Str × List ProvenanceRecord => (e.1, e.2.head?.map ProvenanceRecord.place)) hrecords
  have hdeps : (lockOf graph strategy excludeNewer).deps = (sortByKey nodeKey graph).map recordedDep :=
    sortByKey_map lockedKey recordedDep graph
  have hplace : ProvenanceRecord.place ∘ rereadProvenance = ProvenanceRecord.place := funext place_rereadProvenance
  rw [rereadRecords, hdeps, recordsOf, List.map_map, List.map_map, List.map_map] at hheads
  refine hheads.trans (List.map_congr_left fun d _ => ?_)
  show (d.name, ((sortByKey provenanceSortKey d.provenances).map rereadProvenance).head?.map _) = _
  rw [List.head?_map, Option.map_map, hplace]

/-- **What was fetched is the first record again** just where no mirror is declared and no record of a folded package sorts before it. -/
theorem observed_kept_iff :
    ∀ kdlParse ctx c solution trust graph strategy excludeNewer l text l', Conforms kdlParse → Reachable ctx c →
      graphOf c.state solution trust = .ok graph → KnownPredicates graph → fromGraph graph strategy excludeNewer = some l →
      formatLockfile l = some text → parseLockfile kdlParse text = .ok l' →
        (KeepsObserved graph l' ↔ ∀ d ∈ graph, ¬ Displaced d) := by
  intro kdlParse ctx c solution trust graph strategy excludeNewer l text l' hk hreach hgraph hknown hlock htext hparse
  rw [KeepsObserved, heads_of_parse hk (fromRun_of_graph hreach hgraph) hknown hlock htext hparse, List.map_inj_left]
  simp only [mem_sortByKey]
  refine forall₂_congr fun d hd => ?_
  obtain ⟨first, others, hprovs, hrecords⟩ := nodeRecords_of_graph hreach hgraph hd
  have hdisplaced : ¬ Displaced d ↔ ∀ p ∈ others, ¬ Displaces p first := by
    simp [Displaced, hprovs]
  rw [hdisplaced, ← head?_place_iff hrecords, hprovs]
  simp

/-! ### A mirror -/

instance (graph : List ResolvedDep) : Decidable (KnownPredicates graph) :=
  inferInstanceAs (Decidable (∀ d ∈ graph, ∀ cr ∈ d.condRequires, ∀ p ∈ cr.predicates, _))

instance (graph : List ResolvedDep) (l : Lockfile) : Decidable (KeepsObserved graph l) := inferInstanceAs (Decidable (_ = _))

/-- A world with one package. -/
def mirroredWorld : ResolveCtx :=
  { ResolveCtx.offline with fetch := fetchFrom [("https://h/lib", treeOf (plainIdentity 'b') Manifest.initial)] }

/-- A root that depends on it and declares mirrors. -/
def mirroredUser (mirrors : List Str) : Manifest :=
  { Manifest.initial with name := some "app", deps := [.url { urlDep "lib" "https://h/lib" "main" none with mirrors }] }

/-- The solution in that world. -/
def mirroredSolution : Solution := BTreeMap.empty.insert ("git+https://h/lib#ref=main" : Str) urlDepVersion

/-- What is read of a lockfile that is written of a graph. -/
def rereadGraph (graph : List ResolvedDep) : Option Lockfile := do
  let l ← fromGraph graph "semver" none
  let text ← formatLockfile l
  (parseLockfile read text).toOption

/-- The resolve in that world comes to a graph whose lockfile keeps the first records, or not. -/
def keepsFirst (mirrors : List Str) (kept : Bool) : Bool :=
  comesTo (fun _ => true) mirroredWorld (mirroredUser mirrors) 6 fun c =>
    match graphOf c.state mirroredSolution none with
    | .ok graph =>
      match rereadGraph graph with
      | some l => decide (Resolver.Closed c.state mirroredSolution) && decide (KnownPredicates graph) && decide (KeepsObserved graph l) == kept
      | none => false
    | .error _ => false

theorem exists_of_keepsFirst {mirrors : List Str} {kept : Bool} (h : keepsFirst mirrors kept = true) :
    ∃ ctx c graph l text l', Reachable ctx c ∧ Resolver.Closed c.state mirroredSolution ∧ graphOf c.state mirroredSolution none = .ok graph ∧
      KnownPredicates graph ∧ fromGraph graph "semver" none = some l ∧ formatLockfile l = some text ∧
      parseLockfile read text = .ok l' ∧ (KeepsObserved graph l' ↔ kept = true) := by
  obtain ⟨c₀, c, hstart, hrun, hgood⟩ := run_of_comesTo h
  split at hgood
  · rename_i graph hgraph
    split at hgood
    · rename_i l' hreread
      obtain ⟨l, hlock, hreread⟩ := Option.bind_eq_some_iff.mp hreread
      obtain ⟨text, htext, hreread⟩ := Option.bind_eq_some_iff.mp hreread
      simp only [Bool.and_eq_true, decide_eq_true_eq, beq_iff_eq] at hgood
      obtain ⟨⟨hclosed, hknown⟩, hkept⟩ := hgood
      refine ⟨_, c, graph, l, text, l', ⟨c₀, hstart, hrun⟩, hclosed, hgraph, hknown, hlock, htext,
        Result.toOption_eq_some.mp hreread, ?_⟩
      rw [← hkept, decide_eq_true_iff]
    · cases hgood
  · cases hgood

theorem observed_kept_iff_plain :
    ∃ ctx c graph l', Reachable ctx c ∧ graphOf c.state mirroredSolution none = .ok graph ∧ (KeepsObserved graph l' ↔ ∀ d ∈ graph, ¬ Displaced d) := by
  obtain ⟨ctx, c, graph, l, text, l', hreach, -, hgraph, hknown, hlock, htext, hparse, -⟩ :=
    exists_of_keepsFirst (by decide +kernel : keepsFirst [] true = true)
  exact ⟨ctx, c, graph, l', hreach, hgraph,
    observed_kept_iff _ _ _ _ _ _ _ _ _ _ _ conforms_read hreach hgraph hknown hlock htext hparse⟩

/-- A declared mirror takes the place of what was fetched. -/
theorem mirror_first :
    ¬ ∀ kdlParse ctx c solution trust graph strategy excludeNewer l text l', Conforms kdlParse → Reachable ctx c →
      Resolver.Closed c.state solution → graphOf c.state solution trust = .ok graph → KnownPredicates graph →
      fromGraph graph strategy excludeNewer = some l → formatLockfile l = some text → parseLockfile kdlParse text = .ok l' →
        KeepsObserved graph l' := by
  intro hall
  obtain ⟨ctx, c, graph, l, text, l', hreach, hclosed, hgraph, hknown, hlock, htext, hparse, hkept⟩ :=
    exists_of_keepsFirst (by decide +kernel : keepsFirst ["https://a/lib"] false = true)
  cases hkept.mp (hall _ _ _ _ _ _ _ _ _ _ _ conforms_read hreach hclosed hgraph hknown hlock htext hparse)

end Milpa.Core
