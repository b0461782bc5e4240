import Milpa.Core.LockfileFormat
import Milpa.Core.ResolveRun
import Milpa.Order.Topo

/-!
# The resolved graph

`finalize` and `build_graph` of `resolver.rs`: packages of the solution that have the same
content are folded into the one that was discovered first, and the others become the nodes
of the graph, a node after those that it requires; and `rebuild_deps_view` of `frozen.rs`,
as far as it says which directories `_deps/` has.

The candidates of the solution are there: getting one that is not is a query, a step of
the run. The check of a registry package's attestation can only refuse the graph; it is a
parameter.
-/

namespace Milpa

/-- `ResolvedDep`. -/
structure ResolvedDep where
  name : Str
  «namespace» : Option Str
  identity : Str
  version : Version
  srcDir : Str
  requires : List Str
  provenances : List ProvenanceRecord
  depDecl : Option Str
  condRequires : List CondRequire
  aliases : List Str
  activeFlags : List Str
  attestation : Option EntryAttestation
  declaredVersionSource : Option Str
  sourceId : Option SourceId
  deriving DecidableEq, Repr

/-- `VersionSource::as_str`. -/
def VersionSource.asStr : VersionSource → Str
  | .manifest => "manifest"
  | .nimble => "nimble"
  | .tag => "tag"
  | .annotated => "annotation"

namespace Core.Resolver

/-- What the solver decides: a version for each package of the solution. -/
abbrev Solution := BTreeMap Str Version

/-- The check of a package's attestation: `evaluate_entry_attestation` and `enforce_entry_trust`. -/
abbrev EntryTrust := Candidate → DepKey → Except ResError Unit

variable (σ : ResolveState) (solution : Solution)

/-- The candidate of a package of the solution. -/
def picked (name : Str) : Option Candidate := (solution.get? name).bind fun v => (σ.candidatesOf name).get? v

/-- `solved_names`. -/
def solvedNames : List Str := solution.keys.filter fun name => decide (name ≠ root) && (picked σ solution name).isSome

/-- The identity of a package of the solution. -/
def pickedIdentity (name : Str) : Str := ((picked σ solution name).map Candidate.identity).getD []

/-! ### Folding -/

/-- `by_hash`: the packages with an identity. -/
def byHash : BTreeMap Str (List Str) :=
  (solvedNames σ solution).foldl (fun m name =>
    let identity := pickedIdentity σ solution name
    if identity.isEmpty then m else m.insert identity ((m.get? identity).getD [] ++ [name])) BTreeMap.empty

/-- The order of discovery; names that were not discovered come last. -/
def discoveryKey (name : Str) : ℕ ×ₗ Str := toLex (σ.discoveryOrder.idxOf name, name)

/-- A group of packages with one identity: the first one, with the others. -/
def collapse (group : List Str) : Option (Str × List Str) :=
  match sortByKey (discoveryKey σ) group with
  | canonical :: other :: others => some (canonical, sortByKey id (other :: others))
  | _ => none

/-- `canonical_aliases`. -/
def canonicalAliases : BTreeMap Str (List Str) :=
  ((byHash σ solution).entries.filterMap fun g => collapse σ g.2).foldl (fun m e => m.insert e.1 e.2) BTreeMap.empty

/-- `aliases_map`: the other way. -/
def aliasesMap (canonicalAliases : BTreeMap Str (List Str)) : BTreeMap Str Str :=
  (canonicalAliases.entries.flatMap fun e => e.2.map fun name => (name, e.1)).foldl (fun m e => m.insert e.1 e.2) BTreeMap.empty

/-- The candidate of a version, changed. -/
def modifyCandidate (name : Str) (version : Version) (f : Candidate → Candidate) : ResolveState :=
  match (σ.candidatesOf name).entry version with
  | none => σ
  | some (key, c) =>
    { σ with candidates :=
        σ.candidates.insert name (BTreeMap.insert version.precedenceKey (key, f c) (σ.candidatesOf name)) }

/-- A candidate that requires what packages were folded into. -/
def redirect (aliases : BTreeMap Str Str) (c : Candidate) : Candidate :=
  { c with requiresNames := c.requiresNames.map fun r => (aliases.get? r).getD r }

/-- The packages that are not folded into another one. -/
def survivors : List Str :=
  (solvedNames σ solution).filter fun name => ((aliasesMap (canonicalAliases σ solution)).get? name).isNone

/-- `finalize`. -/
def finalize : ResolveState × BTreeMap Str (List Str) :=
  let aliases := canonicalAliases σ solution
  ((survivors σ solution).foldl (fun σ name =>
      match solution.get? name with
      | some version => modifyCandidate σ name version (redirect (aliasesMap aliases))
      | none => σ) σ,
    aliases)

/-! ### Nodes -/

/-- The version that is emitted: one that is unknown is flattened. -/
def emittedVersion (c : Candidate) : Version :=
  if !c.isRegistry && c.declaredVersionSource.isNone then .release 0 0 0 else c.version

/-- A name that a candidate requires, as it is shown. -/
def shownName (name : Str) : Str := (σ.depkeyForSolvedName name).solverVar

/-- The conditional requirements, sorted; `none` where the sort key does not exist. -/
def condRequiresOf (c : Candidate) : Option (List CondRequire) := do
  let conds := c.requiresPredicates.entries.flatMap fun e =>
    (e.2.filter fun ps => !ps.isEmpty).map fun ps => CondRequire.mk (shownName σ e.1) ps
  let keyed ← conds.mapM fun cr => (condRequireSortKey cr).map fun key => (key, cr)
  return (sortByKey Prod.fst keyed).map Prod.snd

/-- The record of what was fetched. -/
def observedRecord (c : Candidate) : ProvenanceRecord := c.provenance.getD (.local [] "observed")

/-- The records of a node: what was fetched, the mirrors that are declared, and what was fetched for the packages that are
folded into it. -/
def provenancesOf (canonicalAliases : BTreeMap Str (List Str)) (c : Candidate) : List ProvenanceRecord :=
  let refSpec :=
    match observedRecord c with
    | .git _ refSpec _ _ _ => refSpec
    | _ => none
  observedRecord c :: (c.declaredMirrorUrls.map fun url => .git url refSpec none "declared" []) ++
    ((canonicalAliases.get? c.name).getD []).filterMap fun other => (picked σ solution other).bind Candidate.provenance

/-- A member of the workspace. -/
def isMember (c : Candidate) : Bool :=
  match c.provenance with
  | some (.member ..) => true
  | _ => false

/-- The flags of a node: those of its identity, or else those that its manifest makes active by default. -/
def activeFlagsOf (c : Candidate) : List Str :=
  if isMember c then []
  else
    let recorded := σ.flagsOf c.identity
    if recorded.entries.isEmpty then
      match σ.manifestIn (σ.dirOf c.name) with
      | some manifest => (computeDepActiveFlags manifest.flags []).keys
      | none => []
    else recorded.keys

/-- The node of a candidate. -/
def resolvedDep (canonicalAliases : BTreeMap Str (List Str)) (c : Candidate) (condRequires : List CondRequire) : ResolvedDep :=
  let key := σ.depkeyForSolvedName c.name
  { name := key.name
    «namespace» := key.namespace
    identity := c.identity
    version := emittedVersion c
    srcDir := c.srcDir
    requires := c.requiresNames.map (shownName σ)
    provenances := provenancesOf σ solution canonicalAliases c
    depDecl := c.depDecl
    condRequires := condRequires
    aliases := sortByKey id (((canonicalAliases.get? c.name).getD []).map fun other => (σ.depkeyForSolvedName other).name)
    activeFlags := activeFlagsOf σ c
    attestation := c.attestation
    declaredVersionSource := c.declaredVersionSource.map VersionSource.asStr
    sourceId := σ.binding.bindings key }

/-- The check of a candidate, if it comes from the registry. -/
def checkTrust (trust : Option EntryTrust) (c : Candidate) : Except ResError Unit :=
  match trust with
  | some check => if c.isRegistry then check c (σ.depkeyForSolvedName c.name) else .ok ()
  | none => .ok ()

/-- A node, checked. -/
def buildNode (trust : Option EntryTrust) (canonicalAliases : BTreeMap Str (List Str)) (c : Candidate) : Except ResError ResolvedDep :=
  match condRequiresOf σ c with
  | none => .error .assertion
  | some conds => do
    checkTrust σ trust c
    return resolvedDep σ solution canonicalAliases c conds

/-- The names that a package of the solution requires. -/
def requiresOf (name : Str) : List Str := ((picked σ solution name).map Candidate.requiresNames).getD []

/-- `build_graph`. -/
def buildGraph (trust : Option EntryTrust) (canonicalAliases : BTreeMap Str (List Str)) : Except ResError (List ResolvedDep) := do
  let folded := aliasesMap canonicalAliases
  ((solvedNames σ solution).filter fun name => (folded.get? name).isSome).forM fun name =>
    match picked σ solution name with
    | some c => checkTrust σ trust c
    | none => .ok ()
  let chosen := (solvedNames σ solution).filter fun name => (folded.get? name).isNone
  ((Topo.order chosen (requiresOf σ solution)).filterMap (picked σ solution)).mapM (buildNode σ solution trust canonicalAliases)

/-- The graph of a solution. -/
def graphOf (trust : Option EntryTrust) : Except ResError (List ResolvedDep) :=
  let (σ, aliases) := finalize σ solution
  buildGraph σ solution trust aliases

/-! ### Directories -/

/-- The entries that a node has in `_deps/`: its directory and those of its aliases, each with the identity it links to. -/
def viewEntries (d : ResolvedDep) : List (Str × Str) :=
  match d.provenances.head? with
  | some (.member ..) | some (.local ..) => []
  | _ =>
    if d.identity.isEmpty then []
    else (depDirName d.name d.namespace, d.identity) :: d.aliases.map fun name => (name, d.identity)

/-- `rebuild_deps_view`, the entries that are expected. -/
def depsView (graph : List ResolvedDep) : BTreeMap Str Str :=
  (graph.flatMap viewEntries).foldl (fun m e => m.insert e.1 e.2) BTreeMap.empty

end Core.Resolver

end Milpa
