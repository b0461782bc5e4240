import Milpa.Core.Nimcfg

/-!
# What a member's configuration lists

The paths of a member's `nim.cfg`, against the directories that `rebuild_deps_view` and the
workspace put its dependencies into. They are the same exactly for members that no cycle
leads back to, and whose dependencies have no namespace, no aliases and no member's name
(`matches_iff`): the renderer names the directory by the bare name.
-/

namespace Milpa.Core.Nimcfg

open Relation

variable {workspace : PlacedWorkspace} {graph : List ResolvedDep} {member : PlacedMember} {dep : ResolvedDep}

/-! ### What there is to list -/

/-- A key requires another one. -/
def Requires (graph : List ResolvedDep) (key key' : Str) : Prop := key' ∈ requiresOf graph key

/-- The member leads to a dependency through what is required. -/
def Reachable (graph : List ResolvedDep) (member : PlacedMember) (dep : ResolvedDep) : Prop :=
  ∃ key, TransGen (Requires graph) member.name key ∧ byName graph key = some dep

/-- The directories that a dependency is put into: that of the member it is, the link to a local directory, or its entries in
`_deps/`. -/
def slots (workspace : PlacedWorkspace) (dep : ResolvedDep) : List Components :=
  match dep.provenances.head? with
  | some (.member ..) => (workspace.memberDir dep.name).toList
  | some (.local ..) => [join workspace.depsDir dep.name]
  | _ => (Resolver.viewEntries dep).map fun e => join workspace.depsDir e.1

/-- What a member's text lists: the dependencies, each with the directory that the path is to. -/
def listed (workspace : PlacedWorkspace) (graph : List ResolvedDep) (member : PlacedMember) : List (ResolvedDep × Components) :=
  (closureOf graph member).map fun dep => (dep, depBase workspace dep)

/-- Where a component path leads from the root. -/
def leads (path : Components) : Components := Lexical.walk "..".toList [] path

/-- A member's configuration matches the layout: each dependency that the member leads to, but the member, is listed once for each
of its directories, and nothing else is; and the path that is written leads to the directory. -/
structure Matches (workspace : PlacedWorkspace) (graph : List ResolvedDep) (member : PlacedMember) : Prop where
  once : (listed workspace graph member).Nodup
  exactly : ∀ dep dir, (dep, dir) ∈ listed workspace graph member ↔
    Reachable graph member dep ∧ byName graph member.name ≠ some dep ∧ dir ∈ slots workspace dep
  reached : ∀ e ∈ listed workspace graph member,
    leads (member.directory ++ relpath (withSrcDir e.2 e.1.srcDir) member.directory) = leads (withSrcDir e.2 e.1.srcDir)

/-! ### The walk -/

theorem solverVar_of_byName {key : Str} (h : byName graph key = some dep) : solverVar dep = key := by
  simpa using List.find?_some h

theorem mem_of_byName {key : Str} (h : byName graph key = some dep) : dep ∈ graph := List.mem_reverse.mp (List.mem_of_find?_eq_some h)

theorem mem_keys_of_byName {key : Str} (h : byName graph key = some dep) : key ∈ graph.map solverVar :=
  List.mem_map.mpr ⟨dep, mem_of_byName h, solverVar_of_byName h⟩

theorem byName_isSome {key : Str} (h : key ∈ graph.map solverVar) : ∃ dep, byName graph key = some dep := by
  obtain ⟨dep, hdep, hkey⟩ := List.mem_map.mp h
  exact Option.isSome_iff_exists.mp (List.find?_isSome.mpr ⟨dep, List.mem_reverse.mpr hdep, by simpa using hkey⟩)

/-- The walk finds what the member leads to. -/
theorem mem_closureOf : dep ∈ closureOf graph member ↔ Reachable graph member dep := by
  rw [closureOf, mem_sortByKey, memberDepClosure, List.mem_filterMap]
  constructor
  · rintro ⟨key, hkey, hdep⟩
    obtain ⟨start, hstart, -, hpath⟩ := (Topo.mem_reached _ _ _).mp hkey
    refine ⟨key, ?_, hdep⟩
    have hleads : ReflTransGen (Requires graph) start key := hpath.lift id fun a b h => h.1
    exact .head' (show Requires graph member.name start from hstart) hleads
  · rintro ⟨key, hpath, hdep⟩
    refine ⟨key, (Topo.mem_reached _ _ _).mpr ?_, hdep⟩
    have hkey := mem_keys_of_byName hdep
    clear hdep
    induction hpath with
    | single h => exact ⟨_, h, hkey, .refl⟩
    | @tail b c _ h ih =>
      -- what requires something is a node
      have hb : b ∈ graph.map solverVar := by
        cases hnamed : byName graph b with
        | none =>
          rw [Requires, requiresOf, hnamed] at h
          cases h
        | some dep => exact mem_keys_of_byName hnamed
      obtain ⟨start, hstart, hnode, hpath⟩ := ih hb
      exact ⟨start, hstart, hnode, hpath.tail ⟨h, hkey⟩⟩

theorem nodup_closureOf : (closureOf graph member).Nodup := by
  rw [closureOf, (sortByKey_perm _ _).nodup_iff, memberDepClosure]
  refine (Topo.nodup_reached _ _).filterMap fun a b dep ha hb => ?_
  exact (solverVar_of_byName ha).symm.trans (solverVar_of_byName hb)

/-! ### Directories -/

/-- A dependency whose directory the renderer finds. -/
def Laid (workspace : PlacedWorkspace) (dep : ResolvedDep) : Prop :=
  match dep.provenances.head? with
  | some (.member ..) => (workspace.memberDir dep.name).isSome
  | some (.local ..) => ∀ dir, workspace.memberDir dep.name = some dir → dir = join workspace.depsDir dep.name
  | _ =>
    dep.identity ≠ [] ∧
      (match workspace.memberDir dep.name with
        | none => dep.namespace = none
        | some dir => dir = join workspace.depsDir (depDirName dep.name dep.namespace)) ∧
      ∀ name ∈ dep.aliases, join workspace.depsDir name = join workspace.depsDir (depDirName dep.name dep.namespace)

/-- A text that begins with neither `/` nor `.` has a component. -/
theorem components_at_ne_nil (ns : Str) : components ('@' :: ns) ≠ [] := by
  rw [components, Str.split, List.splitOn_cons_eq_if_modifyHead, if_neg (by decide)]
  cases hsplit : List.splitOn '/' ns with
  | nil => exact absurd hsplit (List.splitOn_ne_nil _ _)
  | cons c cs => simp

/-- The directory of a namespace is not that of the bare name. -/
theorem join_depDirName_ne (dir : Components) (name ns : Str) : join dir (depDirName name (some ns)) ≠ join dir name := by
  have hname : depDirName name (some ns) = ('@' :: ns) ++ '/' :: name := by simp [depDirName]
  have hpos : 0 < (components ('@' :: ns)).length := List.length_pos_iff.mpr (components_at_ne_nil ns)
  intro heq
  have hlength := congrArg List.length heq
  rw [hname, join, join, components_append_slash, if_neg (by simp)] at hlength
  split_ifs at hlength
  · simp only [List.length_append] at hlength
    omega
  · simp only [List.length_append] at hlength
    omega

/-- The renderer finds the directory of a dependency exactly when the dependency is in this directory, and in no other one. -/
theorem laid_iff : Laid workspace dep ↔ ∀ dir, dir ∈ slots workspace dep ↔ dir = depBase workspace dep := by
  unfold Laid slots depBase Resolver.viewEntries
  split
  · cases workspace.memberDir dep.name with
    | none => simp
    | some dir => simp
  · cases workspace.memberDir dep.name with
    | none => simp
    | some dir =>
      simp only [Option.some.injEq, forall_eq', Option.getD_some, List.mem_singleton]
      constructor
      · rintro rfl other
        exact Iff.rfl
      · exact fun h => (h dir).mpr rfl
  · next hmember hlocal =>
    by_cases hidentity : dep.identity = []
    · simp [hidentity]
    -- one slot for the name, and one for each alias
    set slot := join workspace.depsDir (depDirName dep.name dep.namespace) with hslot
    set base := (workspace.memberDir dep.name).getD (join workspace.depsDir dep.name) with hbase
    have hnamed : (match workspace.memberDir dep.name with
        | none => dep.namespace = none
        | some dir => dir = slot) ↔ slot = base := by
      rw [hslot, hbase]
      cases workspace.memberDir dep.name with
      | none =>
        cases dep.namespace with
        | none => simp [depDirName]
        | some ns => simpa using join_depDirName_ne workspace.depsDir dep.name ns
      | some dir => exact eq_comm
    rw [hnamed]
    split
    · next h => exact (hmember _ _ h).elim
    · next h => exact (hlocal _ _ h).elim
    rw [if_neg (by simpa using hidentity)]
    simp only [List.map_cons, List.map_map, List.mem_cons, List.mem_map, Function.comp_apply]
    constructor
    · rintro ⟨-, heq, haliases⟩ dir
      constructor
      · rintro (rfl | ⟨name, hname, rfl⟩)
        · exact heq
        · exact (haliases name hname).trans heq
      · rintro rfl
        exact .inl heq.symm
    · intro h
      have heq : slot = base := (h slot).mp (.inl rfl)
      exact ⟨hidentity, heq, fun name hname => ((h _).mp (.inr ⟨name, hname, rfl⟩)).trans heq.symm⟩

/-! ### What is listed -/

theorem mem_listed {dir : Components} :
    (dep, dir) ∈ listed workspace graph member ↔ Reachable graph member dep ∧ dir = depBase workspace dep := by
  rw [listed, List.mem_map, ← mem_closureOf]
  constructor
  · rintro ⟨dep', hdep', heq⟩
    obtain ⟨rfl, rfl⟩ := Prod.mk.inj heq
    exact ⟨hdep', rfl⟩
  · rintro ⟨hdep, rfl⟩
    exact ⟨dep, hdep, rfl⟩

theorem nodup_listed : (listed workspace graph member).Nodup :=
  nodup_closureOf.map fun _ _ h => (Prod.mk.inj h).1

/-- The directory of a member leads back to what it has in common with the target: no `..` is below that, or the target leaves all of
it. -/
def Returns (target directory : Components) : Prop :=
  "..".toList ∉ directory.drop (Lexical.common target directory) ∨
    (leads (target.take (Lexical.common target directory))).length ≤
      (Lexical.net "..".toList (target.drop (Lexical.common target directory))).1

/-- The text of a member has the paths that are listed. -/
theorem memberNimcfg_eq (flagDefines : Option FlagDefines) :
    memberNimcfg workspace graph flagDefines member =
      render (selfPath member.manifest.srcDir ++
          (listed workspace graph member).map fun e => posix (relpath (withSrcDir e.2 e.1.srcDir) member.directory))
        (defineSymbols flagDefines (closureOf graph member)) := by
  rw [listed, List.map_map]
  rfl

theorem leads_relpath_iff (target directory : Components) :
    leads (directory ++ relpath target directory) = leads target ↔ Returns target directory :=
  Lexical.walk_relpath_iff target directory

/-- **What a member's configuration lists.** It matches the layout exactly when nothing leads back to the member, the renderer finds
the directory of each dependency, and the way there returns from the member's directory. -/
theorem matches_iff (workspace : PlacedWorkspace) (graph : List ResolvedDep) (member : PlacedMember) :
    Matches workspace graph member ↔ ∀ dep, Reachable graph member dep →
      byName graph member.name ≠ some dep ∧ Laid workspace dep ∧ Returns (depTarget workspace dep) member.directory := by
  constructor
  · intro h dep hdep
    have hself : byName graph member.name ≠ some dep := ((h.exactly dep _).mp (mem_listed.mpr ⟨hdep, rfl⟩)).2.1
    refine ⟨hself, laid_iff.mpr fun dir => ?_, (leads_relpath_iff _ _).mp ?_⟩
    · calc dir ∈ slots workspace dep
          ↔ Reachable graph member dep ∧ byName graph member.name ≠ some dep ∧ dir ∈ slots workspace dep := by simp [hdep, hself]
        _ ↔ (dep, dir) ∈ listed workspace graph member := (h.exactly dep dir).symm
        _ ↔ dir = depBase workspace dep := by rw [mem_listed, and_iff_right hdep]
    · exact h.reached _ (mem_listed.mpr ⟨hdep, rfl⟩)
  · intro h
    refine ⟨nodup_listed, fun dep dir => ?_, fun e he => ?_⟩
    · rw [mem_listed]
      constructor
      · rintro ⟨hdep, hdir⟩
        obtain ⟨hself, hlaid, -⟩ := h dep hdep
        exact ⟨hdep, hself, (laid_iff.mp hlaid dir).mpr hdir⟩
      · rintro ⟨hdep, -, hdir⟩
        exact ⟨hdep, (laid_iff.mp (h dep hdep).2.1 dir).mp hdir⟩
    · obtain ⟨dep, dir⟩ := e
      obtain ⟨hdep, rfl⟩ := mem_listed.mp he
      exact (leads_relpath_iff _ _).mpr (h dep hdep).2.2

/-! ### A namespace -/

/-- A node without aliases. -/
def plainNode (name : Str) (ns : Option Str) (identity : Str) (requires : List Str) (record : ProvenanceRecord) : ResolvedDep :=
  { name := name, «namespace» := ns, identity := identity, version := .release 1 0 0, srcDir := [], requires := requires,
    provenances := [record], depDecl := none, condRequires := [], aliases := [], activeFlags := [], attestation := none,
    declaredVersionSource := none, sourceId := none }

/-- A member that requires `lib` of `acme`. -/
def acmeUser : PlacedMember :=
  { name := "app", manifest := { Manifest.initial with name := some "app" }, path := "app", directory := ["w", "app"] }

/-- `lib` of `acme`. -/
def acmeLib : ResolvedDep := plainNode "lib" (some "acme") "sha256:a" [] (.oci "r" "acme/lib" "sha256:d" "index")

/-- The graph of the member. -/
def acmeGraph : List ResolvedDep := [acmeLib, plainNode "app" none [] ["acme::lib"] (.member "app" "workspace")]

/-- The path is to `_deps/lib`, but the directory is `_deps/@acme/lib`. -/
theorem namespace_mismatch : ¬ Matches ⟨["w"], [acmeUser]⟩ acmeGraph acmeUser := by
  intro h
  have hreachable : Reachable acmeGraph acmeUser acmeLib :=
    ⟨"acme::lib", .single (by unfold Requires; decide), by decide⟩
  have hlisted := (h.exactly acmeLib ["w", "_deps", "@acme", "lib"]).mpr ⟨hreachable, by decide, by decide⟩
  revert hlisted
  decide

end Milpa.Core.Nimcfg
