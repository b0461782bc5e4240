import Milpa.Core.NimcfgOptions

/-!
# The package that a symbol comes from

`build_flag_defines` reads the manifest of a dependency from the directory of its name and
namespace, and files its flags under the name alone. So a dependency gets its symbols from
the last one of its name that has a manifest, which is its own just where the two agree
(`emittedDefines_exact_iff`).
-/

namespace Milpa.Core.Nimcfg

/-- What `build_flag_defines` reads: the text of `milpa.kdl` in a directory of `deps_dir`, and `parse_document`, with the flags
of a text that is a package manifest. -/
structure Manifests where
  text : Str → Option Str
  parse : Str → Option (List FlagDecl)

variable {manifests : Manifests} {graph deps : List ResolvedDep} {depsDir selfSrcDir : Str}

/-- `flag_map`: of two flags of a name the last counts. -/
def flagMap (flags : List FlagDecl) : BTreeMap Str (List Str) := flags.foldl (fun m f => m.insert f.name f.defines) .empty

/-- The flags of the manifest in the directory of a dependency. -/
def ownFlags (manifests : Manifests) (dep : ResolvedDep) : Option (BTreeMap Str (List Str)) :=
  ((manifests.text (depDirName dep.name dep.namespace)).bind manifests.parse).map flagMap

/-- The body of the loop of `build_flag_defines`. -/
def addFlagDefines (manifests : Manifests) (result : FlagDefines) (dep : ResolvedDep) : FlagDefines :=
  match ownFlags manifests dep with
  | some flags => result.insert dep.name flags
  | none => result

/-- `build_flag_defines`. -/
def buildFlagDefines (graph : List ResolvedDep) (manifests : Manifests) : FlagDefines :=
  graph.foldl (addFlagDefines manifests) .empty

/-! ### What is emitted -/

/-- `lines`, in `format_nimcfg`. -/
def nimcfgLines (graph : List ResolvedDep) (depsDir selfSrcDir : Str) (flagDefines : Option FlagDefines) : List Str :=
  textLines (selfPath selfSrcDir ++ (orderedDeps graph).flatMap (depPaths depsDir)) (defineSymbols flagDefines (orderedDeps graph))

theorem formatNimcfg_eq (graph : List ResolvedDep) (depsDir selfSrcDir : Str) (flagDefines : Option FlagDefines) :
    formatNimcfg graph depsDir selfSrcDir flagDefines = ['\n'].intercalate (nimcfgLines graph depsDir selfSrcDir flagDefines) := rfl

/-- The symbols of the lines that have one. -/
def definesOf (lines : List Str) : List Str := lines.filterMap fun line => line.stripPrefix "-d:"

theorem definesOf_pathLines (paths : List Str) : definesOf (paths.map pathLine) = [] := by
  rw [definesOf, List.filterMap_map]
  exact List.filterMap_eq_nil_iff.mpr fun path _ => rfl

theorem definesOf_defineLines (symbols : List Str) : definesOf (symbols.map defineLine) = symbols := by
  rw [definesOf, List.filterMap_map]
  exact List.filterMap_some

theorem definesOf_append (a b : List Str) : definesOf (a ++ b) = definesOf a ++ definesOf b := List.filterMap_append

theorem definesOf_textLines (paths symbols : List Str) : definesOf (textLines paths symbols) = if paths.isEmpty then [] else symbols := by
  have hstart : definesOf (header :: [] :: paths.map pathLine) = [] := definesOf_pathLines paths
  have htrailer : definesOf (trailer symbols) = symbols := by
    cases symbols with
    | nil => rfl
    | cons s symbols =>
      calc definesOf (trailer (s :: symbols)) = definesOf ((s :: symbols).map defineLine ++ [[]]) := rfl
        _ = definesOf ((s :: symbols).map defineLine) := by rw [definesOf_append]; exact List.append_nil _
        _ = s :: symbols := definesOf_defineLines _
  calc definesOf (textLines paths symbols)
      = definesOf (header :: [] :: paths.map pathLine) ++ definesOf (if paths.isEmpty then [] else trailer symbols) := definesOf_append _ _
    _ = if paths.isEmpty then [] else symbols := by
      rw [hstart]
      split_ifs
      · rfl
      · exact htrailer

/-- The symbols that are emitted are those that were collected: where there is no path there is no dependency. -/
theorem definesOf_nimcfgLines (flagDefines : Option FlagDefines) :
    definesOf (nimcfgLines graph depsDir selfSrcDir flagDefines) = defineSymbols flagDefines (orderedDeps graph) := by
  rw [nimcfgLines, definesOf_textLines]
  split_ifs with hempty
  · have hdeps : orderedDeps graph = [] := by
      have hpaths := (List.append_eq_nil_iff.mp (List.isEmpty_iff.mp hempty)).2
      refine List.eq_nil_iff_forall_not_mem.mpr fun dep hdep => ?_
      have := List.flatMap_eq_nil_iff.mp hpaths dep hdep
      exact List.cons_ne_nil _ _ this
    rw [hdeps]
    cases flagDefines <;> rfl
  · rfl

/-! ### Namesakes -/

/-- The symbols of a flag by the table of a package: without a list of them the name of the package and the flag. -/
def declaredSymbols (table : Option (BTreeMap Str (List Str))) (name flag : Str) : List Str :=
  match table.bind fun table => table.get? flag with
  | none => []
  | some [] => [name ++ "_" ++ flag]
  | some symbols => symbols

/-- The symbols of a dependency by its own manifest. -/
def ownSymbols (manifests : Manifests) (dep : ResolvedDep) : List Str :=
  dep.activeFlags.flatMap (declaredSymbols (ownFlags manifests dep) dep.name)

/-- The last dependency of a name that has a manifest. -/
def lastDescribed (graph : List ResolvedDep) (manifests : Manifests) (name : Str) : Option ResolvedDep :=
  graph.reverse.find? fun dep => decide (dep.name = name) && (ownFlags manifests dep).isSome

theorem get?_foldl_addFlagDefines (l : List ResolvedDep) (result : FlagDefines) (name : Str) :
    (l.foldl (addFlagDefines manifests) result).get? name =
      ((lastDescribed l manifests name).bind (ownFlags manifests)).or (result.get? name) := by
  induction l using List.reverseRecOn with
  | nil => rfl
  | append_singleton l dep ih =>
    rw [List.foldl_append, List.foldl_cons, List.foldl_nil, addFlagDefines, lastDescribed, List.reverse_append]
    change _ = Option.or (Option.bind ((dep :: l.reverse).find? _) _) _
    cases hown : ownFlags manifests dep with
    | none =>
      rw [List.find?_cons_of_neg (by simp [hown])]
      exact ih
    | some flags =>
      dsimp only
      rw [BTreeMap.get?_insert]
      by_cases hname : dep.name = name
      · rw [if_pos hname.symm, List.find?_cons_of_pos (by simp [hown, hname])]
        simp [hown]
      · rw [if_neg (Ne.symm hname), List.find?_cons_of_neg (by simp [hname])]
        exact ih

/-- The table of a name is that of the last dependency of the name that has a manifest. -/
theorem get?_buildFlagDefines (graph : List ResolvedDep) (manifests : Manifests) (name : Str) :
    (buildFlagDefines graph manifests).get? name = (lastDescribed graph manifests name).bind (ownFlags manifests) := by
  rw [buildFlagDefines, get?_foldl_addFlagDefines]
  exact Option.or_none

theorem lastDescribed_isSome {dep : ResolvedDep} (hdep : dep ∈ graph) {flags : BTreeMap Str (List Str)}
    (hown : ownFlags manifests dep = some flags) : (lastDescribed graph manifests dep.name).isSome = true :=
  List.find?_isSome.mpr ⟨dep, List.mem_reverse.mpr hdep, by simp [hown]⟩

/-- The last dependency of the name that has a manifest gives each flag that is active the symbols that the manifest of the
dependency itself gives it. -/
def NamesakesAgree (graph : List ResolvedDep) (manifests : Manifests) (deps : List ResolvedDep) : Prop :=
  ∀ dep ∈ deps, ∀ last ∈ lastDescribed graph manifests dep.name, ∀ flag ∈ dep.activeFlags,
    declaredSymbols (ownFlags manifests last) dep.name flag = declaredSymbols (ownFlags manifests dep) dep.name flag

/-- Each dependency contributes the symbols of its own flags, by its own manifest. -/
def ContributeOwn (graph : List ResolvedDep) (manifests : Manifests) (deps : List ResolvedDep) : Prop :=
  ∀ dep ∈ deps, ∀ flag ∈ dep.activeFlags,
    flagSymbols (buildFlagDefines graph manifests) dep.name flag = declaredSymbols (ownFlags manifests dep) dep.name flag

theorem flagSymbols_eq (flagDefines : FlagDefines) (name flag : Str) :
    flagSymbols flagDefines name flag = declaredSymbols (flagDefines.get? name) name flag := rfl

theorem contributeOwn_iff (hdeps : ∀ dep ∈ deps, dep ∈ graph) : ContributeOwn graph manifests deps ↔ NamesakesAgree graph manifests deps := by
  refine forall₂_congr fun dep hdep => ?_
  simp only [flagSymbols_eq, get?_buildFlagDefines]
  cases hlast : lastDescribed graph manifests dep.name with
  | none =>
    have hown : ownFlags manifests dep = none := by
      cases hown : ownFlags manifests dep with
      | none => rfl
      | some flags =>
        have := lastDescribed_isSome (hdeps dep hdep) hown
        rw [hlast] at this
        cases this
    simp [hown]
  | some last => simp

theorem defineSymbols_perm (h : ContributeOwn graph manifests deps) :
    (defineSymbols (some (buildFlagDefines graph manifests)) deps).Perm (deps.flatMap (ownSymbols manifests)) := by
  have hlist : (deps.flatMap fun dep => dep.activeFlags.flatMap (flagSymbols (buildFlagDefines graph manifests) dep.name)) =
      deps.flatMap (ownSymbols manifests) :=
    List.flatMap_congr fun dep hdep => List.flatMap_congr fun flag hflag => h dep hdep flag hflag
  rw [defineSymbols, hlist]
  exact sortByKey_perm _ _

/-- The dependencies of a graph but for the root itself. -/
def properDeps (graph : List ResolvedDep) : List ResolvedDep := graph.filter fun dep => !isRootSelfDep dep

theorem orderedDeps_perm (graph : List ResolvedDep) : (orderedDeps graph).Perm (properDeps graph) :=
  (sortByKey_perm _ graph).filter _

/-- The symbols in the text are those that the manifests of the dependencies declare for their active flags, each as often as it is
declared, and each dependency contributes those of its own manifest. -/
def DefinesExact (graph : List ResolvedDep) (manifests : Manifests) (depsDir selfSrcDir : Str) : Prop :=
  (definesOf (nimcfgLines graph depsDir selfSrcDir (some (buildFlagDefines graph manifests)))).Perm
      ((properDeps graph).flatMap (ownSymbols manifests)) ∧
    ContributeOwn graph manifests (properDeps graph)

/-- **Defines come from the right package exactly where namesakes agree.** -/
theorem definesExact_iff (graph : List ResolvedDep) (manifests : Manifests) (depsDir selfSrcDir : Str) :
    DefinesExact graph manifests depsDir selfSrcDir ↔ NamesakesAgree graph manifests (properDeps graph) := by
  have hgraph : ∀ dep ∈ properDeps graph, dep ∈ graph := fun dep hdep => (List.mem_filter.mp hdep).1
  rw [← contributeOwn_iff hgraph]
  refine ⟨And.right, fun h => ⟨?_, h⟩⟩
  have hordered : ContributeOwn graph manifests (orderedDeps graph) := fun dep hdep =>
    h dep ((orderedDeps_perm graph).mem_iff.mp hdep)
  rw [definesOf_nimcfgLines]
  exact (defineSymbols_perm hordered).trans ((orderedDeps_perm graph).flatMap_right _)

/-- Two packages of one name: each has a flag that is active, and its own symbol for it. -/
def namesakes : List ResolvedDep :=
  let node (ns : Str) : ResolvedDep := ⟨"x", some ns, "sha256:" ++ ns, .release 1 0 0, [], [], [], none, [], [], ["f"], none, none, none⟩
  [node "a", node "b"]

/-- The manifest of a package `x` with a flag `f` for a symbol. -/
def namesakeText (symbol : Str) : Str := "name \"x\"\nflags \x7b f \x7b defines \"" ++ symbol ++ "\"; \x7d \x7d\n"

/-- Their directories. -/
def namesakeManifests : Manifests where
  text entry :=
    if entry = "@a/x".toList then some (namesakeText "FROM_A")
    else if entry = "@b/x".toList then some (namesakeText "FROM_B") else none
  parse text :=
    if text = namesakeText "FROM_A" then some [⟨"f", false, [], ["FROM_A"], [], [], []⟩]
    else if text = namesakeText "FROM_B" then some [⟨"f", false, [], ["FROM_B"], [], [], []⟩] else none

/-- **The symbol of the one is lost, and that of the other is there twice.** -/
theorem namesake_defines_lost :
    definesOf (nimcfgLines namesakes "_deps" [] (some (buildFlagDefines namesakes namesakeManifests))) = ["FROM_B".toList, "FROM_B".toList] ∧
      ¬ (definesOf (nimcfgLines namesakes "_deps" [] (some (buildFlagDefines namesakes namesakeManifests)))).Perm
        ((properDeps namesakes).flatMap (ownSymbols namesakeManifests)) := by
  have hemitted : definesOf (nimcfgLines namesakes "_deps" [] (some (buildFlagDefines namesakes namesakeManifests))) =
      ["FROM_B".toList, "FROM_B".toList] := by decide
  have hown : (properDeps namesakes).flatMap (ownSymbols namesakeManifests) = ["FROM_A".toList, "FROM_B".toList] := by decide
  refine ⟨hemitted, fun hperm => ?_⟩
  rw [hemitted, hown] at hperm
  exact absurd (hperm.mem_iff.mpr List.mem_cons_self) (by decide)

theorem mem_of_mem_memberDepClosure {name : Str} {dep : ResolvedDep} (h : dep ∈ memberDepClosure graph name) : dep ∈ graph := by
  obtain ⟨key, -, hkey⟩ := List.mem_filterMap.mp h
  exact List.mem_reverse.mp (List.mem_of_find?_eq_some hkey)

/-- The text of a member of a workspace is no different. -/
theorem memberDefines_perm {member : PlacedMember}
    (h : NamesakesAgree graph manifests (closureOf graph member)) :
    (defineSymbols (some (buildFlagDefines graph manifests)) (closureOf graph member)).Perm
      ((closureOf graph member).flatMap (ownSymbols manifests)) :=
  defineSymbols_perm ((contributeOwn_iff fun _ hdep => mem_of_mem_memberDepClosure (mem_sortByKey.mp hdep)).mpr h)

end Milpa.Core.Nimcfg
