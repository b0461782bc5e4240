import Milpa.Core.Graph
import Milpa.Core.RootClaims
import Milpa.Posix.Lexical

/-!
# The compiler's configuration

`nimcfg.rs`: the text of `nim.cfg` for a package, and for each member of a workspace. A
path is the list of its components, from the root of the file system, as
`Path::components` has them; `join` is `PathBuf::join` on them. The lock of the table of
flags is a map.
-/

namespace Milpa.Core.Nimcfg

/-- `flag_defines`: the symbols of each flag of a dependency. -/
abbrev FlagDefines := BTreeMap Str (BTreeMap Str (List Str))

/-- `HEADER`. -/
def header : Str := "# generated by milpa; do not edit\n# manifest: milpa.kdl\n# lockfile: milpa.lock"

/-- A line for a path. -/
def pathLine (path : Str) : Str := "--path:\"" ++ path ++ "\""

/-- A line for a symbol. -/
def defineLine (symbol : Str) : Str := "-d:" ++ symbol

/-- The symbols of a flag that is active: without a list of them the name of the package and the flag. -/
def flagSymbols (flagDefines : FlagDefines) (name flag : Str) : List Str :=
  match (flagDefines.get? name).bind fun table => table.get? flag with
  | none => []
  | some [] => [name ++ "_" ++ flag]
  | some symbols => symbols

/-- `define_symbols`. -/
def defineSymbols (flagDefines : Option FlagDefines) (deps : List ResolvedDep) : List Str :=
  match flagDefines with
  | none => []
  | some flagDefines => sortByKey id (deps.flatMap fun dep => dep.activeFlags.flatMap (flagSymbols flagDefines dep.name))

/-- The block of the symbols, and the last line. -/
def trailer (symbols : List Str) : List Str := (if symbols.isEmpty then [] else [] :: symbols.map defineLine) ++ [[]]

/-- The lines of a text: what follows the paths is left out where there are none. -/
def textLines (paths symbols : List Str) : List Str :=
  header :: [] :: paths.map pathLine ++ if paths.isEmpty then [] else trailer symbols

/-- The text. -/
def render (paths symbols : List Str) : Str := ['\n'].intercalate (textLines paths symbols)

/-! ### A package -/

/-- `is_root_self_dep`. -/
def isRootSelfDep (dep : ResolvedDep) : Bool :=
  dep.provenances.any fun
    | .root _ _ => true
    | _ => false

/-- A directory below `deps_dir`, and the source directory below it. -/
def pathBelow (depsDir dir srcDir : Str) : Str := depsDir ++ "/" ++ dir ++ if srcDir.isEmpty then [] else '/' :: srcDir

/-- `path_for`. -/
def pathFor (dep : ResolvedDep) (depsDir : Str) : Str := pathBelow depsDir (depDirName dep.name dep.namespace) dep.srcDir

/-- The paths of a dependency: its own, and those of its aliases. -/
def depPaths (depsDir : Str) (dep : ResolvedDep) : List Str :=
  pathFor dep depsDir :: dep.aliases.map fun name => pathBelow depsDir name dep.srcDir

/-- The source directory of the package that is built, if it has one. -/
def selfPath (srcDir : Str) : List Str := if srcDir.isEmpty then [] else [srcDir]

/-- The dependencies in the order of their directories, without the root itself. -/
def orderedDeps (graph : List ResolvedDep) : List ResolvedDep :=
  (sortByKey (fun dep => depDirName dep.name dep.namespace) graph).filter fun dep => !isRootSelfDep dep

/-- `format_nimcfg`. -/
def formatNimcfg (graph : List ResolvedDep) (depsDir selfSrcDir : Str) (flagDefines : Option FlagDefines) : Str :=
  render (selfPath selfSrcDir ++ (orderedDeps graph).flatMap (depPaths depsDir)) (defineSymbols flagDefines (orderedDeps graph))

/-! ### Paths -/

/-- A path, as its components. -/
abbrev Components := List Str

/-- The components of a text: empty ones and `.` are dropped. -/
def components (text : Str) : Components := (text.split '/').filter fun c => decide (c ≠ [] ∧ c ≠ ['.'])

/-- `PathBuf::join`: what begins at the root replaces the directory. -/
def join (dir : Components) (text : Str) : Components := if text.head? = some '/' then components text else dir ++ components text

theorem components_append_slash (s t : Str) : components (s ++ '/' :: t) = components s ++ components t := by
  rw [components, Str.split, List.splitOn_append_cons_self, List.filter_append]
  rfl

/-- `posix`, of what `relpath` gives: `.` where the path is empty. -/
def posix (path : Components) : Str := if path.isEmpty then ['.'] else ['/'].intercalate path

/-- `relpath`. -/
def relpath (target base : Components) : Components := Lexical.relpath "..".toList target base

/-! ### A workspace -/

/-- `LoadedMember`, with its place. -/
structure PlacedMember extends LoadedMember where
  path : Str
  directory : Components

/-- `LoadedWorkspace`, with its place. -/
structure PlacedWorkspace where
  root : Components
  members : List PlacedMember

/-- `deps_dir`. -/
def PlacedWorkspace.depsDir (workspace : PlacedWorkspace) : Components := join workspace.root "_deps"

/-- `member_dir`. -/
def PlacedWorkspace.memberDir (workspace : PlacedWorkspace) (name : Str) : Option Components :=
  (workspace.members.reverse.find? fun m => decide (m.name = name)).map PlacedMember.directory

/-- The key of a node: as it is required. -/
def solverVar (dep : ResolvedDep) : Str := (DepKey.mk dep.name dep.namespace).solverVar

/-- `by_name`: the last node of a key. -/
def byName (graph : List ResolvedDep) (key : Str) : Option ResolvedDep := graph.reverse.find? fun dep => decide (solverVar dep = key)

/-- The keys that a key requires. -/
def requiresOf (graph : List ResolvedDep) (key : Str) : List Str := ((byName graph key).map ResolvedDep.requires).getD []

/-- `member_dep_closure`. -/
def memberDepClosure (graph : List ResolvedDep) (memberName : Str) : List ResolvedDep :=
  (Topo.reached (graph.map solverVar) (requiresOf graph) (requiresOf graph memberName)).filterMap (byName graph)

/-- The directory of a dependency, in `dep_target`. -/
def depBase (workspace : PlacedWorkspace) (dep : ResolvedDep) : Components :=
  (workspace.memberDir dep.name).getD (join workspace.depsDir dep.name)

/-- The source directory in a directory. -/
def withSrcDir (dir : Components) (srcDir : Str) : Components := if srcDir.isEmpty then dir else join dir srcDir

/-- `dep_target`. -/
def depTarget (workspace : PlacedWorkspace) (dep : ResolvedDep) : Components := withSrcDir (depBase workspace dep) dep.srcDir

/-- The dependencies of a member, in the order of their names. -/
def closureOf (graph : List ResolvedDep) (member : PlacedMember) : List ResolvedDep :=
  sortByKey ResolvedDep.name (memberDepClosure graph member.name)

/-- The path to a dependency, from a member. -/
def memberPath (workspace : PlacedWorkspace) (member : PlacedMember) (dep : ResolvedDep) : Components :=
  relpath (depTarget workspace dep) member.directory

/-- The text of a member, in `format_workspace_nimcfgs`. -/
def memberNimcfg (workspace : PlacedWorkspace) (graph : List ResolvedDep) (flagDefines : Option FlagDefines) (member : PlacedMember) :
    Str :=
  render (selfPath member.manifest.srcDir ++ (closureOf graph member).map fun dep => posix (memberPath workspace member dep))
    (defineSymbols flagDefines (closureOf graph member))

/-- `format_workspace_nimcfgs`. -/
def formatWorkspaceNimcfgs (workspace : PlacedWorkspace) (graph : List ResolvedDep) (flagDefines : Option FlagDefines) :
    List (Str × Str) :=
  workspace.members.map fun member => (member.path, memberNimcfg workspace graph flagDefines member)

end Milpa.Core.Nimcfg
