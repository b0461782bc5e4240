import Milpa.Core.GraphExact
import Milpa.Core.Nimcfg
import Milpa.Kdl.Document
import Milpa.Types.OptionText

/-!
# What the compiler reads

The text of `nim.cfg`, read line by line as options again. The paths and the symbols come
back exactly when no name and no source directory holds a quotation mark or the end of a
line, and no symbol a blank, a quotation mark or `#` (`read_formatNimcfg_iff`): nothing is
quoted by the renderer, and `contains_unsafe_char` lets a quotation mark pass.
-/

namespace Milpa.Core.Nimcfg

open OptionText Resolver

variable {paths symbols : List Str} {graph : List ResolvedDep} {depsDir selfSrcDir : Str} {flagDefines : Option FlagDefines}

/-- The options of a text. -/
def readOptions (text : Str) : List Opt := read "--path:" "-d:" text

/-- The options that are meant. -/
def optionsOf (paths symbols : List Str) : List Opt := paths.map .quoted ++ symbols.map .bare

/-! ### A text -/

theorem pathLine_eq (path : Str) : pathLine path = "--path:".toList ++ '"' :: (path ++ ['"']) := by
  have hbegin : "--path:\"".toList = "--path:".toList ++ ['"'] := by decide
  calc pathLine path = "--path:\"".toList ++ path ++ ['"'] := rfl
    _ = "--path:".toList ++ ['"'] ++ path ++ ['"'] := congrArg (fun s => s ++ path ++ ['"']) hbegin
    _ = "--path:".toList ++ '"' :: (path ++ ['"']) := by
      rw [List.append_assoc, List.append_assoc]
      rfl

theorem readOptions_pathLine {path : Str} (h : Quotable path) : readOptions (pathLine path) = [.quoted path] := by
  have hkey : Plain "--path:" := by decide
  rw [pathLine_eq]
  exact read_quoted hkey h

theorem readOptions_defineLine {symbol : Str} (h : Plain symbol) : readOptions (defineLine symbol) = [.bare symbol] := by
  have hkey : Plain "-d:" := by decide
  exact read_bare hkey (by simp) h

theorem readOptions_header : readOptions header = [] := by decide

theorem flatMap_singleton {α β γ : Type} {f : β → List γ} {line : α → β} {opt : α → γ} {l : List α}
    (h : ∀ a ∈ l, f (line a) = [opt a]) : (l.map line).flatMap f = l.map opt := by
  rw [List.flatMap_map, ← List.flatMap_pure_eq_map]
  exact List.flatMap_congr h

theorem readOptions_nil : readOptions [] = [] := rfl

theorem readOptions_render (hpaths : ∀ path ∈ paths, Quotable path) (hsymbols : ∀ symbol ∈ symbols, Plain symbol)
    (hempty : paths = [] → symbols = []) : readOptions (render paths symbols) = optionsOf paths symbols := by
  have hlines : (paths.map pathLine).flatMap readOptions = paths.map .quoted :=
    flatMap_singleton fun path hpath => readOptions_pathLine (hpaths path hpath)
  have hdefines : (symbols.map defineLine).flatMap readOptions = symbols.map .bare :=
    flatMap_singleton fun symbol hsymbol => readOptions_defineLine (hsymbols symbol hsymbol)
  have htext : readOptions (render paths symbols) = (textLines paths symbols).flatMap readOptions := read_lines _
  rw [htext, textLines, List.cons_append, List.cons_append, List.flatMap_cons, List.flatMap_cons, readOptions_header, readOptions_nil,
    List.nil_append, List.nil_append, List.flatMap_append, hlines, optionsOf, List.append_right_inj]
  by_cases hnone : paths = []
  · rw [hnone, hempty hnone]
    rfl
  · rw [if_neg (by simpa using hnone), trailer, List.flatMap_append]
    by_cases hbare : symbols = []
    · rw [hbare]
      rfl
    · rw [if_neg (by simpa using hbare), List.flatMap_cons, readOptions_nil, List.nil_append, hdefines, List.flatMap_singleton,
        readOptions_nil, List.append_nil]

/-- A text is read as it was meant exactly when nothing in it ends an argument. -/
theorem readOptions_render_iff (hempty : paths = [] → symbols = []) :
    readOptions (render paths symbols) = optionsOf paths symbols ↔
      (∀ path ∈ paths, Quotable path) ∧ ∀ symbol ∈ symbols, Plain symbol := by
  constructor
  · intro h
    constructor
    · intro path hpath
      have hread : .quoted path ∈ readOptions (render paths symbols) := by
        rw [h]
        exact List.mem_append_left _ (List.mem_map_of_mem hpath)
      exact quotable_of_mem_read hread
    · intro symbol hsymbol
      have hread : .bare symbol ∈ readOptions (render paths symbols) := by
        rw [h]
        exact List.mem_append_right _ (List.mem_map_of_mem hsymbol)
      exact plain_of_mem_read (by decide) hread
  · exact fun h => readOptions_render h.1 h.2 hempty

/-! ### A package -/

/-- Nothing in the names and the directories of a dependency ends a quoted argument. -/
structure QuotableDep (depsDir : Str) (dep : ResolvedDep) : Prop where
  depsDir : Quotable depsDir
  name : Quotable dep.name
  «namespace» : ∀ ns ∈ dep.namespace, Quotable ns
  srcDir : Quotable dep.srcDir
  aliases : ∀ name ∈ dep.aliases, Quotable name

/-- Nothing that the configuration of a package is made of ends an argument. -/
structure Inert (graph : List ResolvedDep) (depsDir selfSrcDir : Str) (flagDefines : Option FlagDefines) : Prop where
  self : Quotable selfSrcDir
  deps : ∀ dep ∈ graph, isRootSelfDep dep = false → QuotableDep depsDir dep
  symbols : ∀ defines ∈ flagDefines, ∀ dep ∈ graph, isRootSelfDep dep = false →
    ∀ flag ∈ dep.activeFlags, ∀ symbol ∈ flagSymbols defines dep.name flag, Plain symbol

theorem quotable_pathBelow {dir srcDir : Str} :
    Quotable (pathBelow depsDir dir srcDir) ↔ Quotable depsDir ∧ Quotable dir ∧ Quotable srcDir := by
  have hslash : Quotable "/".toList := by decide
  rw [pathBelow, quotable_append, quotable_append, quotable_append, and_iff_left hslash, and_assoc]
  cases srcDir with
  | nil => simp
  | cons c srcDir =>
    have hchar : isLineEnd '/' = false ∧ '/' ≠ '"' := by decide
    rw [if_neg (by simp), quotable_cons, and_iff_right hchar]

theorem quotable_depDirName {name : Str} {ns : Option Str} :
    Quotable (depDirName name ns) ↔ Quotable name ∧ ∀ n ∈ ns, Quotable n := by
  cases ns with
  | none => simp [depDirName]
  | some ns =>
    have hat : Quotable "@".toList := by decide
    have hslash : Quotable "/".toList := by decide
    rw [depDirName, quotable_append, quotable_append, quotable_append, and_iff_right hat, and_iff_left hslash]
    simp [and_comm]

theorem quotable_depPaths {dep : ResolvedDep} : (∀ path ∈ depPaths depsDir dep, Quotable path) ↔ QuotableDep depsDir dep := by
  rw [depPaths, List.forall_mem_cons, List.forall_mem_map, pathFor, quotable_pathBelow, quotable_depDirName]
  constructor
  · rintro ⟨⟨hdepsDir, ⟨hname, hns⟩, hsrcDir⟩, haliases⟩
    exact ⟨hdepsDir, hname, hns, hsrcDir, fun name hmem => (quotable_pathBelow.mp (haliases name hmem)).2.1⟩
  · intro h
    refine ⟨⟨h.depsDir, ⟨h.name, h.namespace⟩, h.srcDir⟩, fun name hmem => ?_⟩
    exact quotable_pathBelow.mpr ⟨h.depsDir, h.aliases name hmem, h.srcDir⟩

theorem mem_orderedDeps {dep : ResolvedDep} : dep ∈ orderedDeps graph ↔ dep ∈ graph ∧ isRootSelfDep dep = false := by
  rw [orderedDeps, List.mem_filter, mem_sortByKey, Bool.not_eq_true']

theorem mem_defineSymbols {deps : List ResolvedDep} {symbol : Str} :
    symbol ∈ defineSymbols flagDefines deps ↔
      ∃ defines ∈ flagDefines, ∃ dep ∈ deps, ∃ flag ∈ dep.activeFlags, symbol ∈ flagSymbols defines dep.name flag := by
  cases flagDefines with
  | none => simp [defineSymbols]
  | some defines => simp [defineSymbols, mem_sortByKey]

/-- **What the compiler reads** is what is meant, exactly when nothing ends an argument. -/
theorem read_formatNimcfg_iff (graph : List ResolvedDep) (depsDir selfSrcDir : Str) (flagDefines : Option FlagDefines) :
    readOptions (formatNimcfg graph depsDir selfSrcDir flagDefines) =
        optionsOf (selfPath selfSrcDir ++ (orderedDeps graph).flatMap (depPaths depsDir)) (defineSymbols flagDefines (orderedDeps graph)) ↔
      Inert graph depsDir selfSrcDir flagDefines := by
  have hempty : selfPath selfSrcDir ++ (orderedDeps graph).flatMap (depPaths depsDir) = [] →
      defineSymbols flagDefines (orderedDeps graph) = [] := by
    intro h
    have hnone : orderedDeps graph = [] := by
      cases hdeps : orderedDeps graph with
      | nil => rfl
      | cons dep deps => simp [hdeps, depPaths] at h
    rw [hnone]
    cases flagDefines with
    | none => rfl
    | some defines => rfl
  have hself : (∀ path ∈ selfPath selfSrcDir, Quotable path) ↔ Quotable selfSrcDir := by
    rw [selfPath]
    cases selfSrcDir with
    | nil => simp
    | cons c srcDir => simp
  rw [formatNimcfg, readOptions_render_iff hempty, List.forall_mem_append, hself]
  constructor
  · rintro ⟨⟨hsrcDir, hdeps⟩, hsymbols⟩
    refine ⟨hsrcDir, fun dep hdep hroot => quotable_depPaths.mp fun path hpath => ?_, fun defines hdefines dep hdep hroot => ?_⟩
    · exact hdeps path (List.mem_flatMap.mpr ⟨dep, mem_orderedDeps.mpr ⟨hdep, hroot⟩, hpath⟩)
    · intro flag hflag symbol hsymbol
      exact hsymbols symbol (mem_defineSymbols.mpr ⟨defines, hdefines, dep, mem_orderedDeps.mpr ⟨hdep, hroot⟩, flag, hflag, hsymbol⟩)
  · intro h
    refine ⟨⟨h.self, fun path hpath => ?_⟩, fun symbol hsymbol => ?_⟩
    · obtain ⟨dep, hdep, hpath⟩ := List.mem_flatMap.mp hpath
      obtain ⟨hgraph, hroot⟩ := mem_orderedDeps.mp hdep
      exact quotable_depPaths.mpr (h.deps dep hgraph hroot) path hpath
    · obtain ⟨defines, hdefines, dep, hdep, flag, hflag, hsymbol⟩ := mem_defineSymbols.mp hsymbol
      obtain ⟨hgraph, hroot⟩ := mem_orderedDeps.mp hdep
      exact h.symbols defines hdefines dep hgraph hroot flag hflag symbol hsymbol

/-! ### A source directory -/

/-- `parse_manifest`, for a `src_dir` node. -/
def parseSrcDir (node : Kdl.KdlNode) : Except Str Str :=
  match node.entries.filter fun e => e.name.isNone with
  | [⟨_, _, .string value⟩] => if containsUnsafeChar value then .error "MAN-SRC-DIR-UNSAFE" else .ok value
  | _ => .error "MAN-SRC-DIR-TYPE"

/-- Every package that is fetched has a source directory that its `milpa.kdl` can say. -/
def SrcDirsRead (ctx : ResolveCtx) : Prop :=
  ∀ key transport tree receipt, ctx.fetch key transport = .ok (tree, receipt) → ∀ manifest, tree.manifest? = some manifest →
    manifest.srcDir = [] ∨ ∃ node, parseSrcDir node = .ok manifest.srcDir

/-- A package with a quotation mark in its source directory. -/
def injector : Manifest := { Manifest.initial with name := some "lib", srcDir := "x\" --passC:\"-DX" }

/-- A root that depends on it. -/
def injectorUser : Manifest := { Manifest.initial with name := some "app", deps := [.url (urlDep "lib" "https://h/lib" "main" none)] }

/-- What there is to fetch. -/
def injectorWorld : ResolveCtx := { ResolveCtx.offline with fetch := fetchFrom [("https://h/lib", treeOf "sha256:a" injector)] }

/-- The solution in that world. -/
def injectorSolution : Solution := BTreeMap.empty.insert "git+https://h/lib#ref=main" urlDepVersion

theorem srcDirsRead_injectorWorld : SrcDirsRead (packageCtx injectorWorld injectorUser (treeOf [] injectorUser)) := by
  intro key transport tree receipt hfetch manifest hmanifest
  have htree : tree = treeOf "sha256:a" injector := by
    change fetchFrom _ key transport = _ at hfetch
    unfold fetchFrom at hfetch
    rw [List.find?_singleton] at hfetch
    split_ifs at hfetch
    · cases hfetch
      rfl
  rw [htree] at hmanifest
  cases hmanifest
  exact .inr ⟨.mk "src_dir" [⟨none, none, .string injector.srcDir⟩] [], by decide⟩

/-- The graph of a configuration is that of the solution, and the text for it adds an option. -/
def injected (c : Resolver.Config) : Bool :=
  match graphOf c.state injectorSolution none with
  | .ok graph => decide (Resolver.Closed c.state injectorSolution) &&
      decide (Opt.other "--passC:\"-DX\"" ∈ readOptions (formatNimcfg graph "_deps" [] none))
  | .error _ => false

/-- The package adds an option. -/
theorem src_dir_injects :
    ¬ ∀ ctx c solution trust graph depsDir selfSrcDir flagDefines, SrcDirsRead ctx → Resolver.Reachable ctx c → Resolver.Closed c.state solution →
      graphOf c.state solution trust = .ok graph →
      readOptions (formatNimcfg graph depsDir selfSrcDir flagDefines) =
        optionsOf (selfPath selfSrcDir ++ (orderedDeps graph).flatMap (depPaths depsDir)) (defineSymbols flagDefines (orderedDeps graph)) := by
  intro h
  have hcomes : comesTo (fun _ => true) injectorWorld injectorUser 5 injected = true := by decide
  obtain ⟨c₀, c, hstart, hrun, hgood⟩ := run_of_comesTo hcomes
  unfold injected at hgood
  split at hgood
  · rename_i graph hgraph
    obtain ⟨hclosed, hadded⟩ := (Bool.and_eq_true _ _).mp hgood
    have hread := h _ c injectorSolution none graph "_deps" [] none srcDirsRead_injectorWorld ⟨c₀, hstart, hrun⟩ (of_decide_eq_true hclosed)
      hgraph
    have hmem := of_decide_eq_true hadded
    rw [hread, optionsOf] at hmem
    simp at hmem
  · cases hgood

end Milpa.Core.Nimcfg
