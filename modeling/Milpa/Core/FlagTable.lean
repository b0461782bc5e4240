import Milpa.Core.Flags
import Milpa.Core.Lockfile

/-!
# The flag table of a manifest

`parse_flag_decl` of `milpa_manifest` and what `parse_manifest_doc` does with the flags: it
refuses a name that is declared twice, gives every optional dependency a flag of its own,
`desugar_optional_deps`, and refuses a flag that refers to one that is not declared. A
table that is accepted has one declaration a name, and what its flags enable is declared
(`wellFormed_of_manifestFlags`).
-/

namespace Milpa.Core

open Milpa.Kdl
open Result

/-- What is reported of the flags of a manifest. -/
inductive FlagTableError where
  | nameInvalid (flag : Str)
  | posArgs (flag : Str)
  | unknownProps (flag : Str) (extra : List Str)
  | defaultType (flag : Str)
  | descriptionType (flag : Str)
  | definesUnsafe (flag : Str)
  | definesArgType (flag : Str)
  /-- An argument of `enables` or `conflicts` that is not a string. -/
  | argType (flag child : Str)
  | enablesUnknownChild (flag dep child : Str)
  | unknownChild (flag child : Str)
  | requestNameMissing (context : Str)
  | requestTooManyArgs (context : Str)
  | requestBool (context : Str)
  | duplicate (flag : Str)
  /-- An optional dependency of the name of a flag. -/
  | optionalClash (dep : Str)
  /-- Another dependency of the name of a flag. -/
  | clash (dep : Str)
  | undeclaredReference (dep flag : Str)
  /-- Whether what is not a flag is a dependency is said too. -/
  | enablesUndeclared (flag target : Str) (isDep : Bool)
  | conflictsSelf (flag : Str)
  | conflictsUndeclared (flag target : Str)
  deriving DecidableEq, Repr

namespace FlagTableError

/-- The code of an error. -/
def code : FlagTableError → Str
  | nameInvalid _ => "MAN-FLAG-NAME-INVALID".toList
  | posArgs _ => "MAN-FLAG-POS-ARGS".toList
  | unknownProps _ _ => "MAN-FLAG-UNKNOWN-PROPS".toList
  | defaultType _ => "MAN-FLAG-DEFAULT-TYPE".toList
  | descriptionType _ => "MAN-FLAG-DESCRIPTION-TYPE".toList
  | definesUnsafe _ => "MAN-FLAG-DEFINES-UNSAFE".toList
  | definesArgType _ => "MAN-FLAG-DEFINES-ARG-TYPE".toList
  | argType _ _ | enablesUnknownChild _ _ _ | unknownChild _ _ => "MAN-FLAG-UNKNOWN-CHILD".toList
  | requestNameMissing _ => "MAN-DEP-FLAG-NAME-MISSING".toList
  | requestTooManyArgs _ => "MAN-DEP-FLAG-TOO-MANY-ARGS".toList
  | requestBool _ => "MAN-DEP-FLAG-BOOL".toList
  | duplicate _ => "MAN-FLAG-DUPLICATE".toList
  | optionalClash _ | clash _ => "MAN-DEP-OPTIONAL-FLAG-CLASH".toList
  | undeclaredReference _ _ => "MAN-FLAG-UNDECLARED-REFERENCE".toList
  | enablesUndeclared _ _ _ => "MAN-FLAG-ENABLES-UNDECLARED".toList
  | conflictsSelf _ => "MAN-FLAG-CONFLICTS-SELF".toList
  | conflictsUndeclared _ _ => "MAN-FLAG-CONFLICTS-UNDECLARED".toList

end FlagTableError

/-! ### Reading a declaration -/

/-- `prop`: of several entries of a name the last counts. -/
def lastProp (node : KdlNode) (key : Str) : Option KdlEntry :=
  node.entries.reverse.find? fun e => decide (e.name = some key)

/-- `prop_names`. -/
def propNames (node : KdlNode) : List Str := (node.entries.filterMap KdlEntry.name).dedup.insertionSort (· ≤ ·)

/-- `parse_flag_request`. -/
def parseFlagRequest (context : Str) (node : KdlNode) : Except FlagTableError FlagRequest :=
  match firstStr node with
  | none => .error (.requestNameMissing context)
  | some name =>
    match args node with
    | [_, second] =>
      match second.value with
      | .bool enabled => .ok ⟨name, enabled⟩
      | _ => .error (.requestBool context)
    | _ :: _ :: _ :: _ => .error (.requestTooManyArgs context)
    | _ => .ok ⟨name, true⟩

/-- An argument that has to be a string, and what it is refused for otherwise. -/
def strArg (wrongType : FlagTableError) (entry : KdlEntry) : Except FlagTableError Str :=
  match entry.value.asString with
  | some s => .ok s
  | none => .error wrongType

/-- An argument of `defines`. -/
def definesArg (flag : Str) (entry : KdlEntry) : Except FlagTableError Str := do
  let s ← strArg (.definesArgType flag) entry
  rejectIf (containsUnsafeChar s = true) (.definesUnsafe flag)
  return s

/-- A child of a dependency under `enables`. -/
def enablesFlag (flag dep : Str) (child : KdlNode) : Except FlagTableError FlagRequest :=
  if child.name = "flag".toList then parseFlagRequest (flag ++ '→' :: dep) child
  else .error (.enablesUnknownChild flag dep child.name)

/-- A dependency under `enables`. -/
def enablesDep (flag : Str) (node : KdlNode) : Except FlagTableError CrossPkgEnable := do
  let requests ← node.children.mapM (enablesFlag flag node.name)
  return ⟨node.name, requests⟩

/-- What a child adds to the declaration of a flag. -/
def flagChild (fd : FlagDecl) (child : KdlNode) : Except FlagTableError FlagDecl :=
  if child.name = "defines".toList then do
    let symbols ← (args child).mapM (definesArg fd.name)
    return { fd with defines := fd.defines ++ symbols }
  else if child.name = "enables".toList then do
    let targets ← (args child).mapM (strArg (.argType fd.name child.name))
    let cross ← child.children.mapM (enablesDep fd.name)
    return { fd with enablesSamePkg := fd.enablesSamePkg ++ targets, enablesCrossPkg := fd.enablesCrossPkg ++ cross }
  else if child.name = "conflicts".toList then do
    let others ← (args child).mapM (strArg (.argType fd.name child.name))
    return { fd with conflicts := fd.conflicts ++ others }
  else .error (.unknownChild fd.name child.name)

/-- The property `default`. -/
def flagDefault (flag : Str) (node : KdlNode) : Except FlagTableError Bool :=
  match lastProp node "default".toList with
  | none => .ok false
  | some e =>
    match e.value with
    | .bool b => .ok b
    | _ => .error (.defaultType flag)

/-- The property `description`. -/
def flagDescription (flag : Str) (node : KdlNode) : Except FlagTableError Str :=
  match lastProp node "description".toList with
  | none => .ok []
  | some e => strArg (.descriptionType flag) e

/-- `FLAG_DECL_PROPS`. -/
def flagDeclProps : List Str := ["default".toList, "description".toList]

/-- `parse_flag_decl`. -/
def parseFlagDecl (node : KdlNode) : Except FlagTableError FlagDecl := do
  let name := node.name
  rejectIf (validFlagName name = false) (.nameInvalid name)
  rejectIf (args node ≠ []) (.posArgs name)
  let extra := (propNames node).filter fun p => decide (p ∉ flagDeclProps)
  rejectIf (extra ≠ []) (.unknownProps name extra)
  let default ← flagDefault name node
  let description ← flagDescription name node
  node.children.foldlM flagChild ⟨name, default, description, [], [], [], []⟩

/-! ### The table -/

/-- The names of the flags of a table. -/
def flagNames (flags : List FlagDecl) : List Str := flags.map FlagDecl.name

/-- A child of a `flags` block. -/
def addFlag (flags : List FlagDecl) (child : KdlNode) : Except FlagTableError (List FlagDecl) := do
  let fd ← parseFlagDecl child
  rejectIf (fd.name ∈ flagNames flags) (.duplicate fd.name)
  return flags ++ [fd]

/-- Whether a dependency is optional. -/
def isOptional : Dep → Bool
  | .url d => d.optional
  | .named d => d.optional
  | _ => false

/-- The predicate that makes a dependency wait for the flag of its own name. -/
def gatePred (name : Str) : Predicate := ⟨"flag".toList, [name], false⟩

/-- A list of predicates with one more, unless it is there. -/
def withPred (gate : Predicate) (preds : List Predicate) : List Predicate := if gate ∈ preds then preds else preds ++ [gate]

/-- A dependency with the gate of its own flag. -/
def gated : Dep → Dep
  | .url d => .url { d with predicates := withPred (gatePred d.name) d.predicates }
  | .named d => .named { d with predicates := withPred (gatePred d.name) d.predicates }
  | d => d

/-- The flag that an optional dependency gets. -/
def autoFlag (name : Str) : FlagDecl := ⟨name, false, [], [], [], [], []⟩

/-- The dependencies that are through, the flags, and the names of those that were added. -/
structure Desugaring where
  deps : List Dep
  flags : List FlagDecl
  injected : List Str

/-- `desugar_dep`. -/
def desugarDep (declared : List Str) (acc : Desugaring) (dep : Dep) : Except FlagTableError Desugaring :=
  if isOptional dep then
    if dep.name ∈ declared ∨ dep.name ∈ acc.injected then .error (.optionalClash dep.name)
    else .ok ⟨acc.deps ++ [gated dep], acc.flags ++ [autoFlag dep.name], acc.injected ++ [dep.name]⟩
  else .ok { acc with deps := acc.deps ++ [dep] }

/-- `desugar_optional_deps`: the dependencies, the dependencies for development, the flags and those that were added. -/
def desugarOptionalDeps (deps devDeps : List Dep) (flags : List FlagDecl) (declared : List Str) :
    Except FlagTableError (List Dep × List Dep × List FlagDecl × List Str) := do
  (deps ++ devDeps).forM fun d => rejectIf (isOptional d = false ∧ d.name ∈ declared) (.clash d.name)
  let acc ← deps.foldlM (desugarDep declared) ⟨[], flags, []⟩
  let dev ← devDeps.foldlM (desugarDep declared) { acc with deps := [] }
  return (acc.deps, dev.deps, dev.flags, dev.injected)

/-- The flags that the predicates of a dependency refer to. -/
def flagReferences (dep : Dep) : List Str :=
  (dep.predicates.filter fun p => decide (p.name = "flag".toList)).flatMap Predicate.values

/-- A dependency that refers to a flag refers to one of the table. -/
def checkReferences (declared : List Str) (dep : Dep) : Except FlagTableError Unit :=
  (flagReferences dep).forM fun v => rejectIf (v ∉ declared) (.undeclaredReference dep.name v)

/-- What a flag enables is in the table. -/
def checkEnables (declared depNames : List Str) (fd : FlagDecl) : Except FlagTableError Unit :=
  fd.enablesSamePkg.forM fun v => rejectIf (v ∉ declared) (.enablesUndeclared fd.name v (decide (v ∈ depNames)))

/-- What a flag is in conflict with is another one in the table. -/
def checkConflicts (declared : List Str) (fd : FlagDecl) : Except FlagTableError Unit :=
  fd.conflicts.forM fun v => do
    rejectIf (v = fd.name) (.conflictsSelf fd.name)
    rejectIf (v ∉ declared) (.conflictsUndeclared fd.name v)

/-- Whether a dependency is on a member of the workspace. -/
def isMemberDep : Dep → Bool
  | .member _ => true
  | _ => false

/-- What `parse_manifest_doc` makes of the children of the `flags` blocks and of the dependencies: the dependencies, the
flags, and the flags that were added. -/
def manifestFlags (nodes : List KdlNode) (deps devDeps : List Dep) :
    Except FlagTableError (List Dep × List Dep × List FlagDecl × List Str) := do
  let declaredFlags ← nodes.foldlM addFlag []
  let depNames := ((deps ++ devDeps).filter fun d => !isMemberDep d).map Dep.name
  let (deps, devDeps, flags, auto) ← desugarOptionalDeps deps devDeps declaredFlags (flagNames declaredFlags)
  let declared := flagNames flags
  (deps ++ devDeps).forM (checkReferences declared)
  flags.forM (checkEnables declared depNames)
  flags.forM (checkConflicts declared)
  return (deps, devDeps, flags, auto)

/-! ### What is accepted -/

/-- A table with one declaration a name whose flags enable declared flags. -/
structure WellFormedFlags (flags : List FlagDecl) : Prop where
  nodup : (flagNames flags).Nodup
  declared : ∀ fd ∈ flags, ∀ g ∈ fd.enablesSamePkg, g ∈ flagNames flags

theorem flagNames_append (a b : List FlagDecl) : flagNames (a ++ b) = flagNames a ++ flagNames b := List.map_append

theorem addFlag_nodup {flags flags' : List FlagDecl} {child : KdlNode} (hflags : (flagNames flags).Nodup)
    (h : addFlag flags child = .ok flags') : (flagNames flags').Nodup := by
  obtain ⟨fd, -, h⟩ := bind_eq_ok.mp h
  obtain ⟨_, hnew, h⟩ := bind_eq_ok.mp h
  cases h
  rw [flagNames_append]
  refine hflags.append (List.nodup_singleton _) fun g hg hname => ?_
  obtain rfl := List.mem_singleton.mp hname
  exact rejectIf_eq_ok.mp hnew hg

/-- What holds of the flags while dependencies get their own: those that were declared and those that were added are
all there is, and no name is there twice. -/
structure Desugaring.Fresh (declared : List Str) (acc : Desugaring) : Prop where
  names : flagNames acc.flags = declared ++ acc.injected
  nodup : (flagNames acc.flags).Nodup

theorem desugarDep_fresh {declared : List Str} {acc acc' : Desugaring} {dep : Dep} (hacc : acc.Fresh declared)
    (h : desugarDep declared acc dep = .ok acc') : acc'.Fresh declared := by
  rw [desugarDep] at h
  split_ifs at h with hoptional hclash
  · cases h
    push Not at hclash
    have hnames : flagNames (acc.flags ++ [autoFlag dep.name]) = flagNames acc.flags ++ [dep.name] := flagNames_append _ _
    constructor
    · rw [hnames, hacc.names, List.append_assoc]
    · rw [hnames]
      refine hacc.nodup.append (List.nodup_singleton _) fun g hg hname => ?_
      obtain rfl := List.mem_singleton.mp hname
      rw [hacc.names, List.mem_append] at hg
      exact hg.elim hclash.1 hclash.2
  · cases h
    exact ⟨hacc.names, hacc.nodup⟩

theorem desugarOptionalDeps_nodup {deps devDeps deps' devDeps' : List Dep} {flags flags' : List FlagDecl} {auto : List Str}
    (hflags : (flagNames flags).Nodup)
    (h : desugarOptionalDeps deps devDeps flags (flagNames flags) = .ok (deps', devDeps', flags', auto)) :
    (flagNames flags').Nodup := by
  obtain ⟨_, -, h⟩ := bind_eq_ok.mp h
  obtain ⟨acc, hacc, h⟩ := bind_eq_ok.mp h
  obtain ⟨dev, hdev, h⟩ := bind_eq_ok.mp h
  cases h
  have hstart : Desugaring.Fresh (flagNames flags) ⟨[], flags, []⟩ := ⟨(List.append_nil _).symm, hflags⟩
  have hmid := foldlM_invariant hacc hstart fun _ _ _ => desugarDep_fresh
  have hagain : Desugaring.Fresh (flagNames flags) { acc with deps := [] } := ⟨hmid.names, hmid.nodup⟩
  exact (foldlM_invariant hdev hagain fun _ _ _ => desugarDep_fresh).nodup

theorem checkEnables_eq_ok {declared depNames : List Str} {fd : FlagDecl} :
    checkEnables declared depNames fd = .ok () ↔ ∀ g ∈ fd.enablesSamePkg, g ∈ declared := by
  rw [checkEnables, forM_eq_ok]
  simp only [rejectIf_eq_ok, not_not]

/-- **A table that is accepted has one declaration a name, and its flags enable declared flags.** -/
theorem wellFormed_of_manifestFlags {nodes : List KdlNode} {deps devDeps deps' devDeps' : List Dep} {flags : List FlagDecl}
    {auto : List Str} (h : manifestFlags nodes deps devDeps = .ok (deps', devDeps', flags, auto)) : WellFormedFlags flags := by
  obtain ⟨declaredFlags, hread, h⟩ := bind_eq_ok.mp h
  obtain ⟨⟨_, _, _, _⟩, hdesugared, h⟩ := bind_eq_ok.mp h
  obtain ⟨_, -, h⟩ := bind_eq_ok.mp h
  obtain ⟨_, henables, h⟩ := bind_eq_ok.mp h
  obtain ⟨_, -, h⟩ := bind_eq_ok.mp h
  cases h
  have hdeclared : (flagNames declaredFlags).Nodup :=
    foldlM_invariant (P := fun flags => (flagNames flags).Nodup) hread List.nodup_nil fun _ _ _ => addFlag_nodup
  exact ⟨desugarOptionalDeps_nodup hdeclared hdesugared, fun fd hfd => checkEnables_eq_ok.mp (forM_eq_ok.mp henables fd hfd)⟩

end Milpa.Core
