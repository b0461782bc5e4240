import Milpa.Core.Lockfile

/-!
# Writing a lockfile

`format_lockfile` of `lockfile.rs`: the lines of a lockfile, as the source puts them
together. Where the source panics (a predicate that does not have exactly one value) the
result is `none`.
-/

namespace Milpa.Core

open Milpa.Kdl

/-! ### Strings -/

/-- The text of a character between quotes. -/
def escapeChar (c : Char) : Str :=
  if c = '"' then ['\\', '"']
  else if c = '\\' then ['\\', '\\']
  else if c.toNat < 0x20 then '\\' :: 'u' :: '{' :: (Nat.toDigits 16 c.toNat ++ ['}'])
  else [c]

/-- What `kdl_str` writes between the quotes. -/
def escape (s : Str) : Str := s.flatMap escapeChar

/-- `kdl_str`. -/
def kdlStr (s : Str) : Str := '"' :: (escape s ++ ['"'])

/-- `join_kdl`. -/
def joinKdl (values : List Str) : Str := [' '].intercalate (values.map kdlStr)

/-! ### Sort keys -/

/-- `provenance_sort_key`. -/
def provenanceSortKey (p : ProvenanceRecord) : ℕ ×ₗ ℕ ×ₗ Str ×ₗ Str :=
  let originRank := if p.origin = "declared".toList then 0 else if p.origin = "observed".toList then 1 else 99
  let key := fun (kindRank : ℕ) (primary secondary : Str) =>
    toLex (originRank, toLex (kindRank, toLex (primary, secondary)))
  match p with
  | .git url refSpec _ _ _ => key 0 (kdlStr url) ((refSpec.map kdlStr).getD [])
  | .tarball url _ _ => key 1 (kdlStr url) []
  | .oci registry repository digest _ => key 2 (kdlStr (registry ++ '/' :: repository)) (kdlStr digest)
  | .local path _ => key 3 (kdlStr path) []
  | .member name _ => key 4 (kdlStr name) []
  | .root name _ => key 5 (kdlStr name) []

/-- `format_predicate_prop`. -/
def formatPredicateProp (pred : Predicate) : Option Str :=
  match pred.values with
  | [value] =>
    if pred.negated then some (pred.name ++ ("=(not)".toList ++ kdlStr value))
    else some (pred.name ++ '=' :: kdlStr value)
  | _ => none

/-- `cond_require_sort_key`. -/
def condRequireSortKey (cr : CondRequire) : Option (Str ×ₗ Str) :=
  (cr.predicates.mapM formatPredicateProp).map fun props => toLex (cr.name, [','].intercalate props)

/-! ### Blocks -/

/-- A field: its name and a string. -/
def fieldText (name : Str) (value : Str) : Str := name ++ ' ' :: kdlStr value

/-- A field that is left out where there is no value. -/
def optFieldText (name : Str) (value : Option Str) : List Str := value.toList.map (fieldText name)

/-- `format_source_fields`. -/
def formatSourceFields : SourceId → List Str
  | .fetchable (.git url gitRef subpath) =>
    [fieldText "kind" "git", "url (url)".toList ++ kdlStr url] ++ optFieldText "ref" gitRef ++ optFieldText "subpath" subpath
  | .fetchable (.oci registry repository digest subpath) =>
    [fieldText "kind" "oci", fieldText "registry" registry, fieldText "repository" repository] ++
      optFieldText "digest" digest ++ optFieldText "subpath" subpath
  | .fetchable (.tarball url subpath) =>
    [fieldText "kind" "tarball", "url (url)".toList ++ kdlStr url] ++ optFieldText "subpath" subpath
  | .fetchable (.local path) => [fieldText "kind" "local", fieldText "path" path]
  | .fetchable (.registry registry «namespace» name) =>
    [fieldText "kind" "registry", fieldText "registry" registry] ++ optFieldText "namespace" «namespace» ++
      [fieldText "name" name]
  | .member memberName => [fieldText "kind" "member", fieldText "name" memberName]

/-- `format_provenance_fields`. -/
def formatProvenanceFields : ProvenanceRecord → List Str
  | .git url refSpec commitSha origin submoduleShas =>
    [fieldText "origin" origin, fieldText "kind" "git", fieldText "url" url] ++ optFieldText "ref" refSpec ++
      optFieldText "commit_sha" commitSha ++
      submoduleShas.map fun sub => "submodule ".toList ++ (kdlStr sub.1 ++ (" sha=".toList ++ kdlStr sub.2))
  | .tarball url sha256 origin =>
    [fieldText "origin" origin, fieldText "kind" "tarball", fieldText "url" url] ++ optFieldText "sha256" sha256
  | .local path origin => [fieldText "origin" origin, fieldText "kind" "local", fieldText "path" path]
  | .member name origin => [fieldText "origin" origin, fieldText "kind" "member", fieldText "name" name]
  | .oci registry repository digest origin =>
    [fieldText "origin" origin, fieldText "kind" "oci", fieldText "registry" registry,
      fieldText "repository" repository, fieldText "digest" digest]
  | .root name origin => [fieldText "origin" origin, fieldText "kind" "root", fieldText "name" name]

/-- `format_lock_attestation`. -/
def formatLockAttestation (att : LockAttestation) : List Str :=
  ["    attestation \x7b".toList] ++
  (match att.kind with
    | .authorSigned signer => ["        ".toList ++ fieldText "kind" "author-signed", "        ".toList ++ fieldText "signer" signer]
    | .milpaVendored => ["        ".toList ++ fieldText "kind" "milpa-vendored"]) ++
  (match att.rekor with
    | some rekor =>
      ["        rekor \x7b".toList, "            ".toList ++ fieldText "uuid" rekor.uuid,
        "            ".toList ++ fieldText "log_index" rekor.logIndex,
        "            ".toList ++ fieldText "integrated_time" rekor.integratedTime, "        \x7d".toList]
    | none => []) ++
  (match att.bundlePin with
    | some pin => ["        bundle sha256=".toList ++ kdlStr pin]
    | none => []) ++
  ["        ".toList ++ fieldText "namespace" att.namespace, "    \x7d".toList]

/-- `format_cond_require`. -/
def formatCondRequire (cr : CondRequire) : Option (List Str) :=
  (cr.predicates.mapM formatPredicateProp).map fun props =>
    match props with
    | [prop] => ["    cond-require ".toList ++ (kdlStr cr.name ++ ' ' :: prop)]
    | _ =>
      ["    cond-require ".toList ++ (kdlStr cr.name ++ " \x7b".toList)] ++
        props.map (fun prop => "        when ".toList ++ prop) ++ ["    \x7d".toList]

/-- A block of a dependency: its name, and fields. -/
def blockText (name : Str) (fields : List Str) : List Str :=
  ["    ".toList ++ (name ++ " \x7b".toList)] ++ fields.map (fun field => "        ".toList ++ field) ++ ["    \x7d".toList]

/-- The lines of conditional requires, sorted. -/
def formatCondRequires (crs : List CondRequire) : Option (List Str) := do
  let keyed ← crs.mapM fun cr => (condRequireSortKey cr).map fun key => (key, cr)
  let lines ← ((sortByKey Prod.fst keyed).map Prod.snd).mapM formatCondRequire
  return lines.flatten

/-! ### The lockfile -/

/-- The lines of one dependency, in the loop of `format_lockfile`. -/
def formatDep (d : LockedDep) : Option (List Str) := do
  let conds ← formatCondRequires d.condRequires
  return ["dep ".toList ++ (kdlStr d.name ++ " \x7b".toList)] ++
    d.namespace.toList.map (fun ns => "    ".toList ++ fieldText "namespace" ns) ++
    d.sourceId.toList.flatMap (fun sid => blockText "source" (formatSourceFields sid)) ++
    d.identity.toList.map (fun identity => "    ".toList ++ fieldText "identity" identity) ++
    ["    ".toList ++ fieldText "version" d.version] ++
    d.declaredVersionSource.toList.map (fun src => "    ".toList ++ fieldText "declared_version_source" src) ++
    ["    ".toList ++ fieldText "src_dir" d.srcDir] ++
    [if d.requires = [] then "    requires".toList else "    requires ".toList ++ joinKdl d.requires] ++
    conds ++
    (if d.aliases = [] then [] else ["    aliases ".toList ++ joinKdl (sortByKey id d.aliases)]) ++
    (if d.activeFlags = [] then [] else ["    active_flags ".toList ++ joinKdl d.activeFlags]) ++
    d.attestation.toList.flatMap formatLockAttestation ++
    d.depDecl.toList.map (fun dd => "    ".toList ++ fieldText "dep_decl" dd) ++
    (sortByKey provenanceSortKey d.provenances).flatMap (fun p => blockText "provenance" (formatProvenanceFields p)) ++
    ["\x7d".toList, []]

/-- `HEADER`. -/
def header : Str := "// generated by milpa; reproducible build snapshot"

/-- The lines of a lockfile. -/
def formatLines (l : Lockfile) : Option (List Str) := do
  let deps ← l.deps.mapM formatDep
  return [header, "version ".toList ++ Str.ofNat l.version, fieldText "strategy" l.strategy] ++
    l.excludeNewer.toList.map (fun ts => fieldText "exclude_newer" (Timestamp.formatIso8601Timestamp ts)) ++ [[]] ++
    deps.flatten

/-- `format_lockfile`. -/
def formatLockfile (l : Lockfile) : Option Str := (formatLines l).map joinLines

end Milpa.Core
