import Milpa.Core.SourceId
import Milpa.Kdl.Document
import Milpa.Types.Lockfile
import Milpa.Types.Nesting
import Milpa.Types.Sort

/-!
# Reading a lockfile

`parse_lockfile` of `lockfile.rs`, from the KDL document on. The KDL parser is a
parameter. Where the source folds over the children of a node, so does the model: the
last child of a name counts. A warning that is printed is left out.
-/

namespace Milpa.Core

open Milpa.Kdl

/-! ### Errors -/

/-- The errors of `parse_identity`. -/
inductive IdentityError where
  | noAlgorithmPrefix (s : Str)
  | unsupportedAlgorithm (s algorithm : Str)
  | wrongDigestLength (s algorithm : Str) (expected got : ℕ)
  | nonHexDigest (s : Str)
  deriving DecidableEq, Repr

/-- The errors of `parse_lockfile`: a constructor for each message, with the values it quotes. -/
inductive LockError where
  /-- `LOCK-KDL-SYNTAX`: `KDL input exceeds maximum nesting depth`. -/
  | nestingDepth
  /-- `LOCK-KDL-SYNTAX`: `KDL input exceeds maximum block-comment nesting depth`. -/
  | commentDepth
  /-- `LOCK-KDL-SYNTAX`: `KDL syntax error: {e}`. -/
  | kdlSyntax (e : Str)
  /-- `LOCK-FIELD-ARITY`: `{field} takes exactly one value`. -/
  | fieldArity (field : Str)
  /-- `LOCK-FIELD-TYPE`: `{field} must be a string (got {value})`. -/
  | fieldNotString (field : Str) (value : KdlValue)
  /-- `LOCK-FIELD-TYPE`: `{field} value {raw} is not a valid ISO 8601 timestamp`. -/
  | fieldTimestamp (field raw : Str)
  /-- `LOCK-FIELD-TYPE`: `{field} must be an integer (got {value})`. -/
  | fieldNotInteger (field : Str) (value : KdlValue)
  /-- `LOCK-FIELD-TYPE`: `{field} is out of range (got {raw})`. -/
  | fieldOutOfRange (field : Str) (raw : ℤ)
  /-- `LOCK-VERSION-MISSING`. -/
  | versionMissing
  /-- `LOCK-VERSION-UNSUPPORTED`. -/
  | versionUnsupported (version : ℕ)
  /-- `LOCK-STRATEGY-MISSING`. -/
  | strategyMissing
  /-- `LOCK-DEP-NAME-ARITY`. -/
  | depNameArity
  /-- `LOCK-DEP-NAME-INVALID`: `dep name {name} contains characters outside [A-Za-z0-9_-]`. -/
  | depNameInvalid (name : Str)
  /-- `LOCK-DEP-NAME-INVALID`: `dep {name}: lockfile 'namespace' value {ns} contains characters outside ..`. -/
  | depNamespaceInvalid (name ns : Str)
  /-- `LOCK-DEP-NAME-INVALID`: `dep alias {alternate} contains characters outside ..`. -/
  | depAliasInvalid (alternate : Str)
  /-- `LOCK-DEP-FIELD-ARITY`: `dep {name} field {field} must have exactly one string value`. -/
  | depFieldArity (name field : Str)
  /-- `LOCK-DEP-IDENTITY-INVALID`: `dep {name}: invalid identity`. -/
  | depIdentityInvalid (name : Str) (e : IdentityError)
  /-- `LOCK-SRC-DIR-UNSAFE`. -/
  | srcDirUnsafe (name : Str)
  /-- `LOCK-SRC-FIELD-ARITY`: `dep {name}: source field {field} must have exactly one value`. -/
  | srcFieldArity (name field : Str)
  /-- `LOCK-SRC-FIELD-ARITY`: `dep {name}: source field {field} must be a string`. -/
  | srcFieldNotString (name field : Str)
  /-- `LOCK-SRC-KIND-MISSING`. -/
  | srcKindMissing (name : Str)
  /-- `LOCK-SRC-FIELD-MISSING`: `dep {name}: source block (kind={kind}) missing required field {key}`. -/
  | srcFieldMissing (name kind key : Str)
  /-- `LOCK-SRC-KIND-UNKNOWN`. -/
  | srcKindUnknown (name kind : Str)
  /-- `SRC-ID-MALFORMED`. -/
  | sourceId (e : SourceIdError)
  /-- `LOCK-SUBMODULE-FIELD-INVALID`: `dep {name}: submodule path must be a string`. -/
  | submodulePathNotString (name : Str)
  /-- `LOCK-SUBMODULE-FIELD-INVALID`: `dep {name}: submodule node requires exactly one positional string argument`. -/
  | submoduleArity (name : Str) (got : ℕ)
  /-- `LOCK-SUBMODULE-FIELD-INVALID`: `dep {name}: submodule {path} missing required sha= property`. -/
  | submoduleSha (name path : Str)
  /-- `LOCK-PROV-FIELD-ARITY`. -/
  | provFieldArity (name field : Str)
  /-- `LOCK-PROV-FIELD-MISSING`. -/
  | provFieldMissing (name key : Str)
  /-- `LOCK-PROV-KIND-MISSING`. -/
  | provKindMissing (name : Str)
  /-- `LOCK-PROV-KIND-UNKNOWN`. -/
  | provKindUnknown (name kind : Str)
  deriving DecidableEq, Repr

/-! ### Identities -/

/-- `SUPPORTED_ALGORITHMS`. -/
def supportedAlgorithms : List (Str × ℕ) := [("dag-sha256", 64)]

/-- A lowercase hexadecimal digit. -/
def isLowerHex (c : Char) : Bool := c.isDigit || ('a' ≤ c && c ≤ 'f')

/-- The number of bytes that a character has in UTF-8. -/
def byteLength (s : Str) : ℕ := (s.map Char.utf8Size).sum

/-- `split_identity_scheme`. -/
def splitIdentityScheme (s : Str) : Except IdentityError (Str × Str) :=
  match s.splitOnce ':' with
  | some p => .ok p
  | none => .error (.noAlgorithmPrefix s)

/-- `parse_identity`. -/
def parseIdentity (s : Str) : Except IdentityError (Str × Str) := do
  let (algorithm, digest) ← splitIdentityScheme s
  match supportedAlgorithms.find? fun p => decide (p.1 = algorithm) with
  | none => throw (.unsupportedAlgorithm s algorithm)
  | some (_, expectedLen) =>
    if byteLength digest ≠ expectedLen then throw (.wrongDigestLength s algorithm expectedLen (byteLength digest))
    else if digest.all isLowerHex = false then throw (.nonHexDigest s)
    else return (algorithm, digest)

/-! ### Reading nodes -/

/-- `args`: the entries without a name. -/
def args (node : KdlNode) : List KdlEntry := node.entries.filter fun e => e.name.isNone

/-- The first argument, where it is a string. -/
def firstStr (node : KdlNode) : Option Str := (args node).head?.bind fun e => e.value.asString

/-- The property of a name, where it is a string. -/
def propStr (node : KdlNode) (key : Str) : Option Str :=
  (node.entries.find? fun e => decide (e.name = some key)).bind fun e => e.value.asString

/-- `string_args`. -/
def stringArgs (node : KdlNode) : List Str := (args node).filterMap fun e => e.value.asString

/-- `dep_name`. -/
def depName (node : KdlNode) : Except LockError Str :=
  match args node with
  | [entry] =>
    match entry.value.asString with
    | some name => if validFlagName name = false then .error (.depNameInvalid name) else .ok name
    | none => .error .depNameArity
  | _ => .error .depNameArity

/-- `scalar_str`. -/
def scalarStr (node : KdlNode) (name field : Str) : Except LockError Str :=
  match args node with
  | [entry] =>
    match entry.value.asString with
    | some s => .ok s
    | none => .error (.depFieldArity name field)
  | _ => .error (.depFieldArity name field)

/-- `scalar_timestamp`. -/
def scalarTimestamp (node : KdlNode) (field : Str) : Except LockError Timestamp :=
  match args node with
  | [entry] =>
    match entry.value.asString with
    | none => .error (.fieldNotString field entry.value)
    | some raw =>
      match Timestamp.parseIso8601Timestamp raw with
      | some ts => .ok ts
      | none => .error (.fieldTimestamp field raw)
  | _ => .error (.fieldArity field)

/-- `scalar_u32`. -/
def scalarU32 (node : KdlNode) (field : Str) : Except LockError ℕ :=
  match args node with
  | [entry] =>
    match entry.value with
    | .integer raw => if 0 ≤ raw ∧ raw < 2 ^ 32 then .ok raw.toNat else .error (.fieldOutOfRange field raw)
    | other => .error (.fieldNotInteger field other)
  | _ => .error (.fieldArity field)

/-- The value of the last field of a name. -/
def lastField (fields : List (Str × Str)) (key : Str) : Option Str :=
  (fields.reverse.find? fun p => decide (p.1 = key)).map Prod.snd

/-! ### The source block -/

/-- A child of a source block. -/
def sourceField (name : Str) (child : KdlNode) : Except LockError (Str × Str) :=
  match args child with
  | [entry] =>
    match entry.value.asString with
    | some s => .ok (child.name, s)
    | none => .error (.srcFieldNotString name child.name)
  | _ => .error (.srcFieldArity name child.name)

/-- `required`, of the source block. -/
def requiredSource (name kind : Str) (fields : List (Str × Str)) (key : Str) : Except LockError Str :=
  match lastField fields key with
  | some v => .ok v
  | none => .error (.srcFieldMissing name kind key)

/-- The source that the fields of a block declare. -/
def rawSource (name kind : Str) (fields : List (Str × Str)) : Except LockError SourceId :=
  let get := lastField fields
  let required := requiredSource name kind fields
  if kind = "git".toList then do
    let url ← required "url"
    return .fetchable (.git url (get "ref") (get "subpath"))
  else if kind = "oci".toList then do
    let registry ← required "registry"
    let repository ← required "repository"
    return .fetchable (.oci registry repository (get "digest") (get "subpath"))
  else if kind = "tarball".toList then do
    let url ← required "url"
    return .fetchable (.tarball url (get "subpath"))
  else if kind = "local".toList then do
    let path ← required "path"
    return .fetchable (.local path)
  else if kind = "registry".toList then do
    let registry ← required "registry"
    let pkg ← required "name"
    return .fetchable (.registry registry (get "namespace") pkg)
  else if kind = "member".toList then do
    let memberName ← required "name"
    return .member memberName
  else throw (.srcKindUnknown name kind)

/-- `parse_source_block`. -/
def parseSourceBlock (node : KdlNode) (name : Str) : Except LockError SourceId := do
  let fields ← node.children.mapM (sourceField name)
  match lastField fields "kind" with
  | none => throw (.srcKindMissing name)
  | some kind =>
    let raw ← rawSource name kind fields
    match normalizeSource raw with
    | .ok sid => return sid
    | .error e => throw (.sourceId e)

/-! ### Attestations -/

/-- `parse_lock_rekor_block`. -/
def parseLockRekorBlock (node : KdlNode) : RekorRef :=
  let scalar := fun (key : Str) => ((node.children.find? fun c => decide (c.name = key)).bind firstStr).getD []
  ⟨scalar "uuid", scalar "log_index", scalar "integrated_time"⟩

/-- What the loop of `parse_lock_attestation` gathers. -/
structure AttestationFields where
  kindLabel : Option Str
  signer : Option Str
  rekor : Option RekorRef
  bundlePin : Option Str
  «namespace» : Str

/-- One round of the loop of `parse_lock_attestation`. -/
def attestationField (f : AttestationFields) (child : KdlNode) : AttestationFields :=
  if child.name = "kind".toList then { f with kindLabel := firstStr child }
  else if child.name = "signer".toList then { f with signer := firstStr child }
  else if child.name = "rekor".toList then { f with rekor := some (parseLockRekorBlock child) }
  else if child.name = "bundle".toList then { f with bundlePin := propStr child "sha256" }
  else if child.name = "namespace".toList then { f with «namespace» := (firstStr child).getD [] }
  else f

/-- `parse_lock_attestation`. -/
def parseLockAttestation (node : KdlNode) : Option LockAttestation :=
  let f := node.children.foldl attestationField ⟨none, none, none, none, []⟩
  match f.kindLabel with
  | none => none
  | some label =>
    if label = "author-signed".toList then
      match f.signer with
      | some s => if s ≠ [] then some ⟨.authorSigned s, f.rekor, f.bundlePin, f.namespace⟩ else none
      | none => none
    else if label = "milpa-vendored".toList then some ⟨.milpaVendored, f.rekor, f.bundlePin, f.namespace⟩
    else none

/-! ### Conditional requires -/

/-- `KNOWN_PREDICATE_NAMES`. -/
def knownPredicateNames : List Str := ["platform", "arch", "nim", "milpa", "flag"]

/-- The predicate of a property, where it is one that is known. -/
def predicateOf (entry : KdlEntry) : Option Predicate :=
  match entry.name with
  | none => none
  | some key =>
    if key ∈ knownPredicateNames then
      entry.value.asString.map fun val => ⟨key, [val], decide (entry.ty = some "not".toList)⟩
    else none

/-- `parse_cond_require`. -/
def parseCondRequire (node : KdlNode) : Option CondRequire :=
  match firstStr node with
  | none => none
  | some name =>
    let predicates :=
      if node.children.isEmpty = false then
        node.children.flatMap fun child =>
          if child.name = "when".toList then child.entries.filterMap predicateOf else []
      else node.entries.filterMap predicateOf
    if predicates = [] then none else some ⟨name, predicates⟩

/-! ### Provenances -/

/-- What the loop of `parse_provenance` gathers. -/
structure ProvenanceFields where
  fields : List (Str × Str)
  submoduleShas : List (Str × Str)

/-- A `submodule` child of a provenance block. -/
def submoduleField (name : Str) (child : KdlNode) : Except LockError (Str × Str) :=
  match args child with
  | [entry] =>
    match entry.value.asString with
    | none => .error (.submodulePathNotString name)
    | some path =>
      match propStr child "sha" with
      | some sha => .ok (path, sha)
      | none => .error (.submoduleSha name path)
  | a => .error (.submoduleArity name a.length)

/-- One round of the loop of `parse_provenance`. -/
def provenanceField (name : Str) (f : ProvenanceFields) (child : KdlNode) : Except LockError ProvenanceFields :=
  if child.name = "submodule".toList then do
    let sub ← submoduleField name child
    return { f with submoduleShas := f.submoduleShas ++ [sub] }
  else
    match args child with
    | [entry] =>
      match entry.value.asString with
      | some s => .ok { f with fields := f.fields ++ [(child.name, s)] }
      | none => .ok f
    | _ => .error (.provFieldArity name child.name)

/-- `required`, of a provenance block. -/
def requiredProvenance (name : Str) (fields : List (Str × Str)) (key : Str) : Except LockError Str :=
  match lastField fields key with
  | some v => .ok v
  | none => .error (.provFieldMissing name key)

/-- The record that the fields of a provenance block are. -/
def provenanceOf (name kind origin : Str) (f : ProvenanceFields) : Except LockError ProvenanceRecord :=
  let get := lastField f.fields
  let required := requiredProvenance name f.fields
  if kind = "git".toList then do
    let url ← required "url"
    return .git url (get "ref") (get "commit_sha") origin (sortByKey Prod.fst f.submoduleShas)
  else if kind = "tarball".toList then do
    let url ← required "url"
    return .tarball url (get "sha256") origin
  else if kind = "local".toList then do
    let path ← required "path"
    return .local path origin
  else if kind = "member".toList then do
    let memberName ← required "name"
    return .member memberName origin
  else if kind = "oci".toList then do
    let registry ← required "registry"
    let repository ← required "repository"
    let digest ← required "digest"
    return .oci registry repository digest origin
  else if kind = "root".toList then do
    let rootName ← required "name"
    return .root rootName origin
  else throw (.provKindUnknown name kind)

/-- `parse_provenance`. -/
def parseProvenance (node : KdlNode) (name : Str) : Except LockError ProvenanceRecord := do
  let f ← node.children.foldlM (provenanceField name) ⟨[], []⟩
  match lastField f.fields "kind" with
  | none => throw (.provKindMissing name)
  | some kind =>
    let origin ← requiredProvenance name f.fields "origin"
    provenanceOf name kind origin f

/-! ### Dependencies -/

/-- The values that `VersionSource::from_str_lenient` knows; the canonical spelling of each is itself. -/
def versionSources : List Str := ["manifest", "nimble", "tag", "annotation"]

/-- One round of the loop of `parse_dep`. -/
def depField (d : LockedDep) (child : KdlNode) : Except LockError LockedDep :=
  if child.name = "namespace".toList then
    match firstStr child with
    | some ns =>
      if ns = [] then .ok d
      else if validFlagName ns = false then .error (.depNamespaceInvalid d.name ns)
      else .ok { d with «namespace» := some ns }
    | none => .ok d
  else if child.name = "identity".toList then do
    let val ← scalarStr child d.name "identity"
    match parseIdentity val with
    | .ok _ => return { d with identity := some val }
    | .error e => throw (.depIdentityInvalid d.name e)
  else if child.name = "version".toList then do
    let version ← scalarStr child d.name "version"
    return { d with version }
  else if child.name = "declared_version_source".toList then
    .ok { d with declaredVersionSource := (firstStr child).filter fun s => decide (s ∈ versionSources) }
  else if child.name = "src_dir".toList then do
    let s ← scalarStr child d.name "src_dir"
    if s ≠ [] ∧ containsUnsafeChar s = true then throw (.srcDirUnsafe d.name)
    else return { d with srcDir := s }
  else if child.name = "requires".toList then .ok { d with requires := stringArgs child }
  else if child.name = "aliases".toList then
    let v := stringArgs child
    match v.find? fun a => !validFlagName a with
    | some a => .error (.depAliasInvalid a)
    | none => .ok { d with aliases := sortByKey id v }
  else if child.name = "active_flags".toList then .ok { d with activeFlags := stringArgs child }
  else if child.name = "dep_decl".toList then .ok { d with depDecl := firstStr child }
  else if child.name = "cond-require".toList then
    match parseCondRequire child with
    | some cr => .ok { d with condRequires := d.condRequires ++ [cr] }
    | none => .ok d
  else if child.name = "source".toList then do
    let sid ← parseSourceBlock child d.name
    return { d with sourceId := some sid }
  else if child.name = "provenance".toList then do
    let p ← parseProvenance child d.name
    return { d with provenances := d.provenances ++ [p] }
  else if child.name = "attestation".toList then .ok { d with attestation := parseLockAttestation child }
  else .ok d

/-- The dependency that the loop of `parse_dep` begins with. -/
def emptyDep (name : Str) : LockedDep :=
  { name, «namespace» := none, identity := none, version := "0.0.0", srcDir := [], requires := [], provenances := [],
    activeFlags := [], depDecl := none, condRequires := [], aliases := [], attestation := none,
    declaredVersionSource := none, sourceId := none }

/-- `parse_dep`. -/
def parseDep (node : KdlNode) : Except LockError LockedDep := do
  let name ← depName node
  node.children.foldlM depField (emptyDep name)

/-! ### Lockfiles -/

/-- What the loop of `parse_lockfile` gathers. -/
structure LockFields where
  deps : List LockedDep
  strategy : Option Str
  version : Option ℕ
  excludeNewer : Option Timestamp

/-- One round of the loop of `parse_lockfile`. -/
def lockField (f : LockFields) (node : KdlNode) : Except LockError LockFields :=
  if node.name = "version".toList then do
    let version ← scalarU32 node "version"
    return { f with version := some version }
  else if node.name = "strategy".toList then
    match args node with
    | [entry] =>
      match entry.value.asString with
      | some s => .ok { f with strategy := some s }
      | none => .ok f
    | _ => .ok f
  else if node.name = "exclude_newer".toList then do
    let ts ← scalarTimestamp node "exclude_newer"
    return { f with excludeNewer := some ts }
  else if node.name = "dep".toList then do
    let d ← parseDep node
    return { f with deps := f.deps ++ [d] }
  else .ok f

/-- `parse_lockfile`, from the document on. -/
def lockfileOf (doc : List KdlNode) : Except LockError Lockfile := do
  let f ← doc.foldlM lockField ⟨[], none, none, none⟩
  match f.version with
  | none => throw .versionMissing
  | some version =>
    if version ≠ lockfileSchemaVersion then throw (.versionUnsupported version)
    else
      match f.strategy with
      | none => throw .strategyMissing
      | some strategy => return ⟨version, strategy, f.excludeNewer, f.deps⟩

/-- `parse_lockfile`. -/
def parseLockfile (kdlParse : Str → Except Str (List KdlNode)) (text : Str) : Except LockError Lockfile :=
  if Nesting.kdlMaxNestingDepth < Nesting.kdlBraceDepth text then .error .nestingDepth
  else if Nesting.kdlMaxNestingDepth < Nesting.kdlBlockCommentDepth text then .error .commentDepth
  else
    match kdlParse text with
    | .error e => .error (.kdlSyntax e)
    | .ok doc => lockfileOf doc

end Milpa.Core
