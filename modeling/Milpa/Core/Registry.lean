import Milpa.Core.Lockfile
import Milpa.Solver.ParseVersion
import Milpa.Solver.VersionSet
import Milpa.Types.Registry

/-!
# The index

`registry.rs`: the parser of `index.kdl`, from the KDL document on, and the lookups in
the index that it makes. A diagnostic that is printed is returned by the function that
finds it and dropped where the source prints it.
-/

namespace Milpa.Core

open Milpa.Kdl Milpa.Solver

/-! ### Errors -/

/-- The errors of `registry.rs`: a constructor for each message, with the values it quotes. -/
inductive TngError where
  /-- `TNG-KDL-SYNTAX`: `KDL input exceeds maximum nesting depth`. -/
  | nestingDepth
  /-- `TNG-KDL-SYNTAX`: `KDL input exceeds maximum block-comment nesting depth`. -/
  | commentDepth
  /-- `TNG-KDL-SYNTAX`: `index KDL syntax error: {e}`. -/
  | kdlSyntax (e : Str)
  /-- `TNG-SCHEMA-UNKNOWN`. -/
  | schemaUnknown (n : ℤ)
  /-- `TNG-UNSAFE-NAME`. -/
  | unsafeName (name : Str)
  /-- `{code}`: ``{field} {value} begins with `-` (flag injection)``. -/
  | leadingDash (code field value : Str)
  /-- `TNG-UNSAFE-CONTROL-CHAR`. -/
  | controlChar (field value : Str)
  /-- `TNG-BAD-COMMIT-SHA`. -/
  | badCommitSha (sha : Str)
  /-- `TNG-BAD-OCI-DIGEST`. -/
  | badOciDigest (digest : Str)
  /-- `TNG-BAD-DEP-DECL`. -/
  | badDepDecl (pointer : Str)
  /-- `TNG-NOT-FOUND`: `package {name} is not in the tianguis index`. -/
  | notFound (name : Str)
  /-- `TNG-AMBIGUOUS-NAME`. -/
  | ambiguousName (name : Str) (namespaces : List Str)
  /-- `TNG-NO-PROVENANCE`. -/
  | noProvenance (name : Str) (constraintDesc : Option Str) (provenanceLess : List Str)
  /-- `TNG-NO-SATISFYING-VERSION`, with the versions that are there and those excluded as yanked, with the reason. -/
  | noSatisfyingVersion (name : Str) (constraintDesc : Option Str) (available : List Str)
    (yankedExcluded : List (Str × Option Str))
  deriving DecidableEq, Repr

/-- What the parser says when it drops a part of an attestation, with the coordinate it is about. -/
inductive Diagnostic where
  | noSignedBy (coordinate : Str)
  | unrecognizedKind (coordinate other : Str)
  | malformedBundle (coordinate raw : Str)
  deriving DecidableEq, Repr

/-! ### Checks -/

/-- `is_safe_name`. -/
def isSafeName (name : Str) : Bool :=
  !(name.containsStr ".." || decide ('/' ∈ name) || decide ('\\' ∈ name) || decide (name.head? = some '/'))

/-- `validate_safe_name`. -/
def validateSafeName (name : Str) : Except TngError Unit := rejectIf (isSafeName name = false) (.unsafeName name)

/-- `validate_no_leading_dash`. -/
def validateNoLeadingDash (value field code : Str) : Except TngError Unit :=
  rejectIf (value.head? = some '-') (.leadingDash code field value)

/-- `has_control_char`. -/
def hasControlChar (s : Str) : Bool := s.any fun c => decide (c.toNat ≤ 0x1F) || decide (c.toNat = 0x7F)

/-- `validate_no_control_chars`. -/
def validateNoControlChars (value field : Str) : Except TngError Unit :=
  rejectIf (hasControlChar value = true) (.controlChar field value)

/-- `is_lower_hex`. -/
def isLowerHexOf (s : Str) (len : ℕ) : Bool := decide (byteLength s = len) && s.all isLowerHex

/-- `validate_commit_sha`. -/
def validateCommitSha (sha : Str) : Except TngError Unit := rejectIf (isLowerHexOf sha 40 = false) (.badCommitSha sha)

/-- A digest: `sha256:` and 64 lowercase hexadecimal digits. -/
def isSha256Pointer (s : Str) : Bool := ((s.stripPrefix "sha256:").map fun hex => isLowerHexOf hex 64).getD false

/-- `validate_oci_digest`. -/
def validateOciDigest (digest : Str) : Except TngError Unit :=
  rejectIf (isSha256Pointer digest = false) (.badOciDigest digest)

/-- `validate_dep_decl_pointer`. -/
def validateDepDeclPointer (pointer : Str) : Except TngError Unit :=
  rejectIf (isSha256Pointer pointer = false) (.badDepDecl pointer)

/-- A check of a value that is there. -/
def validateOpt (check : Str → Except TngError Unit) : Option Str → Except TngError Unit
  | some s => check s
  | none => .ok ()

/-! ### Reading nodes -/

/-- The first argument. -/
def firstArg (node : KdlNode) : Option KdlEntry := node.entries.find? fun e => e.name.isNone

/-- `first_arg_str`. -/
def firstArgStr (node : KdlNode) : Option Str := (firstArg node).bind fun e => e.value.asString

/-- The first child of a name. -/
def childNamed (node : KdlNode) (childName : Str) : Option KdlNode :=
  node.children.find? fun c => decide (c.name = childName)

/-- `child_arg_str`. -/
def childArgStr (node : KdlNode) (childName : Str) : Option Str := (childNamed node childName).bind firstArgStr

/-- `child_prop_str`. -/
def childPropStr (node : KdlNode) (key : Str) : Option Str :=
  (node.entries.find? fun e => decide (e.name = some key)).bind fun e => e.value.asString

/-- `as_integer`. -/
def asInteger : KdlValue → Option ℤ
  | .integer n => some n
  | _ => none

/-- `as_bool`. -/
def asBool : KdlValue → Option Bool
  | .bool b => some b
  | _ => none

/-- `i64::try_from`. -/
def toI64 (n : ℤ) : Option ℤ := if -2 ^ 63 ≤ n ∧ n < 2 ^ 63 then some n else none

/-- `child_arg_i64`. -/
def childArgI64 (node : KdlNode) (childName : Str) : Option ℤ :=
  (((childNamed node childName).bind firstArg).bind fun e => asInteger e.value).bind toI64

/-- `child_arg_bool`. -/
def childArgBool (node : KdlNode) (childName : Str) : Option Bool :=
  ((childNamed node childName).bind firstArg).bind fun e => asBool e.value

/-! ### Attestations -/

/-- `parse_rekor_block`. -/
def parseRekorBlock (node : KdlNode) : Except TngError (Option RekorRef) :=
  match childNamed node "rekor" with
  | none => .ok none
  | some child => do
    let uuid := (childArgStr child "uuid").getD []
    let logIndex := (childArgStr child "log_index").getD []
    let integratedTime := (childArgStr child "integrated_time").getD []
    validateNoControlChars uuid "rekor uuid"
    validateNoControlChars logIndex "rekor log_index"
    validateNoControlChars integratedTime "rekor integrated_time"
    return some ⟨uuid, logIndex, integratedTime⟩

/-- `parse_bundle_pin`. -/
def parseBundlePin (node : KdlNode) (coordinate : Str) : Option Str × List Diagnostic :=
  match (childNamed node "bundle").bind fun child => childPropStr child "sha256" with
  | none => (none, [])
  | some raw => if isLowerHexOf raw 64 then (some raw, []) else (none, [.malformedBundle coordinate raw])

/-- `parse_entry_attestation`. -/
def parseEntryAttestation («namespace» pkgName ver : Str) (node : KdlNode) :
    Except TngError (Option EntryAttestation × List Diagnostic) := do
  let coordinate : Str := "pkg:tianguis/" ++ («namespace» ++ '/' :: (pkgName ++ '@' :: ver))
  let attestationLabel := childArgStr node "attestation"
  let rekor ← parseRekorBlock node
  let (bundlePin, bundleDiag) := parseBundlePin node coordinate
  match attestationLabel with
  | none => return (none, [])
  | some label =>
    if label = "author-signed".toList then
      match (childArgStr node "signed_by").filter fun signer => !signer.isEmpty with
      | some signer =>
        validateNoControlChars signer "signed_by"
        return (some ⟨.authorSigned signer, rekor, bundlePin⟩, bundleDiag)
      | none => return (none, bundleDiag ++ [.noSignedBy coordinate])
    else if label = "milpa-vendored".toList then return (some ⟨.milpaVendored, rekor, bundlePin⟩, bundleDiag)
    else return (none, bundleDiag ++ [.unrecognizedKind coordinate label])

/-! ### Versions -/

/-- What the loop of `parse_version_node` makes of a child: a provenance, where it is one that is known. -/
def parseIndexProvenance (child : KdlNode) : Except TngError (Option Provenance) :=
  if child.name = "provenance".toList then
    match childArgStr child "kind" with
    | some kind =>
      if kind = "git".toList then do
        let url := (childArgStr child "url").getD []
        let gitRef := (childArgStr child "ref").getD []
        let commit := childArgStr child "commit_sha"
        validateNoControlChars url "git url"
        validateNoControlChars gitRef "git ref"
        validateNoLeadingDash url "git url" "TNG-UNSAFE-URL"
        validateNoLeadingDash gitRef "git ref" "TNG-UNSAFE-REF"
        validateOpt validateCommitSha commit
        return some (.git url gitRef commit)
      else if kind = "oci".toList then do
        let registry := (childArgStr child "registry").getD []
        let repository := (childArgStr child "repository").getD []
        let digest := (childArgStr child "digest").getD []
        let sourceUrl := childArgStr child "source"
        validateNoControlChars registry "oci registry"
        validateNoControlChars repository "oci repository"
        validateOpt (fun s => validateNoControlChars s "oci source") sourceUrl
        validateNoLeadingDash registry "oci registry" "TNG-UNSAFE-OCI-FIELD"
        validateNoLeadingDash repository "oci repository" "TNG-UNSAFE-OCI-FIELD"
        validateOciDigest digest
        return some (.oci registry repository digest sourceUrl)
      else return none
    | none => .ok none
  else .ok none

/-- `parse_version_node`. -/
def parseVersionNode («namespace» pkgName ver : Str) (node : KdlNode) : Except TngError (IndexVersion × List Diagnostic) := do
  let contentHash := (childArgStr node "content_hash").getD []
  validateNoControlChars contentHash "content_hash"
  let depDecl := (childArgStr node "dep_decl").filter fun s => !s.isEmpty
  validateOpt validateDepDeclPointer depDecl
  let depDeclSchemaVersion := childArgI64 node "dep_decl_schema_version"
  let provenances ← node.children.mapM parseIndexProvenance
  let (attestation, diagnostics) ← parseEntryAttestation «namespace» pkgName ver node
  let publishedAtRaw := childArgStr node "published_at"
  let yankedReason := childArgStr node "yanked_reason"
  validateOpt (fun reason => validateNoControlChars reason "yanked_reason") yankedReason
  return (
    { version := ver, contentHash, provenances := provenances.filterMap id, depDecl, depDeclSchemaVersion, attestation,
      «namespace», publishedAt := publishedAtRaw.bind Timestamp.parseIso8601Timestamp,
      yanked := (childArgBool node "yanked").getD false,
      yankedAt := (childArgStr node "yanked_at").bind Timestamp.parseIso8601Timestamp, yankedReason, publishedAtRaw },
    diagnostics)

/-! ### Packages -/

/-- One round of the loop over the children of a package: the first record of a version counts. -/
def versionChild («namespace» name : Str) (versions : List IndexVersion) (child : KdlNode) :
    Except TngError (List IndexVersion) :=
  if child.name = "version".toList then
    match firstArgStr child with
    | none => .ok versions
    | some ver => do
      validateNoControlChars ver "version"
      if ver ∈ versions.map IndexVersion.version then return versions
      else do
        let (iv, _) ← parseVersionNode «namespace» name ver child
        return versions ++ [iv]
  else .ok versions

/-- Newest first: versions that can be parsed in descending order, then the others. -/
def newestFirst (versions : List IndexVersion) : List IndexVersion :=
  let parseable := versions.filterMap fun v => (parseVersion v.version).map fun parsed => (parsed, v)
  (sortByKey (fun p => OrderDual.toDual p.1.precedenceKey) parseable).map Prod.snd ++
    versions.filter fun v => (parseVersion v.version).isNone

/-- One round of the loop of `Index::parse`. -/
def packageNode (packages : List Package) (node : KdlNode) : Except TngError (List Package) :=
  if node.name = "package".toList then
    match firstArgStr node with
    | none => .ok packages
    | some name => do
      validateSafeName name
      validateNoControlChars name "name"
      let «namespace» := (childArgStr node "namespace").getD []
      validateNoControlChars «namespace» "namespace"
      let versions ← node.children.foldlM (versionChild «namespace» name) []
      return packages ++ [⟨name, «namespace», newestFirst versions⟩]
  else .ok packages

/-- The first node of a name in a document. -/
def nodeNamed (doc : List KdlNode) (name : Str) : Option KdlNode := doc.find? fun node => decide (node.name = name)

/-- The integer that a document declares under a name. -/
def rootInteger (doc : List KdlNode) (name : Str) : Option ℤ :=
  ((nodeNamed doc name).bind firstArg).bind fun e => asInteger e.value

/-- `check_schema_version`. -/
def checkSchemaVersion (doc : List KdlNode) : Except TngError Unit :=
  match rootInteger doc "schema_version" with
  | some n => if 1 < n then .error (.schemaUnknown n) else .ok ()
  | none => .ok ()

/-- `Index::parse`, from the document on. -/
def indexOf (doc : List KdlNode) : Except TngError Index := do
  checkSchemaVersion doc
  let packages ← doc.foldlM packageNode []
  return ⟨packages⟩

/-- `Index::parse`. -/
def Index.parse (kdlParse : Str → Except Str (List KdlNode)) (text : Str) : Except TngError Index :=
  if Nesting.kdlMaxNestingDepth < Nesting.kdlBraceDepth text then .error .nestingDepth
  else if Nesting.kdlMaxNestingDepth < Nesting.kdlBlockCommentDepth text then .error .commentDepth
  else
    match kdlParse text with
    | .error e => .error (.kdlSyntax e)
    | .ok doc => indexOf doc

/-! ### Lookups -/

/-- What `filter_candidates` returns. -/
structure Candidates where
  satisfying : List IndexVersion
  provenanceLess : List Str
  yankedExcluded : List IndexVersion

/-- One round of the loop of `filter_candidates`. -/
def filterCandidate (vs : VersionSet) (c : Candidates) (v : IndexVersion) : Candidates :=
  match parseVersion v.version with
  | none => c
  | some parsed =>
    if v.yanked then if vs.contains parsed then { c with yankedExcluded := c.yankedExcluded ++ [v] } else c
    else if vs.contains parsed then
      if v.provenances.isEmpty then { c with provenanceLess := c.provenanceLess ++ [v.version] }
      else { c with satisfying := c.satisfying ++ [v] }
    else c

/-- `filter_candidates`. -/
def filterCandidates (versions : List IndexVersion) (vs : VersionSet) : Candidates :=
  versions.foldl (filterCandidate vs) ⟨[], [], []⟩

/-- What `resolve_named_all` and `resolve_named_all_qualified` do with the package that they have found. -/
def resolveIn (pkg : Package) (name : Str) (vs : VersionSet) (constraintDesc : Option Str) :
    Except TngError (List IndexVersion) :=
  let c := filterCandidates pkg.versions vs
  if c.satisfying.isEmpty then
    if c.provenanceLess.isEmpty then
      .error (.noSatisfyingVersion name constraintDesc (pkg.versions.map IndexVersion.version)
        (c.yankedExcluded.map fun v => (v.version, v.yankedReason)))
    else .error (.noProvenance name constraintDesc c.provenanceLess)
  else .ok c.satisfying

namespace Index

/-- `lookup_bare`. -/
def lookupBare (index : Index) (name : Str) : BareLookup :=
  match index.packages.filter fun p => decide (p.name = name) with
  | [] => .notFound
  | [one] => .found one
  | many => .ambiguous (many.map Package.namespace)

/-- `resolve_named_all`. -/
def resolveNamedAll (index : Index) (name : Str) (vs : VersionSet) (constraintDesc : Option Str) :
    Except TngError (List IndexVersion) :=
  match lookupBare index name with
  | .notFound => .error (.notFound name)
  | .ambiguous namespaces => .error (.ambiguousName name (sortByKey id namespaces))
  | .found pkg => resolveIn pkg name vs constraintDesc

/-- `lookup_qualified`. -/
def lookupQualified (index : Index) («namespace» name : Str) : Option Package :=
  index.packages.find? fun p => decide (p.name = name) && decide (p.namespace = «namespace»)

/-- `resolve_named_all_qualified`. -/
def resolveNamedAllQualified (index : Index) («namespace» name : Str) (vs : VersionSet) (constraintDesc : Option Str) :
    Except TngError (List IndexVersion) :=
  let qualified := «namespace» ++ '/' :: name
  match lookupQualified index «namespace» name with
  | none => .error (.notFound qualified)
  | some pkg => resolveIn pkg qualified vs constraintDesc

end Index

end Milpa.Core
