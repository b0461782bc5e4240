import Milpa.Types.LowerCase
import Milpa.Types.Result
import Milpa.Types.Source

/-!
# Source identities

`source_id.rs`: `canonical`, the string a source is known by in the solver, and
`normalize_source`, which brings a declared source to its normal form and rejects the
malformed ones. An error carries the values its message quotes: one constructor for each
message, and the context the source formats into it.
-/

namespace Milpa.Core

/-! ### The canonical string -/

/-- `SUBDIR_DELIM`. -/
def subdirDelim : Str := '#' :: "subdirectory="

/-- `REF_DELIM`. -/
def refDelim : Str := '#' :: "ref="

/-- `DIGEST_DELIM`. -/
def digestDelim : Str := '#' :: "digest="

/-- `subdir_suffix`, `ref_suffix` and `digest_suffix`: the delimiter and the value, if there is one. -/
def optSuffix (delim : Str) : Option Str → Str
  | none => []
  | some s => delim ++ s

/-- `subdir_suffix`. -/
def subdirSuffix (subpath : Option Str) : Str := optSuffix subdirDelim subpath

/-- `ref_suffix`. -/
def refSuffix (gitRef : Option Str) : Str := optSuffix refDelim gitRef

/-- `digest_suffix`. -/
def digestSuffix (digest : Option Str) : Str := optSuffix digestDelim digest

/-- `canonical`. -/
def canonical : SourceId → Str
  | .fetchable (.git url gitRef subpath) => "git+" ++ (url ++ refSuffix gitRef ++ subdirSuffix subpath)
  | .fetchable (.tarball url subpath) => "tar+" ++ (url ++ subdirSuffix subpath)
  | .fetchable (.oci registry repository digest subpath) =>
    "oci+" ++ (registry ++ '/' :: repository ++ digestSuffix digest ++ subdirSuffix subpath)
  | .fetchable (.local path) => "file+" ++ path
  | .fetchable (.registry registry none name) => "pkg+" ++ (registry ++ '/' :: name)
  | .fetchable (.registry registry (some ns) name) => "pkg+" ++ (registry ++ '/' :: (ns ++ '/' :: name))
  | .member memberName => "member+" ++ memberName

/-- A text without `#` does not have a delimiter in it. -/
theorem not_contains_of_no_hash {a rest : Str} (h : '#' ∉ a) : a.containsStr ('#' :: rest) = false := by
  rw [Bool.eq_false_iff, Ne, Str.containsStr_iff]
  rintro ⟨u, v, rfl⟩
  simp at h

theorem canonical_oci (registry repository : Str) (digest subpath : Option Str) :
    canonical (.fetchable (.oci registry repository digest subpath)) =
      "oci+" ++ (registry ++ '/' :: repository ++ digestSuffix digest ++ subdirSuffix subpath) := rfl

/-! ### Validation -/

/-- `contains_unsafe_char` on one character: a control character or a Unicode line separator. -/
def isUnsafeChar (c : Char) : Bool :=
  let n := c.toNat
  n < 0x20 || n == 0x7F || n == 0x2028 || n == 0x2029

/-- `contains_unsafe_char`. -/
def containsUnsafeChar (s : Str) : Bool := s.any isUnsafeChar

/-- `valid_flag_name`: `[A-Za-z0-9_-]+`. -/
def validFlagName (s : Str) : Bool := !s.isEmpty && s.all fun c => c.isAlphanum || c == '_' || c == '-'

/-- What a check is about: the text its message begins with. -/
inductive FieldContext where
  | gitSourceUrl (url : Str)
  | tarSourceUrl (url : Str)
  | ociSource (base : Str)
  | ociRegistry (registry : Str)
  | ociRepository (repository : Str)
  | localSourcePath (path : Str)
  | gitRef (gitRef : Str)
  | namespaceSegment («namespace» seg : Str)
  | gitDependency
  | ociDependency
  | tarballDependency
  deriving DecidableEq, Repr

/-- The messages of `SRC-ID-MALFORMED`. -/
inductive SourceIdError where
  /-- `{context} has an empty subdirectory subpath`. -/
  | emptySubpath (context : FieldContext)
  /-- `{context} has an absolute subpath {subpath}`. -/
  | absoluteSubpath (context : FieldContext) (subpath : Str)
  /-- `{context} has a path-traversal subpath {subpath}`. -/
  | traversalSubpath (context : FieldContext) (subpath : Str)
  /-- `{context} contains a literal "#subdirectory=" fragment`. -/
  | delimCollision (context : FieldContext)
  /-- `registry {label} {value} must match the package-name alphabet`. -/
  | registryComponent (label value : Str)
  /-- `{context} contains a control character or Unicode line separator`. -/
  | unsafeChar (context : FieldContext)
  /-- `registry namespace {namespace} has an empty '/'-segment`. -/
  | emptySegment («namespace» : Str)
  /-- `registry namespace {namespace} has a path-traversal segment {seg}`. -/
  | traversalSegment («namespace» seg : Str)
  /-- `git source url {url} contains a '#' fragment`. -/
  | gitFragment (url : Str)
  /-- `git ref {r} contains a '#'`. -/
  | gitRefHash (gitRef : Str)
  /-- `OCI registry {registry} must not contain '/'`. -/
  | ociRegistrySlash (registry : Str)
  /-- `OCI digest {d} contains a '#'`. -/
  | ociDigestHash (digest : Str)
  deriving DecidableEq, Repr

/-- `validate_subpath`. -/
def validateSubpath (subpath : Str) (context : FieldContext) : Except SourceIdError Unit := do
  rejectIf (subpath = []) (.emptySubpath context)
  rejectIf (subpath.head? = some '/') (.absoluteSubpath context subpath)
  rejectIf (("..".toList) ∈ subpath.split '/') (.traversalSubpath context subpath)

/-- `validate_subpath` on the subpath that is there, if one is. -/
def validateOptSubpath (subpath : Option Str) (context : FieldContext) : Except SourceIdError Unit :=
  match subpath with
  | some sp => validateSubpath sp context
  | none => .ok ()

/-- `validate_no_delim_collision`. -/
def validateNoDelimCollision (base : Str) (context : FieldContext) : Except SourceIdError Unit :=
  rejectIf (base.containsStr subdirDelim = true) (.delimCollision context)

/-- `validate_registry_component`. -/
def validateRegistryComponent (value label : Str) : Except SourceIdError Unit :=
  rejectIf (validFlagName value = false) (.registryComponent label value)

/-- `validate_no_unsafe_char`. -/
def validateNoUnsafeChar (value : Str) (context : FieldContext) : Except SourceIdError Unit :=
  rejectIf (containsUnsafeChar value = true) (.unsafeChar context)

/-- One round of the loop of `validate_namespace`. -/
def validateSegment («namespace» seg : Str) : Except SourceIdError Unit := do
  rejectIf (seg = []) (.emptySegment «namespace»)
  rejectIf (seg = ("..".toList)) (.traversalSegment «namespace» seg)
  validateNoUnsafeChar seg (.namespaceSegment «namespace» seg)

/-- `validate_namespace`. -/
def validateNamespace («namespace» : Str) : Except SourceIdError Unit :=
  (Str.split «namespace» '/').forM (validateSegment «namespace»)

/-- The checks of `normalize_source` on a pinned ref. -/
def validateGitRef : Option Str → Except SourceIdError Unit
  | some r => do
    rejectIf ('#' ∈ r) (.gitRefHash r)
    validateNoUnsafeChar r (.gitRef r)
  | none => .ok ()

/-- The check of `normalize_source` on a pinned digest. -/
def validateDigest : Option Str → Except SourceIdError Unit
  | some d => rejectIf ('#' ∈ d) (.ociDigestHash d)
  | none => .ok ()

/-- `validate_namespace` on the namespace that is there, if one is. -/
def validateOptNamespace : Option Str → Except SourceIdError Unit
  | some ns => validateNamespace ns
  | none => .ok ()

/-! ### Git URLs -/

/-- `git_default_port`. -/
def gitDefaultPort (scheme : Str) : Option ℕ :=
  if scheme = "https".toList then some 443
  else if scheme = "http".toList then some 80
  else if scheme = "ssh".toList then some 22
  else if scheme = "git".toList then some 9418
  else none

/-- What is left of a URL without the white space around it, one final `/` and one final `.git`. -/
def stripEnds (url : Str) : Str :=
  let s := url.trim
  let s := (s.stripSuffix "/").getD s
  (s.stripSuffix ".git").getD s

/-- The host and the text of the port, with care for IPv6 addresses in brackets: after the bracket there is
a port or nothing that counts. -/
def splitHostPort (hostAndPort : Str) : Str × Option Str :=
  match hostAndPort with
  | '[' :: rest =>
    match Str.splitOnce rest ']' with
    | some (addr, after) => ('[' :: addr ++ [']'], after.stripPrefix ":")
    | none => (hostAndPort, none)
  | _ =>
    match hostAndPort.rsplitOnce ':' with
    | some (host, port) => (host, some port)
    | none => (hostAndPort, none)

/-- The port that is written: one that is a number and not the default. -/
def keptPort (defaultPort : Option ℕ) (port : Option Str) : Option ℕ :=
  (port.bind (Str.parseUInt 16)).filter fun p => some p ≠ defaultPort

/-- The authority as `normalize_git_url` writes it: the host in lower case, and the port that is kept. -/
def netloc (defaultPort : Option ℕ) (hostAndPort : Str) : Str :=
  let (host, port) := splitHostPort hostAndPort
  match keptPort defaultPort port with
  | some p => host.toLowercase ++ ':' :: Str.ofNat p
  | none => host.toLowercase

/-- What `normalize_git_url` keeps of an authority: what follows the last `@`. -/
def dropUserinfo (authority : Str) : Str :=
  match authority.rsplitOnce '@' with
  | some (_, hostAndPort) => hostAndPort
  | none => authority

/-- The authority, without the query that may follow it: what precedes the first `/`. -/
def authorityOf (rest : Str) : Str := (rest.takeWhile (· ≠ '?')).takeWhile (· ≠ '/')

/-- The path, without the query: from the first `/` on. -/
def pathOf (rest : Str) : Str := (rest.takeWhile (· ≠ '?')).dropWhile (· ≠ '/')

/-- `normalize_git_url`, from the first search on. -/
def normalizeStripped (s : Str) : Str :=
  match s.splitOnceStr "://" with
  | none => s.toLowercase
  | some (scheme, rest) =>
    let scheme := scheme.toLowercase
    scheme ++ ("://" ++ (netloc (gitDefaultPort scheme) (dropUserinfo (authorityOf rest)) ++ pathOf rest))

/-- `normalize_git_url`. -/
def normalizeGitUrl (url : Str) : Str := normalizeStripped (stripEnds url)

/-! ### Normalization -/

/-- `normalize_source`. -/
def normalizeSource : SourceId → Except SourceIdError SourceId
  | .fetchable (.git url gitRef subpath) => do
    rejectIf ('#' ∈ url) (.gitFragment url)
    let normalized := normalizeGitUrl url
    validateNoUnsafeChar normalized (.gitSourceUrl normalized)
    validateNoDelimCollision normalized (.gitSourceUrl normalized)
    validateOptSubpath subpath .gitDependency
    validateGitRef gitRef
    return .fetchable (.git normalized gitRef subpath)
  | .fetchable (.oci registry repository digest subpath) => do
    rejectIf ('/' ∈ registry) (.ociRegistrySlash registry)
    validateNoUnsafeChar registry (.ociRegistry registry)
    validateNoUnsafeChar repository (.ociRepository repository)
    let base := registry ++ '/' :: repository
    validateNoDelimCollision base (.ociSource base)
    validateOptSubpath subpath .ociDependency
    validateDigest digest
    return .fetchable (.oci registry repository digest subpath)
  | .fetchable (.tarball url subpath) => do
    validateNoUnsafeChar url (.tarSourceUrl url)
    validateNoDelimCollision url (.tarSourceUrl url)
    validateOptSubpath subpath .tarballDependency
    return .fetchable (.tarball url subpath)
  | .fetchable (.local path) => do
    validateNoUnsafeChar path (.localSourcePath path)
    return .fetchable (.local path)
  | .fetchable (.registry registry «namespace» name) => do
    validateRegistryComponent registry "alias"
    validateOptNamespace «namespace»
    validateRegistryComponent name "name"
    return .fetchable (.registry registry «namespace» name)
  | .member memberName => return .member memberName

example : normalizeGitUrl " HTTPS://user@GitHub.com:443/Org/Repo.git/ " = ("https://github.com/Org/Repo" : Str) := by
  decide

/-! ### What is accepted -/

/-- What `normalize_source` makes of an accepted source: only the URL of a git source changes. -/
def normalForm : SourceId → SourceId
  | .fetchable (.git url gitRef subpath) => .fetchable (.git (normalizeGitUrl url) gitRef subpath)
  | sid => sid

theorem normalForm_git (url : Str) (gitRef subpath : Option Str) :
    normalForm (.fetchable (.git url gitRef subpath)) = .fetchable (.git (normalizeGitUrl url) gitRef subpath) := rfl

theorem normalForm_oci (registry repository : Str) (digest subpath : Option Str) :
    normalForm (.fetchable (.oci registry repository digest subpath)) =
      .fetchable (.oci registry repository digest subpath) := rfl

/-- The checks of `normalize_source`, by kind. -/
def Accepted : SourceId → Prop
  | .fetchable (.git url gitRef subpath) =>
    '#' ∉ url ∧ containsUnsafeChar (normalizeGitUrl url) = false ∧ (normalizeGitUrl url).containsStr subdirDelim = false ∧
      validateOptSubpath subpath .gitDependency = .ok () ∧ validateGitRef gitRef = .ok ()
  | .fetchable (.oci registry repository digest subpath) =>
    '/' ∉ registry ∧ containsUnsafeChar registry = false ∧ containsUnsafeChar repository = false ∧
      Str.containsStr (registry ++ '/' :: repository) subdirDelim = false ∧
      validateOptSubpath subpath .ociDependency = .ok () ∧ validateDigest digest = .ok ()
  | .fetchable (.tarball url subpath) =>
    containsUnsafeChar url = false ∧ url.containsStr subdirDelim = false ∧
      validateOptSubpath subpath .tarballDependency = .ok ()
  | .fetchable (.local path) => containsUnsafeChar path = false
  | .fetchable (.registry registry «namespace» name) =>
    validFlagName registry = true ∧ validateOptNamespace «namespace» = .ok () ∧ validFlagName name = true
  | .member _ => True

/-- **`normalize_source` accepts exactly what passes its checks**, and gives the normal form. -/
theorem normalizeSource_eq_ok {s n : SourceId} : normalizeSource s = .ok n ↔ Accepted s ∧ n = normalForm s := by
  match s with
  | .fetchable (.git url gitRef subpath) =>
    simp [normalizeSource, Accepted, normalForm, Result.bind_eq_ok, Result.map_eq_ok, validateNoUnsafeChar,
      validateNoDelimCollision, and_assoc, Unique.exists_iff]
  | .fetchable (.oci registry repository digest subpath) =>
    simp [normalizeSource, Accepted, normalForm, Result.bind_eq_ok, Result.map_eq_ok, validateNoUnsafeChar,
      validateNoDelimCollision, and_assoc, Unique.exists_iff]
  | .fetchable (.tarball url subpath) =>
    simp [normalizeSource, Accepted, normalForm, Result.bind_eq_ok, Result.map_eq_ok, validateNoUnsafeChar,
      validateNoDelimCollision, and_assoc, Unique.exists_iff]
  | .fetchable (.local path) =>
    simp [normalizeSource, Accepted, normalForm, Result.map_eq_ok, validateNoUnsafeChar, Unique.exists_iff]
  | .fetchable (.registry registry «namespace» name) =>
    simp [normalizeSource, Accepted, normalForm, Result.bind_eq_ok, Result.map_eq_ok, validateRegistryComponent,
      and_assoc, Unique.exists_iff]
  | .member memberName => simp [normalizeSource, Accepted, normalForm, Result.pure_eq_ok]

end Milpa.Core
