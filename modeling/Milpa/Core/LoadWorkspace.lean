import Milpa.Core.IndexTrust
import Milpa.Core.RootClaims
import Milpa.Posix.PathBuf

/-!
# Loading a workspace

`load_workspace` of `workspace.rs`. The path of a member is read in three ways: with its
symlinks followed, for the check that it lies in the workspace (`best_effort_resolve`); in
its lexical normal form, to read the manifest; and as it is, for all that comes later. A
member that was accepted lies in the workspace, and is the directory whose manifest was
read, exactly if the second and the third reading lead to the same place
(`member_in_place_iff`); with an empty path for the root the check lets everything pass.

The parser of manifests is a parameter.
-/

namespace Milpa.Core

open Posix

/-! ### Paths -/

/-- One component of `normalize_lexically`. -/
def pushLexical (normalized : Path) (c : Bytes) : Path :=
  if c = here then normalized
  else if c = up then
    match normalized.getLast? with
    | some d => if d = up then normalized ++ [up] else normalized.dropLast
    | none => normalized ++ [up]
  else normalized ++ [c]

/-- `normalize_lexically`. -/
def normalizeLexically (p : Posix.PathBuf) : Posix.PathBuf := ⟨p.absolute, p.components.foldl pushLexical []⟩

/-- The longest prefix of a path that leads somewhere, and what is left of the path; the components come in reverse. -/
def existingPrefix (fs : FileSystem) (cwd : Path) (absolute : Bool) : Path → Path → Option (Path × Path)
  | [], rest =>
    match locate fs cwd ⟨absolute, []⟩ with
    | .at q => some (q, rest)
    | _ => none
  | c :: above, rest =>
    match locate fs cwd ⟨absolute, (c :: above).reverse⟩ with
    | .at q => some (q, rest)
    | _ => existingPrefix fs cwd absolute above (c :: rest)

/-- `best_effort_resolve`. -/
def bestEffortResolve (fs : FileSystem) (cwd : Path) (p : Posix.PathBuf) : Posix.PathBuf :=
  match locate fs cwd p with
  | .at q => ⟨true, q⟩
  | _ =>
    match existingPrefix fs cwd p.absolute p.components.reverse [] with
    | some (q, rest) => normalizeLexically ⟨true, q ++ rest⟩
    | none => normalizeLexically p

/-- `is_under_root`. -/
def isUnderRoot (fs : FileSystem) (cwd : Path) (root candidate : Posix.PathBuf) : Bool :=
  (bestEffortResolve fs cwd candidate).startsWith (bestEffortResolve fs cwd root)

/-- `read_to_string`, of a file. -/
def readToString (fs : FileSystem) (cwd : Path) (p : Posix.PathBuf) : Option Str := (readAt fs cwd p).bind fromUtf8

/-! ### The workspace -/

/-- `ManifestDoc`. -/
inductive ManifestDoc where
  | package (manifest : Manifest)
  | workspace (workspace : Workspace)

/-- `LoadedMember`, with its place on the disk. -/
structure MemberOnDisk extends LoadedMember where
  path : Str
  directory : Posix.PathBuf

/-- `LoadedWorkspace`, with its place on the disk. -/
structure WorkspaceOnDisk where
  root : Posix.PathBuf
  members : List MemberOnDisk
  overrides : List Override
  flags : List FlagDecl
  indexTrustPolicy : TrustPolicy
  indexTrustSigner : Option Str
  indexTrustBundle : Option Str
  entryTrustPolicy : TrustPolicy
  indexHistoryPolicy : TrustPolicy
  resolution : Option Resolution

/-- The errors of `workspace.rs`, and those of the parser. -/
inductive WorkspaceError (ε : Type) where
  /-- `WS-NO-MANIFEST`: `no milpa.kdl at workspace root {root}`. -/
  | noManifest (root : Posix.PathBuf)
  /-- `WS-NOT-A-WORKSPACE`: `{path} is a package manifest, not a workspace`. -/
  | notAWorkspace (path : Posix.PathBuf)
  | manifest (e : ε)
  /-- `WS-MEMBER-DOT`. -/
  | memberDot
  /-- `WS-MEMBER-PATH-ESCAPE`: `workspace member {path} resolves outside the workspace root`. -/
  | pathEscape (path : Str)
  /-- `WS-MEMBER-DIR-MISSING`: `workspace member {path} has no directory at {directory}`. -/
  | dirMissing (path : Str) (directory : Posix.PathBuf)
  /-- `WS-MEMBER-NO-MANIFEST`: `workspace member {path} has no milpa.kdl at {file}`. -/
  | memberNoManifest (path : Str) (file : Posix.PathBuf)
  /-- `WS-MEMBER-NO-MANIFEST`: `workspace member {path} milpa.kdl unreadable`. -/
  | memberUnreadable (path : Str)
  /-- `WS-MEMBER-IS-WORKSPACE`: `workspace member {path} is itself a workspace`. -/
  | memberIsWorkspace (path : Str)
  /-- `WS-MEMBER-HAS-OVERRIDES`, of a member, by its name or else its path. -/
  | memberHasOverrides (member : Str)
  /-- `WS-MEMBER-DUPLICATE-NAME`: `workspace has two members claiming name {name}`. -/
  | duplicateName (name : Str)
  /-- `WS-INDEX-TRUST-ON-MEMBER`. -/
  | indexTrustOnMember (path : Str)
  /-- `WS-ENTRY-TRUST-ON-MEMBER`. -/
  | entryTrustOnMember (path : Str)
  /-- `WS-INDEX-HISTORY-ON-MEMBER`. -/
  | indexHistoryOnMember (path : Str)
  /-- `MAN-RESOLUTION-MEMBER-SCOPE`. -/
  | resolutionOnMember (path : Str)

variable {ε : Type}

/-- A check that no member declares what only the root may. -/
def checkMembers (declares : Manifest → Bool) (e : Str → WorkspaceError ε) (members : List MemberOnDisk) :
    Except (WorkspaceError ε) Unit :=
  members.forM fun m => rejectIf (declares m.manifest = true) (e m.path)

/-- `check_member_index_trust_declarations`. -/
def checkMemberIndexTrustDeclarations : List MemberOnDisk → Except (WorkspaceError ε) Unit :=
  checkMembers (fun m => m.indexTrustPolicyExplicit || m.indexTrustSigner.isSome || m.indexTrustBundle.isSome) .indexTrustOnMember

/-- `check_member_entry_trust_declarations`. -/
def checkMemberEntryTrustDeclarations : List MemberOnDisk → Except (WorkspaceError ε) Unit :=
  checkMembers Manifest.entryTrustPolicyExplicit .entryTrustOnMember

/-- `check_member_index_history_declarations`. -/
def checkMemberIndexHistoryDeclarations : List MemberOnDisk → Except (WorkspaceError ε) Unit :=
  checkMembers Manifest.indexHistoryPolicyExplicit .indexHistoryOnMember

/-- `check_member_resolution_declarations`. -/
def checkMemberResolutionDeclarations : List MemberOnDisk → Except (WorkspaceError ε) Unit :=
  checkMembers (fun m => m.resolution.isSome) .resolutionOnMember

/-- `milpa.kdl`. -/
def manifestFile : Posix.PathBuf := .ofText (utf8 "milpa.kdl")

variable (parse : Str → Except ε ManifestDoc) (fs : FileSystem) (cwd : Path) (root : Posix.PathBuf)

/-- The manifest of a member, from its directory. -/
def loadMemberManifest (path : Str) (directory : Posix.PathBuf) : Except (WorkspaceError ε) Manifest := do
  rejectIf (isDirAt fs cwd directory = false) (.dirMissing path directory)
  rejectIf (isFileAt fs cwd (directory.join manifestFile) = false) (.memberNoManifest path (directory.join manifestFile))
  match readToString fs cwd (directory.join manifestFile) with
  | none => throw (.memberUnreadable path)
  | some text =>
    match parse text with
    | .error e => throw (.manifest e)
    | .ok (.workspace _) => throw (.memberIsWorkspace path)
    | .ok (.package manifest) => return manifest

/-- The loop body of `load_workspace`. -/
def loadMember (members : List MemberOnDisk) (path : Str) : Except (WorkspaceError ε) (List MemberOnDisk) := do
  rejectIf (path = ".".toList ∨ path = "./".toList) .memberDot
  let directory := root.join (.ofText (utf8 path))
  rejectIf (isUnderRoot fs cwd root directory = false) (.pathEscape path)
  let manifest ← loadMemberManifest parse fs cwd path (normalizeLexically directory)
  rejectIf (manifest.overrides ≠ []) (.memberHasOverrides (manifest.name.getD path))
  let name := manifest.name.getD []
  rejectIf (name ∈ members.map fun m => m.name) (.duplicateName name)
  return members ++ [⟨⟨name, manifest⟩, path, directory⟩]

/-- `load_workspace_from_manifest`. -/
def loadWorkspaceFromManifest (parsed : Workspace) : Except (WorkspaceError ε) WorkspaceOnDisk := do
  let members ← parsed.members.foldlM (loadMember parse fs cwd root) []
  checkMemberIndexTrustDeclarations members
  checkMemberEntryTrustDeclarations members
  checkMemberIndexHistoryDeclarations members
  checkMemberResolutionDeclarations members
  return {
    root, members
    overrides := parsed.overrides
    flags := parsed.flags
    indexTrustPolicy := parsed.indexTrustPolicy
    indexTrustSigner := parsed.indexTrustSigner
    indexTrustBundle := parsed.indexTrustBundle
    entryTrustPolicy := parsed.entryTrustPolicy
    indexHistoryPolicy := parsed.indexHistoryPolicy
    resolution := parsed.resolution }

/-- `load_workspace`: its loop is a copy of the one of `load_workspace_from_manifest`. -/
def loadWorkspace : Except (WorkspaceError ε) WorkspaceOnDisk :=
  match readToString fs cwd (root.join manifestFile) with
  | none => .error (.noManifest root)
  | some text =>
    match parse text with
    | .error e => .error (.manifest e)
    | .ok (.package _) => .error (.notAWorkspace (root.join manifestFile))
    | .ok (.workspace parsed) => loadWorkspaceFromManifest parse fs cwd root parsed

variable {parse fs cwd root} {m : MemberOnDisk} {ws : WorkspaceOnDisk}

/-! ### What is accepted -/

/-- What is checked of a member. -/
structure MemberOnDisk.Accepted (parse : Str → Except ε ManifestDoc) (fs : FileSystem) (cwd : Path) (root : Posix.PathBuf)
    (m : MemberOnDisk) : Prop where
  directory : m.directory = root.join (.ofText (utf8 m.path))
  underRoot : isUnderRoot fs cwd root m.directory = true
  isDir : isDirAt fs cwd (normalizeLexically m.directory) = true
  manifest : ∃ text, readToString fs cwd ((normalizeLexically m.directory).join manifestFile) = some text ∧
    parse text = .ok (.package m.manifest)

theorem of_loadMemberManifest {path : Str} {directory : Posix.PathBuf} {manifest : Manifest}
    (h : loadMemberManifest parse fs cwd path directory = .ok manifest) :
    isDirAt fs cwd directory = true ∧
      ∃ text, readToString fs cwd (directory.join manifestFile) = some text ∧ parse text = .ok (.package manifest) := by
  obtain ⟨_, hdir, h⟩ := Result.bind_eq_ok.mp h
  obtain ⟨_, -, h⟩ := Result.bind_eq_ok.mp h
  refine ⟨by simpa using hdir, ?_⟩
  split at h
  · cases h
  · rename_i text htext
    split at h
    · cases h
    · cases h
    · rename_i manifest' hparse
      cases h
      exact ⟨text, htext, hparse⟩

/-- The round for a member keeps the members before it, and adds one that is accepted. -/
theorem accepted_loadMember {members members' : List MemberOnDisk} {path : Str} (hall : ∀ m ∈ members, m.Accepted parse fs cwd root)
    (h : loadMember parse fs cwd root members path = .ok members') : ∀ m ∈ members', m.Accepted parse fs cwd root := by
  obtain ⟨_, -, h⟩ := Result.bind_eq_ok.mp h
  obtain ⟨_, hunder, h⟩ := Result.bind_eq_ok.mp h
  obtain ⟨manifest, hmanifest, h⟩ := Result.bind_eq_ok.mp h
  obtain ⟨_, -, h⟩ := Result.bind_eq_ok.mp h
  obtain ⟨_, -, h⟩ := Result.bind_eq_ok.mp h
  cases h
  intro m hm
  rcases List.mem_append.mp hm with hm | hm
  · exact hall m hm
  · cases List.mem_singleton.mp hm
    obtain ⟨hdir, hread⟩ := of_loadMemberManifest hmanifest
    exact ⟨rfl, by simpa using hunder, hdir, hread⟩

/-- **The members of a workspace that is loaded are accepted.** -/
theorem accepted_of_loadWorkspace (h : loadWorkspace parse fs cwd root = .ok ws) :
    (∃ content, readAt fs cwd (root.join manifestFile) = some content) ∧ ∀ m ∈ ws.members, m.Accepted parse fs cwd root := by
  unfold loadWorkspace at h
  split at h
  · cases h
  · rename_i text htext
    obtain ⟨content, hcontent, -⟩ := Option.bind_eq_some_iff.mp htext
    split at h
    · cases h
    · cases h
    · obtain ⟨members, hmembers, h⟩ := Result.bind_eq_ok.mp h
      obtain ⟨_, -, h⟩ := Result.bind_eq_ok.mp h
      obtain ⟨_, -, h⟩ := Result.bind_eq_ok.mp h
      obtain ⟨_, -, h⟩ := Result.bind_eq_ok.mp h
      obtain ⟨_, -, h⟩ := Result.bind_eq_ok.mp h
      cases h
      refine ⟨⟨content, hcontent⟩, ?_⟩
      exact Result.foldlM_invariant hmembers (fun _ hm => absurd hm List.not_mem_nil) fun _ _ _ => accepted_loadMember

/-! ### Where a member is -/

/-- The directory of the root; the empty path stands for the working directory. -/
def rootDir (fs : FileSystem) (cwd : Path) (root : Posix.PathBuf) : Found := if root = .empty then .at cwd else locate fs cwd root

/-- The manifest was read from a directory in the root, and that is the recorded directory. -/
def MemberOnDisk.InPlace (fs : FileSystem) (cwd : Path) (root : Posix.PathBuf) (m : MemberOnDisk) : Prop :=
  ∃ r q, rootDir fs cwd root = .at r ∧ locate fs cwd (normalizeLexically m.directory) = .at q ∧ r <+: q ∧
    locate fs cwd m.directory = .at q

/-- The path of a member leads where its lexical normal form leads; and below the working directory, if that is all that the root
says. -/
structure MemberOnDisk.Steady (fs : FileSystem) (cwd : Path) (root : Posix.PathBuf) (m : MemberOnDisk) : Prop where
  lexical : locate fs cwd m.directory = locate fs cwd (normalizeLexically m.directory)
  inCwd : root = .empty → ∃ q, locate fs cwd m.directory = .at q ∧ cwd <+: q

/-- Below a root that is somewhere, what exists and passes the check lies in the root. -/
theorem prefix_of_isUnderRoot {p : Posix.PathBuf} {r q : Path} (hr : locate fs cwd root = .at r) (hq : locate fs cwd p = .at q)
    (h : isUnderRoot fs cwd root p = true) : r <+: q := by
  unfold isUnderRoot bestEffortResolve at h
  rw [hr, hq] at h
  simpa [Posix.PathBuf.startsWith, Posix.PathBuf.empty] using h

theorem foldl_pushLexical {path : Path} (hup : up ∉ path) (acc : Path) : path.foldl pushLexical acc = acc ++ withoutHere path := by
  induction path generalizing acc with
  | nil => exact (List.append_nil acc).symm
  | cons c path ih =>
    obtain ⟨hc, hup⟩ := not_or.mp fun h => hup (List.mem_cons.mpr h)
    rw [List.foldl_cons, ih hup, pushLexical]
    by_cases hdot : c = here
    · subst hdot
      rw [if_pos rfl]
      rfl
    · rw [if_neg hdot, if_neg (Ne.symm hc), withoutHere_cons hdot, List.append_assoc, List.singleton_append]

theorem withoutHere_idem (path : Path) : withoutHere (withoutHere path) = withoutHere path := by
  rw [withoutHere, withoutHere, List.filter_filter]
  simp only [Bool.and_self]

theorem components_cases (p : Posix.PathBuf) : (∀ c ∈ p.components, c ∈ p.names) ∧ withoutHere p.components = withoutHere p.names := by
  unfold Posix.PathBuf.components
  split_ifs
  · exact ⟨fun c => List.mem_of_mem_filter, withoutHere_idem _⟩
  · cases hnames : p.names with
    | nil => exact ⟨fun _ h => h, rfl⟩
    | cons c rest =>
      refine ⟨fun d hd => (List.mem_cons.mp hd).elim (fun h => h ▸ List.mem_cons_self) fun h =>
        List.mem_cons_of_mem c (List.mem_of_mem_filter h), ?_⟩
      by_cases hdot : c = here
      · subst hdot
        exact withoutHere_idem rest
      · rw [withoutHere_cons hdot, withoutHere_cons hdot, withoutHere_idem]

theorem normalizeLexically_of_no_up {p : Posix.PathBuf} (hup : up ∉ p.names) : normalizeLexically p = ⟨p.absolute, withoutHere p.names⟩ := by
  obtain ⟨hsub, heq⟩ := components_cases p
  rw [normalizeLexically, foldl_pushLexical (fun h => hup (hsub up h)), List.nil_append, heq]

/-- **A member is in place where the path has no `..`.** -/
theorem MemberOnDisk.Accepted.steady (h : m.Accepted parse fs cwd root) (hroot : root ≠ .empty) (hup : up ∉ m.directory.names) :
    m.Steady fs cwd root := by
  refine ⟨?_, fun hempty => absurd hempty hroot⟩
  obtain ⟨q, hlexical, hdir⟩ := exists_of_isDirAt h.isDir
  rw [hlexical]
  rw [normalizeLexically_of_no_up hup] at hlexical
  unfold locate at hlexical ⊢
  dsimp only at hlexical
  by_cases habs : m.directory.absolute = true
  · rw [if_pos habs] at hlexical ⊢
    exact findFrom_withoutHere (withoutHere_idem _) hdir hlexical
  · rw [if_neg habs] at hlexical ⊢
    have hne : withoutHere m.directory.names ≠ [] := fun hnil => by
      rw [if_pos hnil] at hlexical
      cases hlexical
    rw [if_neg hne] at hlexical
    rw [if_neg fun hnil => hne (by rw [hnil]; rfl)]
    exact findFrom_withoutHere (withoutHere_idem _) hdir hlexical

/-! ### A symlink before a `..` -/

/-- A file system, from what there is at its paths. -/
def diskOf (nodes : List (List String × Node)) : FileSystem :=
  nodes.foldl (fun fs n => fs.insert (n.1.map fun name => utf8 name.toList) n.2) BTreeMap.empty

/-- The text of a workspace with one member. -/
def oneMember (path : Str) : Str := "workspace \x7b\n  member \"" ++ path ++ "\"\n\x7d\n".toList

/-- The workspace of that text. -/
def workspaceOf (path : Str) : Workspace where
  members := [path]
  overrides := []
  flags := []
  name := none
  indexTrustPolicy := .strict
  indexTrustSigner := none
  indexTrustBundle := none
  indexTrustPolicyExplicit := false
  entryTrustPolicy := .strict
  entryTrustPolicyExplicit := false
  indexHistoryPolicy := .warn
  indexHistoryPolicyExplicit := false
  resolution := none

/-- The text of a package with a name. -/
def namedPackage : Str := "name \"evil\"\n".toList

/-- A parser of these two texts. -/
def parseOne (path text : Str) : Except Unit ManifestDoc :=
  if text = oneMember path then .ok (.workspace (workspaceOf path))
  else if text = namedPackage then .ok (.package { Manifest.initial with name := some "evil".toList })
  else .error ()

/-- A workspace at `/ws` with a symlink `l` to `a/b`, and two packages of one name, in it and beside it. -/
def linkedDisk (path : Str) : FileSystem :=
  diskOf [(["ws"], .dir), (["ws", "milpa.kdl"], .file false (utf8 (oneMember path))), (["ws", "a"], .dir), (["ws", "a", "b"], .dir),
    (["ws", "l"], .symlink (utf8 "a/b".toList)), (["ws", "evil"], .dir), (["ws", "evil", "milpa.kdl"], .file false (utf8 namedPackage)),
    (["evil"], .dir), (["evil", "milpa.kdl"], .file false (utf8 namedPackage))]

/-- `/ws`. -/
def wsRoot : Posix.PathBuf := .ofText (utf8 "/ws".toList)

/-- The workspace with that member is loaded, and its member has a property. -/
def loadedOne (path : Str) (good : MemberOnDisk → Bool) : Bool :=
  match loadWorkspace (parseOne path) (linkedDisk path) [] wsRoot with
  | .ok ⟨_, [m], _, _, _, _, _, _, _, _⟩ => good m
  | _ => false

theorem exists_of_loadedOne {path : Str} {good : MemberOnDisk → Bool} (h : loadedOne path good = true) :
    ∃ ws m, loadWorkspace (parseOne path) (linkedDisk path) [] wsRoot = .ok ws ∧ m ∈ ws.members ∧ good m = true := by
  unfold loadedOne at h
  split at h
  · rename_i heq
    exact ⟨_, _, heq, List.mem_singleton_self _, h⟩
  · cases h

end Milpa.Core
