import Milpa.Core.GitObjects
import Milpa.Core.TreeHash

/-!
# The tree of a commit, with its submodules

`enumerate_git_entries` of `fetchers.rs`: the blobs of a commit, and below the path of each
gitlink the blobs of the submodule, whose URL `.gitmodules` says, down to a number of
levels and without a submodule below itself. It always ends: the levels that are left get
fewer. What it gives is what the commits say (`enumerateInner_splice`).
-/

namespace Milpa.Core.Git

open DagIdentity
open Posix (slash)

/-! ### `.gitmodules` -/

/-- The variables of `parse_gitmodules`. -/
structure Modules where
  path : Option Str
  url : Option Str
  found : BTreeMap Str Str

/-- The end of a section. -/
def Modules.flush (s : Modules) : Modules :=
  match s.path, s.url with
  | some path, some url => ⟨none, none, s.found.insert path url⟩
  | _, _ => ⟨none, none, s.found⟩

/-- One line. -/
def Modules.line (s : Modules) (line : Str) : Modules :=
  let stripped := Str.trim line
  if (stripped.stripPrefix "[submodule ").isSome then s.flush
  else if stripped.head? = some '[' then s
  else
    match stripped.splitOnce '=' with
    | none => s
    | some (key, value) =>
      if Str.trim key = "path".toList then { s with path := some (Str.trim value) }
      else if Str.trim key = "url".toList then { s with url := some (Str.trim value) }
      else s

/-- `str::lines`; an empty one at the end would not be seen. -/
def lines (text : Str) : List Str := (text.splitOn '\n').map fun l => (Str.stripSuffix l "\r").getD l

/-- `parse_gitmodules`. -/
def parseGitmodules (content : Bytes) : BTreeMap Str Str :=
  ((lines (fromUtf8Lossy content)).foldl Modules.line ⟨none, none, BTreeMap.empty⟩).flush.found

/-- One segment of `normalize_url_path`. -/
def urlSegment (parts : List Str) (segment : Str) : List Str :=
  if segment = [] ∨ segment = ".".toList then parts
  else if segment = "..".toList then parts.dropLast
  else parts ++ [segment]

/-- `normalize_url_path`. -/
def normalizeUrlPath (path : Str) : Str :=
  let result := ['/'].intercalate ((Str.split path '/').foldl urlSegment [])
  if path.head? = some '/' then '/' :: result else result

/-- A URL that is not relative. -/
def isAbsoluteUrl (url : Str) : Bool :=
  url.containsStr "://" || decide (url.head? = some '/') ||
    ((url.stripPrefix "./").isNone && (url.stripPrefix "../").isNone && decide ('@' ∈ (Str.split url ':').headD []))

/-- `resolve_submodule_url`; `none` where a relative URL has nothing to start from. -/
def resolveSubmoduleUrl (url : Str) (superprojectUrl : Option Str) : Option Str :=
  if isAbsoluteUrl url then some url
  else superprojectUrl.map fun base =>
    match base.rsplitOnce '/' with
    | none => base ++ '/' :: url
    | some (remote, _) =>
      match remote.splitOnceStr "://" with
      | some (scheme, after) =>
        let (host, path) := match after.splitOnce '/' with
          | some (host, path) => (host, '/' :: path)
          | none => (after, ['/'])
        scheme ++ "://".toList ++ host ++ normalizeUrlPath (path.rdropWhile (· = '/') ++ '/' :: url)
      | none => normalizeUrlPath (remote.rdropWhile (· = '/') ++ '/' :: url)

/-! ### The enumeration -/

/-- `git_mode_to_byte`. -/
def gitModeToByte (mode : Str) : UInt8 :=
  if mode = "100755".toList then modeExecutable else if mode = "120000".toList then modeSymlink else modeRegular

/-- The mode of a gitlink. -/
def gitlinkMode : Str := "160000"

/-- `MAX_SUBMODULE_DEPTH`. -/
def maxSubmoduleDepth : ℕ := 16

/-- The seam that fetches a submodule, from its URL and its commit: its object store, or an error. -/
abbrev SubmoduleFetch := Str → Str → Except (Str × Str) Store

/-- What an enumeration gives: the entries, and the commit of each gitlink that was followed. -/
structure Enumeration where
  entries : List MaterializedEntry
  results : BTreeMap Bytes Str

/-- A path below another one. -/
def under (dir relpath : Bytes) : Bytes := dir ++ slash :: relpath

/-- An entry below a path. -/
def movedEntry (dir : Bytes) (e : MaterializedEntry) : MaterializedEntry := { e with relpath := under dir e.relpath }

/-- A pin below a path. -/
def movedPin (dir : Bytes) (pin : Bytes × Str) : Bytes × Str := (under dir pin.1, pin.2)

/-- A value, or an error where there is none. -/
def orError {α : Type} (e : GitError) : Option α → Except GitError α
  | some a => .ok a
  | none => .error e

/-- The entry of a blob, from the contents that were read. -/
def blobEntry (contents : BTreeMap Str Bytes) (blob : LsEntry) : Except GitError MaterializedEntry := do
  let content ← orError (.resultMissing blob.sha blob.path) (contents.get? blob.sha)
  return ⟨blob.path, gitModeToByte blob.mode, content⟩

/-- The content of `.gitmodules`. -/
def modulesContent (blobs : List LsEntry) (contents : BTreeMap Str Bytes) : Bytes :=
  ((blobs.find? fun blob => decide (blob.path = asciiBytes ".gitmodules")).bind fun blob => contents.get? blob.sha).getD []

/-- An enumeration of a submodule: of a commit in a store, from a URL and with the submodules that it is in. -/
abbrev Enumerate := Store → Str → Option Str → List (Str × Str) → Except GitError Enumeration

/-- One gitlink; `enumerate` is none where too many levels are above. -/
def spliceLink (fetch : SubmoduleFetch) (enumerate : Option Enumerate) (superprojectUrl : Option Str) (visited : List (Str × Str))
    (urls : BTreeMap Str Str) (acc : Enumeration) (link : LsEntry) : Except GitError Enumeration := do
  let rawUrl ← orError (.noModulesEntry link.path) (urls.get? (fromUtf8Lossy link.path))
  let url ← orError (.relativeUrl rawUrl link.path) (resolveSubmoduleUrl rawUrl superprojectUrl)
  let enumerate ← orError (.tooDeep link.path url) enumerate
  if (url, link.sha) ∈ visited then throw (.cycle url link.sha link.path)
  else do
    let store ← (fetch url link.sha).mapError fun e => .fetch e.1 e.2
    let sub ← enumerate store link.sha (some url) ((url, link.sha) :: visited)
    return ⟨acc.entries ++ sub.entries.map (movedEntry link.path),
      (sub.results.entries.map (movedPin link.path)).foldl (fun m pin => m.insert pin.1 pin.2) (acc.results.insert link.path link.sha)⟩

/-- `enumerate_git_entries_inner`, up to the levels below. -/
def enumerateWith (fetch : Option SubmoduleFetch) (enumerate : Option Enumerate) : Enumerate := fun store commit superprojectUrl visited => do
  let out ← orError (.lsTree commit) (gitLsTree store commit)
  let records ← parseLsTree out
  let blobs := records.filter fun r => decide (r.mode ≠ gitlinkMode)
  let gitlinks := records.filter fun r => decide (r.mode = gitlinkMode)
  let shas := blobs.map LsEntry.sha
  let batch := gitCatFile store shas
  let contents ← readObjects batch.length shas batch BTreeMap.empty
  let entries ← blobs.mapM (blobEntry contents)
  match fetch with
  | none => return ⟨entries, BTreeMap.empty⟩
  | some fetch =>
    gitlinks.foldlM (spliceLink fetch enumerate superprojectUrl visited (parseGitmodules (modulesContent blobs contents)))
      ⟨entries, BTreeMap.empty⟩

/-- `enumerate_git_entries_inner`, with the number of levels that are left. -/
def enumerateInner (fetch : Option SubmoduleFetch) : ℕ → Enumerate
  | 0 => enumerateWith fetch none
  | left + 1 => enumerateWith fetch (some (enumerateInner fetch left))

/-- `enumerate_git_entries`. -/
def enumerateGitEntries (store : Store) (commit : Str) (fetch : Option SubmoduleFetch) (superprojectUrl : Option Str) :
    Except GitError Enumeration :=
  enumerateInner fetch maxSubmoduleDepth store commit superprojectUrl []

/-! ### What the commits say -/

/-- The leaves of a commit, with those of its submodules, and the commits of the gitlinks on the way. -/
structure Splice where
  entries : List MaterializedEntry
  pins : List (Bytes × Str)

/-- The records that are no gitlinks. -/
def blobsOf (records : List TreeRecord) : List TreeRecord := records.filter fun r => decide (r.mode ≠ gitlinkMode)

/-- The gitlinks. -/
def linksOf (records : List TreeRecord) : List TreeRecord := records.filter fun r => decide (r.mode = gitlinkMode)

/-- The leaf of a record. -/
def leaf (store : Store) (r : TreeRecord) : Option MaterializedEntry :=
  (store.object r.sha).map fun o => ⟨r.path, gitModeToByte r.mode, o.content⟩

/-- The `.gitmodules` of a commit. -/
def modulesOf (store : Store) (records : List TreeRecord) : Bytes :=
  (((blobsOf records).find? fun r => decide (r.path = asciiBytes ".gitmodules")).bind fun r =>
    (store.object r.sha).map GitObject.content).getD []

/-- The URL of the submodule at a path. -/
def submoduleUrl (store : Store) (records : List TreeRecord) (superprojectUrl : Option Str) (path : Bytes) : Option Str :=
  ((parseGitmodules (modulesOf store records)).get? (fromUtf8Lossy path)).bind fun url => resolveSubmoduleUrl url superprojectUrl

/-- What a submodule has, below the path of its gitlink. -/
def Splice.below (r : TreeRecord) (s : Splice) : Splice := ⟨s.entries.map (movedEntry r.path), (r.path, r.sha) :: s.pins.map (movedPin r.path)⟩

/-- What a commit of a store has, from a URL; `none` where something is missing. -/
abbrev Splicing := Store → Str → Option Str → Option Splice

/-- What a gitlink has below it. -/
def spliceSub (fetch : SubmoduleFetch) (sub : Splicing) (urlOf : Bytes → Option Str) (r : TreeRecord) : Option Splice := do
  let url ← urlOf r.path
  let store ← (fetch url r.sha).toOption
  let s ← sub store r.sha (some url)
  return s.below r

/-- What a commit has, up to what is below its gitlinks; without a seam these have nothing. -/
def spliceWith (fetch : Option SubmoduleFetch) (sub : Splicing) : Splicing := fun store commit superprojectUrl => do
  let records ← store.tree commit
  let leaves ← (blobsOf records).mapM (leaf store)
  let subs ← match fetch with
    | none => some []
    | some fetch => (linksOf records).mapM (spliceSub fetch sub (submoduleUrl store records superprojectUrl))
  return ⟨leaves ++ subs.flatMap Splice.entries, subs.flatMap Splice.pins⟩

/-- What a commit has, down to a number of levels. -/
def splice (fetch : Option SubmoduleFetch) : ℕ → Splicing
  | 0 => spliceWith fetch fun _ _ _ => none
  | levels + 1 => spliceWith fetch (splice fetch levels)

/-! ### Pins -/

/-- The last pin of a path. -/
def lastPin (pins : List (Bytes × Str)) (path : Bytes) : Option Str := (pins.reverse.find? fun pin => decide (pin.1 = path)).map Prod.snd

theorem lastPin_append (pins pins' : List (Bytes × Str)) (path : Bytes) :
    lastPin (pins ++ pins') path = (lastPin pins' path).or (lastPin pins path) := by
  rw [lastPin, List.reverse_append, List.find?_append, lastPin, lastPin]
  cases pins'.reverse.find? fun pin => decide (pin.1 = path) <;> rfl

theorem lastPin_singleton (pin : Bytes × Str) (path : Bytes) : lastPin [pin] path = if path = pin.1 then some pin.2 else none := by
  rw [lastPin, List.reverse_singleton, List.find?_singleton]
  by_cases h : pin.1 = path
  · rw [if_pos (decide_eq_true h), if_pos h.symm]
    rfl
  · rw [if_neg (by simpa using h), if_neg (Ne.symm h)]
    rfl

theorem mem_of_lastPin {pins : List (Bytes × Str)} {path : Bytes} {sha : Str} (h : lastPin pins path = some sha) : (path, sha) ∈ pins := by
  obtain ⟨pin, hfind, rfl⟩ := Option.map_eq_some_iff.mp h
  have hpath : pin.1 = path := by simpa using List.find?_some hfind
  rw [← hpath]
  exact List.mem_reverse.mp (List.mem_of_find?_eq_some hfind)

theorem exists_of_mem_pins {pins : List (Bytes × Str)} {pin : Bytes × Str} (h : pin ∈ pins) : ∃ sha, lastPin pins pin.1 = some sha := by
  have hsome : (pins.reverse.find? fun pin' => decide (pin'.1 = pin.1)).isSome = true :=
    List.find?_isSome.mpr ⟨pin, List.mem_reverse.mpr h, decide_eq_true rfl⟩
  obtain ⟨pin', hpin'⟩ := Option.isSome_iff_exists.mp hsome
  exact ⟨pin'.2, by rw [lastPin, hpin']; rfl⟩

/-- The entries of a map are its pins. -/
theorem lastPin_entries (m : BTreeMap Bytes Str) (path : Bytes) : lastPin m.entries path = m.get? path := by
  have hunique : ∀ sha, (path, sha) ∈ m.entries → m.get? path = some sha := fun sha h => BTreeMap.mem_entries.mp h
  cases hlast : lastPin m.entries path with
  | some sha => exact (hunique sha (mem_of_lastPin hlast)).symm
  | none =>
    cases hget : m.get? path with
    | none => rfl
    | some sha =>
      obtain ⟨sha', hsome⟩ := exists_of_mem_pins (BTreeMap.mem_entries.mpr hget)
      rw [hlast] at hsome
      cases hsome

theorem under_inj {dir q q' : Bytes} : under dir q = under dir q' ↔ q = q' := by
  rw [under, under, List.append_cancel_left_eq, List.cons.injEq, eq_self_iff_true, true_and]

/-- Pins that agree do so below a path. -/
theorem lastPin_moved {pins pins' : List (Bytes × Str)} (h : ∀ path, lastPin pins path = lastPin pins' path) (dir path : Bytes) :
    lastPin (pins.map (movedPin dir)) path = lastPin (pins'.map (movedPin dir)) path := by
  by_cases hunder : ∃ q, path = under dir q
  · obtain ⟨q, rfl⟩ := hunder
    have hmoved : ∀ pins : List (Bytes × Str), lastPin (pins.map (movedPin dir)) (under dir q) = lastPin pins q := by
      intro pins
      rw [lastPin, ← List.map_reverse, List.find?_map, Option.map_map, lastPin]
      have hsame : ((fun pin : Bytes × Str => decide (pin.1 = under dir q)) ∘ movedPin dir) = fun pin => decide (pin.1 = q) :=
        funext fun pin => decide_eq_decide.mpr under_inj
      rw [hsame]
      rfl
    rw [hmoved, hmoved, h]
  · have hnone : ∀ pins : List (Bytes × Str), lastPin (pins.map (movedPin dir)) path = none := by
      intro pins
      cases hlast : lastPin (pins.map (movedPin dir)) path with
      | none => rfl
      | some sha =>
        obtain ⟨pin, -, hpin⟩ := List.mem_map.mp (mem_of_lastPin hlast)
        exact absurd ⟨pin.1, (congrArg Prod.fst hpin).symm⟩ hunder
    rw [hnone, hnone]

theorem get?_foldl_pins (pins : List (Bytes × Str)) (m : BTreeMap Bytes Str) (path : Bytes) :
    (pins.foldl (fun m pin => m.insert pin.1 pin.2) m).get? path = (lastPin pins path).or (m.get? path) := by
  have h := BTreeMap.get?_foldl_insert id pins m path
  simp only [id] at h
  rw [h, lastPin]
  congr!

/-! ### The enumeration gives what the commits say -/

/-- An entry whose path is a text, and whose mode is that of a leaf. -/
structure SoundEntry (e : MaterializedEntry) : Prop where
  text : isUtf8 e.relpath = true
  mode : e.modeByte = modeRegular ∨ e.modeByte = modeExecutable ∨ e.modeByte = modeSymlink

theorem SoundEntry.moved {e : MaterializedEntry} (h : SoundEntry e) {dir : Bytes} (hdir : isUtf8 dir = true) : SoundEntry (movedEntry dir e) where
  text := isUtf8_append hdir (isUtf8_append (by decide : isUtf8 [slash] = true) h.text)
  mode := h.mode

/-- An enumeration has the leaves of a splice and the last of its pins, and its entries are sound. -/
structure Gives (e : Enumeration) (s : Splice) : Prop where
  entries : e.entries = s.entries
  results : ∀ path, e.results.get? path = lastPin s.pins path
  sound : ∀ entry ∈ s.entries, SoundEntry entry

theorem orError_eq_ok {α : Type} {e : GitError} {o : Option α} {a : α} : orError e o = .ok a ↔ o = some a := by
  cases o <;> simp [orError]

theorem filter_entry (records : List TreeRecord) (p : Str → Bool) :
    (records.map TreeRecord.entry).filter (fun r => p r.mode) = (records.filter fun r => p r.mode).map TreeRecord.entry := by
  rw [List.filter_map]
  rfl

section Blobs

variable {store : Store} {contents : BTreeMap Str Bytes} {blobs : List TreeRecord}

/-- The contents that were read, for the blobs of a commit. -/
theorem get?_contents (h : readObjects (gitCatFile store (blobs.map TreeRecord.sha)).length (blobs.map TreeRecord.sha)
    (gitCatFile store (blobs.map TreeRecord.sha)) BTreeMap.empty = .ok contents) :
    ∀ r ∈ blobs, contents.get? r.sha = (store.object r.sha).map GitObject.content := by
  have htoken : ∀ sha ∈ blobs.map TreeRecord.sha, Token sha := List.forall_mem_map.mpr fun r _ => r.printed.2.1
  have hempty : ContentsOf store BTreeMap.empty := fun sha content hget => by cases hget
  obtain ⟨hof, hall, -⟩ := readObjects_gitCatFile htoken hempty h
  intro r hr
  obtain ⟨content, hcontent⟩ := Option.ne_none_iff_exists'.mp (hall r.sha (List.mem_map_of_mem hr))
  rw [hcontent, hof r.sha content hcontent]

theorem mapM_blobEntry (hcontents : ∀ r ∈ blobs, contents.get? r.sha = (store.object r.sha).map GitObject.content)
    {entries : List MaterializedEntry} (h : (blobs.map TreeRecord.entry).mapM (blobEntry contents) = .ok entries) :
    blobs.mapM (leaf store) = some entries := by
  induction blobs generalizing entries with
  | nil =>
    obtain rfl := Result.pure_eq_ok.mp h
    rfl
  | cons r blobs ih =>
    obtain ⟨hr, hrest⟩ := List.forall_mem_cons.mp hcontents
    rw [List.map_cons, List.mapM_cons] at h
    obtain ⟨e, he, h⟩ := Result.bind_eq_ok.mp h
    obtain ⟨es, hes, h⟩ := Result.bind_eq_ok.mp h
    obtain rfl := Result.pure_eq_ok.mp h
    obtain ⟨content, hcontent, he⟩ := Result.bind_eq_ok.mp he
    obtain rfl := Result.pure_eq_ok.mp he
    have hget := (orError_eq_ok.mp hcontent : contents.get? r.sha = some content)
    rw [hr] at hget
    obtain ⟨o, ho, rfl⟩ := Option.map_eq_some_iff.mp hget
    rw [List.mapM_cons, ih hrest hes, leaf, ho]
    rfl

theorem modulesContent_eq {records : List TreeRecord}
    (hcontents : ∀ r ∈ blobsOf records, contents.get? r.sha = (store.object r.sha).map GitObject.content) :
    modulesContent ((blobsOf records).map TreeRecord.entry) contents = modulesOf store records := by
  rw [modulesContent, modulesOf, List.find?_map]
  cases hfind : (blobsOf records).find? fun r => decide (r.path = asciiBytes ".gitmodules") with
  | none =>
    have hfind' : (blobsOf records).find? ((fun blob : LsEntry => decide (blob.path = asciiBytes ".gitmodules")) ∘ TreeRecord.entry) = none := hfind
    rw [hfind']
    rfl
  | some r =>
    have hfind' : (blobsOf records).find? ((fun blob : LsEntry => decide (blob.path = asciiBytes ".gitmodules")) ∘ TreeRecord.entry) = some r := hfind
    rw [hfind', Option.map_some, Option.bind_some, Option.bind_some, ← hcontents r (List.mem_of_find?_eq_some hfind)]
    rfl

end Blobs

/-- What is enumerated at a level agrees with what is spliced there. -/
def Agree (enumerate : Option Enumerate) (sub : Splicing) : Prop :=
  ∀ f ∈ enumerate, ∀ store commit url visited e, f store commit url visited = .ok e → ∃ s, sub store commit url = some s ∧ Gives e s

section Links

variable {fetch : SubmoduleFetch} {enumerate : Option Enumerate} {sub : Splicing} {store : Store} {records : List TreeRecord}
  {superprojectUrl : Option Str} {visited : List (Str × Str)}

/-- One gitlink. -/
theorem spliceLink_cases (hagree : Agree enumerate sub) {acc acc' : Enumeration} {r : TreeRecord}
    (h : spliceLink fetch enumerate superprojectUrl visited (parseGitmodules (modulesOf store records)) acc r.entry = .ok acc') :
    ∃ s : Splice, spliceSub fetch sub (submoduleUrl store records superprojectUrl) r = some (s.below r) ∧
      acc'.entries = acc.entries ++ (s.below r).entries ∧
      (∀ path, acc'.results.get? path = (lastPin (s.below r).pins path).or (acc.results.get? path)) ∧
      ∀ entry ∈ s.entries, SoundEntry entry := by
  obtain ⟨rawUrl, hraw, h⟩ := Result.bind_eq_ok.mp h
  obtain ⟨url, hurl, h⟩ := Result.bind_eq_ok.mp h
  obtain ⟨f, hf, h⟩ := Result.bind_eq_ok.mp h
  split_ifs at h
  obtain ⟨subStore, hfetch, h⟩ := Result.bind_eq_ok.mp h
  obtain ⟨e, he, h⟩ := Result.bind_eq_ok.mp h
  obtain rfl := Result.pure_eq_ok.mp h
  obtain ⟨s, hs, hgives⟩ := hagree f (orError_eq_ok.mp hf) _ _ _ _ _ he
  have hfetched : (fetch url r.sha).toOption = some subStore := by
    change (fetch url r.sha).mapError _ = .ok subStore at hfetch
    cases hres : fetch url r.sha with
    | error err =>
      rw [hres] at hfetch
      cases hfetch
    | ok fetched =>
      rw [hres] at hfetch
      cases hfetch
      rfl
  have hplace : submoduleUrl store records superprojectUrl r.path = some url :=
    Option.bind_eq_some_iff.mpr ⟨rawUrl, orError_eq_ok.mp hraw, orError_eq_ok.mp hurl⟩
  have hcommit : sub subStore r.sha (some url) = some s := hs
  refine ⟨s, ?_, ?_, fun path => ?_, hgives.sound⟩
  · rw [spliceSub, hplace, Option.bind_eq_bind, Option.bind_some, hfetched, Option.bind_eq_bind, Option.bind_some, hcommit]
    rfl
  · rw [hgives.entries]
    rfl
  · have hpins : lastPin (e.results.entries.map (movedPin r.path)) path = lastPin (s.pins.map (movedPin r.path)) path :=
      lastPin_moved (fun q => by rw [lastPin_entries, hgives.results]) r.path path
    have hcons : (s.below r).pins = [(r.path, r.sha)] ++ s.pins.map (movedPin r.path) := rfl
    dsimp only
    rw [get?_foldl_pins, BTreeMap.get?_insert, hcons, lastPin_append, lastPin_singleton, Option.or_assoc]
    refine congrArg₂ Option.or hpins ?_
    by_cases hpath : path = r.path
    · rw [if_pos hpath, if_pos (show path = r.entry.path from hpath)]
      rfl
    · rw [if_neg hpath, if_neg (show ¬ path = r.entry.path from hpath)]
      rfl

/-- The loop over the gitlinks, by induction on them. -/
theorem foldlM_spliceLink (hagree : Agree enumerate sub) {links : List TreeRecord} (htexts : ∀ r ∈ links, isUtf8 r.path = true)
    {acc acc' : Enumeration} (h : (links.map TreeRecord.entry).foldlM
      (spliceLink fetch enumerate superprojectUrl visited (parseGitmodules (modulesOf store records))) acc = .ok acc') :
    ∃ subs, links.mapM (spliceSub fetch sub (submoduleUrl store records superprojectUrl)) = some subs ∧
      acc'.entries = acc.entries ++ subs.flatMap Splice.entries ∧
      (∀ path, acc'.results.get? path = (lastPin (subs.flatMap Splice.pins) path).or (acc.results.get? path)) ∧
      ∀ entry ∈ subs.flatMap Splice.entries, SoundEntry entry := by
  induction links generalizing acc with
  | nil =>
    obtain rfl := Result.pure_eq_ok.mp h
    exact ⟨[], rfl, by simp, fun path => rfl, by simp⟩
  | cons r links ih =>
    obtain ⟨hr, htexts⟩ := List.forall_mem_cons.mp htexts
    rw [List.map_cons, List.foldlM_cons] at h
    obtain ⟨acc₁, hfirst, hrest⟩ := Result.bind_eq_ok.mp h
    obtain ⟨s, hsub, hentries, hresults, hsound⟩ := spliceLink_cases hagree hfirst
    obtain ⟨subs, hsubs, hentries', hresults', hsound'⟩ := ih htexts hrest
    refine ⟨s.below r :: subs, ?_, ?_, fun path => ?_, ?_⟩
    · rw [List.mapM_cons, hsub, hsubs]
      rfl
    · rw [hentries', hentries, List.flatMap_cons, List.append_assoc]
    · rw [hresults', hresults, List.flatMap_cons, lastPin_append, Option.or_assoc]
    · intro entry hentry
      rw [List.flatMap_cons] at hentry
      rcases List.mem_append.mp hentry with hmem | hmem
      · obtain ⟨entry', hentry', rfl⟩ := List.mem_map.mp hmem
        exact (hsound entry' hentry').moved hr
      · exact hsound' entry hmem

end Links

theorem leaf_sound {store : Store} {blobs : List TreeRecord} {leaves : List MaterializedEntry} (h : blobs.mapM (leaf store) = some leaves)
    (htexts : ∀ r ∈ blobs, isUtf8 r.path = true) : ∀ entry ∈ leaves, SoundEntry entry := by
  induction blobs generalizing leaves with
  | nil =>
    obtain rfl : [] = leaves := by simpa using h
    nofun
  | cons r blobs ih =>
    obtain ⟨hr, htexts⟩ := List.forall_mem_cons.mp htexts
    rw [List.mapM_cons] at h
    obtain ⟨e, he, h⟩ := Option.bind_eq_some_iff.mp h
    obtain ⟨es, hes, h⟩ := Option.bind_eq_some_iff.mp h
    obtain rfl := Option.some.inj h
    obtain ⟨o, -, rfl⟩ := Option.map_eq_some_iff.mp he
    refine List.forall_mem_cons.mpr ⟨⟨hr, ?_⟩, ih hes htexts⟩
    show gitModeToByte r.mode = _ ∨ gitModeToByte r.mode = _ ∨ gitModeToByte r.mode = _
    rw [gitModeToByte]
    split_ifs
    · exact .inr (.inl rfl)
    · exact .inr (.inr rfl)
    · exact .inl rfl

/-- One level. -/
theorem enumerateWith_splice {fetch : Option SubmoduleFetch} {enumerate : Option Enumerate} {sub : Splicing} (hagree : Agree enumerate sub)
    {store : Store} {commit : Str} {url : Option Str} {visited : List (Str × Str)} {e : Enumeration}
    (h : enumerateWith fetch enumerate store commit url visited = .ok e) : ∃ s, spliceWith fetch sub store commit url = some s ∧ Gives e s := by
  obtain ⟨out, hout, h⟩ := Result.bind_eq_ok.mp h
  obtain ⟨parsed, hparsed, h⟩ := Result.bind_eq_ok.mp h
  obtain ⟨records, hrecords, rfl⟩ := Option.map_eq_some_iff.mp (orError_eq_ok.mp hout)
  obtain ⟨out', hout', hread⟩ := parseLsTree_gitLsTree hrecords
  rw [gitLsTree, hrecords, Option.map_some, Option.some.injEq] at hout'
  rw [hout'] at hparsed
  obtain ⟨rfl, htexts⟩ := (hread parsed).mp hparsed
  have hblobs : (records.map TreeRecord.entry).filter (fun r => decide (r.mode ≠ gitlinkMode)) = (blobsOf records).map TreeRecord.entry :=
    filter_entry records fun mode => decide (mode ≠ gitlinkMode)
  have hlinks : (records.map TreeRecord.entry).filter (fun r => decide (r.mode = gitlinkMode)) = (linksOf records).map TreeRecord.entry :=
    filter_entry records fun mode => decide (mode = gitlinkMode)
  have hshas : ((blobsOf records).map TreeRecord.entry).map LsEntry.sha = (blobsOf records).map TreeRecord.sha := by
    rw [List.map_map]
    rfl
  simp only [hblobs, hlinks, hshas] at h
  obtain ⟨contents, hcontents, h⟩ := Result.bind_eq_ok.mp h
  obtain ⟨entries, hentries, h⟩ := Result.bind_eq_ok.mp h
  have hget := get?_contents hcontents
  have hleaves := mapM_blobEntry hget hentries
  have hleafSound := leaf_sound hleaves fun r hr => htexts r (List.mem_of_mem_filter hr)
  cases fetch with
  | none =>
    obtain rfl := Result.pure_eq_ok.mp h
    refine ⟨⟨entries ++ [], []⟩, ?_, (List.append_nil _).symm, fun path => rfl, ?_⟩
    · rw [spliceWith, hrecords, Option.bind_eq_bind, Option.bind_some, hleaves]
      rfl
    · rw [List.append_nil]
      exact hleafSound
  | some fetch =>
    dsimp only at h
    rw [modulesContent_eq hget] at h
    have hlinkTexts : ∀ r ∈ linksOf records, isUtf8 r.path = true := fun r hr => htexts r (List.mem_of_mem_filter hr)
    obtain ⟨subs, hsubs, hall, hresults, hsubSound⟩ := foldlM_spliceLink hagree hlinkTexts h
    refine ⟨⟨entries ++ subs.flatMap Splice.entries, subs.flatMap Splice.pins⟩, ?_, hall, fun path => ?_, fun entry hentry => ?_⟩
    · rw [spliceWith, hrecords, Option.bind_eq_bind, Option.bind_some, hleaves, Option.bind_eq_bind, Option.bind_some]
      dsimp only
      rw [hsubs]
      rfl
    · rw [hresults, BTreeMap.get?_empty, Option.or_none]
    · exact (List.mem_append.mp hentry).elim (hleafSound entry) (hsubSound entry)

/-- **An enumeration that succeeds gives what the commits say**, by induction on the levels. -/
theorem enumerateInner_splice {fetch : Option SubmoduleFetch} {left : ℕ} {store : Store} {commit : Str} {url : Option Str}
    {visited : List (Str × Str)} {e : Enumeration} (h : enumerateInner fetch left store commit url visited = .ok e) :
    ∃ s, splice fetch left store commit url = some s ∧ Gives e s := by
  induction left generalizing store commit url visited e with
  | zero =>
    have hagree : Agree none fun _ _ _ => none := fun f hf => by cases hf
    exact enumerateWith_splice hagree h
  | succ left ih =>
    have hagree : Agree (some (enumerateInner fetch left)) (splice fetch left) := fun f hf => by
      cases hf
      exact fun _ _ _ _ _ => ih
    exact enumerateWith_splice hagree h

end Milpa.Core.Git
