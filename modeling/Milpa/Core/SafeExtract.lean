import Milpa.Core.ContentHash
import Milpa.Posix.Confined

/-!
# Safe extraction

`extract_tar` and `tar_materialize_entries` of `safe_extract.rs`: one writes the entries of
an archive below a directory, the other makes the sequence whose identity the tree has.
The archive is what the tar reader gives: its entries in order, each with the text of its
name, until it ends or fails. The destination is there, and its path is the one that
`canonicalize` gives.
-/

namespace Milpa.Core.SafeExtract

open Posix DagIdentity

/-! ### Archives -/

/-- `EntryKind`. -/
inductive EntryKind where
  | file
  | dir
  | symlink
  | hardLink
  | other
  deriving DecidableEq, Repr

/-- `TarEntry`; the names are texts. -/
structure TarEntry where
  name : Bytes
  linkname : Bytes
  size : ℕ
  kind : EntryKind
  mode : ℕ
  data : Bytes
  utf8 : isUtf8 name = true ∧ isUtf8 linkname = true
  deriving DecidableEq

/-- What the reader fails with: `EXTRACT-SIZE-LIMIT` or `FETCH-EXTRACT-FAILED`. -/
inductive ReadError where
  | sizeLimit (message : Str)
  | extractFailed (message : Str)
  deriving DecidableEq, Repr

/-- What the reader gives: entries, and how the archive ends: the end was found and the rest of the stream read, or an error. -/
structure TarStream where
  entries : List TarEntry
  ended : Except ReadError Unit

/-- `Limits`. -/
structure Limits where
  maxTotalSize : ℕ
  maxFileSize : ℕ
  maxFileCount : ℕ
  deriving DecidableEq, Repr

/-- `Limits::default`. -/
def Limits.default : Limits := ⟨2 ^ 30, 2 ^ 28, 100000⟩

/-- The errors of `extract_tar`. -/
inductive ExtractError where
  | read (e : ReadError)
  /-- `EXTRACT-ZIP-SLIP`: an entry outside of the destination. -/
  | zipSlip (name : Bytes)
  /-- `EXTRACT-ZIP-SLIP`: a hardlink whose linkname has too few components. -/
  | hardlinkStripped (name linkname : Bytes)
  /-- `EXTRACT-ZIP-SLIP`: a hardlink to a place outside of the destination. -/
  | hardlinkSlip (name linkname : Bytes)
  /-- `EXTRACT-SYMLINK-ESCAPE`. -/
  | symlinkEscape (name linkname : Bytes)
  /-- `EXTRACT-SIZE-LIMIT`, of a file. -/
  | fileSize (name : Bytes) (size : ℕ)
  /-- `EXTRACT-SIZE-LIMIT`, of the archive. -/
  | totalSize (total : ℕ)
  /-- `EXTRACT-SIZE-LIMIT`, of the number of files. -/
  | fileCount (count : ℕ)
  /-- `EXTRACT-IO-ERROR`. -/
  | io (name : Bytes) (e : Errno)
  /-- `EXTRACT-IO-ERROR`: the target of a hardlink cannot be read. -/
  | hardlinkUnread (name linkname : Bytes) (e : Errno)
  deriving DecidableEq, Repr

/-! ### Names -/

/-- `strip_name`: the components of a name that are left, or none. -/
def stripName (strip : ℕ) (raw : Bytes) : Option Path :=
  let parts := (raw.splitOn slash).filter fun p => decide (p ≠ [] ∧ p ≠ here)
  if parts.length ≤ strip then none else some (parts.drop strip)

/-- One component of `normalize_lexical`: `..` takes the last one away, or stays if there is none. -/
def normalizeStep (out : Path) (c : Bytes) : Path :=
  if c = up then if out = [] then [up] else out.dropLast
  else if c = here then out
  else out ++ [c]

/-- `normalize_lexical`, of a path from the root. -/
def normalizeLexical (path : Path) : Path := path.foldl normalizeStep []

/-- `Path::join` with a text. -/
def joinText (path : Path) (text : Bytes) : Path := if isAbsolute text then names text else path ++ names text

/-- `Path::starts_with`. -/
def startsWith (path root : Path) : Bool := root.isPrefixOf path

/-! ### Extraction -/

/-- A hardlink that waits for the second pass. -/
structure PendingHardlink where
  name : Bytes
  linkname : Bytes
  target : Path
  deriving DecidableEq, Repr

/-- The counters of an extraction, and the hardlinks that wait. -/
structure Progress where
  totalBytes : ℕ
  fileCount : ℕ
  hardlinks : List PendingHardlink
  deriving DecidableEq, Repr

/-- Programs of the extraction. -/
abbrev Extract := Program ExtractError

/-- An error, where a condition holds. -/
def reject (c : Prop) [Decidable c] (e : ExtractError) : Extract Unit := if c then .fail e else pure ()

section Extract

variable (destRoot : Path) (strip : ℕ) (limits : Limits)

/-- `create_dir_all` of the parent of a target, where it has one. -/
def createParent (name : Bytes) (target : Path) : Extract Unit :=
  if target = [] then pure () else (createDirAll target.dropLast).mapError (.io name)

/-- `file_count += 1`, with its check. -/
def countFile (p : Progress) : Extract Progress := do
  reject (limits.maxFileCount < p.fileCount + 1) (.fileCount (p.fileCount + 1))
  pure { p with fileCount := p.fileCount + 1 }

/-- `total_bytes += size`, with its check. -/
def countBytes (p : Progress) (size : ℕ) : Extract Progress := do
  reject (limits.maxTotalSize < p.totalBytes + size) (.totalSize (p.totalBytes + size))
  pure { p with totalBytes := p.totalBytes + size }

/-- The directory of a target: its parent, or the destination where there is none. -/
def linkDir (target : Path) : Path := if target = [] then destRoot else target.dropLast

/-- A symlink of the first pass. -/
def extractSymlink (p : Progress) (entry : TarEntry) (target : Path) : Extract Progress := do
  reject (startsWith (normalizeLexical (joinText (linkDir destRoot target) entry.linkname)) destRoot = false)
    (.symlinkEscape entry.name entry.linkname)
  createParent entry.name target
  (unlink target).ignore
  (Posix.symlink entry.linkname target).mapError (.io entry.name)
  countFile limits p

/-- A file of the first pass. -/
def extractFile (p : Progress) (entry : TarEntry) (target : Path) : Extract Progress := do
  reject (limits.maxFileSize < entry.size) (.fileSize entry.name entry.size)
  let p ← countBytes limits p entry.size
  let p ← countFile limits p
  createParent entry.name target
  (writeFile target entry.data).mapError (.io entry.name)
  pure p

/-- The first pass, for an entry with a target. -/
def extractAt (p : Progress) (entry : TarEntry) (target : Path) : Extract Progress := do
  reject (startsWith target destRoot = false) (.zipSlip entry.name)
  match entry.kind with
  | .hardLink => pure { p with hardlinks := p.hardlinks ++ [⟨entry.name, entry.linkname, target⟩] }
  | .symlink => extractSymlink destRoot limits p entry target
  | .dir => do
    (createDirAll target).mapError (.io entry.name)
    pure p
  | .file => extractFile limits p entry target
  | .other => pure p

/-- The target of a name that is left after stripping. -/
def targetOf (parts : Path) : Path := normalizeLexical (destRoot ++ parts)

/-- The first pass, for an entry. -/
def extractEntry (p : Progress) (entry : TarEntry) : Extract Progress :=
  match stripName strip entry.name with
  | none => pure p
  | some stripped => extractAt destRoot limits p entry (targetOf destRoot stripped)

/-- The first pass. -/
def firstPass : List TarEntry → Progress → Extract Progress
  | [], p => pure p
  | entry :: rest, p => do
    let p ← extractEntry destRoot strip limits p entry
    firstPass rest p

/-- The second pass, for a hardlink. -/
def extractHardlink (p : Progress) (hl : PendingHardlink) : Extract Progress := do
  let stripped ← .ofExcept (match stripName strip hl.linkname with
    | some s => .ok s
    | none => .error (.hardlinkStripped hl.name hl.linkname))
  let resolved := targetOf destRoot stripped
  reject (startsWith resolved destRoot = false) (.hardlinkSlip hl.name hl.linkname)
  let content ← (readFile resolved).mapError (.hardlinkUnread hl.name hl.linkname)
  reject (limits.maxFileSize < content.length) (.fileSize hl.name content.length)
  let p ← countBytes limits p content.length
  let p ← countFile limits p
  createParent hl.name hl.target
  (writeFile hl.target content).mapError (.io hl.name)
  pure p

/-- The second pass. -/
def secondPass : List PendingHardlink → Progress → Extract Progress
  | [], p => pure p
  | hl :: rest, p => do
    let p ← extractHardlink destRoot strip limits p hl
    secondPass rest p

/-- `extract_tar`, with its `ExtractionResult`: the number of files and of bytes. -/
def extractTar (tar : TarStream) : Extract (ℕ × ℕ) := do
  let p ← firstPass destRoot strip limits tar.entries ⟨0, 0, []⟩
  .ofExcept (tar.ended.mapError .read)
  let p ← secondPass destRoot strip limits p.hardlinks p
  pure (p.fileCount, p.totalBytes)

end Extract

/-! ### The seam -/

/-- `mode_byte`: any execute bit makes a file executable. -/
def modeByte (mode : ℕ) : UInt8 := if mode &&& 0o111 ≠ 0 then modeExecutable else modeRegular

/-- A name that is left after stripping, as a text. -/
def joinParts (parts : Path) : Bytes := List.intercalate [slash] parts

/-- What the first pass of `tar_materialize_entries` has: the entries, the index of each file, and the hardlinks. -/
structure Seam where
  entries : List MaterializedEntry
  fileIndex : List (Bytes × ℕ)
  hardlinks : List (Bytes × Bytes × UInt8)

/-- `file_index.get`: the index that was inserted last. -/
def Seam.indexOf (s : Seam) (name : Bytes) : Option ℕ := (s.fileIndex.reverse.find? fun e => decide (e.1 = name)).map Prod.snd

/-- The first pass, for an entry. -/
def materializeEntry (strip : ℕ) (s : Seam) (entry : TarEntry) : Seam :=
  match stripName strip entry.name with
  | none => s
  | some parts =>
    let relpath := joinParts parts
    match entry.kind with
    | .dir => s
    | .other => s
    | .symlink => { s with entries := s.entries ++ [⟨relpath, modeSymlink, entry.linkname⟩] }
    | .file =>
      { s with
        fileIndex := s.fileIndex ++ [(relpath, s.entries.length)]
        entries := s.entries ++ [⟨relpath, modeByte entry.mode, entry.data⟩] }
    | .hardLink =>
      match stripName strip entry.linkname with
      | none => s
      | some link => { s with hardlinks := s.hardlinks ++ [(relpath, joinParts link, modeByte entry.mode)] }

/-- The second pass, for a hardlink: one whose target is no file is dropped. -/
def materializeHardlink (fileIndex : Seam) (entries : List MaterializedEntry) (hl : Bytes × Bytes × UInt8) : List MaterializedEntry :=
  match (fileIndex.indexOf hl.2.1).bind fun i => entries[i]? with
  | some target => entries ++ [⟨hl.1, hl.2.2, target.content⟩]
  | none => entries

/-- `tar_materialize_entries`. -/
def tarMaterializeEntries (tar : TarStream) (strip : ℕ) : Except ReadError (List MaterializedEntry) :=
  let s := tar.entries.foldl (materializeEntry strip) ⟨[], [], []⟩
  match tar.ended with
  | .ok () => .ok (s.hardlinks.foldl (materializeHardlink s) s.entries)
  | .error e => .error e

end Milpa.Core.SafeExtract
