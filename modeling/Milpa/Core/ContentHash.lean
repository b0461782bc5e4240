import Milpa.Core.DagIdentity
import Milpa.Posix.FileSystem

/-!
# The content hash of a tree on disk

`compute_content_hash` of `identity.rs`: a tree on disk is walked into the sequence whose
identity it has. A tree on disk is what there is at each path below its root. In the order
of these paths a directory comes before what is in it, and the children of a directory are
sorted by their names: it is the order of the walk. That a directory or a file cannot be
read is left out.
-/

namespace Milpa.Core

open DagIdentity

/-- What is below a directory. -/
abbrev DiskTree := Posix.FileSystem

/-- The errors of `compute_content_hash`. -/
inductive HashError where
  /-- `ID-NON-UTF8-RELPATH`. -/
  | nonUtf8Relpath (relpath : Bytes)
  /-- `ID-NON-UTF8-SYMLINK-TARGET`. -/
  | nonUtf8SymlinkTarget (relpath : Bytes)
  /-- `ID-NAME-TOO-LONG`. -/
  | nameTooLong (e : NameTooLong)
  deriving DecidableEq

/-! ### UTF-8 -/

/-- One byte of a text, after the ranges of the bytes that must follow. -/
def utf8Step (expected : List (UInt8 × UInt8)) (b : UInt8) : Option (List (UInt8 × UInt8)) :=
  match expected with
  | (lo, hi) :: rest => if lo ≤ b ∧ b ≤ hi then some rest else none
  | [] =>
    if b < 0x80 then some []
    else if b < 0xc2 then none
    else if b < 0xe0 then some [(0x80, 0xbf)]
    else if b = 0xe0 then some [(0xa0, 0xbf), (0x80, 0xbf)]
    else if b = 0xed then some [(0x80, 0x9f), (0x80, 0xbf)]
    else if b < 0xf0 then some [(0x80, 0xbf), (0x80, 0xbf)]
    else if b = 0xf0 then some [(0x90, 0xbf), (0x80, 0xbf), (0x80, 0xbf)]
    else if b < 0xf4 then some [(0x80, 0xbf), (0x80, 0xbf), (0x80, 0xbf)]
    else if b = 0xf4 then some [(0x80, 0x8f), (0x80, 0xbf), (0x80, 0xbf)]
    else none

/-- `str::from_utf8` accepts the bytes. -/
def isUtf8 (bytes : Bytes) : Bool := bytes.foldlM utf8Step [] == some []

/-! ### The walk -/

/-- A child on the way: what is under `.git` is skipped, and what is neither a file, nor a symlink, nor a directory. -/
def walkChild (path : List Bytes) (node : Posix.Node) : Except HashError (List MaterializedEntry) :=
  if gitComponent ∈ path then .ok []
  else
    let relpath := List.intercalate [0x2f] path
    if isUtf8 relpath = false then .error (.nonUtf8Relpath relpath)
    else
      match node with
      | .symlink target =>
        if isUtf8 target = false then .error (.nonUtf8SymlinkTarget relpath) else .ok [⟨relpath, modeSymlink, target⟩]
      | .dir => .ok []
      | .file executable content => .ok [⟨relpath, if executable then modeExecutable else modeRegular, content⟩]
      | .other => .ok []

/-- `enumerate_local_entries`. -/
def enumerateLocalEntries (tree : DiskTree) : Except HashError (List MaterializedEntry) := do
  let found ← tree.entries.mapM fun e => walkChild e.1 e.2
  pure found.flatten

/-- `compute_content_hash`. -/
def computeContentHash (tree : DiskTree) : Except HashError Str := do
  let entries ← enumerateLocalEntries tree
  match computeDagIdentity entries with
  | .ok identity => pure identity
  | .error e => throw (.nameTooLong e)

/-- A directory without anything has the identity of the empty tree, and so has one with a directory only. -/
example : computeContentHash BTreeMap.empty = computeContentHash (BTreeMap.empty.insert [textBytes "build"] .dir) := by decide +kernel

end Milpa.Core
