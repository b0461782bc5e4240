import Mathlib.Data.List.Lex
import Milpa.Order.BTreeMap
import Milpa.Types.Sha256

/-!
# File systems with symlinks

A file system says what there is at each path from its root; the operations find a path
name by name, as the system does: a symlink on the way is followed, `..` leaves the
directory that was reached, and only the operations that make or remove a name leave a
symlink at the end alone. Every operation records the paths that it touches. Permissions,
and the limits of a disk, are left out.
-/

namespace Milpa.Posix

/-- A path from the root: the names on the way. -/
abbrev Path := List Bytes

/-- What is at a path: of a file, whether an execute bit is set, and the content. -/
inductive Node where
  | dir
  | file (executable : Bool) (content : Bytes)
  | symlink (target : Bytes)
  | other
  deriving DecidableEq, Repr

/-- What there is at each path; the root is a directory. -/
abbrev FileSystem := BTreeMap Path Node

/-- `/`. -/
def slash : UInt8 := 0x2f

/-- `..`. -/
def up : Bytes := [0x2e, 0x2e]

/-- `.`. -/
def here : Bytes := [0x2e]

/-- A text that begins at the root. -/
def isAbsolute (text : Bytes) : Bool := decide (text.head? = some slash)

/-- The names of a text; a slash at the end asks for a directory, as a `.` does. -/
def names (text : Bytes) : Path :=
  ((text.splitOn slash).filter fun c => decide (c ≠ [])) ++ if text.getLast? = some slash then [here] else []

/-- What is at a path. -/
def nodeAt (fs : FileSystem) (path : Path) : Option Node := if path = [] then some .dir else fs.get? path

/-- What there is below a directory, with the paths from there. -/
def below (root : Path) (fs : FileSystem) : FileSystem where
  entries := fs.entries.filterMap fun e => if root <+: e.1 ∧ e.1 ≠ root then some (e.1.drop root.length, e.2) else none
  sorted := by
    rw [List.pairwise_filterMap]
    refine fs.sorted.imp fun {a b} hlt x hx y hy => ?_
    split_ifs at hx hy with ha hb
    cases hx
    cases hy
    obtain ⟨⟨q, hq⟩, -⟩ := ha
    obtain ⟨⟨q', hq'⟩, -⟩ := hb
    rw [← hq, ← hq'] at hlt ⊢
    rw [List.drop_left, List.drop_left]
    -- the order of two paths is that of what follows a common part
    by_contra hnot
    rcases lt_or_eq_of_le (not_lt.mp hnot) with h | h
    · exact lt_asymm hlt (List.Lex.append_left _ h root)
    · exact hlt.ne (congrArg (root ++ ·) h.symm)

theorem get?_below (root : Path) (fs : FileSystem) (q : Path) : (below root fs).get? q = if q = [] then none else fs.get? (root ++ q) := by
  refine Option.ext fun node => ?_
  rw [← BTreeMap.mem_entries, below, List.mem_filterMap]
  constructor
  · rintro ⟨⟨p, node'⟩, hmem, h⟩
    split_ifs at h with hp
    cases h
    obtain ⟨⟨q, hq⟩, hne⟩ := hp
    dsimp only at hq hne ⊢
    rw [← hq] at hmem hne ⊢
    rw [List.drop_left, if_neg (by simpa using hne)]
    exact BTreeMap.mem_entries.mp hmem
  · intro h
    split_ifs at h with hq
    refine ⟨(root ++ q, node), BTreeMap.mem_entries.mpr h, ?_⟩
    dsimp only
    rw [if_pos ⟨List.prefix_append root q, by simpa using hq⟩, List.drop_left]

/-! ### Finding -/

/-- Why nothing can be found or done. -/
inductive Errno where
  | noent
  | notdir
  | exist
  | isdir
  | loop
  deriving DecidableEq, Repr

/-- What a text leads to: something, or a free name in a directory. -/
inductive Found where
  | at (path : Path)
  | absent (path : Path)
  | failed (e : Errno)
  deriving DecidableEq, Repr

/-- The search from a directory on; `onLink` goes on after a symlink. -/
def findWith (fs : FileSystem) (follow : Bool) (onLink : Path → Path → Found) : Path → Path → Found
  | dir, [] => .at dir
  | dir, c :: rest =>
    if c = here then findWith fs follow onLink dir rest
    else if c = up then findWith fs follow onLink dir.dropLast rest
    else
      match fs.get? (dir ++ [c]) with
      | none => if rest = [] then .absent (dir ++ [c]) else .failed .noent
      | some .dir => findWith fs follow onLink (dir ++ [c]) rest
      | some (.symlink target) =>
        if rest = [] ∧ follow = false then .at (dir ++ [c])
        else onLink (if isAbsolute target then [] else dir) (names target ++ rest)
      | some _ => if rest = [] then .at (dir ++ [c]) else .failed .notdir

/-- The search, with a number of symlinks that it may follow. -/
def findFrom (fs : FileSystem) (follow : Bool) : ℕ → Path → Path → Found
  | 0 => findWith fs follow fun _ _ => .failed .loop
  | links + 1 => findWith fs follow fun dir path => findFrom fs follow links dir path

/-- The number of symlinks that the system follows. -/
def maxSymlinks : ℕ := 40

/-- The search from the root. -/
def find (fs : FileSystem) (follow : Bool) (path : Path) : Found := findFrom fs follow maxSymlinks [] path

/-! ### Programs -/

/-- A file system, with the paths that were touched: what was made there, changed, removed or read. -/
structure Disk where
  fs : FileSystem
  touched : List Path

/-- A program that changes a disk, and can fail on the way. -/
def Program (ε α : Type) := Disk → Except ε α × Disk

namespace Program

variable {ε ε' α β : Type}

instance : Monad (Program ε) where
  pure a := fun d => (.ok a, d)
  bind m f := fun d =>
    match m d with
    | (.ok a, d') => f a d'
    | (.error e, d') => (.error e, d')

/-- A program that fails. -/
def fail (e : ε) : Program ε α := fun d => (.error e, d)

/-- A result that is there already. -/
def ofExcept (r : Except ε α) : Program ε α := fun d => (r, d)

/-- Another error in the place of the one of a program. -/
def mapError (f : ε → ε') (m : Program ε α) : Program ε' α := fun d => ((m d).1.mapError f, (m d).2)

/-- A program whose error does not matter. -/
def ignore (m : Program ε α) : Program ε' Unit := fun d => (.ok (), (m d).2)

end Program

/-- The file system of the disk. -/
def getFs {ε : Type} : Program ε FileSystem := fun d => (.ok d.fs, d)

/-- Another node at a path, or none. -/
def setNode (path : Path) (node : Option Node) : Program Errno Unit := fun d =>
  (.ok (), ⟨match node with
    | some node => d.fs.insert path node
    | none => d.fs.erase path, path :: d.touched⟩)

/-! ### The operations -/

/-- `Path::is_dir`. -/
def isDir (fs : FileSystem) (path : Path) : Bool :=
  match find fs true path with
  | .at p => decide (nodeAt fs p = some .dir)
  | _ => false

/-- `mkdir(2)`. -/
def mkdir (path : Path) : Program Errno Unit := do
  let fs ← getFs
  match find fs false path with
  | .at _ => .fail .exist
  | .absent p => setNode p (some .dir)
  | .failed e => .fail e

/-- A directory at a path, or the error with which it could not be made. -/
def mkdirOrDir (path : Path) : Program Errno Unit := fun d =>
  match mkdir path d with
  | (.ok _, d') => (.ok (), d')
  | (.error e, d') => if isDir d'.fs path then (.ok (), d') else (.error e, d')

/-- The directories of a path, from its last name up. -/
def createDirs : Path → Program Errno Unit
  | [] => mkdirOrDir []
  | name :: above => fun d =>
    match mkdir (name :: above).reverse d with
    | (.error .noent, d') => (createDirs above >>= fun _ => mkdirOrDir (name :: above).reverse) d'
    | _ => mkdirOrDir (name :: above).reverse d

/-- `std::fs::create_dir_all`. -/
def createDirAll (path : Path) : Program Errno Unit := createDirs path.reverse

/-- `unlink(2)`. -/
def unlink (path : Path) : Program Errno Unit := do
  let fs ← getFs
  match find fs false path with
  | .at p => if nodeAt fs p = some .dir then .fail .isdir else setNode p none
  | .absent _ => .fail .noent
  | .failed e => .fail e

/-- `symlink(2)`. -/
def symlink (target : Bytes) (path : Path) : Program Errno Unit := do
  let fs ← getFs
  if target = [] then .fail .noent
  else
    match find fs false path with
    | .at _ => .fail .exist
    | .absent p => setNode p (some (.symlink target))
    | .failed e => .fail e

/-- The node that a file has after a write: it keeps its execute bit, and a new one has none. -/
def written (old : Option Node) (content : Bytes) : Node :=
  match old with
  | some (.file executable _) => .file executable content
  | _ => .file false content

/-- `std::fs::write`. -/
def writeFile (path : Path) (content : Bytes) : Program Errno Unit := do
  let fs ← getFs
  match find fs true path with
  | .at p => if nodeAt fs p = some .dir then .fail .isdir else setNode p (some (written (fs.get? p) content))
  | .absent p => setNode p (some (.file false content))
  | .failed e => .fail e

/-- `std::fs::read`. -/
def readFile (path : Path) : Program Errno Bytes := fun d =>
  match find d.fs true path with
  | .at p =>
    match d.fs.get? p with
    | some (.file _ content) => (.ok content, { d with touched := p :: d.touched })
    | _ => (.error .isdir, d)
  | .absent _ => (.error .noent, d)
  | .failed e => (.error e, d)

end Milpa.Posix
