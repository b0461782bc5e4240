import Milpa.Posix.FileSystem

/-!
# Paths as a program holds them

A path from the root or from the working directory, and what `std::path` and `std::fs` make
of it: `join`, its components, what it leads to in a file system. A path that leads
somewhere leads somewhere at each of its prefixes too (`findFrom_prefix`).
-/

namespace Milpa.Posix

variable {fs : FileSystem} {dir cwd : Path}

/-- A path less its `.`s. -/
def withoutHere (path : Path) : Path := path.filter fun c => decide (c ≠ here)

/-- `PathBuf`: the names between the slashes; a slash at the end is a `.`. -/
structure PathBuf where
  absolute : Bool
  names : Path
  deriving DecidableEq, Repr

namespace PathBuf

/-- The path of a text. -/
def ofText (text : Bytes) : PathBuf := ⟨isAbsolute text, Posix.names text⟩

/-- The path without a name. -/
def empty : PathBuf := ⟨false, []⟩

/-- `Path::join`. -/
def join (p q : PathBuf) : PathBuf :=
  if q.absolute then q
  else if p = empty then q
  else ⟨p.absolute, p.names ++ if q.names = [] then [here] else q.names⟩

/-- `Path::components`, less the one for the root: of the `.`s, only one that a relative path begins with is left. -/
def components (p : PathBuf) : Path :=
  if p.absolute then withoutHere p.names
  else
    match p.names with
    | [] => []
    | c :: rest => c :: withoutHere rest

/-- `starts_with`, of paths without a `.`. -/
def startsWith (p q : PathBuf) : Bool := decide (q = empty) || (decide (q.absolute = p.absolute) && q.names.isPrefixOf p.names)

end PathBuf

/-- What a path leads to, symlinks followed; the empty path leads nowhere. -/
def locate (fs : FileSystem) (cwd : Path) (p : PathBuf) : Found :=
  if p.absolute then find fs true p.names
  else if p.names = [] then .failed .noent
  else findFrom fs true maxSymlinks cwd p.names

/-- `Path::is_dir`. -/
def isDirAt (fs : FileSystem) (cwd : Path) (p : PathBuf) : Bool :=
  match locate fs cwd p with
  | .at q => decide (nodeAt fs q = some .dir)
  | _ => false

/-- `Path::is_file`. -/
def isFileAt (fs : FileSystem) (cwd : Path) (p : PathBuf) : Bool :=
  match locate fs cwd p with
  | .at q =>
    match nodeAt fs q with
    | some (.file ..) => true
    | _ => false
  | _ => false

/-- `std::fs::read`, of a file. -/
def readAt (fs : FileSystem) (cwd : Path) (p : PathBuf) : Option Bytes :=
  match locate fs cwd p with
  | .at q =>
    match nodeAt fs q with
    | some (.file _ content) => some content
    | _ => none
  | _ => none

theorem exists_of_readAt {p : PathBuf} {content : Bytes} (h : readAt fs cwd p = some content) : ∃ q, locate fs cwd p = .at q := by
  unfold readAt at h
  split at h
  · rename_i q hq
    exact ⟨q, hq⟩
  · cases h

theorem exists_of_isDirAt {p : PathBuf} (h : isDirAt fs cwd p = true) : ∃ q, locate fs cwd p = .at q ∧ nodeAt fs q = some .dir := by
  unfold isDirAt at h
  split at h
  · rename_i q hq
    exact ⟨q, hq, of_decide_eq_true h⟩
  · cases h

/-! ### Prefixes -/

theorem findWith_prefix {onLink : Path → Path → Found}
    (hlink : ∀ dir a b p, onLink dir (a ++ b) = .at p → ∃ q, onLink dir a = .at q) {a b p : Path}
    (h : findWith fs true onLink dir (a ++ b) = .at p) : ∃ q, findWith fs true onLink dir a = .at q := by
  induction a generalizing dir with
  | nil => exact ⟨dir, rfl⟩
  | cons c a ih =>
    rw [List.cons_append, findWith] at h
    rw [findWith]
    by_cases hdot : c = here
    · rw [if_pos hdot] at h ⊢
      exact ih h
    by_cases hup : c = up
    · rw [if_neg hdot, if_pos hup] at h ⊢
      exact ih h
    rw [if_neg hdot, if_neg hup] at h ⊢
    cases hnode : fs.get? (dir ++ [c]) with
    | none =>
      rw [hnode] at h
      dsimp only at h
      split_ifs at h
    | some node =>
      rw [hnode] at h
      cases node with
      | dir => exact ih h
      | symlink target =>
        dsimp only at h ⊢
        rw [if_neg (by simp), ← List.append_assoc] at h
        rw [if_neg (by simp)]
        exact hlink _ _ _ _ h
      | file _ _ =>
        dsimp only at h ⊢
        split_ifs at h with hrest
        rw [if_pos (List.append_eq_nil_iff.mp hrest).1]
        exact ⟨_, rfl⟩
      | other =>
        dsimp only at h ⊢
        split_ifs at h with hrest
        rw [if_pos (List.append_eq_nil_iff.mp hrest).1]
        exact ⟨_, rfl⟩

/-- **A search that ends somewhere ends somewhere for each prefix of its path.** -/
theorem findFrom_prefix {links : ℕ} {a b p : Path} (h : findFrom fs true links dir (a ++ b) = .at p) :
    ∃ q, findFrom fs true links dir a = .at q := by
  induction links generalizing dir a b p with
  | zero =>
    refine findWith_prefix (fun dir a b p hlink => ?_) h
    cases hlink
  | succ links ih =>
    have hlink : ∀ dir a b p, findFrom fs true links dir (a ++ b) = .at p → ∃ q, findFrom fs true links dir a = .at q :=
      fun _ _ _ _ => ih
    exact findWith_prefix hlink h

/-- What a path that is not empty joins to leads somewhere only if the path does. -/
theorem locate_of_join {p q : PathBuf} (hq : q.absolute = false) (hp : p ≠ .empty) {r : Path} (h : locate fs cwd (p.join q) = .at r) :
    ∃ r, locate fs cwd p = .at r := by
  have hjoin : p.join q = ⟨p.absolute, p.names ++ if q.names = [] then [here] else q.names⟩ := by
    rw [PathBuf.join, if_neg (by rw [hq]; exact Bool.false_ne_true), if_neg hp]
  rw [hjoin] at h
  unfold locate at h ⊢
  dsimp only at h
  by_cases habs : p.absolute = true
  · rw [if_pos habs] at h ⊢
    exact findFrom_prefix h
  · have hne : p.names ≠ [] := by
      intro hnames
      refine hp ?_
      cases p
      simp_all [PathBuf.empty]
    rw [if_neg habs, if_neg (by simp [hne])] at h
    rw [if_neg habs, if_neg hne]
    exact findFrom_prefix h

/-! ### Paths with and without `.` -/

theorem withoutHere_here (path : Path) : withoutHere (here :: path) = withoutHere path := rfl

theorem withoutHere_cons {c : Bytes} (hc : c ≠ here) (path : Path) : withoutHere (c :: path) = c :: withoutHere path :=
  List.filter_cons_of_pos (by simpa using hc)

theorem withoutHere_append (a b : Path) : withoutHere (a ++ b) = withoutHere a ++ withoutHere b := List.filter_append ..

theorem findWith_nil {onLink : Path → Path → Found} {b : Path} (h : withoutHere b = []) : findWith fs true onLink dir b = .at dir := by
  induction b with
  | nil => rfl
  | cons c b ih =>
    by_cases hc : c = here
    · subst hc
      rw [findWith, if_pos rfl]
      exact ih h
    · rw [withoutHere_cons hc] at h
      cases h

/-- A path that has a name first, but for `.`s. -/
theorem findWith_cons {onLink : Path → Path → Found} {c : Bytes} (hc : c ≠ here) {a b : Path} (h : withoutHere b = c :: a) :
    ∃ b', withoutHere b' = a ∧ findWith fs true onLink dir b = findWith fs true onLink dir (c :: b') := by
  induction b with
  | nil => cases h
  | cons d b ih =>
    by_cases hd : d = here
    · subst hd
      obtain ⟨b', hb', heq⟩ := ih h
      refine ⟨b', hb', ?_⟩
      rw [findWith, if_pos rfl, heq]
    · rw [withoutHere_cons hd] at h
      obtain ⟨rfl, ha⟩ := List.cons.inj h
      exact ⟨b, ha, rfl⟩

theorem findWith_withoutHere {onLink : Path → Path → Found} {q : Path}
    (hlink : ∀ dir a b, withoutHere a = withoutHere b → onLink dir a = .at q → onLink dir b = .at q) (hq : nodeAt fs q = some .dir)
    {a b : Path} (hab : withoutHere a = withoutHere b) (h : findWith fs true onLink dir a = .at q) :
    findWith fs true onLink dir b = .at q := by
  induction a generalizing b dir with
  | nil =>
    rw [← h]
    exact findWith_nil hab.symm
  | cons c a ih =>
    by_cases hdot : c = here
    · subst hdot
      rw [findWith, if_pos rfl] at h
      exact ih hab h
    rw [withoutHere_cons hdot] at hab
    obtain ⟨b', hb', heq⟩ : ∃ b', withoutHere b' = withoutHere a ∧
        findWith fs true onLink dir b = findWith fs true onLink dir (c :: b') := findWith_cons hdot hab.symm
    rw [heq, findWith, if_neg hdot]
    rw [findWith, if_neg hdot] at h
    by_cases hup : c = up
    · rw [if_pos hup] at h ⊢
      exact ih hb'.symm h
    rw [if_neg hup] at h ⊢
    -- what is not a directory is not what was found
    have hfile : ∀ node, node ≠ .dir → fs.get? (dir ++ [c]) = some node →
        (if a = [] then Found.at (dir ++ [c]) else .failed .notdir) ≠ .at q := by
      intro node hnode hget hfound
      split_ifs at hfound
      cases hfound
      rw [nodeAt, if_neg (by simp), hget] at hq
      exact hnode (Option.some.inj hq)
    cases hget : fs.get? (dir ++ [c]) with
    | none =>
      rw [hget] at h
      dsimp only at h
      split_ifs at h
    | some node =>
      rw [hget] at h
      cases node with
      | dir => exact ih hb'.symm h
      | symlink target =>
        dsimp only at h ⊢
        rw [if_neg (by simp)] at h ⊢
        refine hlink _ _ _ ?_ h
        rw [withoutHere_append, withoutHere_append, hb']
      | file _ _ => exact absurd h (hfile _ (by simp) hget)
      | other => exact absurd h (hfile _ (by simp) hget)

/-- **A search that ends in a directory ends there for every path that has the same names and other `.`s.** -/
theorem findFrom_withoutHere {links : ℕ} {a b q : Path} (hab : withoutHere a = withoutHere b) (hq : nodeAt fs q = some .dir)
    (h : findFrom fs true links dir a = .at q) : findFrom fs true links dir b = .at q := by
  induction links generalizing dir a b with
  | zero =>
    refine findWith_withoutHere (fun dir a b _ hlink => ?_) hq hab h
    cases hlink
  | succ links ih =>
    have hlink : ∀ dir a b, withoutHere a = withoutHere b → findFrom fs true links dir a = .at q →
        findFrom fs true links dir b = .at q := fun _ _ _ => ih
    exact findWith_withoutHere hlink hq hab h

end Milpa.Posix
