import Milpa.Posix.Search

/-!
# Programs that stay below a directory

What each operation does to a disk, and that on a path below a directory `root`, whose
symlinks are tame, it touches nothing outside of `root` and leaves the symlinks tame.
-/

namespace Milpa.Posix

variable {ε ε' α β : Type}

/-! ### What programs keep -/

namespace Program

/-- A program keeps a property of the disk, whether it fails or not. -/
def Keeps (P : Disk → Prop) (m : Program ε α) : Prop := ∀ d, P d → P (m d).2

variable {P : Disk → Prop} {m : Program ε α}

theorem Keeps.pure (a : α) : Keeps P (Pure.pure a : Program ε α) := fun _ h => h

theorem Keeps.fail (e : ε) : Keeps P (fail e : Program ε α) := fun _ h => h

theorem Keeps.ofExcept (r : Except ε α) : Keeps P (ofExcept r) := fun _ h => h

theorem Keeps.mapError {f : ε → ε'} (hm : Keeps P m) : Keeps P (m.mapError f) := hm

theorem Keeps.ignore (hm : Keeps P m) : Keeps P (m.ignore : Program ε' Unit) := hm

theorem bind_apply (m : Program ε α) (f : α → Program ε β) (d : Disk) :
    (m >>= f) d = match m d with
      | (.ok a, d') => f a d'
      | (.error e, d') => (.error e, d') := rfl

theorem bind_error {f : α → Program ε β} {d : Disk} {e : ε} (h : (m d).1 = .error e) : (m >>= f) d = (.error e, (m d).2) := by
  rw [bind_apply]
  generalize m d = r at h
  obtain ⟨_, d'⟩ := r
  cases h
  rfl

theorem bind_ok {f : α → Program ε β} {d : Disk} {a : α} (h : (m d).1 = .ok a) : (m >>= f) d = f a (m d).2 := by
  rw [bind_apply]
  generalize m d = r at h
  obtain ⟨_, d'⟩ := r
  cases h
  rfl

theorem Keeps.bind {f : α → Program ε β} (hm : Keeps P m) (hf : ∀ a, Keeps P (f a)) : Keeps P (m >>= f) := by
  intro d hd
  cases h : (m d).1 with
  | error e =>
    rw [bind_error h]
    exact hm d hd
  | ok a =>
    rw [bind_ok h]
    exact hf a _ (hm d hd)

end Program

open Program

/-! ### What the operations do -/

variable {d : Disk} {path : Path}

theorem mkdir_apply (path : Path) (d : Disk) : mkdir path d =
    match find d.fs false path with
    | .at _ => (.error .exist, d)
    | .absent p => (.ok (), ⟨d.fs.insert p .dir, p :: d.touched⟩)
    | .failed e => (.error e, d) := by
  have heq : mkdir path d = (match find d.fs false path with
    | .at _ => .fail .exist
    | .absent p => setNode p (some .dir)
    | .failed e => .fail e : Program Errno Unit) d := rfl
  rw [heq]
  cases find d.fs false path <;> rfl

theorem unlink_apply (path : Path) (d : Disk) : unlink path d =
    match find d.fs false path with
    | .at p => if nodeAt d.fs p = some .dir then (.error .isdir, d) else (.ok (), ⟨d.fs.erase p, p :: d.touched⟩)
    | .absent _ => (.error .noent, d)
    | .failed e => (.error e, d) := by
  have heq : unlink path d = (match find d.fs false path with
    | .at p => if nodeAt d.fs p = some .dir then .fail .isdir else setNode p none
    | .absent _ => .fail .noent
    | .failed e => .fail e : Program Errno Unit) d := rfl
  rw [heq]
  cases find d.fs false path with
  | «at» p =>
    dsimp only
    split_ifs <;> rfl
  | absent p => rfl
  | failed e => rfl

theorem symlink_apply (target : Bytes) (path : Path) (d : Disk) : symlink target path d =
    if target = [] then (.error .noent, d)
    else
      match find d.fs false path with
      | .at _ => (.error .exist, d)
      | .absent p => (.ok (), ⟨d.fs.insert p (.symlink target), p :: d.touched⟩)
      | .failed e => (.error e, d) := by
  have heq : symlink target path d = (if target = [] then .fail .noent
    else
      match find d.fs false path with
      | .at _ => .fail .exist
      | .absent p => setNode p (some (.symlink target))
      | .failed e => .fail e : Program Errno Unit) d := rfl
  rw [heq]
  split_ifs
  · rfl
  · cases find d.fs false path <;> rfl

theorem writeFile_apply (path : Path) (content : Bytes) (d : Disk) : writeFile path content d =
    match find d.fs true path with
    | .at p =>
      if nodeAt d.fs p = some .dir then (.error .isdir, d)
      else (.ok (), ⟨d.fs.insert p (written (d.fs.get? p) content), p :: d.touched⟩)
    | .absent p => (.ok (), ⟨d.fs.insert p (.file false content), p :: d.touched⟩)
    | .failed e => (.error e, d) := by
  have heq : writeFile path content d = (match find d.fs true path with
    | .at p => if nodeAt d.fs p = some .dir then .fail .isdir else setNode p (some (written (d.fs.get? p) content))
    | .absent p => setNode p (some (.file false content))
    | .failed e => .fail e : Program Errno Unit) d := rfl
  rw [heq]
  cases find d.fs true path with
  | «at» p =>
    dsimp only
    split_ifs <;> rfl
  | absent p => rfl
  | failed e => rfl

/-! ### The invariant -/

section Confined

variable {root : Path} {fs₀ : FileSystem}

/-- What holds of a disk while programs work below the root: the symlinks there are tame, nothing else has been touched, and outside
of the root everything is as it was. -/
structure Confined (root : Path) (fs₀ : FileSystem) (d : Disk) : Prop where
  rooted : Rooted root d.fs
  tame : TameBelow root d.fs
  touched : ∀ p ∈ d.touched, root <+: p
  outside : ∀ p, ¬ root <+: p → d.fs.get? p = fs₀.get? p

/-- A path that is written out, and leads to the root or is one of its directories. -/
structure Towards (root path : Path) : Prop where
  noHere : here ∉ path
  noUp : up ∉ path
  comparable : root <+: path ∨ path <+: root

theorem Towards.heads (h : root <+: path) (hhere : here ∉ path) : Heads root [] path := by
  have hall : ∀ c ∈ path, decide (c ≠ here) = true := fun c hc => decide_eq_true fun heq => hhere (heq ▸ hc)
  refine .inr ⟨List.nil_prefix, ?_⟩
  rw [List.nil_append, List.filter_eq_self.mpr hall]
  exact h

theorem Confined.find_below (h : Confined root fs₀ d) (follow : Bool) (hpath : root <+: path) (hhere : here ∉ path) (hup : up ∉ path) :
    (find d.fs follow path).Below root :=
  findFrom_confined h.rooted h.tame _ hup (Towards.heads hpath hhere)

/-- Another node at a place below the root that is not a directory: if it is a symlink, a tame one. -/
theorem Confined.insert (h : Confined root fs₀ d) {p : Path} {node : Node} (hp : root <+: p) (hnode : d.fs.get? p ≠ some .dir)
    (htame : ∀ text, node = .symlink text → ∀ dir c, p = dir ++ [c] → root <+: dir → Tame root dir text) :
    Confined root fs₀ ⟨d.fs.insert p node, p :: d.touched⟩ where
  rooted q hq hne := by
    have hqp : q ≠ p := fun heq => by
      subst heq
      exact hnode (h.rooted q hq hne)
    rw [BTreeMap.get?_insert, if_neg hqp]
    exact h.rooted q hq hne
  tame dir c text hdir hget := by
    rw [BTreeMap.get?_insert] at hget
    split_ifs at hget with heq
    · exact htame text (Option.some_inj.mp hget) dir c heq.symm hdir
    · exact h.tame dir c text hdir hget
  touched q hq := by
    rcases List.mem_cons.mp hq with rfl | hq
    · exact hp
    · exact h.touched q hq
  outside q hq := by
    have hqp : q ≠ p := fun heq => hq (heq ▸ hp)
    rw [BTreeMap.get?_insert, if_neg hqp]
    exact h.outside q hq

theorem Confined.erase (h : Confined root fs₀ d) {p : Path} (hp : root <+: p) (hnode : d.fs.get? p ≠ some .dir) :
    Confined root fs₀ ⟨d.fs.erase p, p :: d.touched⟩ where
  rooted q hq hne := by
    have hqp : q ≠ p := fun heq => by
      subst heq
      exact hnode (h.rooted q hq hne)
    rw [BTreeMap.get?_erase, if_neg hqp]
    exact h.rooted q hq hne
  tame dir c text hdir hget := by
    rw [BTreeMap.get?_erase] at hget
    split_ifs at hget with heq
    exact h.tame dir c text hdir hget
  touched q hq := by
    rcases List.mem_cons.mp hq with rfl | hq
    · exact hp
    · exact h.touched q hq
  outside q hq := by
    have hqp : q ≠ p := fun heq => hq (heq ▸ hp)
    rw [BTreeMap.get?_erase, if_neg hqp]
    exact h.outside q hq

theorem nodeAt_ne_dir {fs : FileSystem} {p : Path} (h : nodeAt fs p ≠ some .dir) : fs.get? p ≠ some .dir := by
  rw [nodeAt] at h
  split_ifs at h with hnil
  · exact absurd rfl h
  · exact h

theorem absent_ne_dir {fs : FileSystem} {follow : Bool} {p : Path} (h : find fs follow path = .absent p) : fs.get? p ≠ some .dir := by
  rw [find_absent h]
  exact (Option.some_ne_none _).symm

theorem written_ne_symlink (old : Option Node) (content text : Bytes) : written old content ≠ .symlink text := by
  rcases old with _ | _ | _ | _ | _ <;> exact Node.noConfusion

theorem Confined.mkdir (h : Confined root fs₀ d) (hpath : Towards root path) : Confined root fs₀ (mkdir path d).2 := by
  rw [mkdir_apply]
  cases hfind : find d.fs false path with
  | «at» p => exact h
  | failed e => exact h
  | absent p =>
    have hp : root <+: p := by
      rcases hpath.comparable with hbelow | habove
      · have hend := h.find_below false hbelow hpath.noHere hpath.noUp
        rwa [hfind] at hend
      · have hat : find d.fs false path = .at ([] ++ path) := findWith_rooted h.rooted hpath.noHere hpath.noUp habove
        rw [hat] at hfind
        cases hfind
    exact h.insert hp (absent_ne_dir hfind) fun text htext => by cases htext

/-- The directories of a path are made by `mkdir`s for them. -/
theorem createDirs_keeps {P : Disk → Prop} {path : Path} (hmkdir : ∀ q, q <:+ path → Keeps P (Posix.mkdir q.reverse)) :
    Keeps P (createDirs path) := by
  have hordir : ∀ q, q <:+ path → Keeps P (mkdirOrDir q.reverse) := fun q hq d hd => by
    have hkept := hmkdir q hq d hd
    rw [mkdirOrDir]
    cases hr : Posix.mkdir q.reverse d with
    | mk r d' =>
      rw [hr] at hkept
      cases r with
      | ok _ => exact hkept
      | error e =>
        dsimp only
        split_ifs <;> exact hkept
  induction path with
  | nil => exact hordir [] (List.suffix_refl [])
  | cons name above ih =>
    intro d hd
    rw [createDirs]
    dsimp only
    have hself : name :: above <:+ name :: above := List.suffix_refl _
    have habove : above <:+ name :: above := List.suffix_cons name above
    have hrec : Keeps P (createDirs above >>= fun _ => mkdirOrDir (name :: above).reverse) :=
      (ih (fun q hq => hmkdir q (hq.trans habove)) fun q hq => hordir q (hq.trans habove)).bind fun _ => hordir _ hself
    have hkept := hmkdir _ hself d hd
    cases hr : Posix.mkdir (name :: above).reverse d with
    | mk r d' =>
      rw [hr] at hkept
      cases r with
      | ok _ => exact hordir _ hself d hd
      | error e =>
        cases e with
        | noent => exact hrec d' hkept
        | _ => exact hordir _ hself d hd

theorem Towards.of_prefix (h : Towards root path) {q : Path} (hq : q <+: path) : Towards root q where
  noHere hmem := h.noHere (hq.subset hmem)
  noUp hmem := h.noUp (hq.subset hmem)
  comparable := by
    rcases h.comparable with hbelow | habove
    · exact List.prefix_or_prefix_of_prefix hbelow hq
    · exact .inr (hq.trans habove)

theorem createDirAll_keeps {P : Disk → Prop} (hmkdir : ∀ q, q <+: path → Keeps P (Posix.mkdir q)) : Keeps P (createDirAll path) :=
  createDirs_keeps fun q hq => hmkdir q.reverse (by simpa using List.reverse_prefix.mpr hq)

theorem Confined.createDirAll (hpath : Towards root path) : Keeps (Confined root fs₀) (createDirAll path) :=
  createDirAll_keeps fun _ hq _ hd => hd.mkdir (hpath.of_prefix hq)

theorem Confined.unlink (h : Confined root fs₀ d) (hbelow : root <+: path) (hhere : here ∉ path) (hup : up ∉ path) :
    Confined root fs₀ (unlink path d).2 := by
  rw [unlink_apply]
  have hend := h.find_below false hbelow hhere hup
  cases hfind : find d.fs false path with
  | «at» p =>
    rw [hfind] at hend
    dsimp only
    split_ifs with hdir
    · exact h
    · exact h.erase hend (nodeAt_ne_dir hdir)
  | absent p => exact h
  | failed e => exact h

/-- A tame symlink is made below the root. -/
theorem Confined.symlink (h : Confined root fs₀ d) {target : Bytes} (hbelow : root <+: path) (hhere : here ∉ path) (hup : up ∉ path)
    (htame : ∀ dir c, find d.fs false path = .absent (dir ++ [c]) → root <+: dir → Tame root dir target) :
    Confined root fs₀ (symlink target path d).2 := by
  rw [symlink_apply]
  split_ifs
  · exact h
  have hend := h.find_below false hbelow hhere hup
  cases hfind : find d.fs false path with
  | «at» p => exact h
  | failed e => exact h
  | absent p =>
    rw [hfind] at hend
    refine h.insert hend (absent_ne_dir hfind) fun text htext dir c hp hdir => ?_
    cases htext
    exact htame dir c (by rw [hfind, hp]) hdir

theorem Confined.writeFile (h : Confined root fs₀ d) {content : Bytes} (hbelow : root <+: path) (hhere : here ∉ path) (hup : up ∉ path) :
    Confined root fs₀ (writeFile path content d).2 := by
  rw [writeFile_apply]
  have hend := h.find_below true hbelow hhere hup
  cases hfind : find d.fs true path with
  | «at» p =>
    rw [hfind] at hend
    dsimp only
    split_ifs with hdir
    · exact h
    · exact h.insert hend (nodeAt_ne_dir hdir) fun text htext => absurd htext (written_ne_symlink _ _ _)
  | absent p =>
    rw [hfind] at hend
    exact h.insert hend (absent_ne_dir hfind) fun text htext => by cases htext
  | failed e => exact h

theorem Confined.readFile (h : Confined root fs₀ d) (hbelow : root <+: path) (hhere : here ∉ path) (hup : up ∉ path) :
    Confined root fs₀ (readFile path d).2 := by
  rw [Posix.readFile]
  have hend := h.find_below true hbelow hhere hup
  cases hfind : find d.fs true path with
  | «at» p =>
    rw [hfind] at hend
    dsimp only
    split
    · refine ⟨h.rooted, h.tame, fun q hq => ?_, h.outside⟩
      rcases List.mem_cons.mp hq with rfl | hq
      · exact hend
      · exact h.touched q hq
    · exact h
  | absent p => exact h
  | failed e => exact h

end Confined

/-! ### Symlinks that were there -/

/-- Every symlink of the disk is one of a file system. -/
def LinksIn (fs₁ : FileSystem) (d : Disk) : Prop := ∀ q text, d.fs.get? q = some (.symlink text) → fs₁.get? q = some (.symlink text)

theorem LinksIn.mkdir {fs₁ : FileSystem} (path : Path) : Keeps (LinksIn fs₁) (mkdir path) := by
  intro d h
  rw [mkdir_apply]
  cases find d.fs false path with
  | absent p =>
    intro q text hget
    rw [BTreeMap.get?_insert] at hget
    split_ifs at hget
    · cases hget
    · exact h q text hget
  | «at» p => exact h
  | failed e => exact h

theorem LinksIn.createDirAll {fs₁ : FileSystem} (path : Path) : Keeps (LinksIn fs₁) (createDirAll path) :=
  createDirAll_keeps fun q _ => LinksIn.mkdir q

theorem LinksIn.unlink {fs₁ : FileSystem} (path : Path) : Keeps (LinksIn fs₁) (unlink path) := by
  intro d h
  rw [unlink_apply]
  cases find d.fs false path with
  | «at» p =>
    dsimp only
    split_ifs
    · exact h
    · intro q text hget
      rw [BTreeMap.get?_erase] at hget
      split_ifs at hget
      exact h q text hget
  | absent p => exact h
  | failed e => exact h

end Milpa.Posix
