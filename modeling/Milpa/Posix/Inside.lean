import Milpa.Posix.Straight

/-!
# What operations on straight paths touch

`chmod`, and that the operations on a path below a directory that crosses no symlink touch
nothing outside of the directory, whatever the symlinks elsewhere lead to.
-/

namespace Milpa.Posix

open Program

variable {root path tail : Path} {fs₀ : FileSystem} {d : Disk}

/-- A program that succeeds has run its parts. -/
theorem Program.bind_cases {ε α β : Type} {m : Program ε α} {f : α → Program ε β} {b : β} (h : ((m >>= f) d).1 = .ok b) :
    ∃ a, (m d).1 = .ok a ∧ (f a (m d).2).1 = .ok b ∧ (m >>= f) d = f a (m d).2 := by
  cases hm : (m d).1 with
  | error e =>
    rw [bind_error hm] at h
    cases h
  | ok a =>
    rw [bind_ok hm] at h ⊢
    exact ⟨a, rfl, h, rfl⟩

/-! ### Permissions -/

/-- A node with another execute bit, where it has one. -/
def withMode (executable : Bool) : Node → Node
  | .file _ content => .file executable content
  | node => node

/-- `chmod(2)`, as far as the execute bit of a file goes. -/
def chmod (executable : Bool) (path : Path) : Program Errno Unit := do
  let fs ← getFs
  match find fs true path with
  | .at p => setNode p ((fs.get? p).map (withMode executable))
  | .absent _ => .fail .noent
  | .failed e => .fail e

theorem chmod_apply (executable : Bool) (path : Path) (d : Disk) : chmod executable path d =
    match find d.fs true path with
    | .at p => setNode p ((d.fs.get? p).map (withMode executable)) d
    | .absent _ => (.error .noent, d)
    | .failed e => (.error e, d) := by
  have heq : chmod executable path d = (match find d.fs true path with
    | .at p => setNode p ((d.fs.get? p).map (withMode executable))
    | .absent _ => .fail .noent
    | .failed e => .fail e : Program Errno Unit) d := rfl
  rw [heq]
  cases find d.fs true path <;> rfl

/-- The execute bit of a file at a path is set. -/
theorem chmod_file (hclosed : Closed d.fs) (hhere : here ∉ path) (hup : up ∉ path) (hne : path ≠ []) {old : Bool} {content : Bytes}
    (hfile : d.fs.get? path = some (.file old content)) (executable : Bool) :
    chmod executable path d = (.ok (), ⟨d.fs.insert path (.file executable content), path :: d.touched⟩) := by
  have hfind : find d.fs true path = .at ([] ++ path) := findWith_file hclosed hhere hup hne hfile
  rw [List.nil_append] at hfind
  rw [chmod_apply, hfind]
  dsimp only
  rw [hfile]
  rfl

/-! ### Inside of a directory -/

/-- Nothing outside of a directory has been touched, or is other than it was. -/
structure Inside (root : Path) (fs₀ : FileSystem) (d : Disk) : Prop where
  touched : ∀ p ∈ d.touched, root <+: p
  outside : ∀ p, ¬ root <+: p → d.fs.get? p = fs₀.get? p

theorem Inside.insert (h : Inside root fs₀ d) {p : Path} (hp : root <+: p) (node : Node) :
    Inside root fs₀ ⟨d.fs.insert p node, p :: d.touched⟩ where
  touched := List.forall_mem_cons.mpr ⟨hp, h.touched⟩
  outside q hq := by
    have hqp : q ≠ p := fun heq => hq (heq ▸ hp)
    rw [BTreeMap.get?_insert, if_neg hqp]
    exact h.outside q hq

theorem Inside.erase (h : Inside root fs₀ d) {p : Path} (hp : root <+: p) : Inside root fs₀ ⟨d.fs.erase p, p :: d.touched⟩ where
  touched := List.forall_mem_cons.mpr ⟨hp, h.touched⟩
  outside q hq := by
    have hqp : q ≠ p := fun heq => hq (heq ▸ hp)
    rw [BTreeMap.get?_erase, if_neg hqp]
    exact h.outside q hq

/-- New directories cross no symlink of a straight path. -/
theorem Straight.grown {fs : FileSystem} (h : Straight fs path) (hgrown : Grown fs d) : Straight d.fs path where
  noHere := h.noHere
  noUp := h.noUp
  noLink q hq hne hlast text hget := by
    rcases hgrown q with hold | ⟨-, hnew⟩
    · exact h.noLink q hq hne hlast text (by rw [← hold, hget])
    · rw [hnew] at hget
      cases hget

theorem Straight.initial {fs : FileSystem} (h : Straight fs path) {q : Path} (hq : q <+: path) : Straight fs q where
  noHere hmem := h.noHere (hq.subset hmem)
  noUp hmem := h.noUp (hq.subset hmem)
  noLink r hr hne hlast := h.noLink r (hr.trans hq) hne fun heq => hlast (hr.eq_of_length_le (heq ▸ hq.length_le))

theorem Inside.mkdir (h : Inside root fs₀ d) (hstraight : Straight d.fs path) (hrooted : Rooted root d.fs)
    (hpath : root <+: path ∨ path <+: root) : Inside root fs₀ (mkdir path d).2 := by
  rcases hpath with hbelow | habove
  · rw [mkdir_apply]
    cases hfind : find d.fs false path with
    | «at» p => exact h
    | failed e => exact h
    | absent p =>
      rw [hstraight.find_eq (fun hfollow => by cases hfollow) (.inr hfind)]
      exact h.insert hbelow .dir
  · rw [hrooted.mkdir hstraight.noHere hstraight.noUp habove]
    exact h

/-- The directories of a straight path are made below the root. -/
theorem Inside.createDirAll (h : Inside root fs₀ d) (hrooted : Rooted root d.fs) (hstraight : Straight d.fs (root ++ tail))
    (hpath : path <+: root ++ tail) : Inside root fs₀ (createDirAll path d).2 := by
  have hkeeps : Keeps (fun d' => Inside root fs₀ d' ∧ Grown d.fs d') (Posix.createDirAll path) := by
    refine createDirAll_keeps fun q hq d' ⟨hinside, hgrown⟩ => ?_
    have hall := hq.trans hpath
    refine ⟨hinside.mkdir ((hstraight.grown hgrown).initial hall) (hgrown.rooted hrooted) ?_, Grown.mkdir q d' hgrown⟩
    exact (List.prefix_or_prefix_of_prefix (List.prefix_append root tail) hall)
  exact (hkeeps d ⟨h, fun p => .inl rfl⟩).1

theorem Inside.writeFile (h : Inside root fs₀ d) (hbelow : root <+: path) (hstraight : Straight d.fs path)
    (hlast : ∀ text, d.fs.get? path ≠ some (.symlink text)) (content : Bytes) : Inside root fs₀ (writeFile path content d).2 := by
  rw [writeFile_apply]
  cases hfind : find d.fs true path with
  | «at» p =>
    obtain rfl := hstraight.find_eq (fun _ => hlast) (.inl hfind)
    dsimp only
    split_ifs
    · exact h
    · exact h.insert hbelow _
  | absent p =>
    obtain rfl := hstraight.find_eq (fun _ => hlast) (.inr hfind)
    exact h.insert hbelow _
  | failed e => exact h

theorem Inside.unlink (h : Inside root fs₀ d) (hbelow : root <+: path) (hstraight : Straight d.fs path) :
    Inside root fs₀ (unlink path d).2 := by
  rw [unlink_apply]
  cases hfind : find d.fs false path with
  | «at» p =>
    obtain rfl := hstraight.find_eq (fun hfollow => by cases hfollow) (.inl hfind)
    dsimp only
    split_ifs
    · exact h
    · exact h.erase hbelow
  | absent p => exact h
  | failed e => exact h

theorem Inside.symlink (h : Inside root fs₀ d) (hbelow : root <+: path) (hstraight : Straight d.fs path) (target : Bytes) :
    Inside root fs₀ (symlink target path d).2 := by
  rw [symlink_apply]
  split_ifs
  · exact h
  cases hfind : find d.fs false path with
  | «at» p => exact h
  | absent p =>
    obtain rfl := hstraight.find_eq (fun hfollow => by cases hfollow) (.inr hfind)
    exact h.insert hbelow _
  | failed e => exact h

end Milpa.Posix
