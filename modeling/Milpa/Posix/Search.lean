import Milpa.Posix.FileSystem

/-!
# Where a search ends

Below a directory `root` all symlinks are tame: a tame symlink begins with `..`s, if any,
and goes on without one, and so leads back below `root`. A search for a path below `root`
then ends below `root` (`findFrom_confined`).
-/

namespace Milpa.Posix

variable {fs : FileSystem} {root dir path : Path}

/-! ### Tame symlinks -/

/-- The directory that a text of `.` and `..` leads to. -/
def climb (dir : Path) (ups : Path) : Path := ups.foldl (fun d c => if c = up then d.dropLast else d) dir

/-- A text that begins with `.`s and `..`s, and goes on with names that lead below the root, whatever they are. -/
def Tame (root dir : Path) (text : Bytes) : Prop :=
  ∃ ups rest, names text = ups ++ rest ∧ (∀ c ∈ ups, c = up ∨ c = here) ∧ up ∉ rest ∧
    root <+: climb (if isAbsolute text then [] else dir) ups ++ rest.filter fun c => c ≠ here

/-- The root and the directories above it are there. -/
def Rooted (root : Path) (fs : FileSystem) : Prop := ∀ p, p <+: root → p ≠ [] → fs.get? p = some .dir

/-- The symlinks below the root are tame. -/
def TameBelow (root : Path) (fs : FileSystem) : Prop :=
  ∀ dir c text, root <+: dir → fs.get? (dir ++ [c]) = some (.symlink text) → Tame root dir text

theorem climb_isPrefix (dir ups : Path) : climb dir ups <+: dir := by
  induction ups generalizing dir with
  | nil => exact List.prefix_refl dir
  | cons c ups ih =>
    have hstep : climb dir (c :: ups) = climb (if c = up then dir.dropLast else dir) ups := rfl
    rw [hstep]
    split_ifs
    · exact (ih _).trans (List.dropLast_prefix dir)
    · exact ih dir

theorem prefix_dropLast {p q : Path} (h : p <+: q) (hne : p ≠ q) : p <+: q.dropLast := by
  obtain ⟨tail, rfl⟩ := h
  rw [List.dropLast_append_of_ne_nil (by simpa using Ne.symm hne)]
  exact List.prefix_append p _

/-! ### Searches -/

section Find

variable {follow : Bool} {onLink : Path → Path → Found}

theorem findWith_climb {ups : Path} (hups : ∀ c ∈ ups, c = up ∨ c = here) (dir rest : Path) :
    findWith fs follow onLink dir (ups ++ rest) = findWith fs follow onLink (climb dir ups) rest := by
  induction ups generalizing dir with
  | nil => rfl
  | cons c ups ih =>
    obtain ⟨hc, htail⟩ := List.forall_mem_cons.mp hups
    have hstep : climb dir (c :: ups) = climb (if c = up then dir.dropLast else dir) ups := rfl
    rw [List.cons_append, findWith, hstep]
    rcases hc with hc | hc
    · rw [if_neg (by rw [hc]; decide), if_pos hc, if_pos hc]
      exact ih htail _
    · rw [if_pos hc, if_neg (by rw [hc]; decide)]
      exact ih htail dir

theorem findFrom_climb {ups : Path} (hups : ∀ c ∈ ups, c = up ∨ c = here) (links : ℕ) (dir rest : Path) :
    findFrom fs follow links dir (ups ++ rest) = findFrom fs follow links (climb dir ups) rest := by
  cases links <;> exact findWith_climb hups dir rest

/-- Where a search can begin so that it ends below the root: below the root, or above it with names that lead there. -/
def Heads (root dir path : Path) : Prop := root <+: dir ∨ dir <+: root ∧ root <+: dir ++ path.filter fun c => c ≠ here

/-- The place that a search ends with lies below the root. -/
def Found.Below (root : Path) : Found → Prop
  | .at p => root <+: p
  | .absent p => root <+: p
  | .failed _ => True

theorem Heads.cons_name {c : Bytes} {rest : Path} (hc : c ≠ here) (h : Heads root dir (c :: rest)) : Heads root (dir ++ [c]) rest := by
  rcases h with h | ⟨hdir, h⟩
  · exact .inl (h.trans (List.prefix_append _ _))
  · rw [List.filter_cons_of_pos (by simpa using hc), ← List.singleton_append, ← List.append_assoc] at h
    rcases List.prefix_or_prefix_of_prefix h (List.prefix_append (dir ++ [c]) _) with h' | h'
    · exact .inl h'
    · exact .inr ⟨h', h⟩

/-- The head of the names that lead to the root from above is the next name of the root. -/
theorem Heads.above {c : Bytes} {rest : Path} (hc : c ≠ here) (h : Heads root dir (c :: rest)) (hroot : ¬ root <+: dir) :
    dir ++ [c] <+: root := by
  rcases h with h | ⟨⟨tail, htail⟩, h⟩
  · exact absurd h hroot
  · rw [List.filter_cons_of_pos (by simpa using hc), ← htail, List.prefix_append_right_inj] at h
    cases tail with
    | nil => exact absurd (by rw [← htail, List.append_nil]) hroot
    | cons c' tail =>
      have heq : c' = c := (List.cons_prefix_cons.mp h).1
      rw [← htail, heq]
      exact ⟨tail, by simp⟩

theorem findWith_confined (hrooted : Rooted root fs)
    (hlink : ∀ dir c text rest, root <+: dir → fs.get? (dir ++ [c]) = some (.symlink text) → up ∉ rest →
      (onLink (if isAbsolute text then [] else dir) (names text ++ rest)).Below root)
    {path dir : Path} (hup : up ∉ path) (hheads : Heads root dir path) :
    (findWith fs follow onLink dir path).Below root := by
  induction path generalizing dir with
  | nil =>
    rw [findWith]
    rcases hheads with h | ⟨_, h⟩
    · exact h
    · simpa [Found.Below] using h
  | cons c rest ih =>
    obtain ⟨hc, hrest⟩ := not_or.mp fun h => hup (List.mem_cons.mpr h)
    rw [findWith]
    by_cases hdot : c = here
    · subst hdot
      rw [if_pos rfl]
      refine ih hrest ?_
      rcases hheads with h | ⟨hdir, h⟩
      · exact .inl h
      · exact .inr ⟨hdir, by simpa using h⟩
    · rw [if_neg hdot, if_neg (Ne.symm hc)]
      have hnext := hheads.cons_name hdot
      by_cases hbelow : root <+: dir
      · have hend : root <+: dir ++ [c] := hbelow.trans (List.prefix_append _ _)
        cases hnode : fs.get? (dir ++ [c]) with
        | none => dsimp only; split_ifs <;> first | exact hend | exact trivial
        | some node =>
          cases node with
          | dir => exact ih hrest hnext
          | symlink text =>
            dsimp only
            by_cases hlast : rest = [] ∧ follow = false
            · rw [if_pos hlast]
              exact hend
            · rw [if_neg hlast]
              exact hlink dir c text rest hbelow hnode hrest
          | file _ _ => dsimp only; split_ifs <;> first | exact hend | exact trivial
          | other => dsimp only; split_ifs <;> first | exact hend | exact trivial
      · -- above the root there are directories only
        rw [hrooted (dir ++ [c]) (hheads.above hdot hbelow) (by simp)]
        exact ih hrest hnext

/-- **A search for a path below the root ends below the root.** -/
theorem findFrom_confined (hrooted : Rooted root fs) (htame : TameBelow root fs) (links : ℕ) {path dir : Path}
    (hup : up ∉ path) (hheads : Heads root dir path) : (findFrom fs follow links dir path).Below root := by
  induction links generalizing dir path with
  | zero =>
    have hloop : (Found.failed .loop).Below root := trivial
    exact findWith_confined hrooted (fun _ _ _ _ _ _ _ => hloop) hup hheads
  | succ links ih =>
    refine findWith_confined hrooted (fun dir c text rest hbelow hnode hrest => ?_) hup hheads
    obtain ⟨ups, rest', hnames, hups, hup', hlead⟩ := htame dir c text hbelow hnode
    rw [hnames, List.append_assoc, findFrom_climb hups]
    refine ih (by simp [hup', hrest]) ?_
    -- the directory that the `..`s lead to is above the root, or below it
    have hbase : climb (if isAbsolute text then [] else dir) ups <+: dir := by
      refine (climb_isPrefix _ ups).trans ?_
      split_ifs
      · exact List.nil_prefix
      · exact List.prefix_refl dir
    rcases List.prefix_or_prefix_of_prefix hbelow hbase with h | h
    · exact .inl h
    · refine .inr ⟨h, hlead.trans ?_⟩
      rw [List.filter_append, ← List.append_assoc]
      exact List.prefix_append _ _

theorem findWith_absent (hlink : ∀ dir path p, onLink dir path = .absent p → fs.get? p = none) {path dir p : Path}
    (h : findWith fs follow onLink dir path = .absent p) : fs.get? p = none := by
  induction path generalizing dir with
  | nil => cases h
  | cons c rest ih =>
    rw [findWith] at h
    by_cases hdot : c = here
    · rw [if_pos hdot] at h
      exact ih h
    by_cases hup : c = up
    · rw [if_neg hdot, if_pos hup] at h
      exact ih h
    rw [if_neg hdot, if_neg hup] at h
    cases hnode : fs.get? (dir ++ [c]) with
    | none =>
      rw [hnode] at h
      dsimp only at h
      split_ifs at h
      cases h
      exact hnode
    | some node =>
      rw [hnode] at h
      cases node with
      | dir => exact ih h
      | symlink text =>
        dsimp only at h
        by_cases hlast : rest = [] ∧ follow = false
        · rw [if_pos hlast] at h
          cases h
        · rw [if_neg hlast] at h
          exact hlink _ _ _ h
      | file _ _ => dsimp only at h; split_ifs at h
      | other => dsimp only at h; split_ifs at h

/-- Where a name is free there is nothing. -/
theorem find_absent {path p : Path} (h : find fs follow path = .absent p) : fs.get? p = none := by
  have hlinks : ∀ links dir path p, findFrom fs follow links dir path = .absent p → fs.get? p = none := by
    intro links
    induction links with
    | zero => exact fun dir path p => findWith_absent fun _ _ _ h => by cases h
    | succ links ih => exact fun dir path p => findWith_absent ih
  exact hlinks _ _ _ _ h

/-- A search that meets no symlink ends where its path says. -/
theorem findWith_straight {path dir p : Path} (hhere : here ∉ path) (hup : up ∉ path)
    (hlinks : ∀ q, dir <+: q → q <+: dir ++ path → q ≠ dir → (q = dir ++ path → follow = true) → ∀ text, fs.get? q ≠ some (.symlink text))
    (h : findWith fs follow onLink dir path = .at p ∨ findWith fs follow onLink dir path = .absent p) : p = dir ++ path := by
  induction path generalizing dir with
  | nil =>
    rw [findWith] at h
    rw [List.append_nil]
    rcases h with h | h <;> cases h
    rfl
  | cons c rest ih =>
    obtain ⟨hc, hhere⟩ := not_or.mp fun h => hhere (List.mem_cons.mpr h)
    obtain ⟨hc', hup⟩ := not_or.mp fun h => hup (List.mem_cons.mpr h)
    rw [findWith, if_neg (Ne.symm hc), if_neg (Ne.symm hc')] at h
    have hpath : dir ++ c :: rest = dir ++ [c] ++ rest := by simp
    have hne : dir ++ [c] ≠ dir := by simp
    rw [hpath] at hlinks ⊢
    cases hnode : fs.get? (dir ++ [c]) with
    | none =>
      rw [hnode] at h
      dsimp only at h
      split_ifs at h with hrest
      · rcases h with h | h <;> cases h
        rw [hrest, List.append_nil]
      · rcases h with h | h <;> cases h
    | some node =>
      rw [hnode] at h
      cases node with
      | dir =>
        refine ih hhere hup (fun q hq hq' hne' => hlinks q ((List.prefix_append _ _).trans hq) hq' fun heq => ?_) h
        have hlen := hq.length_le
        rw [heq, List.length_append, List.length_singleton] at hlen
        omega
      | symlink text =>
        dsimp only at h
        by_cases hlast : rest = [] ∧ follow = false
        · rw [if_pos hlast] at h
          rcases h with h | h <;> cases h
          rw [hlast.1, List.append_nil]
        · -- a symlink that is followed lies on the path, or at its end
          refine absurd hnode (hlinks _ (List.prefix_append _ _) (List.prefix_append _ _) hne (fun heq => ?_) text)
          have hnil : rest = [] := by simpa using heq
          by_contra hfollow
          exact hlast ⟨hnil, by simpa using hfollow⟩
      | file _ _ =>
        dsimp only at h
        split_ifs at h with hrest <;> rcases h with h | h <;> cases h
        rw [hrest, List.append_nil]
      | other =>
        dsimp only at h
        split_ifs at h with hrest <;> rcases h with h | h <;> cases h
        rw [hrest, List.append_nil]

/-- A directory above the root is found where its path says. -/
theorem findWith_rooted (hrooted : Rooted root fs) {path dir : Path} (hhere : here ∉ path) (hup : up ∉ path)
    (hpath : dir ++ path <+: root) : findWith fs follow onLink dir path = .at (dir ++ path) := by
  induction path generalizing dir with
  | nil => rw [findWith, List.append_nil]
  | cons c rest ih =>
    obtain ⟨hc, hhere⟩ := not_or.mp fun h => hhere (List.mem_cons.mpr h)
    obtain ⟨hc', hup⟩ := not_or.mp fun h => hup (List.mem_cons.mpr h)
    rw [← List.singleton_append, ← List.append_assoc] at hpath ⊢
    rw [List.singleton_append, findWith, if_neg (Ne.symm hc), if_neg (Ne.symm hc'),
      hrooted (dir ++ [c]) ((List.prefix_append _ _).trans hpath) (by simp)]
    exact ih hhere hup hpath

end Find

end Milpa.Posix
