import Milpa.Posix.Confined

/-!
# Operations on paths that cross no symlink

A file system is closed if what is there lies in a directory; the operations keep it
closed. On a path that crosses no symlink they work at the path itself, and the making of
directories adds directories only.
-/

namespace Milpa.Posix

open Program

variable {ε : Type} {fs : FileSystem} {d : Disk} {path : Path}

/-! ### Closed file systems -/

/-- What is there lies in a directory. -/
def Closed (fs : FileSystem) : Prop := ∀ p c, fs.get? (p ++ [c]) ≠ none → nodeAt fs p = some .dir

/-- What a search ends with is there, or would be in a directory. -/
def Found.Real (fs : FileSystem) : Found → Prop
  | .at p => nodeAt fs p ≠ none
  | .absent p => fs.get? p = none ∧ ∃ q c, p = q ++ [c] ∧ nodeAt fs q = some .dir
  | .failed _ => True

@[simp] theorem nodeAt_concat (fs : FileSystem) (p : Path) (c : Bytes) : nodeAt fs (p ++ [c]) = fs.get? (p ++ [c]) := by
  rw [nodeAt, if_neg (by simp)]

theorem nodeAt_of_ne {p : Path} (h : p ≠ []) : nodeAt fs p = fs.get? p := if_neg h

/-- Above a directory there is a directory. -/
theorem Closed.dropLast (h : Closed fs) {p : Path} (hp : nodeAt fs p = some .dir) : nodeAt fs p.dropLast = some .dir := by
  rcases p.eq_nil_or_concat with rfl | ⟨q, c, rfl⟩
  · exact hp
  · rw [List.concat_eq_append] at hp ⊢
    rw [List.dropLast_concat]
    rw [nodeAt_concat] at hp
    exact h q c (by rw [hp]; exact Option.some_ne_none _)

/-- Above what is there, there are directories. -/
theorem Closed.of_prefix (h : Closed fs) {p q : Path} (hq : q ≠ []) (hnode : fs.get? (p ++ q) ≠ none) : nodeAt fs p = some .dir := by
  induction q using List.reverseRecOn with
  | nil => exact absurd rfl hq
  | append_singleton q c ih =>
    rw [← List.append_assoc] at hnode
    have hdir := h _ c hnode
    by_cases hnil : q = []
    · rwa [hnil, List.append_nil] at hdir
    · have hne : p ++ q ≠ [] := by simp [hnil]
      rw [nodeAt_of_ne hne] at hdir
      exact ih hnil (by rw [hdir]; exact Option.some_ne_none _)

theorem Closed.findWith_real (h : Closed fs) {follow : Bool} {onLink : Path → Path → Found}
    (hlink : ∀ dir path, nodeAt fs dir = some .dir → (onLink dir path).Real fs) {path dir : Path} (hdir : nodeAt fs dir = some .dir) :
    (findWith fs follow onLink dir path).Real fs := by
  induction path generalizing dir with
  | nil =>
    rw [findWith, Found.Real, hdir]
    exact Option.some_ne_none _
  | cons c rest ih =>
    rw [findWith]
    by_cases hhere : c = here
    · rw [if_pos hhere]
      exact ih hdir
    by_cases hup : c = up
    · rw [if_neg hhere, if_pos hup]
      exact ih (h.dropLast hdir)
    rw [if_neg hhere, if_neg hup]
    have hat : ∀ node, fs.get? (dir ++ [c]) = some node → nodeAt fs (dir ++ [c]) ≠ none := fun node hnode => by
      rw [nodeAt_concat, hnode]
      exact Option.some_ne_none _
    cases hnode : fs.get? (dir ++ [c]) with
    | none =>
      dsimp only
      split_ifs
      · exact ⟨hnode, dir, c, rfl, hdir⟩
      · exact trivial
    | some node =>
      cases node with
      | dir => exact ih (by rw [nodeAt_concat]; exact hnode)
      | symlink text =>
        dsimp only
        by_cases hlast : rest = [] ∧ follow = false
        · rw [if_pos hlast]
          exact hat _ hnode
        · rw [if_neg hlast]
          refine hlink _ _ ?_
          split_ifs
          · rfl
          · exact hdir
      | file _ _ => dsimp only; split_ifs; exacts [hat _ hnode, trivial]
      | other => dsimp only; split_ifs; exacts [hat _ hnode, trivial]

/-- A search ends with what is there, or with a free name in a directory. -/
theorem Closed.find_real (h : Closed fs) (follow : Bool) (path : Path) : (find fs follow path).Real fs := by
  have hlinks : ∀ links dir path, nodeAt fs dir = some .dir → (findFrom fs follow links dir path).Real fs := by
    intro links
    induction links with
    | zero =>
      have hloop : (Found.failed .loop).Real fs := trivial
      exact fun dir path hdir => h.findWith_real (fun _ _ _ => hloop) hdir
    | succ links ih => exact fun dir path hdir => h.findWith_real ih hdir
  exact hlinks _ [] path rfl

/-- Another node where there is no directory. -/
theorem Closed.insert (h : Closed fs) {p q : Path} {c : Bytes} (hp : p = q ++ [c]) (hq : nodeAt fs q = some .dir)
    (hnode : nodeAt fs p ≠ some .dir) (node : Node) : Closed (fs.insert p node) := by
  have hkeep : ∀ p', nodeAt fs p' = some .dir → nodeAt (fs.insert p node) p' = some .dir := fun p' hp' => by
    have hne : p' ≠ p := fun heq => hnode (heq ▸ hp')
    rw [nodeAt, BTreeMap.get?_insert, if_neg hne]
    exact hp'
  intro p' c' hget
  rw [BTreeMap.get?_insert] at hget
  by_cases heq : p' ++ [c'] = p
  · have hsame : p' = q := by
      rw [hp] at heq
      exact (List.append_inj' heq rfl).1
    rw [hsame]
    exact hkeep q hq
  · rw [if_neg heq] at hget
    exact hkeep p' (h p' c' hget)

theorem Closed.erase (h : Closed fs) {p : Path} (hnode : nodeAt fs p ≠ some .dir) : Closed (fs.erase p) := by
  intro p' c hget
  rw [BTreeMap.get?_erase] at hget
  split_ifs at hget with heq
  · exact absurd rfl hget
  have hdir := h p' c hget
  have hne : p' ≠ p := fun hsame => hnode (hsame ▸ hdir)
  rw [nodeAt, BTreeMap.get?_erase, if_neg hne]
  exact hdir

/-- What is there, and is not the root, lies in a directory. -/
theorem Closed.parent (h : Closed fs) {p : Path} (hnode : nodeAt fs p ≠ some .dir) (hreal : nodeAt fs p ≠ none) :
    ∃ q c, p = q ++ [c] ∧ nodeAt fs q = some .dir := by
  rcases p.eq_nil_or_concat with rfl | ⟨q, c, rfl⟩
  · exact absurd rfl hnode
  · rw [List.concat_eq_append, nodeAt_concat] at hreal
    exact ⟨q, c, List.concat_eq_append, h q c hreal⟩

theorem Closed.mkdir (path : Path) : Keeps (fun d => Closed d.fs) (mkdir path) := by
  intro d h
  rw [mkdir_apply]
  have hreal := Closed.find_real h false path
  cases hfind : find d.fs false path with
  | «at» p => exact h
  | failed e => exact h
  | absent p =>
    rw [hfind] at hreal
    obtain ⟨hnone, q, c, hp, hq⟩ := hreal
    exact Closed.insert h hp hq (by rw [hp, nodeAt_concat, ← hp, hnone]; exact (Option.some_ne_none _).symm) _

/-! ### The names of what is there -/

/-- Below a root all names have a property. -/
def NamesBelow (root : Path) (Good : Bytes → Prop) (fs : FileSystem) : Prop := ∀ q, fs.get? (root ++ q) ≠ none → ∀ c ∈ q, Good c

theorem NamesBelow.insert {root q : Path} {Good : Bytes → Prop} (h : NamesBelow root Good fs) (hq : ∀ c ∈ q, Good c) (node : Node) :
    NamesBelow root Good (fs.insert (root ++ q) node) := by
  intro q' hget
  rw [BTreeMap.get?_insert] at hget
  split_ifs at hget with heq
  · rw [List.append_cancel_left heq]
    exact hq
  · exact h q' hget

theorem NamesBelow.erase {root p : Path} {Good : Bytes → Prop} (h : NamesBelow root Good fs) : NamesBelow root Good (fs.erase p) := by
  intro q hget
  rw [BTreeMap.get?_erase] at hget
  split_ifs at hget
  · exact absurd rfl hget
  · exact h q hget

/-- The last name of a free place is that of the path. -/
theorem findWith_getLast {onLink : Path → Path → Found} (hlink : ∀ dir path p, onLink dir path = .absent p → p.getLast? = path.getLast?)
    {path dir p : Path} (h : findWith fs false onLink dir path = .absent p) : p.getLast? = path.getLast? := by
  induction path generalizing dir with
  | nil => cases h
  | cons c rest ih =>
    have hskip : ∀ dir', findWith fs false onLink dir' rest = .absent p → p.getLast? = (c :: rest).getLast? := fun dir' h' => by
      have hne : rest ≠ [] := fun hnil => by
        rw [hnil] at h'
        cases h'
      rw [ih h', List.getLast?_cons, List.getLast?_eq_some_getLast hne, Option.getD_some]
    rw [findWith] at h
    by_cases hhere : c = here
    · rw [if_pos hhere] at h
      exact hskip _ h
    by_cases hup : c = up
    · rw [if_neg hhere, if_pos hup] at h
      exact hskip _ h
    rw [if_neg hhere, if_neg hup] at h
    cases hnode : fs.get? (dir ++ [c]) with
    | none =>
      rw [hnode] at h
      dsimp only at h
      split_ifs at h with hrest
      cases h
      rw [hrest, List.getLast?_concat]
      rfl
    | some node =>
      rw [hnode] at h
      cases node with
      | dir => exact hskip _ h
      | symlink text =>
        dsimp only at h
        by_cases hrest : rest = []
        · rw [if_pos ⟨hrest, rfl⟩] at h
          cases h
        · rw [if_neg fun hlast => hrest hlast.1] at h
          rw [hlink _ _ _ h, List.getLast?_append, List.getLast?_cons, List.getLast?_eq_some_getLast hrest]
          rfl
      | file _ _ => dsimp only at h; split_ifs at h
      | other => dsimp only at h; split_ifs at h

theorem find_getLast {p : Path} (h : find fs false path = .absent p) : p.getLast? = path.getLast? := by
  have hlinks : ∀ links dir path p, findFrom fs false links dir path = .absent p → p.getLast? = path.getLast? := by
    intro links
    induction links with
    | zero => exact fun dir path p => findWith_getLast fun _ _ _ h => by cases h
    | succ links ih => exact fun dir path p => findWith_getLast ih
  exact hlinks _ _ _ _ h

/-! ### The making of directories -/

/-- All that is new on a disk are directories, in places that were free. -/
def Grown (fs₁ : FileSystem) (d : Disk) : Prop := ∀ p, d.fs.get? p = fs₁.get? p ∨ fs₁.get? p = none ∧ d.fs.get? p = some .dir

theorem Grown.mkdir {fs₁ : FileSystem} (path : Path) : Keeps (Grown fs₁) (mkdir path) := by
  intro d h
  rw [mkdir_apply]
  cases hfind : find d.fs false path with
  | «at» p => exact h
  | failed e => exact h
  | absent p =>
    intro q
    rw [BTreeMap.get?_insert]
    split_ifs with heq
    · subst heq
      rcases h q with hold | ⟨hnone, -⟩
      · exact .inr ⟨by rw [← hold, find_absent hfind], rfl⟩
      · exact .inr ⟨hnone, rfl⟩
    · exact h q

/-- A directory above the root is there. -/
theorem Rooted.mkdir {root : Path} (h : Rooted root d.fs) (hhere : here ∉ path) (hup : up ∉ path) (hpath : path <+: root) :
    (mkdir path d).2 = d := by
  have hat : find d.fs false path = .at ([] ++ path) := findWith_rooted h hhere hup hpath
  rw [mkdir_apply, hat]

/-- The names of what is below a root stay good, when a directory with good names is made there. -/
theorem NamesBelow.mkdir {root tail : Path} {Good : Bytes → Prop} (hne : tail ≠ []) (hgood : ∀ c ∈ tail, Good c)
    (h : NamesBelow root Good d.fs) (hclosed : Closed d.fs) : NamesBelow root Good (mkdir (root ++ tail) d).2.fs := by
  rw [mkdir_apply]
  have hreal := hclosed.find_real false (root ++ tail)
  cases hfind : find d.fs false (root ++ tail) with
  | «at» p => exact h
  | failed e => exact h
  | absent p =>
    rw [hfind] at hreal
    obtain ⟨-, parent, c, hp, hparent⟩ := hreal
    -- the new directory has the last name of the path
    have hlast := find_getLast hfind
    rw [hp, List.getLast?_concat, List.getLast?_append, List.getLast?_eq_some_getLast hne, Option.some_or, Option.some_inj] at hlast
    intro r hget
    rw [BTreeMap.get?_insert] at hget
    split_ifs at hget with heq
    · rcases r.eq_nil_or_concat with rfl | ⟨r', c', rfl⟩
      · exact fun c hc => absurd hc List.not_mem_nil
      rw [List.concat_eq_append] at heq ⊢
      rw [← List.append_assoc, hp] at heq
      obtain ⟨hparents, hlasts⟩ := List.append_inj' heq rfl
      intro c'' hc''
      rcases List.mem_append.mp hc'' with hmem | hmem
      · -- and its parent was there
        refine h r' ?_ c'' hmem
        rw [hparents, ← nodeAt_of_ne fun hnil => ?_, hparent]
        · exact Option.some_ne_none _
        · rw [hnil] at hparents
          rw [(List.append_eq_nil_iff.mp hparents).2] at hmem
          exact absurd hmem List.not_mem_nil
      · rw [List.mem_singleton.mp hmem, List.singleton_inj.mp hlasts, hlast]
        exact hgood _ (List.getLast_mem hne)
    · exact h r hget

/-- What holds of a file system with a root and good names below it. -/
structure Housed (root : Path) (Good : Bytes → Prop) (fs : FileSystem) : Prop where
  rooted : Rooted root fs
  closed : Closed fs
  names : NamesBelow root Good fs

theorem Housed.insert {root q : Path} {Good : Bytes → Prop} (h : Housed root Good fs) (hq : ∀ c ∈ q, Good c)
    (hparent : ∃ r c, root ++ q = r ++ [c] ∧ nodeAt fs r = some .dir) (hnode : nodeAt fs (root ++ q) ≠ some .dir) (node : Node) :
    Housed root Good (fs.insert (root ++ q) node) := by
  obtain ⟨r, c, hr, hdir⟩ := hparent
  refine ⟨fun p hp hne => ?_, h.closed.insert hr hdir hnode node, h.names.insert hq node⟩
  have hold := h.rooted p hp hne
  have hpq : p ≠ root ++ q := fun heq => hnode (by rw [← heq, nodeAt_of_ne hne, hold])
  rw [BTreeMap.get?_insert, if_neg hpq]
  exact hold

theorem Housed.erase {root p : Path} {Good : Bytes → Prop} (h : Housed root Good fs) (hnode : nodeAt fs p ≠ some .dir) :
    Housed root Good (fs.erase p) := by
  refine ⟨fun p' hp hne => ?_, h.closed.erase hnode, h.names.erase⟩
  have hold := h.rooted p' hp hne
  have hpq : p' ≠ p := fun heq => hnode (by rw [← heq, nodeAt_of_ne hne, hold])
  rw [BTreeMap.get?_erase, if_neg hpq]
  exact hold

theorem Grown.rooted {fs₁ : FileSystem} {root : Path} (h : Grown fs₁ d) (hrooted : Rooted root fs₁) : Rooted root d.fs := fun p hp hne => by
  rcases h p with hold | ⟨-, hnew⟩
  · rw [hold]
    exact hrooted p hp hne
  · exact hnew

/-- Directories with good names are made below the root, and nothing else is changed. -/
theorem Housed.createDirAll {fs₁ : FileSystem} {root tail : Path} {Good : Bytes → Prop} (hhere : here ∉ root) (hup : up ∉ root)
    (hgood : ∀ c ∈ tail, Good c) (hpath : path <+: root ++ tail) :
    Keeps (fun d => Housed root Good d.fs ∧ Grown fs₁ d) (createDirAll path) := by
  refine createDirAll_keeps fun q hq d ⟨hhoused, hgrown⟩ => ?_
  have hgrown' := Grown.mkdir q d hgrown
  rcases List.prefix_or_prefix_of_prefix (hq.trans hpath) (List.prefix_append root tail) with habove | ⟨rest, hrest⟩
  · rw [hhoused.rooted.mkdir (fun hmem => hhere (habove.subset hmem)) (fun hmem => hup (habove.subset hmem)) habove]
    exact ⟨hhoused, hgrown⟩
  by_cases hnil : rest = []
  · rw [hnil, List.append_nil] at hrest
    rw [← hrest, hhoused.rooted.mkdir hhere hup (List.prefix_refl root)]
    exact ⟨hhoused, hgrown⟩
  have hsub : rest <+: tail := by
    have hall := hq.trans hpath
    rwa [← hrest, List.prefix_append_right_inj] at hall
  have hmade : Grown d.fs (mkdir q d).2 := Grown.mkdir q d fun p => .inl rfl
  refine ⟨⟨hmade.rooted hhoused.rooted, Closed.mkdir q d hhoused.closed, ?_⟩, hgrown'⟩
  rw [← hrest]
  exact NamesBelow.mkdir hnil (fun c hc => hgood c (hsub.subset hc)) hhoused.names hhoused.closed

/-! ### Straight paths -/

/-- A path that is written out and crosses no symlink. -/
structure Straight (fs : FileSystem) (path : Path) : Prop where
  noHere : here ∉ path
  noUp : up ∉ path
  noLink : ∀ q, q <+: path → q ≠ [] → q ≠ path → ∀ text, fs.get? q ≠ some (.symlink text)

/-- What a search on a straight path ends with lies at the path. -/
theorem Straight.find_eq (h : Straight fs path) {follow : Bool} {p : Path}
    (hlast : follow = true → ∀ text, fs.get? path ≠ some (.symlink text))
    (hfind : find fs follow path = .at p ∨ find fs follow path = .absent p) : p = path := by
  refine findWith_straight h.noHere h.noUp (fun q _ hq hne hend text => ?_) hfind
  by_cases heq : q = path
  · rw [heq]
    exact hlast (hend heq) text
  · exact h.noLink q hq hne heq text

theorem writeFile_straight (h : Straight d.fs path) (hlast : ∀ text, d.fs.get? path ≠ some (.symlink text)) (hclosed : Closed d.fs)
    {content : Bytes} {u : Unit} (hok : (writeFile path content d).1 = .ok u) :
    nodeAt d.fs path ≠ some .dir ∧ (∃ q c, path = q ++ [c] ∧ nodeAt d.fs q = some .dir) ∧
      (writeFile path content d).2.fs = d.fs.insert path (written (d.fs.get? path) content) := by
  have hreal := hclosed.find_real true path
  rw [writeFile_apply] at hok ⊢
  cases hfind : find d.fs true path with
  | «at» p =>
    have hp := h.find_eq (fun _ => hlast) (.inl hfind)
    subst hp
    rw [hfind] at hok hreal
    dsimp only at hok ⊢
    by_cases hdir : nodeAt d.fs p = some .dir
    · rw [if_pos hdir] at hok
      cases hok
    · rw [if_neg hdir]
      exact ⟨hdir, hclosed.parent hdir hreal, rfl⟩
  | absent p =>
    have hp := h.find_eq (fun _ => hlast) (.inr hfind)
    subst hp
    rw [hfind] at hreal
    obtain ⟨hnone, q, c, hp, hq⟩ := hreal
    refine ⟨?_, ⟨q, c, hp, hq⟩, by rw [hnone]; rfl⟩
    rw [hp, nodeAt_concat, ← hp, hnone]
    exact (Option.some_ne_none _).symm
  | failed e =>
    rw [hfind] at hok
    cases hok

theorem unlink_straight (h : Straight d.fs path) :
    (unlink path d).2.fs = d.fs ∨ nodeAt d.fs path ≠ some .dir ∧ (unlink path d).2.fs = d.fs.erase path := by
  rw [unlink_apply]
  cases hfind : find d.fs false path with
  | «at» p =>
    have hp := h.find_eq (fun hfollow => by cases hfollow) (.inl hfind)
    subst hp
    dsimp only
    split_ifs with hdir
    · exact .inl rfl
    · exact .inr ⟨hdir, rfl⟩
  | absent p => exact .inl rfl
  | failed e => exact .inl rfl

theorem symlink_straight (h : Straight d.fs path) (hclosed : Closed d.fs) {target : Bytes} {u : Unit}
    (hok : (symlink target path d).1 = .ok u) :
    d.fs.get? path = none ∧ (∃ q c, path = q ++ [c] ∧ nodeAt d.fs q = some .dir) ∧
      (symlink target path d).2.fs = d.fs.insert path (.symlink target) := by
  have hreal := hclosed.find_real false path
  rw [symlink_apply] at hok ⊢
  by_cases hempty : target = []
  · rw [if_pos hempty] at hok
    cases hok
  rw [if_neg hempty] at hok ⊢
  cases hfind : find d.fs false path with
  | «at» p =>
    rw [hfind] at hok
    cases hok
  | absent p =>
    have hp := h.find_eq (fun hfollow => by cases hfollow) (.inr hfind)
    subst hp
    rw [hfind] at hreal
    obtain ⟨hnone, hparent⟩ := hreal
    exact ⟨hnone, hparent, rfl⟩
  | failed e =>
    rw [hfind] at hok
    cases hok

/-- In a closed file system a file is found where its path says. -/
theorem findWith_file {onLink : Path → Path → Found} {follow : Bool} (hclosed : Closed fs) {path dir : Path} (hhere : here ∉ path)
    (hup : up ∉ path) (hne : path ≠ []) {executable : Bool} {content : Bytes}
    (hfile : fs.get? (dir ++ path) = some (.file executable content)) : findWith fs follow onLink dir path = .at (dir ++ path) := by
  induction path generalizing dir with
  | nil => exact absurd rfl hne
  | cons c rest ih =>
    obtain ⟨hc, hhere⟩ := not_or.mp fun h => hhere (List.mem_cons.mpr h)
    obtain ⟨hc', hup⟩ := not_or.mp fun h => hup (List.mem_cons.mpr h)
    have hpath : dir ++ c :: rest = dir ++ [c] ++ rest := by simp
    rw [findWith, if_neg (Ne.symm hc), if_neg (Ne.symm hc')]
    rw [hpath] at hfile ⊢
    by_cases hrest : rest = []
    · rw [hrest, List.append_nil] at hfile ⊢
      rw [hfile]
      rfl
    · have hdir := hclosed.of_prefix hrest (by rw [hfile]; exact Option.some_ne_none _)
      rw [nodeAt_concat] at hdir
      rw [hdir]
      exact ih hhere hup hrest hfile

theorem readFile_straight (hclosed : Closed d.fs) (hhere : here ∉ path) (hup : up ∉ path) (hne : path ≠ []) {executable : Bool}
    {content : Bytes} (hfile : d.fs.get? path = some (.file executable content)) :
    (readFile path d).1 = .ok content ∧ (readFile path d).2.fs = d.fs := by
  have hfind : find d.fs true path = .at ([] ++ path) := findWith_file hclosed hhere hup hne hfile
  rw [List.nil_append] at hfind
  rw [readFile, hfind]
  dsimp only
  rw [hfile]
  exact ⟨rfl, rfl⟩

end Milpa.Posix
