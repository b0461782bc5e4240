import Milpa.Core.SafeExtract

/-!
# What an extraction touches

The guards of `extract_tar` compare texts, while the system follows the symlinks that the
archive has made. As long as each symlink has its `..`s at the beginning of its text, and
with any is made where its name says, all symlinks are tame and the extraction touches
nothing outside of the destination (`extractTar_contained`). An archive with another
symlink can leave it (`evil_escapes`).
-/

namespace Milpa.Core.SafeExtract

open Posix Program
open DagIdentity (textBytes)

/-! ### Normal paths -/

/-- A path without `.`, and with `..` at most as its first name. -/
structure Normal (path : Path) : Prop where
  noHere : here ∉ path
  noUp : up ∉ path.tail

theorem Normal.step {out : Path} (h : Normal out) (c : Bytes) : Normal (normalizeStep out c) := by
  rw [normalizeStep]
  by_cases hup : c = up
  · rw [if_pos hup]
    split_ifs
    · exact ⟨by decide, by decide⟩
    · refine ⟨fun hmem => h.noHere (List.dropLast_subset out hmem), fun hmem => h.noUp ?_⟩
      rw [List.tail_dropLast] at hmem
      exact List.dropLast_subset _ hmem
  rw [if_neg hup]
  split_ifs with hhere
  · exact h
  · refine ⟨by simpa [Ne.symm hhere] using h.noHere, ?_⟩
    cases out with
    | nil => exact List.not_mem_nil
    | cons a tail => simpa [Ne.symm hup] using h.noUp

theorem normalizeLexical_normal (path : Path) : Normal (normalizeLexical path) := by
  have hfold : ∀ out, Normal out → Normal (path.foldl normalizeStep out) := by
    induction path with
    | nil => exact fun out h => h
    | cons c path ih => exact fun out h => ih _ (h.step c)
  exact hfold [] ⟨List.not_mem_nil, List.not_mem_nil⟩

/-- Below a root without `..` there is none. -/
theorem Normal.up_notMem {root path : Path} (h : Normal path) (hroot : root <+: path) (hne : root ≠ []) (hup : up ∉ root) :
    up ∉ path := by
  obtain ⟨c, tail, hcons⟩ := List.exists_cons_of_ne_nil hne
  obtain ⟨rest, hrest⟩ := hroot
  rw [hcons, List.cons_append] at hrest
  rw [← hrest, List.mem_cons, not_or]
  refine ⟨fun heq => hup (by rw [heq, hcons]; exact List.mem_cons_self), ?_⟩
  have htail := h.noUp
  rwa [← hrest] at htail

theorem foldl_plain {rest : Path} (hup : up ∉ rest) (out : Path) :
    rest.foldl normalizeStep out = out ++ rest.filter fun c => c ≠ here := by
  induction rest generalizing out with
  | nil => exact (List.append_nil out).symm
  | cons c rest ih =>
    obtain ⟨hc, hrest⟩ := not_or.mp fun h => hup (List.mem_cons.mpr h)
    rw [List.foldl_cons, ih hrest, normalizeStep, if_neg (Ne.symm hc)]
    by_cases hhere : c = here
    · simp [hhere]
    · simp [hhere]

theorem normalizeLexical_plain {path : Path} (hhere : here ∉ path) (hup : up ∉ path) : normalizeLexical path = path := by
  have hall : ∀ c ∈ path, decide (c ≠ here) = true := fun c hc => decide_eq_true fun heq => hhere (heq ▸ hc)
  rw [normalizeLexical, foldl_plain hup, List.nil_append, List.filter_eq_self.mpr hall]

/-- `..`s at the beginning climb, in the text as in the tree; in the text they can leave the root. -/
theorem foldl_ups {ups : Path} (hups : ∀ c ∈ ups, c = up ∨ c = here) {out dir : Path}
    (h : out = dir ∨ out = [up] ∧ dir = []) :
    ups.foldl normalizeStep out = climb dir ups ∨ ups.foldl normalizeStep out = [up] ∧ climb dir ups = [] := by
  induction ups generalizing out dir with
  | nil => exact h
  | cons c ups ih =>
    obtain ⟨hc, htail⟩ := List.forall_mem_cons.mp hups
    refine ih htail ?_
    dsimp only [normalizeStep]
    rcases hc with rfl | rfl
    · rw [if_pos rfl, if_pos rfl]
      rcases h with rfl | ⟨rfl, rfl⟩
      · split_ifs with hnil
        · exact .inr ⟨rfl, by rw [hnil]; rfl⟩
        · exact .inl rfl
      · exact .inl rfl
    · rw [if_neg (by decide), if_pos rfl, if_neg (by decide)]
      exact h

/-! ### Symlinks that fit -/

/-- `..`, or `.`. -/
def isDots (c : Bytes) : Bool := decide (c = up ∨ c = here)

/-- A symlink that is there. -/
def isLink (node : Option Node) : Bool :=
  match node with
  | some (.symlink _) => true
  | _ => false

/-- The `..`s of a text are at its beginning, and with any of them no directory of the link, below the root, is a symlink. -/
def LinkFits (fs : FileSystem) (root target : Path) (text : Bytes) : Prop :=
  up ∉ (names text).dropWhile isDots ∧
    (up ∈ names text → isAbsolute text = false → ∀ q ∈ target.dropLast.inits, root <+: q → q ≠ root → isLink (fs.get? q) = false)

instance (fs : FileSystem) (root target : Path) (text : Bytes) : Decidable (LinkFits fs root target text) :=
  inferInstanceAs (Decidable (_ ∧ _))

/-- The check of the text of a link says where its `..`s lead from the directory that the check looks at. -/
theorem tame_of_check {root dir : Path} {text : Bytes} (hne : root ≠ []) (hup : up ∉ root) (hdirHere : here ∉ dir) (hdirUp : up ∉ dir)
    (hfirst : up ∉ (names text).dropWhile isDots)
    (hcheck : root <+: normalizeLexical (joinText dir text)) : Tame root dir text := by
  have hups : ∀ c ∈ (names text).takeWhile isDots, c = up ∨ c = here :=
    fun c hc => of_decide_eq_true (List.mem_takeWhile_imp (p := isDots) hc)
  have hsplit : (names text).takeWhile isDots ++ (names text).dropWhile isDots = names text := List.takeWhile_append_dropWhile
  refine ⟨_, _, hsplit.symm, hups, hfirst, ?_⟩
  -- an absolute text is looked at from the root on
  generalize hbase : (if isAbsolute text then [] else dir : Path) = base
  have hplain : normalizeLexical base = base := by
    rw [← hbase]
    split_ifs
    · rfl
    · exact normalizeLexical_plain hdirHere hdirUp
  have hjoin : joinText dir text = base ++ names text := by
    rw [← hbase, joinText]
    split_ifs <;> rfl
  rw [hjoin, ← hsplit, normalizeLexical, List.foldl_append, List.foldl_append, foldl_plain hfirst] at hcheck
  rw [normalizeLexical] at hplain
  rw [hplain] at hcheck
  rcases foldl_ups hups (.inl rfl : base = base ∨ base = [up] ∧ base = []) with heq | ⟨heq, -⟩
  · rwa [heq] at hcheck
  · rw [heq] at hcheck
    obtain ⟨c, tail, hcons⟩ := List.exists_cons_of_ne_nil hne
    rw [hcons, List.singleton_append] at hcheck
    have hc : c = up := (List.cons_prefix_cons.mp hcheck).1
    exact absurd (by rw [hcons, hc]; exact List.mem_cons_self) hup

/-- A text without `..` is tame wherever the link is made. -/
theorem tame_of_noUp {root dir : Path} {text : Bytes} (hup : up ∉ names text) (habs : isAbsolute text = false) (hdir : root <+: dir) :
    Tame root dir text := by
  refine ⟨[], names text, rfl, fun c hc => absurd hc List.not_mem_nil, hup, ?_⟩
  rw [if_neg (by rw [habs]; decide)]
  exact hdir.trans (List.prefix_append _ _)

/-- What an absolute text leads to does not depend on where the link is. -/
theorem tame_of_absolute {root dir dir' : Path} {text : Bytes} (habs : isAbsolute text = true) (h : Tame root dir text) :
    Tame root dir' text := by
  obtain ⟨ups, rest, hnames, hups, hup, hlead⟩ := h
  refine ⟨ups, rest, hnames, hups, hup, ?_⟩
  rw [if_pos habs] at hlead ⊢
  exact hlead

/-! ### Rejections -/

section Rejections

variable {α β : Type} {P Q : Disk → Prop} {c : Prop} [Decidable c] {e : ExtractError} {d : Disk}

theorem reject_ok (hc : ¬ c) (f : Unit → Extract β) (d : Disk) : (reject c e >>= f) d = f () d := by
  rw [reject, if_neg hc]
  rfl

theorem reject_error (hc : c) (f : Unit → Extract β) (d : Disk) : (reject c e >>= f) d = (.error e, d) := by
  rw [reject, if_pos hc]
  rfl

/-- A program after a check. -/
theorem reject_keeps {f : Unit → Extract β} (hf : ¬ c → Keeps P (f ())) : Keeps P (reject c e >>= f) := by
  intro d hd
  by_cases hc : c
  · rw [reject_error hc]
    exact hd
  · rw [reject_ok hc]
    exact hf hc d hd

/-- Programs in a row, of which the second keeps less than the first. -/
theorem bind_leads {m : Extract α} {f : α → Extract β} (hm : Keeps P m) (hPQ : ∀ d, P d → Q d) (hf : ∀ a d, P d → Q (f a d).2) :
    ∀ d, P d → Q ((m >>= f) d).2 := by
  intro d hd
  cases h : (m d).1 with
  | error e =>
    rw [bind_error h]
    exact hPQ _ (hm d hd)
  | ok a =>
    rw [bind_ok h]
    exact hf a _ (hm d hd)

theorem bind_eq_ok {m : Extract α} {f : α → Extract β} {b : β} (h : ((m >>= f) d).1 = .ok b) :
    ∃ a, (m d).1 = .ok a ∧ (f a (m d).2).1 = .ok b := by
  cases hm : (m d).1 with
  | error e =>
    rw [bind_error hm] at h
    cases h
  | ok a =>
    rw [bind_ok hm] at h
    exact ⟨a, rfl, h⟩

end Rejections

/-! ### Extractions -/

section Contained

variable {destRoot : Path} {strip : ℕ} {limits : Limits} {fs₀ : FileSystem} {P : Disk → Prop}

theorem countFile_keeps (p : Progress) : Keeps P (countFile limits p) := reject_keeps fun _ => Keeps.pure _

theorem countBytes_keeps (p : Progress) (size : ℕ) : Keeps P (countBytes limits p size) := reject_keeps fun _ => Keeps.pure _

/-- A path that the first pass writes to. -/
structure Target (destRoot target : Path) : Prop where
  below : destRoot <+: target
  noHere : here ∉ target
  noUp : up ∉ target

theorem Target.towards {target : Path} (h : Target destRoot target) : Towards destRoot target := ⟨h.noHere, h.noUp, .inl h.below⟩

theorem Target.parent {target : Path} (h : Target destRoot target) : Towards destRoot target.dropLast :=
  h.towards.of_prefix (List.dropLast_prefix target)

/-- What normalisation gives is such a path, if it begins with the destination. -/
theorem targetOf_target (hne : destRoot ≠ []) (hup : up ∉ destRoot) {stripped : Path}
    (hstart : startsWith (targetOf destRoot stripped) destRoot = true) : Target destRoot (targetOf destRoot stripped) :=
  have hbelow : destRoot <+: targetOf destRoot stripped := List.isPrefixOf_iff_prefix.mp hstart
  have hnormal : Normal (targetOf destRoot stripped) := normalizeLexical_normal _
  ⟨hbelow, hnormal.noHere, hnormal.up_notMem hbelow hne hup⟩

theorem createParent_keeps {name : Bytes} {target : Path} (h : Target destRoot target) :
    Keeps (Confined destRoot fs₀) (createParent name target) := by
  rw [createParent]
  split_ifs
  · exact Keeps.pure _
  · exact (Confined.createDirAll h.parent).mapError

theorem createParent_linksIn {fs₁ : FileSystem} (name : Bytes) (target : Path) : Keeps (LinksIn fs₁) (createParent name target) := by
  rw [createParent]
  split_ifs
  · exact Keeps.pure _
  · exact (LinksIn.createDirAll _).mapError

/-- Where no directory of a target, below the destination, is a symlink, a free name is found at the target. -/
theorem find_straight {d : Disk} {fs₁ : FileSystem} {target p : Path} (h : Confined destRoot fs₀ d) (hlinks : LinksIn fs₁ d)
    (htarget : Target destRoot target)
    (hstraight : ∀ q ∈ target.dropLast.inits, destRoot <+: q → q ≠ destRoot → isLink (fs₁.get? q) = false)
    (hfind : find d.fs false target = .absent p) : p = target := by
  refine findWith_straight htarget.noHere htarget.noUp (fun q _ hq hne hlast text hget => ?_) (.inr hfind)
  rw [List.nil_append] at hq hlast
  have hold := hlinks q text hget
  rcases List.prefix_or_prefix_of_prefix htarget.below hq with hroot | hroot
  · by_cases heq : q = destRoot
    · rw [h.rooted q (by rw [heq]) hne] at hget
      cases hget
    · have hparent : q <+: target.dropLast := prefix_dropLast hq fun hself => by cases hlast hself
      have hno := hstraight q ((List.mem_inits q _).mpr hparent) hroot heq
      rw [hold] at hno
      cases hno
  · rw [h.rooted q hroot hne] at hget
    cases hget

/-- The symlink of an entry that fits is tame wherever it is made. -/
theorem LinkFits.tame {fs₁ : FileSystem} {d : Disk} {target : Path} {text : Bytes} (hne : destRoot ≠ []) (hup : up ∉ destRoot)
    (hfits : LinkFits fs₁ destRoot target text) (htarget : Target destRoot target)
    (hcheck : startsWith (normalizeLexical (joinText (linkDir destRoot target) text)) destRoot = true)
    (h : Confined destRoot fs₀ d) (hlinks : LinksIn fs₁ d) {dir : Path} {c : Bytes}
    (hfind : find d.fs false target = .absent (dir ++ [c])) (hdir : destRoot <+: dir) : Tame destRoot dir text := by
  have hnil : target ≠ [] := fun heq => hne (List.prefix_nil.mp (heq ▸ htarget.below))
  rw [linkDir, if_neg hnil] at hcheck
  have hsubset := List.dropLast_subset target
  have htame : Tame destRoot target.dropLast text :=
    tame_of_check hne hup (fun hmem => htarget.noHere (hsubset hmem)) (fun hmem => htarget.noUp (hsubset hmem)) hfits.1
      (List.isPrefixOf_iff_prefix.mp hcheck)
  by_cases habs : isAbsolute text = true
  · exact tame_of_absolute habs htame
  rw [Bool.not_eq_true] at habs
  by_cases hups : up ∈ names text
  · have hexact : dir ++ [c] = target := find_straight h hlinks htarget (hfits.2 hups habs) hfind
    rwa [← hexact, List.dropLast_concat] at htame
  · exact tame_of_noUp hups habs hdir

theorem extractSymlink_confined {p : Progress} {entry : TarEntry} {target : Path} (hne : destRoot ≠ []) (hup : up ∉ destRoot)
    (htarget : Target destRoot target) {d : Disk} (hfits : LinkFits d.fs destRoot target entry.linkname) (h : Confined destRoot fs₀ d) :
    Confined destRoot fs₀ (extractSymlink destRoot limits p entry target d).2 := by
  rw [extractSymlink]
  by_cases hcheck : startsWith (normalizeLexical (joinText (linkDir destRoot target) entry.linkname)) destRoot = false
  · rw [reject_error hcheck]
    exact h
  rw [reject_ok hcheck]
  rw [Bool.not_eq_false] at hcheck
  -- until the link is made, the symlinks are the ones from before
  refine bind_leads (P := fun d' => Confined destRoot fs₀ d' ∧ LinksIn d.fs d')
    (fun d' hd' => ⟨createParent_keeps htarget d' hd'.1, createParent_linksIn _ _ d' hd'.2⟩) (fun _ hd' => hd'.1) (fun _ => ?_) d
    ⟨h, fun _ _ hget => hget⟩
  refine bind_leads (m := (unlink target).ignore)
    (fun d' hd' => ⟨hd'.1.unlink htarget.below htarget.noHere htarget.noUp, LinksIn.unlink _ d' hd'.2⟩) (fun _ hd' => hd'.1)
    fun _ d' hd' => ?_
  have hlink : Confined destRoot fs₀ ((Posix.symlink entry.linkname target).mapError (ExtractError.io entry.name) d').2 :=
    hd'.1.symlink htarget.below htarget.noHere htarget.noUp fun dir c hfind hdir =>
      hfits.tame hne hup htarget hcheck hd'.1 hd'.2 hfind hdir
  cases hr : ((Posix.symlink entry.linkname target).mapError (ExtractError.io entry.name) d').1 with
  | error e =>
    rw [bind_error hr]
    exact hlink
  | ok _ =>
    rw [bind_ok hr]
    exact countFile_keeps _ _ hlink

theorem writeFile_keeps {name : Bytes} {target : Path} {content : Bytes} (h : Target destRoot target) :
    Keeps (Confined destRoot fs₀) ((writeFile target content).mapError (ExtractError.io name)) :=
  Keeps.mapError fun _ hd => hd.writeFile h.below h.noHere h.noUp

theorem extractFile_keeps {p : Progress} {entry : TarEntry} {target : Path} (htarget : Target destRoot target) :
    Keeps (Confined destRoot fs₀) (extractFile limits p entry target) :=
  reject_keeps fun _ => (countBytes_keeps _ _).bind fun _ => (countFile_keeps _).bind fun _ =>
    (createParent_keeps htarget).bind fun _ => (writeFile_keeps htarget).bind fun _ => Keeps.pure _

/-- The symlink of an entry fits, where the entry is one. -/
def EntryFits (destRoot : Path) (strip : ℕ) (fs : FileSystem) (entry : TarEntry) : Prop :=
  entry.kind = .symlink → ∀ stripped ∈ stripName strip entry.name, LinkFits fs destRoot (targetOf destRoot stripped) entry.linkname

instance (destRoot : Path) (strip : ℕ) (fs : FileSystem) (entry : TarEntry) : Decidable (EntryFits destRoot strip fs entry) :=
  inferInstanceAs (Decidable (_ → ∀ _ ∈ _, _))

/-- Every entry fits in the state that the first pass has reached before it. -/
def RunFits (destRoot : Path) (strip : ℕ) (limits : Limits) : List TarEntry → Progress → Disk → Prop
  | [], _, _ => True
  | entry :: rest, p, d => EntryFits destRoot strip d.fs entry ∧
    match extractEntry destRoot strip limits p entry d with
    | (.ok p', d') => RunFits destRoot strip limits rest p' d'
    | (.error _, _) => True

instance decidableRunFits (destRoot : Path) (strip : ℕ) (limits : Limits) :
    ∀ entries p d, Decidable (RunFits destRoot strip limits entries p d)
  | [], _, _ => .isTrue trivial
  | entry :: rest, p, d =>
    have : Decidable (match extractEntry destRoot strip limits p entry d with
        | (.ok p', d') => RunFits destRoot strip limits rest p' d'
        | (.error _, _) => True) :=
      match extractEntry destRoot strip limits p entry d with
      | (.ok p', d') => decidableRunFits destRoot strip limits rest p' d'
      | (.error _, _) => .isTrue trivial
    inferInstanceAs (Decidable (_ ∧ _))

/-- The hardlinks that wait have targets below the destination. -/
def Waiting (destRoot : Path) (p : Progress) : Prop := ∀ hl ∈ p.hardlinks, Target destRoot hl.target

theorem countFile_hardlinks {p p' : Progress} {d : Disk} (h : (countFile limits p d).1 = .ok p') : p'.hardlinks = p.hardlinks := by
  obtain ⟨_, _, h⟩ := bind_eq_ok h
  cases h
  rfl

theorem countBytes_hardlinks {p p' : Progress} {size : ℕ} {d : Disk} (h : (countBytes limits p size d).1 = .ok p') :
    p'.hardlinks = p.hardlinks := by
  obtain ⟨_, _, h⟩ := bind_eq_ok h
  cases h
  rfl

theorem extractSymlink_hardlinks {p p' : Progress} {entry : TarEntry} {target : Path} {d : Disk}
    (h : (extractSymlink destRoot limits p entry target d).1 = .ok p') : p'.hardlinks = p.hardlinks := by
  obtain ⟨_, _, h⟩ := bind_eq_ok h
  obtain ⟨_, _, h⟩ := bind_eq_ok h
  obtain ⟨_, _, h⟩ := bind_eq_ok h
  obtain ⟨_, _, h⟩ := bind_eq_ok h
  exact countFile_hardlinks h

theorem extractFile_hardlinks {p p' : Progress} {entry : TarEntry} {target : Path} {d : Disk}
    (h : (extractFile limits p entry target d).1 = .ok p') : p'.hardlinks = p.hardlinks := by
  obtain ⟨_, _, h⟩ := bind_eq_ok h
  obtain ⟨p₁, hbytes, h⟩ := bind_eq_ok h
  obtain ⟨p₂, hfile, h⟩ := bind_eq_ok h
  obtain ⟨_, _, h⟩ := bind_eq_ok h
  obtain ⟨_, _, h⟩ := bind_eq_ok h
  cases h
  rw [countFile_hardlinks hfile, countBytes_hardlinks hbytes]

/-- One entry of the first pass keeps the extraction confined, and a hardlink that is put off has a target below the destination. -/
theorem extractEntry_confined (limits : Limits) (p : Progress) {entry : TarEntry} (hne : destRoot ≠ []) (hup : up ∉ destRoot) {d : Disk}
    (hfits : EntryFits destRoot strip d.fs entry) (h : Confined destRoot fs₀ d) (hwaiting : Waiting destRoot p) :
    Confined destRoot fs₀ (extractEntry destRoot strip limits p entry d).2 ∧
      ∀ p', (extractEntry destRoot strip limits p entry d).1 = .ok p' → Waiting destRoot p' := by
  rw [extractEntry]
  cases hstrip : stripName strip entry.name with
  | none => exact ⟨h, fun p' hp' => by cases hp'; exact hwaiting⟩
  | some stripped =>
    dsimp only
    rw [extractAt]
    by_cases hstart : startsWith (targetOf destRoot stripped) destRoot = false
    · rw [reject_error hstart]
      exact ⟨h, fun p' hp' => by cases hp'⟩
    rw [reject_ok hstart]
    rw [Bool.not_eq_false] at hstart
    have htarget := targetOf_target hne hup hstart
    cases hkind : entry.kind with
    | hardLink =>
      refine ⟨h, fun p' hp' => ?_⟩
      cases hp'
      intro hl hmem
      rcases List.mem_append.mp hmem with hmem | hmem
      · exact hwaiting hl hmem
      · rw [List.mem_singleton.mp hmem]
        exact htarget
    | symlink =>
      refine ⟨extractSymlink_confined hne hup htarget (hfits hkind stripped hstrip) h, fun p' hp' => ?_⟩
      rw [Waiting, extractSymlink_hardlinks hp']
      exact hwaiting
    | dir =>
      have hkeeps : Keeps (Confined destRoot fs₀)
          ((createDirAll (targetOf destRoot stripped)).mapError (.io entry.name) >>= fun _ => (pure p : Extract Progress)) :=
        (Confined.createDirAll htarget.towards).mapError.bind fun _ => Keeps.pure p
      refine ⟨hkeeps d h, fun p' hp' => ?_⟩
      obtain ⟨_, _, hp'⟩ := bind_eq_ok hp'
      cases hp'
      exact hwaiting
    | file =>
      refine ⟨extractFile_keeps htarget d h, fun p' hp' => ?_⟩
      rw [Waiting, extractFile_hardlinks hp']
      exact hwaiting
    | other => exact ⟨h, fun p' hp' => by cases hp'; exact hwaiting⟩

/-- The first pass keeps the extraction confined, by induction on the entries that are left. -/
theorem firstPass_confined (limits : Limits) {entries : List TarEntry} {p : Progress} (hne : destRoot ≠ []) (hup : up ∉ destRoot) {d : Disk}
    (hfits : RunFits destRoot strip limits entries p d) (h : Confined destRoot fs₀ d) (hwaiting : Waiting destRoot p) :
    Confined destRoot fs₀ (firstPass destRoot strip limits entries p d).2 ∧
      ∀ p', (firstPass destRoot strip limits entries p d).1 = .ok p' → Waiting destRoot p' := by
  induction entries generalizing p d with
  | nil => exact ⟨h, fun p' hp' => by cases hp'; exact hwaiting⟩
  | cons entry rest ih =>
    obtain ⟨hentry, hrest⟩ := hfits
    obtain ⟨hconfined, hwaits⟩ := extractEntry_confined limits p hne hup hentry h hwaiting
    rw [firstPass]
    cases hr : extractEntry destRoot strip limits p entry d with
    | mk r d' =>
      rw [hr] at hrest hconfined hwaits
      cases r with
      | error e =>
        rw [bind_error (by rw [hr]), hr]
        exact ⟨hconfined, fun p' hp' => by cases hp'⟩
      | ok p' =>
        rw [bind_ok (by rw [hr]), hr]
        exact ih hrest hconfined (hwaits p' rfl)

theorem readFile_keeps {name linkname : Bytes} {target : Path} (h : Target destRoot target) :
    Keeps (Confined destRoot fs₀) ((readFile target).mapError (ExtractError.hardlinkUnread name linkname)) :=
  Keeps.mapError fun _ hd => hd.readFile h.below h.noHere h.noUp

theorem extractHardlink_keeps {p : Progress} {hl : PendingHardlink} (hne : destRoot ≠ []) (hup : up ∉ destRoot)
    (htarget : Target destRoot hl.target) : Keeps (Confined destRoot fs₀) (extractHardlink destRoot strip limits p hl) := by
  refine (Keeps.ofExcept _).bind fun stripped => reject_keeps fun hstart => ?_
  have hsource := targetOf_target hne hup ((Bool.not_eq_false _).mp hstart)
  exact (readFile_keeps hsource).bind fun _ => reject_keeps fun _ => (countBytes_keeps _ _).bind fun _ =>
    (countFile_keeps _).bind fun _ => (createParent_keeps htarget).bind fun _ => (writeFile_keeps htarget).bind fun _ => Keeps.pure _

theorem secondPass_keeps {hardlinks : List PendingHardlink} (hne : destRoot ≠ []) (hup : up ∉ destRoot)
    (htargets : ∀ hl ∈ hardlinks, Target destRoot hl.target) (p : Progress) :
    Keeps (Confined destRoot fs₀) (secondPass destRoot strip limits hardlinks p) := by
  induction hardlinks generalizing p with
  | nil => exact Keeps.pure p
  | cons hl rest ih =>
    obtain ⟨htarget, hrest⟩ := List.forall_mem_cons.mp htargets
    exact (extractHardlink_keeps hne hup htarget).bind fun p' => ih hrest p'

theorem extractTar_confined {tar : TarStream} {d : Disk} (hne : destRoot ≠ []) (hup : up ∉ destRoot)
    (hfits : RunFits destRoot strip limits tar.entries ⟨0, 0, []⟩ d) (h : Confined destRoot fs₀ d) :
    Confined destRoot fs₀ (extractTar destRoot strip limits tar d).2 := by
  obtain ⟨hconfined, hwaits⟩ := firstPass_confined limits hne hup hfits h fun hl hmem => absurd hmem List.not_mem_nil
  rw [extractTar]
  cases hr : (firstPass destRoot strip limits tar.entries ⟨0, 0, []⟩ d).1 with
  | error e =>
    rw [bind_error hr]
    exact hconfined
  | ok p =>
    rw [bind_ok hr]
    have hrest : Keeps (Confined destRoot fs₀) (secondPass destRoot strip limits p.hardlinks p >>= fun p' =>
        (pure (p'.fileCount, p'.totalBytes) : Extract (ℕ × ℕ))) :=
      (secondPass_keeps hne hup (hwaits p hr) p).bind fun _ => Keeps.pure _
    exact ((Keeps.ofExcept _).bind fun _ => hrest) _ hconfined

/-- **An extraction touches nothing outside of its destination, if every symlink of the archive fits when its turn comes.** -/
theorem extractTar_contained (tar : TarStream) {fs : FileSystem} (hup : up ∉ destRoot) (hrooted : Rooted destRoot fs)
    (htame : TameBelow destRoot fs) (hfits : RunFits destRoot strip limits tar.entries ⟨0, 0, []⟩ ⟨fs, []⟩) :
    (∀ p ∈ (extractTar destRoot strip limits tar ⟨fs, []⟩).2.touched, destRoot <+: p) ∧
      ∀ p, ¬ destRoot <+: p → (extractTar destRoot strip limits tar ⟨fs, []⟩).2.fs.get? p = fs.get? p := by
  by_cases hne : destRoot = []
  · subst hne
    exact ⟨fun _ _ => List.nil_prefix, fun _ hp => absurd List.nil_prefix hp⟩
  have hstart : Confined destRoot fs ⟨fs, []⟩ := ⟨hrooted, htame, fun p hp => absurd hp List.not_mem_nil, fun _ _ => rfl⟩
  have hend := extractTar_confined hne hup hfits hstart
  exact ⟨hend.touched, hend.outside⟩

end Contained

/-! ### Two archives -/

/-- The path `/pkg`. -/
def pkg : Path := [textBytes "pkg"]

/-- A disk with an empty directory `/pkg`. -/
def emptyPkg : FileSystem := BTreeMap.empty.insert pkg .dir

/-- An entry that is a symlink. -/
def symlinkEntry (name linkname : String)
    (h : isUtf8 (textBytes name) = true ∧ isUtf8 (textBytes linkname) = true := by decide) : TarEntry :=
  ⟨textBytes name, textBytes linkname, 0, .symlink, 0o777, [], h⟩

/-- An entry that is a file. -/
def fileEntry (name data : String) (mode : ℕ) (h : isUtf8 (textBytes name) = true := by decide) : TarEntry :=
  ⟨textBytes name, [], data.length, .file, mode, textBytes data, h, rfl⟩

/-- An entry that is a hardlink. -/
def hardLinkEntry (name linkname : String)
    (h : isUtf8 (textBytes name) = true ∧ isUtf8 (textBytes linkname) = true := by decide) : TarEntry :=
  ⟨textBytes name, textBytes linkname, 0, .hardLink, 0o644, [], h⟩

/-- A directory with a file, a symlink out of it and back, a file through that, and a hardlink to it. -/
def plainTar : TarStream :=
  ⟨[fileEntry "src/a" "alpha" 0o644, symlinkEntry "src/up" "../doc", symlinkEntry "doc" "src",
    fileEntry "src/up/b" "beta" 0o644, hardLinkEntry "c" "doc/b"], .ok ()⟩

theorem extractTar_contained_plain :
    ((extractTar pkg 0 .default plainTar ⟨emptyPkg, []⟩).2.touched.all fun p => pkg.isPrefixOf p) = true := by
  rw [List.all_eq_true]
  intro p hp
  rw [List.isPrefixOf_iff_prefix]
  refine (extractTar_contained plainTar (by decide) (fun p hp hne => ?_) (fun dir c text hdir hget => ?_) (by decide +kernel)).1 p hp
  · have heq : p = pkg := by
      rcases List.prefix_cons_iff.mp hp with rfl | ⟨tail, rfl, htail⟩
      · exact absurd rfl hne
      · rw [List.prefix_nil.mp htail]
        rfl
    rw [heq]
    decide
  · rw [emptyPkg, BTreeMap.get?_insert, BTreeMap.get?_empty] at hget
    split_ifs at hget
    cases hget

/-- Two symlinks that lead back to the destination, as far as their texts say; the second is made through the first. -/
def evilTar : TarStream := ⟨[symlinkEntry "x" ".", symlinkEntry "x/y" "..", fileEntry "y/evil" "boo" 0o644], .ok ()⟩

/-- The file is written outside of the destination, and the extraction succeeds. -/
theorem evil_escapes :
    let r := extractTar pkg 0 .default evilTar ⟨emptyPkg, []⟩
    r.1 = .ok (3, 3) ∧ ¬ pkg <+: [textBytes "evil"] ∧ [textBytes "evil"] ∈ r.2.touched ∧
      r.2.fs.get? [textBytes "evil"] = some (.file false (textBytes "boo")) := by
  decide

end Milpa.Core.SafeExtract
