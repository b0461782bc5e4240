import Milpa.Types.Sha256
import Mathlib.Data.List.TakeDrop
import Mathlib.Data.Set.Insert
import Mathlib.Logic.Function.Basic
import Mathlib.Logic.Relation

/-!
# The files of a project

The writes of `milpa.kdl` and `milpa.lock`: `write_manifest` and its copies in
`manifest_writer.rs`, and `write_lockfile` of `lockfile.rs`. Each writes a temporary file
beside the file and renames it. The one of the lockfile has the process in its name; the
one of the manifest has the same name for all. Here processes run on one project, and any
step of one may come between two steps of another; an operation may fail, and a process may
crash. What a reader sees is never torn in a run in which no process creates the temporary
manifest while another one is about to rename it (`files_whole`); in others it may be.
-/

namespace Milpa.Core.ProjectFiles

/-! ### The disk -/

/-- `milpa.kdl` and `milpa.lock`. -/
inductive Target where
  | manifest
  | lock
  deriving DecidableEq

/-- The names in the directory of the project. -/
inductive Name where
  | file (t : Target)
  /-- `milpa.kdl.tmp`. -/
  | manifestTemp
  /-- `milpa.lock.tmp.<pid>`. -/
  | lockTemp (pid : ℕ)
  deriving DecidableEq

/-- The temporary file of a process. -/
def tempName (pid : ℕ) : Target → Name
  | .manifest => .manifestTemp
  | .lock => .lockTemp pid

/-- A directory: a name leads to a file by its number, and an open file stays there without a name. -/
structure Disk where
  dir : Name → Option ℕ
  content : ℕ → Bytes
  fresh : ℕ

namespace Disk

/-- What a name shows. -/
def text (d : Disk) (n : Name) : Option Bytes := (d.dir n).map d.content

/-- `File::create`: a file that is there is emptied. -/
def create (d : Disk) (n : Name) : ℕ × Disk :=
  match d.dir n with
  | some i => (i, { d with content := Function.update d.content i [] })
  | none => (d.fresh, ⟨Function.update d.dir n (some d.fresh), Function.update d.content d.fresh [], d.fresh + 1⟩)

/-- Bytes at an offset; a gap before them is filled with zeros. -/
def overwrite (old : Bytes) (offset : ℕ) (piece : Bytes) : Bytes :=
  old.takeD offset 0 ++ piece ++ old.drop (offset + piece.length)

/-- `write`. -/
def write (d : Disk) (i offset : ℕ) (piece : Bytes) : Disk :=
  { d with content := Function.update d.content i (overwrite (d.content i) offset piece) }

/-- `rename`; `none` where there is nothing to rename. -/
def rename (d : Disk) (source target : Name) : Option Disk :=
  (d.dir source).map fun i => { d with dir := Function.update (Function.update d.dir source none) target (some i) }

/-- `remove_file`. -/
def remove (d : Disk) (n : Name) : Disk := { d with dir := Function.update d.dir n none }

end Disk

/-! ### The verbs -/

/-- What `parse_document` gives. -/
inductive Document (Manifest Workspace : Type) where
  | package (m : Manifest)
  | workspace (w : Workspace)

/-- A verb: the files that it writes one after the other, from the manifest that it has read; `none` where it refuses. -/
abbrev Verb := Bytes → Option (List (Target × Bytes))

section Verbs

variable {Manifest Workspace : Type} (parse : Bytes → Option (Document Manifest Workspace))

/-- `mutate_manifest_file`. -/
def mutateManifestFile (format : Manifest → Bytes) (mutator : Manifest → Manifest) : Verb := fun text =>
  match parse text with
  | some (.package m) => some [(.manifest, format (mutator m))]
  | _ => none

/-- `mutate_workspace_manifest_file`. -/
def mutateWorkspaceManifestFile (format : Workspace → Bytes) (mutator : Workspace → Workspace) : Verb := fun text =>
  match parse text with
  | some (.workspace w) => some [(.manifest, format (mutator w))]
  | _ => none

/-- `apply_workspace_manifest_change`: it resolves before it writes, which gives the text of the lockfile. -/
def applyWorkspaceManifestChange (format : Workspace → Bytes) (mutate : Workspace → Workspace) (resolve : Workspace → Option Bytes) :
    Verb := fun text =>
  match parse text with
  | some (.workspace w) => (resolve (mutate w)).map fun lock => [(.manifest, format (mutate w)), (.lock, lock)]
  | _ => none

end Verbs

/-! ### Processes -/

/-- Where a process is. -/
inductive Phase where
  | open (t : Target)
  | read (t : Target) (fd : ℕ) (got : Bytes)
  /-- What was read. -/
  | seen (t : Target) (text : Bytes)
  | create (t : Target) (text : Bytes) (rest : List (Target × Bytes))
  /-- In `std::fs::write`, after so many bytes. -/
  | write (t : Target) (fd : ℕ) (text : Bytes) (written : ℕ) (rest : List (Target × Bytes))
  | rename (t : Target) (text : Bytes) (rest : List (Target × Bytes))
  /-- Before `remove_file`, on the way to an error. -/
  | cleanup (t : Target)
  | failed
  | done

/-- A process: the verb that it runs, or none for a reader. -/
structure Proc where
  verb : Option Verb
  phase : Phase

/-- The next file. -/
def proceed : List (Target × Bytes) → Phase
  | [] => .done
  | (t, text) :: rest => .create t text rest

/-- Where `std::fs::write` has failed: `write_lockfile` removes the temporary file, `write_manifest` does not. -/
def writeFailed : Target → Phase
  | .manifest => .failed
  | .lock => .cleanup .lock

/-- The kinds of a step. -/
inductive Op where
  | create (t : Target)
  | rename (t : Target)
  | other

/-- A step of a process, from disk and phase to disk and phase. -/
inductive Moves (verb : Option Verb) (pid : ℕ) : Op → Disk → Phase → Disk → Phase → Prop where
  | opened {d : Disk} {t : Target} {i : ℕ} (h : d.dir (.file t) = some i) : Moves verb pid .other d (.open t) d (.read t i [])
  | openFails {d : Disk} {t : Target} : Moves verb pid .other d (.open t) d .failed
  | readPiece {d : Disk} {t : Target} {fd : ℕ} {got : Bytes} (n : ℕ) :
      Moves verb pid .other d (.read t fd got) d (.read t fd (got ++ ((d.content fd).drop got.length).take n))
  | readEnd {d : Disk} {t : Target} {fd : ℕ} {got : Bytes} (h : (d.content fd).length ≤ got.length) :
      Moves verb pid .other d (.read t fd got) d (.seen t got)
  | readFails {d : Disk} {t : Target} {fd : ℕ} {got : Bytes} : Moves verb pid .other d (.read t fd got) d .failed
  | plans {d : Disk} {v : Verb} {text : Bytes} {files : List (Target × Bytes)} (hverb : verb = some v) (h : v text = some files) :
      Moves verb pid .other d (.seen .manifest text) d (proceed files)
  | refuses {d : Disk} {v : Verb} {text : Bytes} (hverb : verb = some v) (h : v text = none) :
      Moves verb pid .other d (.seen .manifest text) d .failed
  | created {d : Disk} {t : Target} {text : Bytes} {rest : List (Target × Bytes)} :
      Moves verb pid (.create t) d (.create t text rest) (d.create (tempName pid t)).2
        (.write t (d.create (tempName pid t)).1 text 0 rest)
  | createFails {d : Disk} {t : Target} {text : Bytes} {rest : List (Target × Bytes)} :
      Moves verb pid .other d (.create t text rest) d (writeFailed t)
  | wrote {d : Disk} {t : Target} {fd : ℕ} {text : Bytes} {written : ℕ} {rest : List (Target × Bytes)} (n : ℕ)
      (hn : written + n ≤ text.length) :
      Moves verb pid .other d (.write t fd text written rest) (d.write fd written ((text.drop written).take n))
        (.write t fd text (written + n) rest)
  | writeFails {d : Disk} {t : Target} {fd : ℕ} {text : Bytes} {written : ℕ} {rest : List (Target × Bytes)} :
      Moves verb pid .other d (.write t fd text written rest) d (writeFailed t)
  | written {d : Disk} {t : Target} {fd : ℕ} {text : Bytes} {rest : List (Target × Bytes)} :
      Moves verb pid .other d (.write t fd text text.length rest) d (.rename t text rest)
  | renamed {d d' : Disk} {t : Target} {text : Bytes} {rest : List (Target × Bytes)}
      (h : d.rename (tempName pid t) (.file t) = some d') : Moves verb pid (.rename t) d (.rename t text rest) d' (proceed rest)
  | renameFails {d : Disk} {t : Target} {text : Bytes} {rest : List (Target × Bytes)} :
      Moves verb pid .other d (.rename t text rest) d (.cleanup t)
  | removed {d : Disk} {t : Target} : Moves verb pid .other d (.cleanup t) (d.remove (tempName pid t)) .failed
  | removeFails {d : Disk} {t : Target} : Moves verb pid .other d (.cleanup t) d .failed

/-- The texts that a process is about to write, or is writing. -/
def Phase.offers : Phase → List (Target × Bytes)
  | .create t text rest => (t, text) :: rest
  | .write t _ text _ rest => (t, text) :: rest
  | .rename t text rest => (t, text) :: rest
  | _ => []

/-- A project: its disk, the processes that are running, and the texts that a writer has had. -/
structure Project where
  disk : Disk
  proc : ℕ → Option Proc
  texts : List (Target × Bytes)

/-- One step: a process is started, a process moves, or a process is gone, by a crash or since it has ended. -/
inductive Step (meets : Project → ℕ → Op → Prop) : Project → Project → Prop where
  | reader {s : Project} (pid : ℕ) (t : Target) (h : s.proc pid = none) :
      Step meets s { s with proc := Function.update s.proc pid (some ⟨none, .open t⟩) }
  | verb {s : Project} (pid : ℕ) (v : Verb) (h : s.proc pid = none) :
      Step meets s { s with proc := Function.update s.proc pid (some ⟨some v, .open .manifest⟩) }
  | gone {s : Project} (pid : ℕ) : Step meets s { s with proc := Function.update s.proc pid none }
  | moves {s : Project} {pid : ℕ} {v : Option Verb} {op : Op} {d : Disk} {p p' : Phase} (h : s.proc pid = some ⟨v, p⟩)
      (hmoves : Moves v pid op s.disk p d p') (hmeets : meets s pid op) :
      Step meets s ⟨d, Function.update s.proc pid (some ⟨v, p'⟩), p'.offers ++ s.texts⟩

/-- Steps one after the other. -/
def Run (meets : Project → ℕ → Op → Prop) : Project → Project → Prop := Relation.ReflTransGen (Step meets)

/-- A project where nothing runs; a number that a name leads to is in use. -/
structure Project.Idle (s : Project) : Prop where
  proc : ∀ pid, s.proc pid = none
  texts : s.texts = []
  used : ∀ n i, s.disk.dir n = some i → i < s.disk.fresh
  distinct : ∀ n n' i, s.disk.dir n = some i → s.disk.dir n' = some i → n = n'

/-! ### What holds in a run -/

/-- A process has created the temporary file of a target, and has yet to rename it. -/
def Phase.Holds (t : Target) : Phase → Prop
  | .write t' _ _ _ _ => t' = t
  | .rename t' _ _ => t' = t
  | _ => False

/-- No process creates the temporary manifest while another one has yet to rename it. -/
def Orderly (s : Project) (pid : ℕ) (op : Op) : Prop :=
  op = .create .manifest → ∀ pid' p, pid' ≠ pid → s.proc pid' = some p → ¬ p.phase.Holds .manifest

/-- A text is whole: the one that was there, or the one of a writer. -/
def WholeText (start : Disk) (texts : List (Target × Bytes)) (t : Target) (text : Bytes) : Prop :=
  start.text (.file t) = some text ∨ (t, text) ∈ texts

/-- What holds of a process, where these files have been seen under a name that is read. -/
def Fits (start d : Disk) (texts : List (Target × Bytes)) (seen : Target → Set ℕ) (pid : ℕ) : Phase → Prop
  | .read t fd got => fd ∈ seen t ∧ got <+: d.content fd
  | .seen t text => WholeText start texts t text
  | .create t text rest => (t, text) ∈ texts ∧ rest ⊆ texts
  | .write t fd text written rest =>
    (t, text) ∈ texts ∧ rest ⊆ texts ∧ fd < d.fresh ∧ (∀ t', fd ∉ seen t') ∧ written ≤ text.length ∧ d.content fd = text.take written ∧
      (∀ i, d.dir (tempName pid t) = some i → i = fd) ∧ ∀ n, n ≠ tempName pid t → d.dir n ≠ some fd
  | .rename t text rest => (t, text) ∈ texts ∧ rest ⊆ texts ∧ ∀ i, d.dir (tempName pid t) = some i → d.content i = text
  | _ => True

/-- What holds of the disk. -/
structure Sound (start d : Disk) (texts : List (Target × Bytes)) (seen : Target → Set ℕ) : Prop where
  file : ∀ t i, d.dir (.file t) = some i → i ∈ seen t
  whole : ∀ t, ∀ i ∈ seen t, WholeText start texts t (d.content i)
  used : ∀ n i, d.dir n = some i → i < d.fresh
  seenUsed : ∀ t, ∀ i ∈ seen t, i < d.fresh
  temp : ∀ pid t i, d.dir (tempName pid t) = some i → ∀ t', i ∉ seen t'
  distinct : ∀ n n' i, d.dir n = some i → d.dir n' = some i → n = n'

/-- The file that a process writes to. -/
def Phase.fd : Phase → Option ℕ
  | .write _ fd _ _ _ => some fd
  | _ => none

/-- What holds in an orderly run. -/
structure Inv (start : Disk) (s : Project) (seen : Target → Set ℕ) : Prop where
  disk : Sound start s.disk s.texts seen
  fits : ∀ pid p, s.proc pid = some p → Fits start s.disk s.texts seen pid p.phase
  /-- One process has the temporary file of another one only after that one is gone. -/
  alone : ∀ pid pid' p p' t, s.proc pid = some p → s.proc pid' = some p' → p.phase.Holds t → p'.phase.Holds t →
    tempName pid t = tempName pid' t → pid = pid'
  apart : ∀ pid pid' p p' fd, s.proc pid = some p → s.proc pid' = some p' → p.phase.fd = some fd → p'.phase.fd = some fd → pid = pid'

/-! ### The operations -/

variable {start d d' : Disk} {texts texts' : List (Target × Bytes)} {seen seen' : Target → Set ℕ} {pid pid' : ℕ} {t t' : Target} {p p' : Phase}

theorem tempName_ne_file (pid : ℕ) (t t' : Target) : tempName pid t ≠ .file t' := by cases t <;> nofun

/-- Two processes have one temporary file only for the manifest. -/
theorem eq_of_tempName (h : tempName pid t = tempName pid' t') : t = t' ∧ (t = .manifest ∨ pid = pid') := by
  cases t with
  | manifest => cases t' with
    | manifest => exact ⟨rfl, .inl rfl⟩
    | lock => cases h
  | lock => cases t' with
    | manifest => cases h
    | lock =>
      cases h
      exact ⟨rfl, .inr rfl⟩

theorem Disk.create_cases (d : Disk) (n : Name) :
    d.dir n = some (d.create n).1 ∧ (d.create n).2.fresh = d.fresh ∨
      d.dir n = none ∧ (d.create n).1 = d.fresh ∧ (d.create n).2.fresh = d.fresh + 1 := by
  unfold create
  cases h : d.dir n with
  | some i => exact .inl ⟨rfl, rfl⟩
  | none => exact .inr ⟨rfl, rfl, rfl⟩

theorem Disk.create_dir (d : Disk) (n : Name) : (d.create n).2.dir = Function.update d.dir n (some (d.create n).1) := by
  unfold create
  cases h : d.dir n with
  | some i => exact (Function.update_eq_self_iff.mpr h.symm).symm
  | none => rfl

theorem Disk.create_content (d : Disk) (n : Name) : (d.create n).2.content = Function.update d.content (d.create n).1 [] := by
  unfold create
  cases d.dir n <;> rfl

theorem overwrite_take (text : Bytes) {written n : ℕ} (h : written + n ≤ text.length) :
    Disk.overwrite (text.take written) written ((text.drop written).take n) = text.take (written + n) := by
  have hlength : (text.take written).length = written := by
    rw [List.length_take]
    omega
  have hrest : (text.take written).drop (written + ((text.drop written).take n).length) = [] := List.drop_eq_nil_of_le (by omega)
  rw [Disk.overwrite, hrest, List.append_nil, List.takeD_eq_take _ (by omega), List.take_of_length_le (by omega), List.take_add]

theorem WholeText.mono (h : WholeText start texts t text) (hsub : texts ⊆ texts') : WholeText start texts' t text :=
  h.imp_right fun hmem => hsub hmem

/-- More texts, and more files that have been seen. -/
theorem Fits.mono (h : Fits start d texts seen pid p) (hsub : texts ⊆ texts') : Fits start d texts' seen pid p := by
  cases p with
  | read t fd got => exact h
  | seen t text => exact h.mono hsub
  | create t text rest => exact ⟨hsub h.1, fun e he => hsub (h.2 he)⟩
  | write t fd text written rest => exact ⟨hsub h.1, fun e he => hsub (h.2.1 he), h.2.2⟩
  | rename t text rest => exact ⟨hsub h.1, fun e he => hsub (h.2.1 he), h.2.2⟩
  | «open» t => trivial
  | cleanup t => trivial
  | failed => trivial
  | done => trivial

theorem Sound.mono (h : Sound start d texts seen) (hsub : texts ⊆ texts') : Sound start d texts' seen :=
  { h with whole := fun t i hi => (h.whole t i hi).mono hsub }

/-- Files that have been seen are not the ones of a temporary name, nor new. -/
theorem Sound.create_notSeen (h : Sound start d texts seen) (pid : ℕ) (t t' : Target) : (d.create (tempName pid t)).1 ∉ seen t' := by
  intro hseen
  rcases d.create_cases (tempName pid t) with ⟨hdir, -⟩ | ⟨-, hfresh, -⟩
  · exact h.temp pid t _ hdir t' hseen
  · rw [hfresh] at hseen
    exact absurd (h.seenUsed t' _ hseen) (Nat.lt_irrefl _)

/-- A name that is another one leads to another file than the one that was created. -/
theorem Sound.create_ne (h : Sound start d texts seen) {n m : Name} (hne : m ≠ n) {i : ℕ} (hi : d.dir m = some i) : i ≠ (d.create n).1 := by
  rintro rfl
  rcases d.create_cases n with ⟨hdir, -⟩ | ⟨-, hfresh, -⟩
  · exact hne (h.distinct m n _ hi hdir)
  · rw [hfresh] at hi
    exact absurd (h.used m _ hi) (Nat.lt_irrefl _)

theorem Sound.create_fresh (h : Sound start d texts seen) (n : Name) :
    d.fresh ≤ (d.create n).2.fresh ∧ (d.create n).1 < (d.create n).2.fresh := by
  rcases d.create_cases n with ⟨hdir, hfresh⟩ | ⟨-, hnew, hfresh⟩
  · rw [hfresh]
    exact ⟨Nat.le_refl _, h.used n _ hdir⟩
  · rw [hfresh, hnew]
    exact ⟨Nat.le_succ _, Nat.lt_succ_self _⟩

theorem Sound.create (h : Sound start d texts seen) (pid : ℕ) (t : Target) : Sound start (d.create (tempName pid t)).2 texts seen := by
  have hdir : ∀ n i, (d.create (tempName pid t)).2.dir n = some i →
      n = tempName pid t ∧ i = (d.create (tempName pid t)).1 ∨ n ≠ tempName pid t ∧ d.dir n = some i := by
    intro n i hn
    rw [Disk.create_dir] at hn
    by_cases hname : n = tempName pid t
    · rw [hname, Function.update_self] at hn
      exact .inl ⟨hname, (Option.some.inj hn).symm⟩
    · rw [Function.update_of_ne hname] at hn
      exact .inr ⟨hname, hn⟩
  refine ⟨fun t' i hi => ?_, fun t' i hi => ?_, fun n i hi => ?_, fun t' i hi => ?_, fun pid' t' i hi t'' => ?_, fun n n' i hi hi' => ?_⟩
  · rcases hdir _ i hi with ⟨hname, -⟩ | ⟨-, hi⟩
    · exact absurd hname.symm (tempName_ne_file pid t t')
    · exact h.file t' i hi
  · rw [Disk.create_content, Function.update_of_ne]
    · exact h.whole t' i hi
    · rintro rfl
      exact h.create_notSeen pid t t' hi
  · rcases hdir n i hi with ⟨-, rfl⟩ | ⟨-, hi⟩
    · exact (h.create_fresh _).2
    · exact (h.used n i hi).trans_le (h.create_fresh _).1
  · exact (h.seenUsed t' i hi).trans_le (h.create_fresh _).1
  · rcases hdir _ i hi with ⟨-, rfl⟩ | ⟨-, hi⟩
    · exact h.create_notSeen pid t t''
    · exact h.temp pid' t' i hi t''
  · rcases hdir n i hi with ⟨hn, rfl⟩ | ⟨hn, hi⟩ <;> rcases hdir n' _ hi' with ⟨hn', heq⟩ | ⟨hn', hi'⟩
    · exact hn.trans hn'.symm
    · exact absurd rfl (h.create_ne hn' hi')
    · exact absurd heq (h.create_ne hn hi)
    · exact h.distinct n n' i hi hi'

/-- A process that has not the temporary file that another one creates. -/
theorem Fits.create (hsound : Sound start d texts seen) (h : Fits start d texts seen pid' p)
    (hfree : ∀ t', p.Holds t' → tempName pid' t' ≠ tempName pid t) : Fits start (d.create (tempName pid t)).2 texts seen pid' p := by
  cases p with
  | read t' fd got =>
    refine ⟨h.1, ?_⟩
    rw [Disk.create_content, Function.update_of_ne]
    · exact h.2
    · rintro rfl
      exact hsound.create_notSeen pid t t' h.1
  | write t' fd text written rest =>
    obtain ⟨hmem, hrest, hfd, hseen, hwritten, hcontent, htemp, hother⟩ := h
    have hname := hfree t' rfl
    have hne : fd ≠ (d.create (tempName pid t)).1 := by
      rintro rfl
      rcases d.create_cases (tempName pid t) with ⟨hdir, -⟩ | ⟨-, hfresh, -⟩
      · exact hother _ hname.symm hdir
      · rw [hfresh] at hfd
        exact absurd hfd (Nat.lt_irrefl _)
    refine ⟨hmem, hrest, hfd.trans_le (hsound.create_fresh _).1, hseen, hwritten, ?_, fun i hi => ?_, fun n hn hi => ?_⟩
    · rw [Disk.create_content, Function.update_of_ne hne, hcontent]
    · rw [Disk.create_dir, Function.update_of_ne hname] at hi
      exact htemp i hi
    · rw [Disk.create_dir] at hi
      by_cases hn' : n = tempName pid t
      · rw [hn', Function.update_self] at hi
        exact hne (Option.some.inj hi).symm
      · rw [Function.update_of_ne hn'] at hi
        exact hother n hn hi
  | rename t' text rest =>
    obtain ⟨hmem, hrest, htemp⟩ := h
    have hname := hfree t' rfl
    refine ⟨hmem, hrest, fun i hi => ?_⟩
    rw [Disk.create_dir, Function.update_of_ne hname] at hi
    rw [Disk.create_content, Function.update_of_ne (hsound.create_ne hname hi)]
    exact htemp i hi
  | seen t' text => exact h
  | create t' text rest => exact h
  | «open» t' => trivial
  | cleanup t' => trivial
  | failed => trivial
  | done => trivial

theorem Sound.write (h : Sound start d texts seen) {fd : ℕ} (hfd : ∀ t, fd ∉ seen t) (offset : ℕ) (piece : Bytes) :
    Sound start (d.write fd offset piece) texts seen :=
  { h with
    whole := fun t i hi => by
      have hne : i ≠ fd := fun heq => hfd t (heq ▸ hi)
      rw [Disk.write]
      dsimp only
      rw [Function.update_of_ne hne]
      exact h.whole t i hi }

/-- A process that another one does not write for. -/
theorem Fits.write (h : Fits start d texts seen pid' p) {fd : ℕ} (hfd : ∀ t, fd ∉ seen t) (hne : p.fd ≠ some fd)
    (hdir : ∀ t', p.Holds t' → d.dir (tempName pid' t') ≠ some fd) (offset : ℕ) (piece : Bytes) :
    Fits start (d.write fd offset piece) texts seen pid' p := by
  cases p with
  | read t' fd' got =>
    have hne' : fd' ≠ fd := fun heq => hfd t' (heq ▸ h.1)
    refine ⟨h.1, ?_⟩
    rw [Disk.write]
    dsimp only
    rw [Function.update_of_ne hne']
    exact h.2
  | write t' fd' text written rest =>
    obtain ⟨hmem, hrest, hused, hseen, hwritten, hcontent, htemp, hother⟩ := h
    refine ⟨hmem, hrest, hused, hseen, hwritten, ?_, htemp, hother⟩
    rw [Disk.write]
    dsimp only
    rw [Function.update_of_ne fun heq => hne (congrArg some heq), hcontent]
  | rename t' text rest =>
    obtain ⟨hmem, hrest, htemp⟩ := h
    refine ⟨hmem, hrest, fun i hi => ?_⟩
    have hne' : i ≠ fd := fun heq => hdir t' rfl (heq ▸ hi)
    rw [Disk.write]
    dsimp only
    rw [Function.update_of_ne hne']
    exact htemp i hi
  | seen t' text => exact h
  | create t' text rest => exact h
  | «open» t' => trivial
  | cleanup t' => trivial
  | failed => trivial
  | done => trivial

/-- The files that have been seen, with one more. -/
def withSeen (seen : Target → Set ℕ) (t : Target) (i : ℕ) : Target → Set ℕ := Function.update seen t (insert i (seen t))

theorem mem_withSeen {i j : ℕ} : j ∈ withSeen seen t i t' ↔ t' = t ∧ j = i ∨ j ∈ seen t' := by
  rw [withSeen]
  by_cases h : t' = t
  · subst h
    simp
  · simp [h]

/-- What a rename makes of the names. -/
theorem dir_of_rename {i : ℕ} (hi : d.dir (tempName pid t) = some i) (h : d.rename (tempName pid t) (.file t) = some d') :
    d'.content = d.content ∧ d'.fresh = d.fresh ∧ d'.dir (.file t) = some i ∧ d'.dir (tempName pid t) = none ∧
      ∀ n, n ≠ .file t → n ≠ tempName pid t → d'.dir n = d.dir n := by
  rw [Disk.rename, hi] at h
  cases h
  refine ⟨rfl, rfl, Function.update_self .., ?_, fun n hfile htemp => ?_⟩
  · dsimp only
    rw [Function.update_of_ne (tempName_ne_file pid t t), Function.update_self]
  · dsimp only
    rw [Function.update_of_ne hfile, Function.update_of_ne htemp]

theorem Sound.rename (h : Sound start d texts seen) {i : ℕ} (hi : d.dir (tempName pid t) = some i)
    (hwhole : WholeText start texts t (d.content i)) (hrename : d.rename (tempName pid t) (.file t) = some d') :
    Sound start d' texts (withSeen seen t i) := by
  obtain ⟨hcontent, hfresh, hfile, htemp, hother⟩ := dir_of_rename hi hrename
  have hdir : ∀ n j, d'.dir n = some j → n = .file t ∧ j = i ∨ n ≠ .file t ∧ n ≠ tempName pid t ∧ d.dir n = some j := by
    intro n j hn
    by_cases hnf : n = .file t
    · rw [hnf, hfile] at hn
      exact .inl ⟨hnf, (Option.some.inj hn).symm⟩
    · by_cases hnt : n = tempName pid t
      · rw [hnt, htemp] at hn
        cases hn
      · rw [hother n hnf hnt] at hn
        exact .inr ⟨hnf, hnt, hn⟩
  refine ⟨fun t' j hj => ?_, fun t' j hj => ?_, fun n j hj => ?_, fun t' j hj => ?_, fun pid' t' j hj t'' hseen => ?_,
    fun n n' j hj hj' => ?_⟩
  · rcases hdir _ j hj with ⟨hname, rfl⟩ | ⟨-, -, hj⟩
    · exact mem_withSeen.mpr (.inl ⟨Name.file.inj hname, rfl⟩)
    · exact mem_withSeen.mpr (.inr (h.file t' j hj))
  · rw [hcontent]
    rcases mem_withSeen.mp hj with ⟨rfl, rfl⟩ | hj
    · exact hwhole
    · exact h.whole t' j hj
  · rw [hfresh]
    rcases hdir n j hj with ⟨-, rfl⟩ | ⟨-, -, hj⟩
    · exact h.used _ _ hi
    · exact h.used n j hj
  · rw [hfresh]
    rcases mem_withSeen.mp hj with ⟨-, rfl⟩ | hj
    · exact h.used _ _ hi
    · exact h.seenUsed t' j hj
  · rcases hdir _ j hj with ⟨hname, -⟩ | ⟨-, hne, hj⟩
    · exact tempName_ne_file pid' t' t hname
    · rcases mem_withSeen.mp hseen with ⟨-, rfl⟩ | hseen
      · exact hne (h.distinct _ _ _ hj hi)
      · exact h.temp pid' t' j hj t'' hseen
  · rcases hdir n j hj with ⟨hn, rfl⟩ | ⟨-, hnt, hj⟩ <;> rcases hdir n' _ hj' with ⟨hn', heq⟩ | ⟨-, hnt', hj'⟩
    · exact hn.trans hn'.symm
    · exact absurd (h.distinct _ _ _ hj' hi) hnt'
    · exact absurd (h.distinct _ _ _ (heq ▸ hj) hi) hnt
    · exact h.distinct n n' j hj hj'

theorem Fits.rename (h : Fits start d texts seen pid' p) {i : ℕ} (hi : d.dir (tempName pid t) = some i)
    (hfree : ∀ t', p.Holds t' → tempName pid' t' ≠ tempName pid t) (hrename : d.rename (tempName pid t) (.file t) = some d') :
    Fits start d' texts (withSeen seen t i) pid' p := by
  obtain ⟨hcontent, hfresh, hfile, htemp, hother⟩ := dir_of_rename hi hrename
  cases p with
  | read t' fd got => exact ⟨mem_withSeen.mpr (.inr h.1), by rw [hcontent]; exact h.2⟩
  | write t' fd text written rest =>
    obtain ⟨hmem, hrest, hused, hseen, hwritten, htext, hown, hdir⟩ := h
    have hname := hfree t' rfl
    have hne : fd ≠ i := by
      rintro rfl
      exact hdir _ hname.symm hi
    refine ⟨hmem, hrest, by rw [hfresh]; exact hused, fun t'' hmem => ?_, hwritten, by rw [hcontent]; exact htext, fun j hj => ?_,
      fun n hn hj => ?_⟩
    · rcases mem_withSeen.mp hmem with ⟨-, heq⟩ | hmem
      · exact hne heq
      · exact hseen t'' hmem
    · rw [hother _ (tempName_ne_file pid' t' t) hname] at hj
      exact hown j hj
    · by_cases hnf : n = .file t
      · rw [hnf, hfile] at hj
        exact hne (Option.some.inj hj).symm
      · by_cases hnt : n = tempName pid t
        · rw [hnt, htemp] at hj
          cases hj
        · rw [hother n hnf hnt] at hj
          exact hdir n hn hj
  | rename t' text rest =>
    obtain ⟨hmem, hrest, hown⟩ := h
    have hname := hfree t' rfl
    refine ⟨hmem, hrest, fun j hj => ?_⟩
    rw [hother _ (tempName_ne_file pid' t' t) hname] at hj
    rw [hcontent]
    exact hown j hj
  | seen t' text => exact h
  | create t' text rest => exact h
  | «open» t' => trivial
  | cleanup t' => trivial
  | failed => trivial
  | done => trivial

theorem dir_of_remove {n m : Name} {i : ℕ} (h : (d.remove n).dir m = some i) : d.dir m = some i := by
  rw [Disk.remove] at h
  dsimp only at h
  by_cases hm : m = n
  · rw [hm, Function.update_self] at h
    cases h
  · rwa [Function.update_of_ne hm] at h

theorem Sound.remove (h : Sound start d texts seen) (n : Name) : Sound start (d.remove n) texts seen where
  file t i hi := h.file t i (dir_of_remove hi)
  whole := h.whole
  used m i hi := h.used m i (dir_of_remove hi)
  seenUsed := h.seenUsed
  temp pid t i hi := h.temp pid t i (dir_of_remove hi)
  distinct m m' i hi hi' := h.distinct m m' i (dir_of_remove hi) (dir_of_remove hi')

theorem Fits.remove (h : Fits start d texts seen pid' p) (n : Name) : Fits start (d.remove n) texts seen pid' p := by
  cases p with
  | write t' fd text written rest =>
    obtain ⟨hmem, hrest, hused, hseen, hwritten, htext, hown, hdir⟩ := h
    exact ⟨hmem, hrest, hused, hseen, hwritten, htext, fun i hi => hown i (dir_of_remove hi), fun m hm hi => hdir m hm (dir_of_remove hi)⟩
  | rename t' text rest => exact ⟨h.1, h.2.1, fun i hi => h.2.2 i (dir_of_remove hi)⟩
  | read t' fd got => exact h
  | seen t' text => exact h
  | create t' text rest => exact h
  | «open» t' => trivial
  | cleanup t' => trivial
  | failed => trivial
  | done => trivial

/-! ### A run -/

variable {s s' : Project} {v : Option Verb} {op : Op}

/-- A process that moves, the others as they are on the disk that it leaves. -/
theorem Inv.update (h : Inv start s seen) (hdisk : Sound start d' (p'.offers ++ s.texts) seen')
    (hfits : Fits start d' (p'.offers ++ s.texts) seen' pid p')
    (hothers : ∀ pid' q, pid' ≠ pid → s.proc pid' = some q → Fits start d' s.texts seen' pid' q.phase)
    (hholds : ∀ pid' q t, pid' ≠ pid → s.proc pid' = some q → p'.Holds t → q.phase.Holds t → tempName pid t ≠ tempName pid' t)
    (hfd : ∀ pid' q fd, pid' ≠ pid → s.proc pid' = some q → p'.fd = some fd → q.phase.fd ≠ some fd) :
    Inv start ⟨d', Function.update s.proc pid (some ⟨v, p'⟩), p'.offers ++ s.texts⟩ seen' := by
  have hproc : ∀ pid' q, Function.update s.proc pid (some ⟨v, p'⟩) pid' = some q →
      pid' = pid ∧ q = ⟨v, p'⟩ ∨ pid' ≠ pid ∧ s.proc pid' = some q := by
    intro pid' q hq
    by_cases hpid : pid' = pid
    · rw [hpid, Function.update_self] at hq
      exact .inl ⟨hpid, (Option.some.inj hq).symm⟩
    · rw [Function.update_of_ne hpid] at hq
      exact .inr ⟨hpid, hq⟩
  refine ⟨hdisk, fun pid' q hq => ?_, fun pid₁ pid₂ q₁ q₂ t h₁ h₂ ht₁ ht₂ hname => ?_, fun pid₁ pid₂ q₁ q₂ fd h₁ h₂ hfd₁ hfd₂ => ?_⟩
  · rcases hproc pid' q hq with ⟨rfl, rfl⟩ | ⟨hne, hq⟩
    · exact hfits
    · exact (hothers pid' q hne hq).mono (List.subset_append_right _ _)
  · rcases hproc pid₁ q₁ h₁ with ⟨rfl, rfl⟩ | ⟨hne₁, hq₁⟩ <;> rcases hproc pid₂ q₂ h₂ with ⟨rfl, rfl⟩ | ⟨hne₂, hq₂⟩
    · rfl
    · exact absurd hname (hholds pid₂ q₂ t hne₂ hq₂ ht₁ ht₂)
    · exact absurd hname.symm (hholds pid₁ q₁ t hne₁ hq₁ ht₂ ht₁)
    · exact h.alone pid₁ pid₂ q₁ q₂ t hq₁ hq₂ ht₁ ht₂ hname
  · rcases hproc pid₁ q₁ h₁ with ⟨rfl, rfl⟩ | ⟨hne₁, hq₁⟩ <;> rcases hproc pid₂ q₂ h₂ with ⟨rfl, rfl⟩ | ⟨hne₂, hq₂⟩
    · rfl
    · exact absurd hfd₂ (hfd pid₂ q₂ fd hne₂ hq₂ hfd₁)
    · exact absurd hfd₁ (hfd pid₁ q₁ fd hne₁ hq₁ hfd₂)
    · exact h.apart pid₁ pid₂ q₁ q₂ fd hq₁ hq₂ hfd₁ hfd₂

/-- The temporary file of a process is the one of no other that is running. -/
theorem Inv.free (h : Inv start s seen) (hp : s.proc pid = some ⟨v, p⟩) (ht : p.Holds t) {q : Proc} (hne : pid' ≠ pid)
    (hq : s.proc pid' = some q) : ∀ t', q.phase.Holds t' → tempName pid' t' ≠ tempName pid t := by
  intro t' ht' hname
  obtain ⟨rfl, -⟩ := eq_of_tempName hname
  exact hne (h.alone pid' pid q ⟨v, p⟩ t' hq hp ht' ht hname)

/-- A process that moves and holds nothing new. -/
theorem Inv.advance (h : Inv start s seen) (hp : s.proc pid = some ⟨v, p⟩) (hdisk : Sound start d' (p'.offers ++ s.texts) seen')
    (hfits : Fits start d' (p'.offers ++ s.texts) seen' pid p')
    (hothers : ∀ pid' q, pid' ≠ pid → s.proc pid' = some q → Fits start d' s.texts seen' pid' q.phase)
    (hholds : ∀ t, p'.Holds t → p.Holds t) (hfd : ∀ fd, p'.fd = some fd → p.fd = some fd) :
    Inv start ⟨d', Function.update s.proc pid (some ⟨v, p'⟩), p'.offers ++ s.texts⟩ seen' := by
  refine h.update hdisk hfits hothers (fun pid' q t hne hq ht ht' hname => ?_) fun pid' q fd hne hq hp' hq' => ?_
  · exact h.free hp (hholds t ht) hne hq t ht' hname.symm
  · exact hne (h.apart pid' pid q ⟨v, p⟩ fd hq hp hq' (hfd fd hp'))

/-- A process that moves and leaves the disk. -/
theorem Inv.stay (h : Inv start s seen) (hp : s.proc pid = some ⟨v, p⟩) (hfits : Fits start s.disk (p'.offers ++ s.texts) seen pid p')
    (hholds : ∀ t, p'.Holds t → p.Holds t) (hfd : ∀ fd, p'.fd = some fd → p.fd = some fd) :
    Inv start ⟨s.disk, Function.update s.proc pid (some ⟨v, p'⟩), p'.offers ++ s.texts⟩ seen :=
  h.advance hp (h.disk.mono (List.subset_append_right _ _)) hfits (fun pid' q _ hq => h.fits pid' q hq) hholds hfd

/-- The next file is one of the texts, and nothing is held before it is created. -/
theorem fits_proceed (files : List (Target × Bytes)) (hfiles : files ⊆ texts) : Fits start d texts seen pid (proceed files) := by
  cases files with
  | nil => trivial
  | cons e rest => exact ⟨hfiles List.mem_cons_self, fun e he => hfiles (List.mem_cons_of_mem _ he)⟩

theorem not_holds_proceed (files : List (Target × Bytes)) : ¬ (proceed files).Holds t := by cases files <;> exact id

theorem fd_proceed (files : List (Target × Bytes)) : (proceed files).fd = none := by cases files <;> rfl

theorem offers_proceed (files : List (Target × Bytes)) : (proceed files).offers = files := by cases files <;> rfl

theorem writeFailed_cases (t : Target) : writeFailed t = .failed ∨ writeFailed t = .cleanup t := by
  cases t
  · exact .inl rfl
  · exact .inr rfl

/-- Where writing has failed, nothing is held. -/
theorem Inv.fail (h : Inv start s seen) (hp : s.proc pid = some ⟨v, p⟩) (hp' : p' = .failed ∨ p' = .cleanup t) :
    Inv start ⟨s.disk, Function.update s.proc pid (some ⟨v, p'⟩), p'.offers ++ s.texts⟩ seen := by
  rcases hp' with rfl | rfl <;> exact h.stay hp trivial nofun nofun

/-- **A step of a process.** -/
theorem Inv.moves (h : Inv start s seen) (hp : s.proc pid = some ⟨v, p⟩) (hmoves : Moves v pid op s.disk p d' p')
    (horderly : Orderly s pid op) :
    ∃ seen', Inv start ⟨d', Function.update s.proc pid (some ⟨v, p'⟩), p'.offers ++ s.texts⟩ seen' := by
  have hfits := h.fits pid _ hp
  generalize hd : s.disk = d at hmoves
  cases hmoves with
  | opened hdir =>
    subst hd
    exact ⟨seen, h.stay hp ⟨h.disk.file _ _ hdir, List.nil_prefix⟩ nofun nofun⟩
  | openFails =>
    subst hd
    exact ⟨seen, h.fail (t := .manifest) hp (.inl rfl)⟩
  | readPiece n =>
    subst hd
    obtain ⟨hseen, rest, hrest⟩ := hfits
    refine ⟨seen, h.stay hp ⟨hseen, ?_⟩ nofun nofun⟩
    rw [← hrest, List.drop_left]
    exact (List.prefix_append_right_inj _).mpr (List.take_prefix ..)
  | readEnd hlength =>
    subst hd
    obtain ⟨hseen, hbegins⟩ := hfits
    refine ⟨seen, h.stay hp ?_ nofun nofun⟩
    have hwhole := h.disk.whole _ _ hseen
    rwa [← hbegins.eq_of_length_le hlength] at hwhole
  | readFails =>
    subst hd
    exact ⟨seen, h.fail (t := .manifest) hp (.inl rfl)⟩
  | @plans _ _ _ files =>
    subst hd
    refine ⟨seen, h.stay hp (fits_proceed files ?_) (fun t ht => absurd ht (not_holds_proceed files)) fun fd hfd => ?_⟩
    · rw [offers_proceed]
      exact List.subset_append_left _ _
    · rw [fd_proceed] at hfd
      cases hfd
  | refuses =>
    subst hd
    exact ⟨seen, h.fail (t := .manifest) hp (.inl rfl)⟩
  | @created _ t text rest =>
    subst hd
    obtain ⟨hmem, hrest⟩ := hfits
    -- Who holds the temporary file is another process, which an orderly one does not disturb.
    have hfree : ∀ pid' q, pid' ≠ pid → s.proc pid' = some q → ∀ t', q.phase.Holds t' → tempName pid' t' ≠ tempName pid t := by
      intro pid' q hne hq t' ht' hname
      obtain ⟨rfl, hmanifest | rfl⟩ := eq_of_tempName hname
      · subst hmanifest
        exact horderly rfl pid' q hne hq ht'
      · exact hne rfl
    refine ⟨seen, h.update ((h.disk.create pid t).mono (List.subset_append_right _ _)) ?_
      (fun pid' q hne hq => (h.fits pid' q hq).create h.disk (hfree pid' q hne hq)) ?_ ?_⟩
    · refine ⟨List.mem_append_right _ hmem, fun e he => List.mem_append_right _ (hrest he), (h.disk.create_fresh _).2,
        h.disk.create_notSeen pid t, Nat.zero_le _, ?_, fun i hi => ?_, fun n hn hi => ?_⟩
      · rw [Disk.create_content, Function.update_self, List.take_zero]
      · rw [Disk.create_dir, Function.update_self] at hi
        exact (Option.some.inj hi).symm
      · rw [Disk.create_dir, Function.update_of_ne hn] at hi
        exact h.disk.create_ne hn hi rfl
    · rintro pid' q t' hne hq rfl ht' hname
      exact hfree pid' q hne hq _ ht' hname.symm
    · rintro pid' ⟨vq, q⟩ fd hne hq hfd hfd'
      cases hfd
      cases q with
      | write t' fd text' written rest' =>
        cases hfd'
        obtain ⟨-, -, hused, -, -, -, -, hother⟩ := h.fits pid' _ hq
        have hname := hfree pid' _ hne hq t' rfl
        rcases s.disk.create_cases (tempName pid t) with ⟨hdir, -⟩ | ⟨-, hnew, -⟩
        · exact hother _ hname.symm hdir
        · rw [hnew] at hused
          exact absurd hused (Nat.lt_irrefl _)
      | _ => cases hfd'
  | @createFails _ t =>
    subst hd
    exact ⟨seen, h.fail hp (writeFailed_cases t)⟩
  | @wrote _ t fd text written rest n hn =>
    subst hd
    obtain ⟨hmem, hrest, hused, hseen, hwritten, hcontent, hown, hother⟩ := hfits
    refine ⟨seen, h.advance hp ((h.disk.write hseen _ _).mono (List.subset_append_right _ _)) ?_ (fun pid' q hne hq => ?_) (fun _ => id)
      fun _ => id⟩
    · refine ⟨List.mem_append_right _ hmem, fun e he => List.mem_append_right _ (hrest he), hused, hseen, hn, ?_, hown, hother⟩
      rw [Disk.write]
      dsimp only
      rw [Function.update_self, hcontent, overwrite_take text hn]
    · refine (h.fits pid' q hq).write hseen (fun hfd => hne (h.apart pid' pid q _ fd hq hp hfd rfl)) (fun t' ht' => ?_) _ _
      exact hother _ (h.free hp rfl hne hq t' ht')
  | @writeFails _ t =>
    subst hd
    exact ⟨seen, h.fail hp (writeFailed_cases t)⟩
  | @written _ t fd text rest =>
    subst hd
    obtain ⟨hmem, hrest, hused, hseen, hwritten, hcontent, hown, hother⟩ := hfits
    refine ⟨seen, h.stay hp ⟨List.mem_append_right _ hmem, fun e he => List.mem_append_right _ (hrest he), fun i hi => ?_⟩ (fun _ => id) nofun⟩
    rw [hown i hi, hcontent, List.take_length]
  | @renamed _ _ t text rest hrename =>
    subst hd
    obtain ⟨hmem, hrest, hown⟩ := hfits
    obtain ⟨i, hi⟩ : ∃ i, s.disk.dir (tempName pid t) = some i := by
      rw [Disk.rename, Option.map_eq_some_iff] at hrename
      obtain ⟨i, hi, -⟩ := hrename
      exact ⟨i, hi⟩
    have hwhole : WholeText start s.texts t (s.disk.content i) := by
      rw [hown i hi]
      exact .inr hmem
    refine ⟨withSeen seen t i, h.advance hp ((h.disk.rename hi hwhole hrename).mono (List.subset_append_right _ _)) (fits_proceed rest ?_)
      (fun pid' q hne hq => (h.fits pid' q hq).rename hi (h.free hp rfl hne hq) hrename)
      (fun t ht => absurd ht (not_holds_proceed rest)) fun fd hfd => ?_⟩
    · rw [offers_proceed]
      exact List.subset_append_left _ _
    · rw [fd_proceed] at hfd
      cases hfd
  | @renameFails _ t =>
    subst hd
    exact ⟨seen, h.fail hp (.inr rfl)⟩
  | removed =>
    subst hd
    exact ⟨seen, h.advance hp ((h.disk.remove _).mono (List.subset_append_right _ _)) trivial (fun pid' q _ hq => (h.fits pid' q hq).remove _)
      nofun nofun⟩
  | removeFails =>
    subst hd
    exact ⟨seen, h.fail (t := .manifest) hp (.inl rfl)⟩

/-- A process that has come or is gone. -/
theorem Inv.replace (h : Inv start s seen) (pid : ℕ) {new : Option Proc} (hnew : ∀ q, new = some q → ∃ t, q.phase = .open t) :
    Inv start { s with proc := Function.update s.proc pid new } seen := by
  have hproc : ∀ pid' q, Function.update s.proc pid new pid' = some q → (∃ t, q.phase = .open t) ∨ s.proc pid' = some q := by
    intro pid' q hq
    by_cases hpid : pid' = pid
    · rw [hpid, Function.update_self] at hq
      exact .inl (hnew q hq)
    · rw [Function.update_of_ne hpid] at hq
      exact .inr hq
  refine ⟨h.disk, fun pid' q hq => ?_, fun pid₁ pid₂ q₁ q₂ t h₁ h₂ ht₁ ht₂ hname => ?_, fun pid₁ pid₂ q₁ q₂ fd h₁ h₂ hfd₁ hfd₂ => ?_⟩
  · rcases hproc pid' q hq with ⟨t, ht⟩ | hq
    · rw [ht]
      trivial
    · exact h.fits pid' q hq
  · rcases hproc pid₁ q₁ h₁ with ⟨t', ht'⟩ | hq₁
    · rw [ht'] at ht₁
      exact ht₁.elim
    · rcases hproc pid₂ q₂ h₂ with ⟨t', ht'⟩ | hq₂
      · rw [ht'] at ht₂
        exact ht₂.elim
      · exact h.alone pid₁ pid₂ q₁ q₂ t hq₁ hq₂ ht₁ ht₂ hname
  · rcases hproc pid₁ q₁ h₁ with ⟨t', ht'⟩ | hq₁
    · rw [ht'] at hfd₁
      cases hfd₁
    · rcases hproc pid₂ q₂ h₂ with ⟨t', ht'⟩ | hq₂
      · rw [ht'] at hfd₂
        cases hfd₂
      · exact h.apart pid₁ pid₂ q₁ q₂ fd hq₁ hq₂ hfd₁ hfd₂

/-- **An orderly step keeps the invariant.** -/
theorem Inv.step (h : Inv start s seen) (hstep : Step Orderly s s') : ∃ seen', Inv start s' seen' := by
  cases hstep with
  | reader pid t hnone =>
    refine ⟨seen, h.replace pid fun q hq => ?_⟩
    cases hq
    exact ⟨t, rfl⟩
  | verb pid v hnone =>
    refine ⟨seen, h.replace pid fun q hq => ?_⟩
    cases hq
    exact ⟨.manifest, rfl⟩
  | gone pid => exact ⟨seen, h.replace pid nofun⟩
  | moves hp hmoves hmeets => exact h.moves hp hmoves hmeets

/-- Before the first step, the files that are there have been seen. -/
theorem inv_of_idle (h : s.Idle) : Inv s.disk s fun t => { i | s.disk.dir (.file t) = some i } where
  disk := {
    file := fun _ _ hi => hi
    whole := fun t i hi => .inl (by rw [Disk.text, Set.mem_ofPred_eq.mp hi]; rfl)
    used := h.used
    seenUsed := fun t i hi => h.used _ i hi
    temp := fun pid t i hi t' hi' => tempName_ne_file pid t t' (h.distinct _ _ i hi hi')
    distinct := h.distinct }
  fits pid p hp := absurd hp (by rw [h.proc pid]; nofun)
  alone pid _ p _ _ hp := absurd hp (by rw [h.proc pid]; nofun)
  apart pid _ p _ _ hp := absurd hp (by rw [h.proc pid]; nofun)

/-- It holds in every state of an orderly run. -/
theorem Inv.run {s₀ : Project} (hidle : s₀.Idle) (hrun : Run Orderly s₀ s) : ∃ seen, Inv s₀.disk s seen := by
  induction hrun with
  | refl => exact ⟨_, inv_of_idle hidle⟩
  | tail _ hstep ih =>
    obtain ⟨seen, h⟩ := ih
    exact h.step hstep

/-- What an orderly step that is not a rename leaves. -/
theorem Inv.text_eq (h : Inv start s seen) (hp : s.proc pid = some ⟨v, p⟩) (hmoves : Moves v pid op s.disk p d' p')
    (hop : ∀ t, op ≠ .rename t) (t : Target) : d'.text (.file t) = s.disk.text (.file t) := by
  have hfits := h.fits pid _ hp
  generalize hd : s.disk = d at hmoves
  cases hmoves with
  | @created _ t' =>
    subst hd
    rw [Disk.text, Disk.text, Disk.create_dir, Function.update_of_ne (tempName_ne_file pid t' t).symm, Disk.create_content]
    refine Option.map_congr fun i hi => ?_
    rw [Function.update_of_ne (h.disk.create_ne (tempName_ne_file pid t' t).symm hi)]
  | @wrote _ t' fd text written rest n hn =>
    subst hd
    obtain ⟨-, -, -, hseen, -⟩ := hfits
    refine Option.map_congr fun i hi => ?_
    rw [Disk.write]
    dsimp only
    rw [Function.update_of_ne]
    rintro rfl
    exact hseen t (h.disk.file t i hi)
  | @removed _ t' =>
    subst hd
    rw [Disk.text, Disk.remove]
    dsimp only
    rw [Function.update_of_ne (tempName_ne_file pid t' t).symm]
    rfl
  | renamed hrename => exact absurd rfl (hop _)
  | _ => rfl

/-- What a reader sees is whole. -/
def SeenWhole (start s : Project) : Prop :=
  (∀ t text, s.disk.text (.file t) = some text → WholeText start.disk s.texts t text) ∧
  ∀ pid verb t text, s.proc pid = some ⟨verb, .seen t text⟩ → WholeText start.disk s.texts t text

/-- A step that is not a rename changes neither file. -/
def RenamesOnly (meets : Project → ℕ → Op → Prop) (s : Project) : Prop :=
  ∀ pid verb op d p p', s.proc pid = some ⟨verb, p⟩ → Moves verb pid op s.disk p d p' → meets s pid op → (∀ t, op ≠ .rename t) →
    ∀ t, d.text (.file t) = s.disk.text (.file t)

/-- A project with a manifest, where nothing runs. -/
def quiet : Project := ⟨⟨fun n => if n = .file .manifest then some 0 else none, fun _ => [9], 1⟩, fun _ => none, []⟩

theorem quiet_idle : quiet.Idle where
  proc _ := rfl
  texts := rfl
  used n i hi := by
    simp only [quiet, Option.ite_none_right_eq_some, Option.some.injEq] at hi
    exact hi.2 ▸ Nat.zero_lt_one
  distinct n n' i hi hi' := by
    simp only [quiet, Option.ite_none_right_eq_some] at hi hi'
    exact hi.1.trans hi'.1.symm

theorem run_head {meets : Project → ℕ → Op → Prop} (pid : ℕ) (hp : s.proc pid = some ⟨v, p⟩) (hmoves : Moves v pid op s.disk p d p')
    (hmeets : meets s pid op) (hrun : Run meets ⟨d, Function.update s.proc pid (some ⟨v, p'⟩), p'.offers ++ s.texts⟩ s') :
    Run meets s s' := .head (.moves hp hmoves hmeets) hrun

/-- A verb that adds a byte to a package manifest. -/
def appendByte (b : UInt8) : Verb := mutateManifestFile (fun text => some (.package text : Document Bytes Unit)) id (· ++ [b])

/-- A verb that adds a byte to a workspace manifest and locks. -/
def appendAndLock (b : UInt8) : Verb :=
  applyWorkspaceManifestChange (fun text => some (.workspace text : Document Unit Bytes)) id (· ++ [b]) fun w => some w.reverse

end Milpa.Core.ProjectFiles
