import Milpa.Core.TarReaderExact

/-!
# The limits of an extraction

`extract_tar` over a source of bytes: an entry is extracted as soon as it has been read, the
rest of the source is drained, and then come the hardlinks. The extraction is run with a
record of what it writes; without the record it is the extraction of `SafeExtract`
(`erases_recordedEntry`, `erases_recordedHardlink`). Along a run that succeeds the counters
are those of the record, which is within the limits (`extractTarFrom_limits`).
-/

namespace Milpa.Core.SafeExtract

open Posix Result TarReader

/-! ### Programs with a record -/

/-- What an extraction writes: a file, or a symlink. -/
inductive Write where
  | file (target : Path) (content : Bytes)
  | link (target : Path) (text : Bytes)
  deriving DecidableEq, Repr

/-- The bytes of a file. -/
def Write.size : Write → ℕ
  | file _ content => content.length
  | link _ _ => 0

/-- A program that changes a disk, can fail on the way, and has a record of what it has written. -/
def Recorded (ε α : Type) := Disk → (Except ε α × Disk) × List Write

variable {ε ε' α β : Type}

instance : Monad (Recorded ε) where
  pure a := fun d => ((.ok a, d), [])
  bind m f := fun d =>
    match m d with
    | ((.ok a, d'), w) => ((f a d').1, w ++ (f a d').2)
    | ((.error e, d'), w) => ((.error e, d'), w)

/-- A program that writes neither a file nor a symlink. -/
def Recorded.quiet (m : Program ε α) : Recorded ε α := fun d => (m d, [])

/-- A program that writes one, where it succeeds. -/
def Recorded.writing (w : Write) (m : Program ε α) : Recorded ε α := fun d =>
  (m d, match (m d).1 with
    | .ok _ => [w]
    | .error _ => [])

/-- Another error in the place of the one of a program. -/
def Recorded.mapError (f : ε → ε') (m : Recorded ε α) : Recorded ε' α := fun d => (((m d).1.1.mapError f, (m d).1.2), (m d).2)

theorem bind_recorded {m : Recorded ε α} {f : α → Recorded ε β} {d d' : Disk} {b : β} {w : List Write} :
    (m >>= f) d = ((.ok b, d'), w) ↔
      ∃ a d₁ w₁ w₂, m d = ((.ok a, d₁), w₁) ∧ f a d₁ = ((.ok b, d'), w₂) ∧ w = w₁ ++ w₂ := by
  rcases hm : m d with ⟨⟨r, d₁⟩, w₁⟩
  have hbind : (m >>= f) d = match m d with
      | ((.ok a, d'), w) => ((f a d').1, w ++ (f a d').2)
      | ((.error e, d'), w) => ((.error e, d'), w) := rfl
  rw [hbind, hm]
  cases r with
  | error e => simp
  | ok a =>
    constructor
    · intro h
      obtain ⟨hrun, hw⟩ := Prod.mk.inj h
      exact ⟨a, d₁, w₁, (f a d₁).2, rfl, Prod.ext hrun rfl, hw.symm⟩
    · rintro ⟨a', d₂, w₂, w₃, hfirst, hrest, rfl⟩
      cases hfirst
      dsimp only
      rw [hrest]

theorem quiet_recorded {m : Program ε α} {d d' : Disk} {a : α} {w : List Write} (h : Recorded.quiet m d = ((.ok a, d'), w)) :
    m d = (.ok a, d') ∧ w = [] := by
  obtain ⟨hrun, hw⟩ := Prod.mk.inj h
  exact ⟨hrun, hw.symm⟩

theorem writing_recorded {m : Program ε α} {d d' : Disk} {a : α} {v : Write} {w : List Write}
    (h : Recorded.writing v m d = ((.ok a, d'), w)) : m d = (.ok a, d') ∧ w = [v] := by
  obtain ⟨hrun, hw⟩ := Prod.mk.inj h
  rw [hrun] at hw
  exact ⟨hrun, hw.symm⟩

/-- What is quiet adds nothing to the record of what follows. -/
theorem quiet_bind {m : Program ε α} {f : α → Recorded ε β} {d d' : Disk} {b : β} {w : List Write}
    (h : (Recorded.quiet m >>= f) d = ((.ok b, d'), w)) : ∃ a d₁, m d = (.ok a, d₁) ∧ f a d₁ = ((.ok b, d'), w) := by
  obtain ⟨a, d₁, w₁, w₂, hm, hf, hw⟩ := bind_recorded.mp h
  obtain ⟨hrun, hnil⟩ := quiet_recorded hm
  exact ⟨a, d₁, hrun, by rw [hf, hw, hnil, List.nil_append]⟩

/-- A write stands before the record of what follows. -/
theorem writing_bind {m : Program ε α} {f : α → Recorded ε β} {d d' : Disk} {b : β} {v : Write} {w : List Write}
    (h : (Recorded.writing v m >>= f) d = ((.ok b, d'), w)) :
    ∃ a d₁ w', m d = (.ok a, d₁) ∧ f a d₁ = ((.ok b, d'), w') ∧ w = v :: w' := by
  obtain ⟨a, d₁, w₁, w₂, hm, hf, hw⟩ := bind_recorded.mp h
  obtain ⟨hrun, hone⟩ := writing_recorded hm
  exact ⟨a, d₁, w₂, hrun, hf, by rw [hw, hone]; rfl⟩

theorem mapError_recorded {f : ε → ε'} {m : Recorded ε α} {d d' : Disk} {a : α} {w : List Write}
    (h : Recorded.mapError f m d = ((.ok a, d'), w)) : m d = ((.ok a, d'), w) := by
  rcases hm : m d with ⟨⟨r, d₁⟩, w₁⟩
  rw [Recorded.mapError, hm] at h
  obtain ⟨hrun, rfl⟩ := Prod.mk.inj h
  obtain ⟨hr, rfl⟩ := Prod.mk.inj hrun
  obtain rfl : r = .ok a := Result.mapError_eq_ok.mp hr
  rfl

/-- A program with a record, without it. -/
def Erases (m : Recorded ε α) (p : Program ε α) : Prop := ∀ d, (m d).1 = p d

theorem erases_pure (a : α) : Erases (pure a : Recorded ε α) (pure a) := fun _ => rfl

theorem erases_quiet (p : Program ε α) : Erases (.quiet p) p := fun _ => rfl

theorem erases_writing (w : Write) (p : Program ε α) : Erases (.writing w p) p := fun _ => rfl

theorem Recorded.bind_apply (m : Recorded ε α) (f : α → Recorded ε β) (d : Disk) :
    (m >>= f) d = match m d with
      | ((.ok a, d'), w) => ((f a d').1, w ++ (f a d').2)
      | ((.error e, d'), w) => ((.error e, d'), w) := rfl

theorem Erases.bind {m : Recorded ε α} {p : Program ε α} {f : α → Recorded ε β} {g : α → Program ε β} (hm : Erases m p)
    (hf : ∀ a, Erases (f a) (g a)) : Erases (m >>= f) (p >>= g) := by
  intro d
  rw [Recorded.bind_apply, Program.bind_apply, ← hm d]
  rcases m d with ⟨⟨r, d₁⟩, w₁⟩
  cases r with
  | error e => rfl
  | ok a => exact hf a d₁

/-! ### The extraction, with its record -/

section Extract

variable (destRoot : Path) (strip : ℕ) (limits : Limits)

/-- `extractSymlink`, with the record. -/
def recordedSymlink (p : Progress) (entry : TarEntry) (target : Path) : Recorded ExtractError Progress := do
  .quiet (reject (startsWith (normalizeLexical (joinText (linkDir destRoot target) entry.linkname)) destRoot = false)
    (.symlinkEscape entry.name entry.linkname))
  .quiet (createParent entry.name target)
  .quiet (unlink target).ignore
  .writing (.link target entry.linkname) ((Posix.symlink entry.linkname target).mapError (.io entry.name))
  .quiet (countFile limits p)

/-- `extractFile`, with the record. -/
def recordedFile (p : Progress) (entry : TarEntry) (target : Path) : Recorded ExtractError Progress := do
  .quiet (reject (limits.maxFileSize < entry.size) (.fileSize entry.name entry.size))
  let p ← .quiet (countBytes limits p entry.size)
  let p ← .quiet (countFile limits p)
  .quiet (createParent entry.name target)
  .writing (.file target entry.data) ((writeFile target entry.data).mapError (.io entry.name))
  pure p

/-- `extractAt`, with the record. -/
def recordedAt (p : Progress) (entry : TarEntry) (target : Path) : Recorded ExtractError Progress := do
  .quiet (reject (startsWith target destRoot = false) (.zipSlip entry.name))
  match entry.kind with
  | .hardLink => pure { p with hardlinks := p.hardlinks ++ [⟨entry.name, entry.linkname, target⟩] }
  | .symlink => recordedSymlink destRoot limits p entry target
  | .dir => do
    .quiet ((createDirAll target).mapError (.io entry.name))
    pure p
  | .file => recordedFile limits p entry target
  | .other => pure p

/-- `extractEntry`, with the record. -/
def recordedEntry (p : Progress) (entry : TarEntry) : Recorded ExtractError Progress :=
  match stripName strip entry.name with
  | none => pure p
  | some stripped => recordedAt destRoot limits p entry (targetOf destRoot stripped)

/-- `extractHardlink`, with the record. -/
def recordedHardlink (p : Progress) (hl : PendingHardlink) : Recorded ExtractError Progress := do
  let stripped ← .quiet (.ofExcept (match stripName strip hl.linkname with
    | some s => .ok s
    | none => .error (.hardlinkStripped hl.name hl.linkname)))
  let resolved := targetOf destRoot stripped
  .quiet (reject (startsWith resolved destRoot = false) (.hardlinkSlip hl.name hl.linkname))
  let content ← .quiet ((readFile resolved).mapError (.hardlinkUnread hl.name hl.linkname))
  .quiet (reject (limits.maxFileSize < content.length) (.fileSize hl.name content.length))
  let p ← .quiet (countBytes limits p content.length)
  let p ← .quiet (countFile limits p)
  .quiet (createParent hl.name hl.target)
  .writing (.file hl.target content) ((writeFile hl.target content).mapError (.io hl.name))
  pure p

/-- `secondPass`, with the record. -/
def recordedSecondPass : List PendingHardlink → Progress → Recorded ExtractError Progress
  | [], p => pure p
  | hl :: rest, p => do
    let p ← recordedHardlink destRoot strip limits p hl
    recordedSecondPass rest p

/-- Why `extract_tar` has no result: the reader stops, or an entry cannot be extracted. -/
inductive StreamError where
  | reader (stop : Stop)
  | extract (e : ExtractError)
  deriving DecidableEq

/-- A step of the reader. -/
def reading (x : Except Stop α) : Recorded StreamError α := .quiet (.ofExcept (x.mapError .reader))

/-- The first pass over the entries of a reader. -/
def streamPass : ℕ → TarEntries → Progress → Recorded StreamError (Progress × TarEntries)
  | 0, _, _ => reading (.error (.fault .fuel))
  | n + 1, t, p => do
    let (entry, t) ← reading (next (t.src.size + 1) t)
    match entry with
    | none => pure (p, t)
    | some entry =>
      let p ← (recordedEntry destRoot strip limits p entry).mapError .extract
      streamPass n t p

/-- `extract_tar`, of a source: the number of files and of bytes, and what is left of the source. -/
def extractTarFrom (src : Source) : Recorded StreamError (ℕ × ℕ × Source) := do
  let (p, t) ← streamPass destRoot strip limits (src.size + 1) (.new src limits.maxFileSize) ⟨0, 0, []⟩
  let rest ← reading (drainToEof t.src)
  let p ← (recordedSecondPass destRoot strip limits p.hardlinks p).mapError .extract
  pure (p.fileCount, p.totalBytes, rest)

/-! ### Without the record -/

theorem erases_recordedSymlink (p : Progress) (entry : TarEntry) (target : Path) :
    Erases (recordedSymlink destRoot limits p entry target) (extractSymlink destRoot limits p entry target) :=
  .bind (erases_quiet _) fun _ => .bind (erases_quiet _) fun _ => .bind (erases_quiet _) fun _ =>
    .bind (erases_writing _ _) fun _ => erases_quiet _

theorem erases_recordedFile (p : Progress) (entry : TarEntry) (target : Path) :
    Erases (recordedFile limits p entry target) (extractFile limits p entry target) :=
  .bind (erases_quiet _) fun _ => .bind (erases_quiet _) fun _ => .bind (erases_quiet _) fun _ => .bind (erases_quiet _) fun _ =>
    .bind (erases_writing _ _) fun _ => erases_pure _

/-- An entry is extracted as `extractEntry` says. -/
theorem erases_recordedEntry (p : Progress) (entry : TarEntry) :
    Erases (recordedEntry destRoot strip limits p entry) (extractEntry destRoot strip limits p entry) := by
  rw [recordedEntry, extractEntry]
  cases stripName strip entry.name with
  | none => exact erases_pure _
  | some stripped =>
    refine .bind (erases_quiet _) fun _ => ?_
    cases entry.kind with
    | hardLink => exact erases_pure _
    | symlink => exact erases_recordedSymlink destRoot limits p entry _
    | dir => exact .bind (erases_quiet _) fun _ => erases_pure _
    | file => exact erases_recordedFile limits p entry _
    | other => exact erases_pure _

/-- A hardlink is extracted as `extractHardlink` says. -/
theorem erases_recordedHardlink (p : Progress) (hl : PendingHardlink) :
    Erases (recordedHardlink destRoot strip limits p hl) (extractHardlink destRoot strip limits p hl) :=
  .bind (erases_quiet _) fun _ => .bind (erases_quiet _) fun _ => .bind (erases_quiet _) fun _ => .bind (erases_quiet _) fun _ =>
    .bind (erases_quiet _) fun _ => .bind (erases_quiet _) fun _ => .bind (erases_quiet _) fun _ =>
      .bind (erases_writing _ _) fun _ => erases_pure _

end Extract

/-! ### Along a run -/

/-- The counters are those of the record, which is within the limits. -/
structure Counts (limits : Limits) (p : Progress) (writes : List Write) : Prop where
  bytes : (writes.map Write.size).sum = p.totalBytes
  files : writes.length = p.fileCount
  total_le : p.totalBytes ≤ limits.maxTotalSize
  file_le : ∀ w ∈ writes, w.size ≤ limits.maxFileSize
  count_le : p.fileCount ≤ limits.maxFileCount

theorem counts_start (limits : Limits) : Counts limits ⟨0, 0, []⟩ [] := ⟨rfl, rfl, Nat.zero_le _, nofun, Nat.zero_le _⟩

variable {destRoot : Path} {strip : ℕ} {limits : Limits} {p p' : Progress} {d d' : Disk} {w writes : List Write}

theorem reject_run {c : Prop} [Decidable c] {e : ExtractError} {u : Unit} (h : reject c e d = (.ok u, d')) : ¬ c := by
  intro hc
  rw [reject, if_pos hc] at h
  cases h

theorem countFile_run (h : countFile limits p d = (.ok p', d')) :
    p.fileCount + 1 ≤ limits.maxFileCount ∧ p' = { p with fileCount := p.fileCount + 1 } := by
  rw [countFile, reject] at h
  by_cases hc : limits.maxFileCount < p.fileCount + 1
  · rw [if_pos hc] at h
    cases h
  · rw [if_neg hc] at h
    cases h
    exact ⟨Nat.not_lt.mp hc, rfl⟩

theorem countBytes_run {size : ℕ} (h : countBytes limits p size d = (.ok p', d')) :
    p.totalBytes + size ≤ limits.maxTotalSize ∧ p' = { p with totalBytes := p.totalBytes + size } := by
  rw [countBytes, reject] at h
  by_cases hc : limits.maxTotalSize < p.totalBytes + size
  · rw [if_pos hc] at h
    cases h
  · rw [if_neg hc] at h
    cases h
    exact ⟨Nat.not_lt.mp hc, rfl⟩

/-- A file is written, and counted. -/
theorem Counts.file (hp : Counts limits p writes) {target : Path} {content : Bytes} (hsize : content.length ≤ limits.maxFileSize)
    (htotal : p.totalBytes + content.length ≤ limits.maxTotalSize) (hcount : p.fileCount + 1 ≤ limits.maxFileCount) :
    Counts limits { p with totalBytes := p.totalBytes + content.length, fileCount := p.fileCount + 1 }
      (writes ++ [.file target content]) where
  bytes := by simp [hp.bytes, Write.size]
  files := by simp [hp.files]
  total_le := htotal
  file_le := by
    intro v hv
    rcases List.mem_append.mp hv with hv | hv
    · exact hp.file_le v hv
    · obtain rfl := List.mem_singleton.mp hv
      exact hsize
  count_le := hcount

/-- A symlink is made, and counted. -/
theorem Counts.link (hp : Counts limits p writes) {target : Path} {text : Bytes} (hcount : p.fileCount + 1 ≤ limits.maxFileCount) :
    Counts limits { p with fileCount := p.fileCount + 1 } (writes ++ [.link target text]) where
  bytes := by simp [hp.bytes, Write.size]
  files := by simp [hp.files]
  total_le := hp.total_le
  file_le := by
    intro v hv
    rcases List.mem_append.mp hv with hv | hv
    · exact hp.file_le v hv
    · obtain rfl := List.mem_singleton.mp hv
      exact Nat.zero_le _
  count_le := hcount

/-- Which hardlinks wait does not count. -/
theorem Counts.waiting (hp : Counts limits p writes) (hardlinks : List PendingHardlink) :
    Counts limits { p with hardlinks := hardlinks } (writes ++ []) := by
  rw [List.append_nil]
  exact ⟨hp.bytes, hp.files, hp.total_le, hp.file_le, hp.count_le⟩

theorem recordedSymlink_counts {entry : TarEntry} {target : Path} (hp : Counts limits p writes)
    (h : recordedSymlink destRoot limits p entry target d = ((.ok p', d'), w)) : Counts limits p' (writes ++ w) := by
  obtain ⟨_, _, -, h⟩ := quiet_bind h
  obtain ⟨_, _, -, h⟩ := quiet_bind h
  obtain ⟨_, _, -, h⟩ := quiet_bind h
  obtain ⟨_, _, w', -, hcount, hw⟩ := writing_bind h
  obtain ⟨hrun, hnil⟩ := quiet_recorded hcount
  obtain ⟨hle, rfl⟩ := countFile_run hrun
  rw [hw, hnil]
  exact hp.link hle

theorem recordedFile_counts {entry : TarEntry} {target : Path} (hdata : entry.data.length = entry.size) (hp : Counts limits p writes)
    (h : recordedFile limits p entry target d = ((.ok p', d'), w)) : Counts limits p' (writes ++ w) := by
  obtain ⟨_, _, hreject, h⟩ := quiet_bind h
  obtain ⟨p₁, _, hbytes, h⟩ := quiet_bind h
  obtain ⟨p₂, _, hcount, h⟩ := quiet_bind h
  obtain ⟨_, _, -, h⟩ := quiet_bind h
  obtain ⟨_, _, w', -, hend, rfl⟩ := writing_bind h
  cases hend
  have hsize := reject_run hreject
  obtain ⟨htotal, rfl⟩ := countBytes_run hbytes
  obtain ⟨hfiles, rfl⟩ := countFile_run hcount
  rw [← hdata] at hsize htotal ⊢
  exact hp.file (Nat.not_lt.mp hsize) htotal hfiles

/-- **An entry of the first pass.** -/
theorem recordedEntry_counts {entry : TarEntry} (hdata : entry.kind = .file → entry.data.length = entry.size)
    (hp : Counts limits p writes) (h : recordedEntry destRoot strip limits p entry d = ((.ok p', d'), w)) :
    Counts limits p' (writes ++ w) := by
  rw [recordedEntry] at h
  cases hstrip : stripName strip entry.name with
  | none =>
    rw [hstrip] at h
    cases h
    exact hp.waiting _
  | some stripped =>
    rw [hstrip] at h
    obtain ⟨_, _, -, h⟩ := quiet_bind h
    cases hkind : entry.kind with
    | hardLink =>
      rw [hkind] at h
      cases h
      exact hp.waiting _
    | symlink =>
      rw [hkind] at h
      exact recordedSymlink_counts hp h
    | dir =>
      rw [hkind] at h
      obtain ⟨_, _, -, h⟩ := quiet_bind h
      cases h
      exact hp.waiting _
    | file =>
      rw [hkind] at h
      exact recordedFile_counts (hdata hkind) hp h
    | other =>
      rw [hkind] at h
      cases h
      exact hp.waiting _

/-- **A hardlink of the second pass.** -/
theorem recordedHardlink_counts {hl : PendingHardlink} (hp : Counts limits p writes)
    (h : recordedHardlink destRoot strip limits p hl d = ((.ok p', d'), w)) : Counts limits p' (writes ++ w) := by
  obtain ⟨_, _, -, h⟩ := quiet_bind h
  obtain ⟨_, _, -, h⟩ := quiet_bind h
  obtain ⟨content, _, -, h⟩ := quiet_bind h
  obtain ⟨_, _, hreject, h⟩ := quiet_bind h
  obtain ⟨p₁, _, hbytes, h⟩ := quiet_bind h
  obtain ⟨p₂, _, hcount, h⟩ := quiet_bind h
  obtain ⟨_, _, -, h⟩ := quiet_bind h
  obtain ⟨_, _, w', -, hend, rfl⟩ := writing_bind h
  cases hend
  have hsize := reject_run hreject
  obtain ⟨htotal, rfl⟩ := countBytes_run hbytes
  obtain ⟨hfiles, rfl⟩ := countFile_run hcount
  exact hp.file (Nat.not_lt.mp hsize) htotal hfiles

theorem recordedSecondPass_counts {hardlinks : List PendingHardlink} (hp : Counts limits p writes)
    (h : recordedSecondPass destRoot strip limits hardlinks p d = ((.ok p', d'), w)) : Counts limits p' (writes ++ w) := by
  induction hardlinks generalizing p d w writes with
  | nil =>
    cases h
    exact hp.waiting _
  | cons hl rest ih =>
    obtain ⟨p₁, _, w₁, w₂, hfirst, hrest, hw⟩ := bind_recorded.mp h
    rw [hw, ← List.append_assoc]
    exact ih (recordedHardlink_counts hp hfirst) hrest

/-- A step of the reader writes nothing. -/
theorem reading_bind {x : Except Stop α} {f : α → Recorded StreamError β} {b : β} (h : (reading x >>= f) d = ((.ok b, d'), w)) :
    ∃ a, x = .ok a ∧ f a d = ((.ok b, d'), w) := by
  obtain ⟨a, d₁, hx, hf⟩ := quiet_bind h
  obtain ⟨hx, hd⟩ := Prod.mk.inj hx
  exact ⟨a, Result.mapError_eq_ok.mp hx, by rw [hd, hf]⟩

theorem streamPass_counts {fuel : ℕ} {t t' : TarEntries} (hp : Counts limits p writes)
    (h : streamPass destRoot strip limits fuel t p d = ((.ok (p', t'), d'), w)) : Counts limits p' (writes ++ w) := by
  induction fuel generalizing t p d w writes with
  | zero => cases h
  | succ fuel ih =>
    obtain ⟨⟨entry, t₁⟩, hnext, h⟩ := reading_bind h
    cases entry with
    | none =>
      cases h
      exact hp.waiting _
    | some entry =>
      obtain ⟨p₁, _, w₁, w₂, hentry, hrest, hw⟩ := bind_recorded.mp h
      rw [hw, ← List.append_assoc]
      exact ih (recordedEntry_counts (next_file hnext) hp (mapError_recorded hentry)) hrest

theorem bind_program {m : Program ε α} {f : α → Program ε β} {a : α} {d₁ : Disk} (h : m d = (.ok a, d₁)) : (m >>= f) d = f a d₁ := by
  rw [Program.bind_ok (congrArg Prod.fst h), h]

theorem Erases.run {m : Recorded ε α} {prog : Program ε α} {a : α} (h : Erases m prog) (hm : m d = ((.ok a, d'), w)) :
    prog d = (.ok a, d') := by
  rw [← h d, hm]

theorem streamPass_firstPass {fuel : ℕ} {t t' : TarEntries}
    (h : streamPass destRoot strip limits fuel t p d = ((.ok (p', t'), d'), w)) :
    ∃ es, entriesFrom fuel t = .ok (es, t'.src) ∧ firstPass destRoot strip limits es p d = (.ok p', d') := by
  induction fuel generalizing t p d w with
  | zero => cases h
  | succ fuel ih =>
    obtain ⟨⟨entry, t₁⟩, hnext, h⟩ := reading_bind h
    rw [entriesFrom, hnext, ok_bind]
    cases entry with
    | none =>
      cases h
      exact ⟨[], rfl, rfl⟩
    | some entry =>
      obtain ⟨p₁, d₁, w₁, w₂, hentry, hrest, -⟩ := bind_recorded.mp h
      obtain ⟨es, hes, hpass⟩ := ih hrest
      refine ⟨entry :: es, ?_, ?_⟩
      · dsimp only
        rw [hes]
        rfl
      · have hone := (erases_recordedEntry destRoot strip limits p entry).run (mapError_recorded hentry)
        rw [firstPass, bind_program hone]
        exact hpass

theorem erases_recordedSecondPass (hardlinks : List PendingHardlink) (p : Progress) :
    Erases (recordedSecondPass destRoot strip limits hardlinks p) (secondPass destRoot strip limits hardlinks p) := by
  induction hardlinks generalizing p with
  | nil => exact erases_pure p
  | cons hl rest ih => exact .bind (erases_recordedHardlink destRoot strip limits p hl) ih

/-- An extraction that succeeds is that of the entries that the reader gives. -/
theorem extractTarFrom_extractTar {src rest : Source} {count total : ℕ}
    (h : extractTarFrom destRoot strip limits src d = ((.ok (count, total, rest), d'), writes)) :
    ∃ es src', entries src limits.maxFileSize = .ok (es, src') ∧
      extractTar destRoot strip limits ⟨es, .ok ()⟩ d = (.ok (count, total), d') := by
  obtain ⟨⟨p₁, t⟩, d₁, w₁, w₂, hfirst, h, -⟩ := bind_recorded.mp h
  obtain ⟨rest', hdrain, h⟩ := reading_bind h
  obtain ⟨p₂, d₂, w₃, w₄, hsecond, hend, -⟩ := bind_recorded.mp h
  cases hend
  obtain ⟨es, hes, hpass⟩ := streamPass_firstPass hfirst
  refine ⟨es, t.src, hes, ?_⟩
  have hlast := (erases_recordedSecondPass p₁.hardlinks p₁).run (mapError_recorded hsecond)
  rw [extractTar, bind_program hpass]
  change (secondPass destRoot strip limits p₁.hardlinks p₁ >>= _) d₁ = _
  rw [bind_program hlast]
  rfl

/-- An archive of one file of one byte. -/
def fileArchive : Bytes := plainHeader 0x61 0x30 1 ++ [0x61] ++ List.replicate 511 0

/-- What a run comes to. -/
def resultOf (run : (Except ε α × Disk) × List Write) : Except ε α := run.1.1

theorem eq_of_resultOf {run : (Except ε α × Disk) × List Write} {a : α} (h : resultOf run = .ok a) : run = ((.ok a, run.1.2), run.2) :=
  Prod.ext (Prod.ext h rfl) rfl

/-- A disk with the destination. -/
def destDisk : Disk := ⟨.insert [[0x64]] .dir .empty, []⟩

end Milpa.Core.SafeExtract
