import Mathlib.Logic.Function.Basic
import Mathlib.Logic.Relation
import Milpa.Core.ContentHash
import Milpa.Core.Store

/-!
# The store under concurrency

`admit`, `admit_with_hash` and `link` of `store.rs`, one step of the file system at a time,
for any number of processes in any interleaving: the check for the directory of the entry,
the creation of its parent, the rename, the check after a rename that failed, the removal
of the source, and for a link the check, the removal of what is at the target, the creation
of its parent and the symlink itself. Each step that the code checks for an error can fail.
A rename succeeds where there is nothing, and where there is a directory without anything.

The trees are a parameter, with their content hash and the ones that are directories
without anything. The sources are below `_scratch`, the targets of links outside of the
store, so that neither is an entry.
-/

namespace Milpa.Core.Store

open Result

/-- The target of a link: outside of the store, and no directory above it. -/
structure LinkTarget (store : CaStore) where
  path : PathBuf
  clean : Clean path
  outside : ¬ store.root <+: path
  apart : ¬ path <+: store.root

/-- What a process is called for. -/
inductive Call (store : CaStore) where
  /-- `admit`, or `admit_with_hash` with a hash. -/
  | admitWithHash (identity : Str) (precomputedHash : Option Str)
  | link (identity : Str) (target : LinkTarget store)

/-- The errors of the calls. -/
inductive StoreError (E : Type) where
  /-- The content hash of the source failed. -/
  | hash (e : E)
  | identity (e : IdentityError)
  /-- `CAS-IDENTITY-MISMATCH`. -/
  | mismatch (claimed computed : Str)
  /-- `CAS-NOT-IN-STORE`. -/
  | notInStore (identity : Str) (target : PathBuf)
  /-- `INTERNAL_IO`. -/
  | io
  deriving DecidableEq

/-- What a process does next, with the path of the entry; or what its call returned. -/
inductive Pc (E : Type) where
  | start
  | makeParent (canonical : PathBuf)
  | rename (canonical : PathBuf)
  | recheck (canonical : PathBuf)
  | remove (canonical : PathBuf)
  | admitted (canonical : PathBuf)
  | clear (canonical : PathBuf)
  | makeLinkParent (canonical : PathBuf)
  | symlink (canonical : PathBuf)
  | linked
  | failed (e : StoreError E)

/-- The entries of the store, the source of each process, the links, and where each process stands. -/
structure State (T E P : Type) where
  entries : PathBuf → Option T
  sources : P → Option T
  links : PathBuf → Option PathBuf
  pc : P → Pc E

section Model

variable {T E P : Type} [DecidableEq P] (store : CaStore) (contentHash : T → Except E Str) (isBare : T → Bool)
  (calls : P → Call store)

/-- A process goes on to another step. -/
def State.goto (σ : State T E P) (p : P) (pc : Pc E) : State T E P := { σ with pc := Function.update σ.pc p pc }

/-- `actual`: the hash that the caller gives, or else that of the source. -/
def actualHash (source : T) (precomputedHash : Option Str) : Except (StoreError E) Str :=
  match precomputedHash with
  | some h => .ok h
  | none => (contentHash source).mapError .hash

/-- The part of `admit_inner` before the first check: the path of the entry, if the source has the identity. -/
def admission (source : T) (identity : Str) (precomputedHash : Option Str) : Except (StoreError E) PathBuf := do
  let actual ← actualHash contentHash source precomputedHash
  rejectIf (actual ≠ identity) (.mismatch identity actual)
  (store.pathFor identity).mapError .identity

/-- One step of a process. -/
inductive Step (p : P) : State T E P → State T E P → Prop where
  /-- `admit_inner` returns before it looks at the store. -/
  | refused {σ identity hash source e} : calls p = .admitWithHash identity hash → σ.pc p = .start → σ.sources p = some source →
      admission store contentHash source identity hash = .error e → Step p σ (σ.goto p (.failed e))
  /-- `canonical.is_dir()`. -/
  | hit {σ identity hash source canonical} : calls p = .admitWithHash identity hash → σ.pc p = .start → σ.sources p = some source →
      admission store contentHash source identity hash = .ok canonical → σ.entries canonical ≠ none →
      Step p σ (σ.goto p (.remove canonical))
  | miss {σ identity hash source canonical} : calls p = .admitWithHash identity hash → σ.pc p = .start → σ.sources p = some source →
      admission store contentHash source identity hash = .ok canonical → σ.entries canonical = none →
      Step p σ (σ.goto p (.makeParent canonical))
  /-- `create_dir_all(parent)`. -/
  | parentMade {σ canonical} : σ.pc p = .makeParent canonical → Step p σ (σ.goto p (.rename canonical))
  | parentFails {σ canonical} : σ.pc p = .makeParent canonical → Step p σ (σ.goto p (.failed .io))
  /-- `rename(src, &canonical)`. -/
  | renamed {σ canonical source} : σ.pc p = .rename canonical → σ.sources p = some source →
      (∀ old, σ.entries canonical = some old → isBare old = true) →
      Step p σ { σ.goto p (.admitted canonical) with
        entries := Function.update σ.entries canonical (some source)
        sources := Function.update σ.sources p none }
  | renameFails {σ canonical} : σ.pc p = .rename canonical → Step p σ (σ.goto p (.recheck canonical))
  /-- `canonical.is_dir()`, after a rename that failed. -/
  | present {σ canonical} : σ.pc p = .recheck canonical → σ.entries canonical ≠ none → Step p σ (σ.goto p (.remove canonical))
  | absent {σ canonical} : σ.pc p = .recheck canonical → σ.entries canonical = none → Step p σ (σ.goto p (.failed .io))
  /-- `let _ = remove_dir_all(src)`: what is left is nothing, or anything if it fails. -/
  | removed {σ canonical} (left : Option T) : σ.pc p = .remove canonical →
      Step p σ { σ.goto p (.admitted canonical) with sources := Function.update σ.sources p left }
  /-- `link` returns before it looks at the store. -/
  | linkRefused {σ identity target e} : calls p = .link identity target → σ.pc p = .start → store.pathFor identity = .error e →
      Step p σ (σ.goto p (.failed (.identity e)))
  /-- `canonical.is_dir()`. -/
  | linkAbsent {σ identity target canonical} : calls p = .link identity target → σ.pc p = .start →
      store.pathFor identity = .ok canonical → σ.entries canonical = none →
      Step p σ (σ.goto p (.failed (.notInStore identity target.path)))
  | linkPresent {σ identity target canonical} : calls p = .link identity target → σ.pc p = .start →
      store.pathFor identity = .ok canonical → σ.entries canonical ≠ none → Step p σ (σ.goto p (.clear canonical))
  /-- `clear_dest(target)`. -/
  | cleared {σ identity target canonical} : calls p = .link identity target → σ.pc p = .clear canonical →
      Step p σ { σ.goto p (.makeLinkParent canonical) with links := Function.update σ.links target.path none }
  | clearFails {σ canonical} : σ.pc p = .clear canonical → Step p σ (σ.goto p (.failed .io))
  /-- `create_dir_all(parent)`. -/
  | linkParentMade {σ canonical} : σ.pc p = .makeLinkParent canonical → Step p σ (σ.goto p (.symlink canonical))
  | linkParentFails {σ canonical} : σ.pc p = .makeLinkParent canonical → Step p σ (σ.goto p (.failed .io))
  /-- `symlink(&rel, target)`. -/
  | linked {σ identity target canonical} : calls p = .link identity target → σ.pc p = .symlink canonical →
      σ.links target.path = none →
      Step p σ { σ.goto p .linked with
        links := Function.update σ.links target.path (some (relpath canonical target.path.dropLast)) }
  | symlinkFails {σ canonical} : σ.pc p = .symlink canonical → Step p σ (σ.goto p (.failed .io))

/-! ### What holds of every state -/

/-- Each entry has the identity of its path. -/
def EntriesGood (σ : State T E P) : Prop :=
  ∀ path tree, σ.entries path = some tree → ∃ identity, store.pathFor identity = .ok path ∧ contentHash tree = .ok identity

/-- Each link leads to an entry that is there. -/
def LinksGood (σ : State T E P) : Prop :=
  ∀ target text, σ.links target = some text →
    ∃ identity path, store.pathFor identity = .ok path ∧ σ.entries path ≠ none ∧ follow target.dropLast text = path

/-- A process admits a tree with the identity of the path. -/
def Admits (σ : State T E P) (p : P) (canonical : PathBuf) : Prop :=
  ∃ identity hash source, calls p = .admitWithHash identity hash ∧ store.pathFor identity = .ok canonical ∧ σ.sources p = some source ∧
    contentHash source = .ok identity

/-- What is known of a process where it stands. -/
def Stands (σ₀ σ : State T E P) (p : P) : Prop :=
  match σ.pc p with
  | .start => σ.sources p = σ₀.sources p
  | .makeParent canonical => Admits store contentHash calls σ p canonical
  | .rename canonical => Admits store contentHash calls σ p canonical
  | .recheck canonical => Admits store contentHash calls σ p canonical
  | .remove canonical => Admits store contentHash calls σ p canonical ∧ σ.entries canonical ≠ none
  | .admitted canonical => (∃ identity hash, calls p = .admitWithHash identity hash ∧ store.pathFor identity = .ok canonical) ∧
      σ.entries canonical ≠ none ∧ σ.sources p = none
  | .clear canonical => (∃ identity, store.pathFor identity = .ok canonical) ∧ σ.entries canonical ≠ none
  | .makeLinkParent canonical => (∃ identity, store.pathFor identity = .ok canonical) ∧ σ.entries canonical ≠ none
  | .symlink canonical => (∃ identity, store.pathFor identity = .ok canonical) ∧ σ.entries canonical ≠ none
  | .linked => True
  | .failed (.mismatch _ _) => σ.sources p = σ₀.sources p
  | .failed _ => True

/-- The invariant of the runs. -/
structure Sound (σ₀ σ : State T E P) : Prop where
  entries : EntriesGood store contentHash σ
  links : LinksGood store σ
  stands : ∀ p, Stands store contentHash calls σ₀ σ p

/-- A state in which no call has begun: the entries and the links are good, and the hashes that callers give are true. -/
structure Start (σ : State T E P) : Prop where
  pc : ∀ p, σ.pc p = .start
  entries : EntriesGood store contentHash σ
  links : LinksGood store σ
  truthful : ∀ p identity hash source, calls p = .admitWithHash identity (some hash) → σ.sources p = some source →
    contentHash source = .ok hash

/-- What a step has to meet: a rename onto an entry that is there brings the tree that is there, and a removal leaves nothing. -/
structure Meets (p : P) (σ σ' : State T E P) : Prop where
  renames : ∀ canonical old, σ.pc p = .rename canonical → σ'.pc p = .admitted canonical → σ.entries canonical = some old →
    σ.sources p = some old
  removes : ∀ canonical, σ.pc p = .remove canonical → σ'.sources p = none

/-- The runs whose steps meet the condition. -/
def Reaches : State T E P → State T E P → Prop :=
  Relation.ReflTransGen fun σ σ' => ∃ p, Step store contentHash isBare calls p σ σ' ∧ Meets p σ σ'

end Model

section Steps

variable {T E P : Type} [DecidableEq P] {store : CaStore} {contentHash : T → Except E Str} {isBare : T → Bool}
  {calls : P → Call store} {σ₀ σ σ' : State T E P} {p q : P}

@[simp] theorem State.goto_entries (pc : Pc E) : (σ.goto p pc).entries = σ.entries := rfl

@[simp] theorem State.goto_sources (pc : Pc E) : (σ.goto p pc).sources = σ.sources := rfl

@[simp] theorem State.goto_links (pc : Pc E) : (σ.goto p pc).links = σ.links := rfl

@[simp] theorem State.goto_pc (pc : Pc E) : (σ.goto p pc).pc = Function.update σ.pc p pc := rfl

/-- What is admitted has the identity that the caller claims. -/
theorem admission_eq_ok {source : T} {identity : Str} {hash : Option Str} {canonical : PathBuf}
    (htrue : ∀ h ∈ hash, contentHash source = .ok h) (h : admission store contentHash source identity hash = .ok canonical) :
    contentHash source = .ok identity ∧ store.pathFor identity = .ok canonical := by
  obtain ⟨actual, hactual, h⟩ := bind_eq_ok.mp h
  obtain ⟨_, hclaimed, hpath⟩ := bind_eq_ok.mp h
  have hidentity : actual = identity := not_not.mp (rejectIf_eq_ok.mp hclaimed)
  have hhash : contentHash source = .ok actual := by
    cases hash with
    | some given => exact Except.ok.inj hactual ▸ htrue given rfl
    | none => exact mapError_eq_ok.mp hactual
  exact ⟨hidentity ▸ hhash, mapError_eq_ok.mp hpath⟩

/-- A step of one process leaves the others where they are. -/
theorem Step.frame (h : Step store contentHash isBare calls p σ σ') (hq : q ≠ p) :
    σ'.pc q = σ.pc q ∧ σ'.sources q = σ.sources q := by
  cases h <;> simp [Function.update_of_ne hq]

/-- An entry that is there stays. -/
theorem Step.entries_ne_none (h : Step store contentHash isBare calls p σ σ') {path : PathBuf} (hpath : σ.entries path ≠ none) :
    σ'.entries path ≠ none := by
  cases h with
  | @renamed canonical source _ _ _ =>
    by_cases heq : path = canonical
    · subst heq
      simp
    · simpa [Function.update_of_ne heq] using hpath
  | _ => exact hpath

/-- An entry that is there keeps its tree. -/
theorem Step.entries_eq (h : Step store contentHash isBare calls p σ σ') (hmeets : Meets p σ σ') {path : PathBuf} {tree : T}
    (hpath : σ.entries path = some tree) : σ'.entries path = some tree := by
  cases h with
  | @renamed canonical source hpc hsource _ =>
    by_cases heq : path = canonical
    · subst heq
      have hsame := hmeets.renames path tree hpc (by simp) hpath
      rw [hsource] at hsame
      simpa using hsame
    · simpa [Function.update_of_ne heq] using hpath
  | _ => exact hpath

omit [DecidableEq P] in
theorem Stands.mono (h : Stands store contentHash calls σ₀ σ q) (hpc : σ'.pc q = σ.pc q) (hsources : σ'.sources q = σ.sources q)
    (hentries : ∀ path, σ.entries path ≠ none → σ'.entries path ≠ none) : Stands store contentHash calls σ₀ σ' q := by
  unfold Stands Admits at *
  rw [hpc, hsources]
  cases hq : σ.pc q with
  | remove canonical => rw [hq] at h; exact ⟨h.1, hentries _ h.2⟩
  | admitted canonical => rw [hq] at h; exact ⟨h.1, hentries _ h.2.1, h.2.2⟩
  | clear canonical => rw [hq] at h; exact ⟨h.1, hentries _ h.2⟩
  | makeLinkParent canonical => rw [hq] at h; exact ⟨h.1, hentries _ h.2⟩
  | symlink canonical => rw [hq] at h; exact ⟨h.1, hentries _ h.2⟩
  | failed e => rw [hq] at h; cases e <;> exact h
  | _ => rw [hq] at h; exact h

omit [DecidableEq P] in
theorem Stands.admits {identity : Str} {hash : Option Str} {source : T} {canonical : PathBuf} (h₀ : Start store contentHash calls σ₀)
    (hp : Stands store contentHash calls σ₀ σ p) (hcall : calls p = .admitWithHash identity hash) (hpc : σ.pc p = .start)
    (hsource : σ.sources p = some source) (hok : admission store contentHash source identity hash = .ok canonical) :
    Admits store contentHash calls σ p canonical := by
  rw [Stands, hpc] at hp
  have htrue : ∀ h ∈ hash, contentHash source = .ok h := by
    rintro h rfl
    exact h₀.truthful p identity h source hcall (hp ▸ hsource)
  obtain ⟨hhash, hpath⟩ := admission_eq_ok htrue hok
  exact ⟨identity, hash, source, hcall, hpath, hsource, hhash⟩

/-- A process stands where its step has brought it. -/
theorem Step.stands (h : Step store contentHash isBare calls p σ σ') (h₀ : Start store contentHash calls σ₀) (hmeets : Meets p σ σ')
    (hp : Stands store contentHash calls σ₀ σ p) : Stands store contentHash calls σ₀ σ' p := by
  cases h with
  | @refused identity hash source e hcall hpc hsource herr =>
    rw [Stands, hpc] at hp
    rw [Stands]
    cases e <;> simp [hp]
  | hit hcall hpc hsource hok hentry =>
    have hadmits := hp.admits h₀ hcall hpc hsource hok
    simp only [Stands, State.goto_pc, Function.update_self]
    exact ⟨hadmits, hentry⟩
  | miss hcall hpc hsource hok hentry =>
    have hadmits := hp.admits h₀ hcall hpc hsource hok
    simp only [Stands, State.goto_pc, Function.update_self]
    exact hadmits
  | parentMade hpc =>
    simp only [Stands, hpc] at hp
    simp only [Stands, State.goto_pc, Function.update_self]
    exact hp
  | @renamed canonical source hpc hsource hbare =>
    simp only [Stands, hpc] at hp
    obtain ⟨identity, hash, _, hcall, hpath, -, -⟩ := hp
    simp only [Stands, State.goto_pc, Function.update_self]
    exact ⟨⟨identity, hash, hcall, hpath⟩, Option.some_ne_none _, trivial⟩
  | renameFails hpc =>
    simp only [Stands, hpc] at hp
    simp only [Stands, State.goto_pc, Function.update_self]
    exact hp
  | present hpc hentry =>
    simp only [Stands, hpc] at hp
    simp only [Stands, State.goto_pc, Function.update_self]
    exact ⟨hp, hentry⟩
  | removed left hpc =>
    have hleft := hmeets.removes _ hpc
    simp only [Stands, hpc] at hp
    obtain ⟨⟨identity, hash, _, hcall, hpath, -, -⟩, hentry⟩ := hp
    simp only [Stands, State.goto_pc, Function.update_self]
    exact ⟨⟨identity, hash, hcall, hpath⟩, hentry, by simpa using hleft⟩
  | linkPresent hcall hpc hpath hentry =>
    simp only [Stands, State.goto_pc, Function.update_self]
    exact ⟨⟨_, hpath⟩, hentry⟩
  | cleared hcall hpc =>
    simp only [Stands, hpc] at hp
    simp only [Stands, State.goto_pc, Function.update_self]
    exact hp
  | linkParentMade hpc =>
    simp only [Stands, hpc] at hp
    simp only [Stands, State.goto_pc, Function.update_self]
    exact hp
  | _ => simp [Stands]

/-- Each entry has the identity of its path, after a step too. -/
theorem Step.entriesGood (h : Step store contentHash isBare calls p σ σ') (hp : Stands store contentHash calls σ₀ σ p)
    (hgood : EntriesGood store contentHash σ) : EntriesGood store contentHash σ' := by
  cases h with
  | @renamed canonical source hpc hsource _ =>
    rw [Stands, hpc] at hp
    obtain ⟨identity, _, source', -, hpath, hsource', hhash⟩ := hp
    rw [hsource] at hsource'
    cases hsource'
    intro path tree htree
    by_cases heq : path = canonical
    · subst heq
      simp only [Function.update_self, Option.some.injEq] at htree
      exact ⟨identity, hpath, htree ▸ hhash⟩
    · exact hgood path tree (by simpa [Function.update_of_ne heq] using htree)
  | _ => exact hgood

/-- Each link leads to an entry that is there, after a step too. -/
theorem Step.linksGood (hroot : Clean store.root) (h : Step store contentHash isBare calls p σ σ')
    (hp : Stands store contentHash calls σ₀ σ p) (hgood : LinksGood store σ) : LinksGood store σ' := by
  have hkept : ∀ target text, σ.links target = some text →
      ∃ identity path, store.pathFor identity = .ok path ∧ σ'.entries path ≠ none ∧ follow target.dropLast text = path :=
    fun target text htext => by
      obtain ⟨identity, path, hpath, hentry, hfollow⟩ := hgood target text htext
      exact ⟨identity, path, hpath, h.entries_ne_none hentry, hfollow⟩
  cases h with
  | @cleared identity target canonical hcall hpc =>
    intro t text htext
    by_cases heq : t = target.path
    · subst heq
      simp at htext
    · exact hkept t text (by simpa [Function.update_of_ne heq] using htext)
  | @linked identity target canonical hcall hpc hnone =>
    simp only [Stands, hpc] at hp
    obtain ⟨⟨identity', hpath⟩, hentry⟩ := hp
    intro t text htext
    by_cases heq : t = target.path
    · subst heq
      simp only [Function.update_self, Option.some.injEq] at htext
      subst htext
      exact ⟨identity', canonical, hpath, hentry, follow_relpath (pathFor_clean hroot hpath) _⟩
    · exact hkept t text (by simpa [Function.update_of_ne heq] using htext)
  | _ => exact hkept

/-- A step that meets the condition keeps the invariant. -/
theorem Sound.step (hroot : Clean store.root) (h₀ : Start store contentHash calls σ₀) (hσ : Sound store contentHash calls σ₀ σ)
    (h : Step store contentHash isBare calls p σ σ') (hmeets : Meets p σ σ') : Sound store contentHash calls σ₀ σ' where
  entries := h.entriesGood (hσ.stands p) hσ.entries
  links := h.linksGood hroot (hσ.stands p) hσ.links
  stands q := by
    by_cases hq : q = p
    · subst hq
      exact h.stands h₀ hmeets (hσ.stands q)
    · obtain ⟨hpc, hsources⟩ := h.frame hq
      exact (hσ.stands q).mono hpc hsources fun path => h.entries_ne_none

omit [DecidableEq P] in
theorem Start.sound (h₀ : Start store contentHash calls σ₀) : Sound store contentHash calls σ₀ σ₀ where
  entries := h₀.entries
  links := h₀.links
  stands p := by
    rw [Stands, h₀.pc p]

/-- The invariant holds in every state of a run. -/
theorem Reaches.sound (hroot : Clean store.root) (h₀ : Start store contentHash calls σ₀)
    (h : Reaches store contentHash isBare calls σ₀ σ) : Sound store contentHash calls σ₀ σ := by
  induction h with
  | refl => exact h₀.sound
  | tail _ hstep ih =>
    obtain ⟨p, hstep, hmeets⟩ := hstep
    exact ih.step hroot h₀ hstep hmeets

/-- An entry keeps its tree in a run. -/
theorem Reaches.entries_eq (h : Reaches store contentHash isBare calls σ σ') {path : PathBuf} {tree : T}
    (hpath : σ.entries path = some tree) : σ'.entries path = some tree := by
  induction h with
  | refl => exact hpath
  | tail _ hstep ih =>
    obtain ⟨p, hstep, hmeets⟩ := hstep
    exact hstep.entries_eq hmeets ih

/-- A call that is refused because of its identity has changed nothing. -/
theorem Step.of_mismatch (h : Step store contentHash isBare calls p σ σ') {claimed computed : Str}
    (hpc : σ'.pc p = .failed (.mismatch claimed computed)) :
    σ.pc p = .start ∧ σ'.entries = σ.entries ∧ σ'.sources = σ.sources ∧ σ'.links = σ.links := by
  cases h with
  | refused _ hstart => exact ⟨hstart, rfl, rfl, rfl⟩
  | _ => simp at hpc

/-- The identity of a tree without a file. -/
def emptyIdentity : Str := "dag-sha256:e3b0c44298fc1c149afbf4c8996fb92427ae41e4649b934ca495991b7852b855".toList

/-- A directory without anything, and one that has a directory only. -/
def raceSources : Bool → DiskTree
  | false => BTreeMap.empty
  | true => BTreeMap.empty.insert [DagIdentity.textBytes "build"] .dir

/-- The store, and the path of the entry. -/
def raceStore : CaStore := ⟨["/".toList, "cas".toList]⟩

def racePath : PathBuf := ["/".toList, "cas".toList, "dag-sha256".toList, emptyIdentity.drop 11]

/-- Two processes admit the two trees. -/
def raceCalls (_ : Bool) : Call raceStore := .admitWithHash emptyIdentity none

def raceStart : State DiskTree HashError Bool := ⟨fun _ => none, fun p => some (raceSources p), fun _ => none, fun _ => .start⟩

theorem raceStart_start : Start raceStore computeContentHash raceCalls raceStart where
  pc _ := rfl
  entries _ _ h := by cases h
  links _ _ h := by cases h
  truthful p _ _ _ h := by cases h

theorem race_admission (p : Bool) : admission raceStore computeContentHash (raceSources p) emptyIdentity none = .ok racePath := by
  revert p
  decide +kernel

/-- The steps of the race that are taken before both processes rename. -/
def raceReady : State DiskTree HashError Bool :=
  (((raceStart.goto false (.makeParent racePath)).goto true (.makeParent racePath)).goto false (.rename racePath)).goto true
    (.rename racePath)

/-- The first process has renamed. -/
def raceFirst : State DiskTree HashError Bool :=
  { raceReady.goto false (.admitted racePath) with
    entries := Function.update raceReady.entries racePath (some (raceSources false))
    sources := Function.update raceReady.sources false none }

/-- The second process has renamed. -/
def raceSecond : State DiskTree HashError Bool :=
  { raceFirst.goto true (.admitted racePath) with
    entries := Function.update raceFirst.entries racePath (some (raceSources true))
    sources := Function.update raceFirst.sources true none }

/-- The trees that a rename can replace. -/
def isBareTree (tree : DiskTree) : Bool := tree.entries.isEmpty

theorem raceReady_steps : Relation.ReflTransGen
    (fun σ σ' => ∃ p, Step raceStore computeContentHash isBareTree raceCalls p σ σ' ∧ Meets p σ σ') raceStart raceReady := by
  have hmeets : ∀ (σ : State DiskTree HashError Bool) p pc, (∀ c, pc ≠ .admitted c) → (∀ c, σ.pc p ≠ .remove c) →
      Meets p σ (σ.goto p pc) := fun σ p pc hpc hremove =>
    ⟨fun c _ _ h => absurd (by simpa using h) (hpc c), fun c h => absurd h (hremove c)⟩
  refine .tail (.tail (.tail (.tail .refl ⟨false, .miss rfl rfl rfl (race_admission false) rfl, ?_⟩)
    ⟨true, .miss rfl rfl rfl (race_admission true) rfl, ?_⟩) ⟨false, .parentMade rfl, ?_⟩) ⟨true, .parentMade rfl, ?_⟩ <;>
    exact hmeets _ _ _ (by simp) (by simp [raceStart, State.goto])

theorem race_first : Step raceStore computeContentHash isBareTree raceCalls false raceReady raceFirst :=
  .renamed rfl rfl fun old hold => by cases hold

end Steps

end Milpa.Core.Store
