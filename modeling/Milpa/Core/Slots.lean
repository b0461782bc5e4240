import Milpa.Core.Nimcfg
import Milpa.Core.Walk

/-!
# Where a resolve puts its dependencies

The directories that the fetches of a resolve clear and fill, and those that it links in
the end: the destination is `deps_dir` joined with `dep_dir_name`, and a fetch from a
`git` repository has a second directory beside it, `_scratch_` and the name
(`fetch_git`). They stay where they belong exactly when each name is a component of a
path, no name is that of a namespace's directory and none that of another dependency's
second directory (`stays_iff`).
-/

namespace Milpa.Core.Resolver

open Nimcfg (Components join)

/-- A dependency whose directory is cleared and filled, and whether the fetch may be one from a `git` repository. -/
structure Fetch where
  key : DepKey
  git : Bool
  deriving DecidableEq, Repr

/-! ### Directories -/

/-- The destination. -/
def Fetch.dest (depsDir : Components) (f : Fetch) : Components := join depsDir (depDirName f.key.name f.key.namespace)

/-- `Path::file_name`. -/
def fileName (path : Components) : Option Str := path.getLast?.filter fun c => decide (c ≠ "..".toList)

/-- `scratch_parent`, in `fetch_git`: beside the destination, or in the current directory where the destination is the root. -/
def scratchParent (cwd dest : Components) : Components :=
  (if dest = [] then cwd else dest.dropLast) ++ ["_scratch_" ++ (fileName dest).getD "dep"]

/-- The directories that are removed, and filled. -/
def Fetch.touched (depsDir cwd : Components) (f : Fetch) : List Components :=
  f.dest depsDir :: if f.git then [scratchParent cwd (f.dest depsDir)] else []

/-- A directory is, holds, or is in another one. -/
def Meets (a b : Components) : Prop := a <+: b ∨ b <+: a

/-- The directory of a dependency is where it belongs: one level below `deps_dir`, or two, below the directory of its namespace. -/
def Fetch.Placed (depsDir : Components) (f : Fetch) : Prop :=
  f.key.name ≠ ".." ∧
    f.dest depsDir = depsDir ++
      match f.key.namespace with
      | none => [f.key.name]
      | some ns => ["@" ++ ns, f.key.name]

/-- The directories of a resolve stay where they belong: each is in its place, and a fetch does not touch those of other
dependencies. -/
structure Stays (depsDir cwd : Components) (fetches : List Fetch) : Prop where
  placed : ∀ f ∈ fetches, f.Placed depsDir
  apart : ∀ f ∈ fetches, ∀ g ∈ fetches, f.key ≠ g.key → ∀ dir ∈ f.touched depsDir cwd, ¬ Meets dir (g.dest depsDir)

/-! ### Names -/

/-- A name that is a component of a path, and leads down. -/
def IsComponent (name : Str) : Prop := name ≠ [] ∧ name ≠ ".".toList ∧ name ≠ "..".toList ∧ '/' ∉ name

instance (name : Str) : Decidable (IsComponent name) := inferInstanceAs (Decidable (_ ∧ _))

/-- The name of a dependency, and its namespace, are components of a path. -/
def Fetch.Named (f : Fetch) : Prop := IsComponent f.key.name ∧ ∀ ns ∈ f.key.namespace, '/' ∉ ns

instance (f : Fetch) : Decidable f.Named := inferInstanceAs (Decidable (_ ∧ ∀ ns ∈ f.key.namespace, _))

/-- A dependency without a namespace has the name of the directory of another one's namespace. -/
def Fetch.Shadows (f g : Fetch) : Prop := f.key.namespace = none ∧ ∃ ns ∈ g.key.namespace, f.key.name = "@" ++ ns

/-- A dependency has the name of the second directory of another one, of the same namespace. -/
def Fetch.Scratches (f g : Fetch) : Prop :=
  f.git = true ∧ f.key.namespace = g.key.namespace ∧ g.key.name = "_scratch_" ++ f.key.name

/-- The names of the dependencies of a resolve do not get into each other's way. -/
structure Orderly (fetches : List Fetch) : Prop where
  named : ∀ f ∈ fetches, f.Named
  apart : ∀ f ∈ fetches, ∀ g ∈ fetches, ¬ f.Shadows g ∧ ¬ f.Scratches g

/-! ### A component -/

theorem not_mem_of_mem_splitOn {α : Type} [BEq α] [LawfulBEq α] {a : α} {l : List α} : ∀ c ∈ l.splitOn a, a ∉ c := by
  induction l with
  | nil =>
    intro c hc
    rw [List.mem_singleton.mp hc]
    exact List.not_mem_nil
  | cons x l ih =>
    intro c hc
    rw [List.splitOn_cons_eq_if_modifyHead] at hc
    split_ifs at hc with hx
    · rcases List.mem_cons.mp hc with rfl | hc
      · exact List.not_mem_nil
      · exact ih c hc
    · cases hsplit : l.splitOn a with
      | nil => exact absurd hsplit (List.splitOn_ne_nil _ _)
      | cons d ds =>
        rw [hsplit] at hc ih
        rcases List.mem_cons.mp hc with rfl | hc
        · have hne : a ≠ x := fun heq => hx (by simp [heq])
          exact List.not_mem_cons_of_ne_of_not_mem hne (ih d List.mem_cons_self)
        · exact ih c (List.mem_cons_of_mem d hc)

theorem of_mem_components {c text : Str} (h : c ∈ Nimcfg.components text) : c ≠ [] ∧ c ≠ ['.'] ∧ '/' ∉ c := by
  obtain ⟨hmem, hne⟩ := List.mem_filter.mp h
  obtain ⟨hsome, hdot⟩ := of_decide_eq_true hne
  exact ⟨hsome, hdot, not_mem_of_mem_splitOn c hmem⟩

theorem components_eq_self {text : Str} (hne : text ≠ []) (hdot : text ≠ ['.']) (hslash : '/' ∉ text) : Nimcfg.components text = [text] := by
  rw [Nimcfg.components, Str.split, List.splitOn_eq_singleton hslash]
  simp [hne, hdot]

theorem isComponent_of_mem {c text : Str} (h : c ∈ Nimcfg.components text) (hup : c ≠ "..".toList) : IsComponent c := by
  obtain ⟨hsome, hdot, hslash⟩ := of_mem_components h
  exact ⟨hsome, hdot, hup, hslash⟩

theorem IsComponent.components_eq {name : Str} (h : IsComponent name) : Nimcfg.components name = [name] :=
  components_eq_self h.1 h.2.1 h.2.2.2

theorem head?_ne_of_not_mem {text : Str} (h : '/' ∉ text) : text.head? ≠ some '/' := fun heq => h (List.mem_of_mem_head? heq)

/-- What is joined to a directory is in the path. -/
theorem mem_components_of_join {dir : Components} {text : Str} {cs : Components} (h : join dir text = dir ++ cs) :
    ∀ c ∈ cs, c ∈ Nimcfg.components text := by
  intro c hc
  rw [join] at h
  split_ifs at h
  · rw [h]
    exact List.mem_append_right _ hc
  · rwa [List.append_cancel_left h]

variable {depsDir cwd : Components}

/-- The destination of a dependency with a namespace, whatever it is called. -/
theorem join_namespace (name ns : Str) :
    join depsDir (depDirName name (some ns)) = depsDir ++ (Nimcfg.components ('@' :: ns) ++ Nimcfg.components name) := by
  have hname : depDirName name (some ns) = ('@' :: ns) ++ '/' :: name := by simp [depDirName]
  rw [hname, join, if_neg (by simp), Nimcfg.components_append_slash]

theorem placed_iff (f : Fetch) : f.Placed depsDir ↔ f.Named := by
  obtain ⟨⟨name, ns⟩, git⟩ := f
  unfold Fetch.Placed Fetch.Named Fetch.dest
  cases ns with
  | none =>
    simp only [depDirName]
    constructor
    · rintro ⟨hup, hjoin⟩
      have hmem : name ∈ Nimcfg.components name := mem_components_of_join hjoin name List.mem_cons_self
      exact ⟨isComponent_of_mem hmem hup, nofun⟩
    · rintro ⟨h, -⟩
      refine ⟨h.2.2.1, ?_⟩
      rw [join, if_neg (head?_ne_of_not_mem h.2.2.2), h.components_eq]
  | some ns =>
    have hat : ("@" ++ ns : Str) = '@' :: ns := by simp
    simp only [hat, Option.mem_some_iff, forall_eq']
    constructor
    · rintro ⟨hup, hjoin⟩
      have hmem := mem_components_of_join hjoin
      have hns := (of_mem_components (hmem ('@' :: ns) List.mem_cons_self)).2.2
      refine ⟨isComponent_of_mem (hmem name (by simp)) hup, fun hslash => hns (List.mem_cons_of_mem _ hslash)⟩
    · rintro ⟨h, hslash⟩
      have hdir : Nimcfg.components ('@' :: ns) = ['@' :: ns] := components_eq_self (by simp) (by simp) (by simpa using hslash)
      refine ⟨h.2.2.1, ?_⟩
      rw [join_namespace, hdir, h.components_eq]
      rfl

/-! ### Two dependencies -/

/-- Where a dependency lies below `deps_dir`. -/
def Fetch.below (f : Fetch) : Components :=
  match f.key.namespace with
  | none => [f.key.name]
  | some ns => ['@' :: ns, f.key.name]

theorem Fetch.Named.dest_eq {f : Fetch} (h : f.Named) : f.dest depsDir = depsDir ++ f.below := ((placed_iff f).mpr h).2

theorem Fetch.Named.scratchParent_eq {f : Fetch} (h : f.Named) :
    scratchParent cwd (f.dest depsDir) = depsDir ++ (f.below.dropLast ++ ["_scratch_" ++ f.key.name]) := by
  have hbelow : f.below = f.below.dropLast ++ [f.key.name] := by
    unfold Fetch.below
    cases f.key.namespace with
    | none => rfl
    | some ns => rfl
  have hdest : f.dest depsDir = (depsDir ++ f.below.dropLast) ++ [f.key.name] := by
    rw [h.dest_eq, List.append_assoc, ← hbelow]
  have hname : fileName (f.dest depsDir) = some f.key.name := by
    rw [fileName, hdest, List.getLast?_concat]
    exact if_pos (decide_eq_true h.1.2.2.1)
  rw [scratchParent, hname, hdest, if_neg (by simp), List.dropLast_concat, List.append_assoc]
  rfl

theorem meets_append_iff {dir a b : Components} : Meets (dir ++ a) (dir ++ b) ↔ Meets a b := by
  rw [Meets, Meets, List.prefix_append_right_inj, List.prefix_append_right_inj]

/-- Two dependencies meet where one has the name of the directory that the other one is in. -/
theorem meets_below_iff {f g : Fetch} (hne : f.key ≠ g.key) : Meets f.below g.below ↔ f.Shadows g ∨ g.Shadows f := by
  obtain ⟨⟨name, ns⟩, git⟩ := f
  obtain ⟨⟨name', ns'⟩, git'⟩ := g
  unfold Meets Fetch.below Fetch.Shadows
  cases ns with
  | none =>
    cases ns' with
    | none =>
      have hname : name ≠ name' := fun heq => hne (by rw [heq])
      simp [hname, hname.symm]
    | some ns' => simp
  | some ns =>
    cases ns' with
    | none => simp
    | some ns' =>
      have hboth : ¬ (ns = ns' ∧ name = name') := fun ⟨h, h'⟩ => hne (by rw [h, h'])
      have hboth' : ¬ (ns' = ns ∧ name' = name) := fun ⟨h, h'⟩ => hne (by rw [h, h'])
      simp [hboth, hboth']

/-- The second directory of a dependency meets another one that has its name, or the name of the directory it is in. -/
theorem meets_scratch_iff {f g : Fetch} :
    Meets (f.below.dropLast ++ ["_scratch_" ++ f.key.name]) g.below ↔
      (f.key.namespace = g.key.namespace ∧ g.key.name = "_scratch_" ++ f.key.name) ∨ g.Shadows f := by
  obtain ⟨⟨name, ns⟩, git⟩ := f
  obtain ⟨⟨name', ns'⟩, git'⟩ := g
  unfold Meets Fetch.below Fetch.Shadows
  cases ns with
  | none =>
    cases ns' with
    | none =>
      simp only [List.dropLast_singleton, List.nil_append, List.cons_prefix_cons, List.nil_prefix, and_true, true_and]
      constructor
      · rintro (h | h)
        · exact .inl h.symm
        · exact .inl h
      · rintro (h | ⟨ns, h, -⟩)
        · exact .inr h
        · cases h
    | some ns' => simp
  | some ns =>
    cases ns' with
    | none => simp
    | some ns' =>
      simp only [List.dropLast, List.cons_append, List.nil_append, List.cons_prefix_cons, List.nil_prefix, and_true, List.cons.injEq,
        true_and, Option.some.injEq]
      constructor
      · rintro (⟨h, h'⟩ | ⟨h, h'⟩)
        · exact .inl ⟨h, h'.symm⟩
        · exact .inl ⟨h.symm, h'⟩
      · rintro (⟨h, h'⟩ | ⟨h, -⟩)
        · exact .inr ⟨h.symm, h'⟩
        · cases h

theorem apart_iff {f g : Fetch} (hf : f.Named) (hg : g.Named) (hne : f.key ≠ g.key) :
    (∀ dir ∈ f.touched depsDir cwd, ¬ Meets dir (g.dest depsDir)) ↔ ¬ f.Shadows g ∧ ¬ g.Shadows f ∧ ¬ f.Scratches g := by
  rw [Fetch.touched, List.forall_mem_cons, hf.scratchParent_eq, hf.dest_eq, hg.dest_eq, meets_append_iff, meets_below_iff hne, not_or,
    and_assoc, and_congr_right_iff, and_congr_right_iff]
  intro _ hshadow
  cases hgit : f.git with
  | false => simp [Fetch.Scratches, hgit]
  | true =>
    rw [if_pos rfl, List.forall_mem_singleton, meets_append_iff, meets_scratch_iff, or_iff_left hshadow]
    simp only [Fetch.Scratches, hgit, true_and]

theorem Fetch.Shadows.ne {f g : Fetch} (h : f.Shadows g) : f.key ≠ g.key := by
  obtain ⟨hnone, ns, hns, -⟩ := h
  intro heq
  rw [heq, Option.mem_def.mp hns] at hnone
  cases hnone

theorem Fetch.Scratches.ne {f g : Fetch} (h : f.Scratches g) : f.key ≠ g.key := by
  intro heq
  have hlength := congrArg List.length h.2.2
  rw [heq] at hlength
  simp only [List.length_append] at hlength
  have hpos : 0 < "_scratch_".toList.length := by decide
  omega

/-- **The directories of dependencies stay where they belong** exactly when their names do not get into each other's way. -/
theorem stays_iff (depsDir cwd : Components) (fetches : List Fetch) : Stays depsDir cwd fetches ↔ Orderly fetches := by
  constructor
  · intro h
    have hnamed : ∀ f ∈ fetches, f.Named := fun f hf => (placed_iff f).mp (h.placed f hf)
    refine ⟨hnamed, fun f hf g hg => ⟨fun hshadow => ?_, fun hscratch => ?_⟩⟩
    · exact ((apart_iff (hnamed f hf) (hnamed g hg) hshadow.ne).mp (h.apart f hf g hg hshadow.ne)).1 hshadow
    · exact ((apart_iff (hnamed f hf) (hnamed g hg) hscratch.ne).mp (h.apart f hf g hg hscratch.ne)).2.2 hscratch
  · intro h
    refine ⟨fun f hf => (placed_iff f).mpr (h.named f hf), fun f hf g hg hne => ?_⟩
    exact (apart_iff (h.named f hf) (h.named g hg) hne).mpr ⟨(h.apart f hf g hg).1, (h.apart g hg f hf).1, (h.apart f hf g hg).2⟩

end Milpa.Core.Resolver
