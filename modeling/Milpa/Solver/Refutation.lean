import Milpa.Order.BTreeMap
import Milpa.Solver.ConstraintText
import Milpa.Types.Sort

/-!
# Refutations

Where a solve fails, PubGrub gives a derivation tree, and `extract_refutation` takes from
it the constraints that are shown to contradict each other. It keeps a package if at least
two constraints on it, with different texts, have an empty intersection. What it keeps is
unsatisfiable, but it may keep nothing: a tree can also refute by one constraint that no
version meets, or by constraints that overlap where there is no version
(`refutes_iff_tornApart`).

A solver key is compared by its origin string alone, which stands for it here.
-/

namespace Milpa.Solver

open VersionSet

/-! ### Providers -/

/-- `PackageProvider`, as far as PubGrub asks it: the versions in its constraints were read from text. -/
structure PackageProvider where
  versions : Str → List Version
  dependencies : Str → Version → List (Str × VersionSet)
  readable : ∀ package version, ∀ d ∈ dependencies package version, d.2.Readable

/-- A constraint more on a package: it is intersected with one that is there. -/
def mergeConstraint (merged : BTreeMap Str VersionSet) (d : Str × VersionSet) : BTreeMap Str VersionSet :=
  match merged.get? d.1 with
  | some vs => merged.insert d.1 (vs.intersect d.2)
  | none => merged.insert d.1 d.2

/-- `get_dependencies`: what a version requires, one constraint for each package. -/
def PackageProvider.merged (P : PackageProvider) (package : Str) (version : Version) : BTreeMap Str VersionSet :=
  (P.dependencies package version).foldl mergeConstraint BTreeMap.empty

/-! ### Derivation trees -/

/-- `Term`. -/
inductive Term where
  | positive (set : VersionSet)
  | negative (set : VersionSet)

/-- `External`: why an incompatibility holds that was not derived. -/
inductive External where
  | notRoot (package : Str) (version : Version)
  | noVersions (package : Str) (set : VersionSet)
  | fromDependencyOf (package : Str) (set : VersionSet) (dep : Str) (range : VersionSet)
  | custom (package : Str) (set : VersionSet)

/-- `DerivationTree`. -/
inductive DerivationTree where
  | external (e : External)
  | derived (terms : List (Str × Term)) (cause1 cause2 : DerivationTree)

/-- The terms of a leaf. -/
def External.terms : External → List (Str × Term)
  | .notRoot package version => [(package, .negative (VersionSet.eq version))]
  | .noVersions package set => [(package, .positive set)]
  | .fromDependencyOf package set dep range => [(package, .positive set), (dep, .negative range)]
  | .custom package set => [(package, .positive set)]

/-- The terms of a tree: they are not all true at once. -/
def DerivationTree.terms : DerivationTree → List (Str × Term)
  | .external e => e.terms
  | .derived terms _ _ => terms

/-- The versions that are selected. -/
abbrev Selection := Str → Option Version

/-- A term is true of what is selected. -/
def Term.Holds (selected : Option Version) : Term → Prop
  | .positive set => ∃ v ∈ selected, set.contains v = true
  | .negative set => ∀ v ∈ selected, set.contains v = false

/-- All terms are true of a selection. -/
def Holds (selection : Selection) (terms : List (Str × Term)) : Prop := ∀ t ∈ terms, t.2.Holds (selection t.1)

section Trees

variable (P : PackageProvider) (root : Str) (rootVersion : Version)

/-- A selection of versions that there are. -/
def Available (selection : Selection) : Prop := ∀ package, ∀ v ∈ selection package, v ∈ P.versions package

/-- A leaf is true of a provider. -/
def External.TrueOf : External → Prop
  | .notRoot package version => package = root ∧ version = rootVersion
  | .noVersions package set => ∀ v ∈ P.versions package, set.contains v = false
  | .fromDependencyOf package set dep range =>
    (∃ v ∈ P.versions package, set.contains v = true) ∧
      ∀ v ∈ P.versions package, set.contains v = true → (P.merged package v).get? dep = some range
  | .custom .. => False

/-- The leaves are true of the provider, and what is derived follows from its causes. -/
inductive WellFormed : DerivationTree → Prop
  | external {e : External} (h : e.TrueOf P root rootVersion) : WellFormed (.external e)
  | derived {terms : List (Str × Term)} {cause1 cause2 : DerivationTree} (h1 : WellFormed cause1) (h2 : WellFormed cause2)
      (h : ∀ selection, Available P selection → Holds selection terms → Holds selection cause1.terms ∨ Holds selection cause2.terms) :
      WellFormed (.derived terms cause1 cause2)

/-- A tree for a conflict: whatever is selected beside the root, its terms are true. -/
structure Conflict (tree : DerivationTree) : Prop where
  wellFormed : WellFormed P root rootVersion tree
  terminal : ∀ selection, Available P selection → selection root = some rootVersion → Holds selection tree.terms

end Trees

/-! ### The extraction -/

/-- `RefutationEntry`. -/
structure RefutationEntry where
  package : Str
  constraint : Str
  deriving DecidableEq, Repr

/-- The requirements at the leaves of a tree, in the order in which its nodes are taken from the stack. -/
def dependencyLeaves : DerivationTree → List (Str × VersionSet)
  | .external (.fromDependencyOf _ _ dep range) => [(dep, range)]
  | .external _ => []
  | .derived _ cause1 cause2 => dependencyLeaves cause2 ++ dependencyLeaves cause1

/-- A range more, unless there is one with its text. -/
def addRange (constraints : List (Str × VersionSet)) (range : VersionSet) : List (Str × VersionSet) :=
  if constraints.any fun c => decide (c.1 = toConstraintStr range) then constraints
  else constraints ++ [(toConstraintStr range, range)]

/-- `by_pkg`. -/
def byPackage (leaves : List (Str × VersionSet)) : BTreeMap Str (List (Str × VersionSet)) :=
  leaves.foldl (fun m leaf => m.insert leaf.1 (addRange ((m.get? leaf.1).getD []) leaf.2)) BTreeMap.empty

/-- The constraints have an empty intersection, and there are two of them. -/
def torn (constraints : List (Str × VersionSet)) : Bool :=
  decide (2 ≤ constraints.length) && (constraints.foldl (fun acc c => acc.intersect c.2) full).isEmpty

/-- `extract_refutation`. -/
def extractRefutation (tree : DerivationTree) : List RefutationEntry :=
  sortByKey (fun e => toLex (e.package, e.constraint)) ((byPackage (dependencyLeaves tree)).entries.flatMap fun e =>
    if torn e.2 then e.2.map fun c => ⟨e.1, c.1⟩ else [])

/-! ### What is asked of a refutation -/

/-- The constraint of an entry, as it reads, admits a version. -/
def RefutationEntry.Admits (e : RefutationEntry) (v : Version) : Prop :=
  ∃ s, fromConstraint (some e.constraint) = .ok s ∧ s.contains v = true

/-- The entries are a refutation. -/
structure Refutes (P : PackageProvider) (entries : List RefutationEntry) : Prop where
  nonempty : entries ≠ []
  /-- Whatever version is chosen for each package, there is an entry that does not admit it. -/
  unsatisfiable : ∀ choice : Str → Version, (∀ e ∈ entries, choice e.package ∈ P.versions e.package) →
    ∃ e ∈ entries, ¬ e.Admits (choice e.package)
  /-- Each entry is what a version requires. -/
  declared : ∀ e ∈ entries, ∃ package, ∃ v ∈ P.versions package, ∃ range, (P.merged package v).get? e.package = some range ∧
    toConstraintStr range = e.constraint

/-- The ranges that the leaves put on a package. -/
def rangesOn (package : Str) (leaves : List (Str × VersionSet)) : List VersionSet :=
  (leaves.filter fun leaf => decide (leaf.1 = package)).map Prod.snd

/-- The tree has at least two constraints on a package, with different texts, and they have no common place. -/
def TornApart (tree : DerivationTree) (package : Str) : Prop :=
  (∃ a ∈ rangesOn package (dependencyLeaves tree), ∃ b ∈ rangesOn package (dependencyLeaves tree),
      toConstraintStr a ≠ toConstraintStr b) ∧
    ((rangesOn package (dependencyLeaves tree)).foldl intersect full).isEmpty = true

/-! ### The constraints at the leaves -/

theorem readable_mergeConstraint {merged : BTreeMap Str VersionSet} (hm : ∀ k s, merged.get? k = some s → s.Readable)
    {d : Str × VersionSet} (hd : d.2.Readable) : ∀ k s, (mergeConstraint merged d).get? k = some s → s.Readable := by
  intro k s hs
  unfold mergeConstraint at hs
  split at hs
  · rename_i vs hvs
    rw [BTreeMap.get?_insert] at hs
    split_ifs at hs
    · cases hs
      exact (hm _ _ hvs).intersect hd
    · exact hm k s hs
  · rw [BTreeMap.get?_insert] at hs
    split_ifs at hs
    · cases hs
      exact hd
    · exact hm k s hs

theorem readable_merged (P : PackageProvider) {package dep : Str} {v : Version} {range : VersionSet}
    (h : (P.merged package v).get? dep = some range) : range.Readable := by
  have hfold : ∀ k s, (P.merged package v).get? k = some s → s.Readable := by
    refine List.foldlRecOn (motive := fun m : BTreeMap Str VersionSet => ∀ k s, m.get? k = some s → s.Readable)
      (P.dependencies package v) mergeConstraint (fun k s hs => ?_) fun m hm d hd => ?_
    · rw [BTreeMap.get?_empty] at hs
      cases hs
    · exact readable_mergeConstraint hm (P.readable package v d hd)
  exact hfold dep range h

/-- In a tree that is well formed, what is required at a leaf is required by some version. -/
theorem declared_of_mem_dependencyLeaves {P : PackageProvider} {root : Str} {rootVersion : Version} {tree : DerivationTree}
    (h : WellFormed P root rootVersion tree) {leaf : Str × VersionSet} (hleaf : leaf ∈ dependencyLeaves tree) :
    ∃ package, ∃ v ∈ P.versions package, (P.merged package v).get? leaf.1 = some leaf.2 := by
  induction h with
  | @external e he =>
    cases e with
    | notRoot package version => cases hleaf
    | noVersions package set => cases hleaf
    | custom package set => cases hleaf
    | fromDependencyOf package set dep range =>
      obtain ⟨⟨v, hv, hset⟩, hdeps⟩ := he
      rw [List.mem_singleton.mp hleaf]
      exact ⟨package, v, hv, hdeps v hv hset⟩
  | derived _ _ _ ih1 ih2 => exact (List.mem_append.mp hleaf).elim ih2 ih1

theorem mem_rangesOn {package : Str} {leaves : List (Str × VersionSet)} {range : VersionSet} :
    range ∈ rangesOn package leaves ↔ (package, range) ∈ leaves := by
  simp [rangesOn]

/-! ### One range for each text -/

theorem mem_foldl_addRange {ranges : List VersionSet} {acc : List (Str × VersionSet)} {c : Str × VersionSet}
    (h : c ∈ ranges.foldl addRange acc) : c ∈ acc ∨ ∃ range ∈ ranges, c = (toConstraintStr range, range) := by
  induction ranges generalizing acc with
  | nil => exact Or.inl h
  | cons range ranges ih =>
    rcases ih h with hc | ⟨r, hr, rfl⟩
    · unfold addRange at hc
      split_ifs at hc
      · exact Or.inl hc
      · rcases List.mem_append.mp hc with hc | hc
        · exact Or.inl hc
        · exact Or.inr ⟨range, List.mem_cons_self, List.mem_singleton.mp hc⟩
    · exact Or.inr ⟨r, List.mem_cons_of_mem _ hr, rfl⟩

theorem mem_texts_addRange (acc : List (Str × VersionSet)) (range : VersionSet) (text : Str) :
    text ∈ (addRange acc range).map Prod.fst ↔ text ∈ acc.map Prod.fst ∨ text = toConstraintStr range := by
  unfold addRange
  split_ifs with h
  · obtain ⟨c, hc, heq⟩ := List.any_eq_true.mp h
    refine (or_iff_left_of_imp ?_).symm
    rintro rfl
    exact List.mem_map.mpr ⟨c, hc, of_decide_eq_true heq⟩
  · simp

theorem mem_texts_foldl_addRange (ranges : List VersionSet) (acc : List (Str × VersionSet)) (text : Str) :
    text ∈ (ranges.foldl addRange acc).map Prod.fst ↔
      text ∈ acc.map Prod.fst ∨ ∃ range ∈ ranges, text = toConstraintStr range := by
  induction ranges generalizing acc with
  | nil => simp
  | cons range ranges ih => rw [List.foldl_cons, ih, mem_texts_addRange, List.exists_mem_cons_iff, or_assoc]

theorem nodup_texts_foldl_addRange (ranges : List VersionSet) {acc : List (Str × VersionSet)}
    (h : (acc.map Prod.fst).Nodup) : ((ranges.foldl addRange acc).map Prod.fst).Nodup := by
  induction ranges generalizing acc with
  | nil => exact h
  | cons range ranges ih =>
    refine ih ?_
    unfold addRange
    split_ifs with hany
    · exact h
    · rw [List.map_append]
      refine List.Nodup.append h (List.nodup_singleton _) ?_
      rw [List.map_singleton, List.disjoint_singleton]
      intro hmem
      obtain ⟨c, hc, heq⟩ := List.mem_map.mp hmem
      exact hany (List.any_eq_true.mpr ⟨c, hc, decide_eq_true heq⟩)

theorem two_le_length_iff (ranges : List VersionSet) :
    2 ≤ (ranges.foldl addRange []).length ↔ ∃ a ∈ ranges, ∃ b ∈ ranges, toConstraintStr a ≠ toConstraintStr b := by
  have hnodup : ((ranges.foldl addRange []).map Prod.fst).Nodup := nodup_texts_foldl_addRange ranges List.nodup_nil
  have htexts := fun text => mem_texts_foldl_addRange ranges [] text
  simp only [List.map_nil, List.not_mem_nil, false_or] at htexts
  rw [← List.length_map (f := Prod.fst)]
  constructor
  · intro hlen
    obtain ⟨s, t, rest, heq⟩ : ∃ s t rest, (ranges.foldl addRange []).map Prod.fst = s :: t :: rest := by
      match h : (ranges.foldl addRange []).map Prod.fst with
      | [] => rw [h] at hlen; simp at hlen
      | [s] => rw [h] at hlen; simp at hlen
      | s :: t :: rest => exact ⟨s, t, rest, rfl⟩
    rw [heq] at hnodup htexts
    obtain ⟨a, ha, rfl⟩ := (htexts s).mp List.mem_cons_self
    obtain ⟨b, hb, rfl⟩ := (htexts t).mp (List.mem_cons_of_mem _ List.mem_cons_self)
    exact ⟨a, ha, b, hb, fun h => (List.nodup_cons.mp hnodup).1 (h ▸ List.mem_cons_self)⟩
  · rintro ⟨a, ha, b, hb, hne⟩
    have hsub : [toConstraintStr a, toConstraintStr b] ⊆ (ranges.foldl addRange []).map Prod.fst := by
      rintro text hmem
      rcases List.mem_pair.mp hmem with rfl | rfl
      · exact (htexts _).mpr ⟨a, ha, rfl⟩
      · exact (htexts _).mpr ⟨b, hb, rfl⟩
    exact (List.subperm_of_subset (by simpa using hne) hsub).length_le

theorem getD_byPackage (leaves : List (Str × VersionSet)) (package : Str) :
    ((byPackage leaves).get? package).getD [] = (rangesOn package leaves).foldl addRange [] := by
  have hfold : ∀ m : BTreeMap Str (List (Str × VersionSet)),
      ((leaves.foldl (fun m leaf => m.insert leaf.1 (addRange ((m.get? leaf.1).getD []) leaf.2)) m).get? package).getD [] =
        (rangesOn package leaves).foldl addRange ((m.get? package).getD []) := by
    induction leaves with
    | nil => exact fun m => rfl
    | cons leaf leaves ih =>
      intro m
      rw [List.foldl_cons, ih, BTreeMap.get?_insert]
      by_cases hp : leaf.1 = package
      · simp [rangesOn, hp]
      · simp [rangesOn, hp, Ne.symm hp]
  exact hfold BTreeMap.empty

/-! ### Intersections -/

theorem isEmpty_iff_not_covers {s : VersionSet} (h : CanonicalForm s.intervals) :
    s.isEmpty = true ↔ ∀ x, ¬ Stretch.Covers loCut hiCut s.intervals x := by
  rw [isEmpty, List.isEmpty_iff]
  constructor
  · intro hnil x
    rw [hnil]
    exact Stretch.not_covers_nil loCut hiCut x
  · intro hnone
    cases hs : s.intervals with
    | nil => rfl
    | cons iv rest =>
      rw [hs] at h hnone
      exact absurd h.canonical.covers_lo (hnone _)

/-- An intersection is empty where no cut lies in all the sets. -/
theorem isEmpty_foldl_intersect (l : List VersionSet) :
    (l.foldl intersect full).isEmpty = true ↔
      ∀ x < (⊤ : Cut), ∃ s ∈ l, ¬ Stretch.Covers loCut hiCut s.intervals x := by
  have hcovers : ∀ (x : Cut) (start : VersionSet), Stretch.Covers loCut hiCut (l.foldl intersect start).intervals x ↔
      Stretch.Covers loCut hiCut start.intervals x ∧ ∀ s ∈ l, Stretch.Covers loCut hiCut s.intervals x := by
    intro x
    induction l with
    | nil => simp
    | cons s l ih => intro start; rw [List.foldl_cons, ih, covers_intersect, List.forall_mem_cons, and_assoc]
  have hform : CanonicalForm (l.foldl intersect full).intervals :=
    List.foldlRecOn (motive := fun s : VersionSet => CanonicalForm s.intervals) l intersect canonicalForm_full
      fun s _ t _ => canonicalForm_normalizeIntervals (overlaps s.intervals t.intervals)
  rw [isEmpty_iff_not_covers hform]
  simp only [hcovers, covers_full, not_and, not_forall, exists_prop]

/-- Where ranges have the same texts, one intersection is empty where the other is. -/
theorem isEmpty_foldl_intersect_le {l m : List VersionSet} (hl : ∀ s ∈ l, s.Readable) (hm : ∀ s ∈ m, s.Readable)
    (hsub : ∀ s ∈ l, ∃ t ∈ m, toConstraintStr s = toConstraintStr t)
    (h : (l.foldl intersect full).isEmpty = true) : (m.foldl intersect full).isEmpty = true := by
  rw [isEmpty_foldl_intersect] at h ⊢
  intro x hx
  obtain ⟨s, hs, hnot⟩ := h x hx
  obtain ⟨t, ht, htext⟩ := hsub s hs
  exact ⟨t, ht, fun hc => hnot ((covers_of_toConstraintStr_eq (hl s hs) (hm t ht) htext x).mpr hc)⟩

/-! ### Terms -/

theorem holds_negative {selected : Option Version} {set : VersionSet} (h : ¬ (Term.positive set).Holds selected) :
    (Term.negative set).Holds selected :=
  fun v hv => Bool.eq_false_iff.mpr fun hc => h ⟨v, hv, hc⟩

theorem holds_singleton {selection : Selection} {package : Str} {t : Term} (h : t.Holds (selection package)) :
    Holds selection [(package, t)] := by
  intro t' ht'
  rw [List.mem_singleton.mp ht']
  exact h

theorem holds_pair {selection : Selection} {package package' : Str} {t t' : Term} (h : t.Holds (selection package))
    (h' : t'.Holds (selection package')) : Holds selection [(package, t), (package', t')] := by
  intro t₀ ht₀
  rcases List.mem_pair.mp ht₀ with rfl | rfl
  · exact h
  · exact h'

/-! ### Two conflicts -/

/-- The one version that a package has. -/
def one : Version := .release 1 0 0

theorem readable_release (major minor patch : UInt64) : (Version.release major minor patch).Readable := by
  refine ⟨fun i hi => absurd hi (by simp [Version.release]), ?_⟩
  simp [Version.release]

theorem readable_gte (major minor patch : UInt64) : (gte (.release major minor patch)).Readable := by
  intro iv hiv
  rw [List.mem_singleton.mp hiv]
  exact ⟨fun v hv => Option.mem_some.mp hv ▸ readable_release major minor patch, fun v hv => absurd hv (by simp)⟩

theorem readable_lt (major minor patch : UInt64) : (lt (.release major minor patch)).Readable := by
  intro iv hiv
  rw [List.mem_singleton.mp hiv]
  exact ⟨fun v hv => absurd hv (by simp), fun v hv => Option.mem_some.mp hv ▸ readable_release major minor patch⟩

/-- An application and its plugin; each package has one version. -/
def pluginProvider (app plugin : List (Str × VersionSet)) (happ : ∀ d ∈ app ++ plugin, d.2.Readable) : PackageProvider where
  versions _ := [one]
  dependencies package _ := if package = "app" then app else if package = "plugin" then plugin else []
  readable package _ d hd := by
    split_ifs at hd
    · exact happ d (List.mem_append_left _ hd)
    · exact happ d (List.mem_append_right _ hd)
    · cases hd

/-- The application wants an old library, and the plugin that it requires a new one. -/
def tornProvider : PackageProvider :=
  pluginProvider [("plugin", full), ("lib", lt (.release 1 0 0))] [("lib", gte (.release 1 0 0))] (by
    simpa using ⟨readable_full, readable_lt 1 0 0, readable_gte 1 0 0⟩)

/-- The application and the plugin are not selected together, and the application requires the plugin. -/
def tornTree : DerivationTree :=
  .derived [("app", .positive (VersionSet.eq one))] (.external (.fromDependencyOf "app" (VersionSet.eq one) "plugin" full))
    (.derived [("app", .positive (VersionSet.eq one)), ("plugin", .positive full)]
      (.external (.fromDependencyOf "app" (VersionSet.eq one) "lib" (lt (.release 1 0 0))))
      (.external (.fromDependencyOf "plugin" full "lib" (gte (.release 1 0 0)))))

theorem conflict_tornTree : Conflict tornProvider "app" one tornTree := by
  have hleaf : ∀ {package dep : Str} {range : VersionSet} (set : VersionSet), set.contains one = true →
      (tornProvider.merged package one).get? dep = some range →
      (External.fromDependencyOf package set dep range).TrueOf tornProvider "app" one := by
    intro package dep range set hset hdeps
    refine ⟨⟨one, List.mem_singleton_self one, hset⟩, fun v hv _ => ?_⟩
    rw [List.mem_singleton.mp hv]
    exact hdeps
  refine ⟨.derived (.external (hleaf _ ?_ ?_)) (.derived (.external (hleaf _ ?_ ?_)) (.external (hleaf _ ?_ ?_)) ?_) ?_, ?_⟩
  any_goals decide
  · -- a library that is selected is not in both halves
    intro selection _ hterms
    have happ := hterms _ List.mem_cons_self
    by_cases hlib : (Term.positive (lt (.release 1 0 0))).Holds (selection "lib")
    · obtain ⟨v, hv, hlow⟩ := hlib
      refine Or.inr (holds_pair (hterms _ (List.mem_cons_of_mem _ List.mem_cons_self)) fun w hw => ?_)
      obtain rfl : v = w := Option.some.inj (hv.symm.trans hw)
      refine Bool.eq_false_iff.mpr fun hhigh => ?_
      rw [contains_iff, covers_lt] at hlow
      rw [contains_iff, covers_gte] at hhigh
      exact absurd hlow (not_lt.mpr hhigh.1)
    · exact Or.inl (holds_pair happ (holds_negative hlib))
  · intro selection _ hterms
    by_cases hplugin : (Term.positive full).Holds (selection "plugin")
    · exact Or.inr (holds_pair (hterms _ (List.mem_singleton_self _)) hplugin)
    · exact Or.inl (holds_pair (hterms _ (List.mem_singleton_self _)) (holds_negative hplugin))
  · intro selection _ hroot
    exact holds_singleton ⟨one, hroot, by decide⟩

/-- The application requires a version of the library that there is not. -/
def unmetProvider : PackageProvider :=
  pluginProvider [("lib", gte (.release 2 0 0))] [] (by simpa using readable_gte 2 0 0)

/-- No version of the library is high enough, and the application requires one. -/
def unmetTree : DerivationTree :=
  .derived [("app", .positive (VersionSet.eq one))] (.external (.noVersions "lib" (gte (.release 2 0 0))))
    (.external (.fromDependencyOf "app" (VersionSet.eq one) "lib" (gte (.release 2 0 0))))

theorem conflict_unmetTree : Conflict unmetProvider "app" one unmetTree := by
  refine ⟨.derived (.external ?_) (.external ?_) fun selection _ hterms => ?_, fun selection _ hroot => ?_⟩
  · show ∀ v ∈ [one], _
    decide
  · refine ⟨⟨one, List.mem_singleton_self one, by decide⟩, ?_⟩
    show ∀ v ∈ [one], _
    decide
  · by_cases hlib : (Term.positive (gte (.release 2 0 0))).Holds (selection "lib")
    · exact Or.inl (holds_singleton hlib)
    · exact Or.inr (holds_pair (hterms _ (List.mem_singleton_self _)) (holds_negative hlib))
  · exact holds_singleton ⟨one, hroot, by decide⟩

/-! ### What is extracted -/

section Extraction

variable {P : PackageProvider} {root : Str} {rootVersion : Version} {tree : DerivationTree}

theorem readable_of_mem_rangesOn (h : WellFormed P root rootVersion tree) {package : Str} {range : VersionSet}
    (hr : range ∈ rangesOn package (dependencyLeaves tree)) : range.Readable := by
  obtain ⟨p, v, -, hdeps⟩ := declared_of_mem_dependencyLeaves h (mem_rangesOn.mp hr)
  exact readable_merged P hdeps

theorem torn_iff_tornApart (h : WellFormed P root rootVersion tree) (package : Str) :
    torn ((rangesOn package (dependencyLeaves tree)).foldl addRange []) = true ↔ TornApart tree package := by
  have hread : ∀ range ∈ rangesOn package (dependencyLeaves tree), range.Readable := fun _ hr => readable_of_mem_rangesOn h hr
  have hmap : ∀ c ∈ (rangesOn package (dependencyLeaves tree)).foldl addRange [],
      ∃ range ∈ rangesOn package (dependencyLeaves tree), c = (toConstraintStr range, range) := by
    intro c hc
    exact (mem_foldl_addRange hc).resolve_left (by simp)
  have hfold : ((rangesOn package (dependencyLeaves tree)).foldl addRange []).foldl (fun acc c => acc.intersect c.2) full =
      (((rangesOn package (dependencyLeaves tree)).foldl addRange []).map Prod.snd).foldl intersect full := by
    rw [List.foldl_map]
  have hread' : ∀ s ∈ ((rangesOn package (dependencyLeaves tree)).foldl addRange []).map Prod.snd, s.Readable := by
    intro s hs
    obtain ⟨c, hc, rfl⟩ := List.mem_map.mp hs
    obtain ⟨range, hr, rfl⟩ := hmap c hc
    exact hread range hr
  rw [torn, Bool.and_eq_true, decide_eq_true_eq, two_le_length_iff, hfold, TornApart]
  refine and_congr_right fun _ => ⟨isEmpty_foldl_intersect_le hread' hread ?_, isEmpty_foldl_intersect_le hread hread' ?_⟩
  · intro s hs
    obtain ⟨c, hc, rfl⟩ := List.mem_map.mp hs
    obtain ⟨range, hr, rfl⟩ := hmap c hc
    exact ⟨range, hr, rfl⟩
  · intro s hs
    obtain ⟨c, hc, htext⟩ := List.mem_map.mp
      ((mem_texts_foldl_addRange (rangesOn package (dependencyLeaves tree)) [] _).mpr (Or.inr ⟨s, hs, rfl⟩))
    obtain ⟨range, hr, rfl⟩ := hmap c hc
    exact ⟨range, List.mem_map.mpr ⟨_, hc, rfl⟩, htext.symm⟩

/-- What is extracted is what the leaves say of the packages that are torn apart. -/
theorem mem_extractRefutation (h : WellFormed P root rootVersion tree) {e : RefutationEntry} :
    e ∈ extractRefutation tree ↔
      TornApart tree e.package ∧ ∃ range ∈ rangesOn e.package (dependencyLeaves tree), e.constraint = toConstraintStr range := by
  obtain ⟨package, constraint⟩ := e
  simp only [extractRefutation, mem_sortByKey, List.mem_flatMap, Prod.exists]
  have htexts := mem_texts_foldl_addRange (rangesOn package (dependencyLeaves tree)) [] constraint
  simp only [List.map_nil, List.not_mem_nil, false_or] at htexts
  rw [← torn_iff_tornApart h, ← htexts, ← getD_byPackage]
  constructor
  · rintro ⟨p, constraints, hmem, he⟩
    split_ifs at he with htorn
    · obtain ⟨c, hc, heq⟩ := List.mem_map.mp he
      obtain ⟨rfl, rfl⟩ := RefutationEntry.mk.inj heq
      rw [BTreeMap.mem_entries.mp hmem]
      exact ⟨htorn, List.mem_map_of_mem hc⟩
    · cases he
  · rintro ⟨htorn, hc⟩
    cases hget : (byPackage (dependencyLeaves tree)).get? package with
    | none =>
      rw [hget] at htorn
      exact absurd htorn (by simp [torn])
    | some constraints =>
      rw [hget, Option.getD_some] at htorn hc
      obtain ⟨c, hmem, rfl⟩ := List.mem_map.mp hc
      refine ⟨package, constraints, BTreeMap.mem_entries.mpr hget, ?_⟩
      rw [if_pos htorn]
      exact List.mem_map.mpr ⟨c, hmem, rfl⟩

/-- **What is extracted refutes if and only if some package is torn apart by the leaves.** -/
theorem refutes_iff_tornApart (h : Conflict P root rootVersion tree) :
    Refutes P (extractRefutation tree) ↔ ∃ package, TornApart tree package := by
  constructor
  · intro href
    obtain ⟨e, he⟩ := List.exists_mem_of_ne_nil _ href.nonempty
    exact ⟨e.package, ((mem_extractRefutation h.wellFormed).mp he).1⟩
  · rintro ⟨package, htorn⟩
    have hentry : ∀ range ∈ rangesOn package (dependencyLeaves tree),
        (⟨package, toConstraintStr range⟩ : RefutationEntry) ∈ extractRefutation tree :=
      fun range hr => (mem_extractRefutation h.wellFormed).mpr ⟨htorn, range, hr, rfl⟩
    refine ⟨?_, fun choice _ => ?_, fun e he => ?_⟩
    · obtain ⟨⟨a, ha, -⟩, -⟩ := htorn
      exact List.ne_nil_of_mem (hentry a ha)
    · -- the version that is chosen is missing in one of the ranges, and its text is an entry
      obtain ⟨range, hr, hnot⟩ := (isEmpty_foldl_intersect _).mp htorn.2 _ (cutAt_lt_top (choice package) false)
      refine ⟨_, hentry range hr, ?_⟩
      rintro ⟨s, hs, hcontains⟩
      obtain ⟨t, ht, hsame⟩ := fromConstraint_toConstraintStr (readable_of_mem_rangesOn h.wellFormed hr)
      obtain rfl : s = t := Except.ok.inj (hs.symm.trans ht)
      rw [hsame] at hcontains
      exact hnot ((contains_iff range _).mp hcontains)
    · obtain ⟨-, range, hr, htext⟩ := (mem_extractRefutation h.wellFormed).mp he
      obtain ⟨p, v, hv, hdeps⟩ := declared_of_mem_dependencyLeaves h.wellFormed (mem_rangesOn.mp hr)
      exact ⟨p, v, hv, range, hdeps, htext.symm⟩

end Extraction

theorem refutes_iff_tornApart_plugin :
    Refutes tornProvider (extractRefutation tornTree) ↔ ∃ package, TornApart tornTree package :=
  refutes_iff_tornApart conflict_tornTree

/-- **One constraint that no version meets is a conflict, and nothing is extracted from it.** -/
theorem unmetTree_not_refuted :
    ∃ (P : PackageProvider) (tree : DerivationTree), Conflict P "app" one tree ∧ extractRefutation tree = [] ∧
      ¬ Refutes P (extractRefutation tree) := by
  have hnil : extractRefutation unmetTree = [] := by decide
  exact ⟨unmetProvider, unmetTree, conflict_unmetTree, hnil, fun h => h.nonempty hnil⟩

end Milpa.Solver
