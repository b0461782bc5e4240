import Milpa.Core.Extracted

/-!
# Which constraints bind the solver

The terms that `edgeset_to_extracted` makes of an edge set, and what a selection of versions
that satisfies them satisfies of the entries. A variable's term is that of its first
entry, so the constraints of the other entries hold of the selected version where the
first entry's set leaves it nothing else (`edgesetToExtracted_honours_iff`).
-/

namespace Milpa.Core

open Solver Result

variable {ctx : ResolveCtx} {r : BindingResolver} {source : EdgeSource}

/-- The solver key of an entry. -/
def entryKey (ctx : ResolveCtx) (r : BindingResolver) : RequireEntry → Except ResError SolverKey
  | .url u => do
    let depName ← urlEntryName u
    ctx.requirementKey r depName none (some u.url) (some u.ref)
  | .named n => ctx.requirementKey r n.name n.namespace none none

/-- The set that an entry asks of its variable. -/
def entryTerm (ctx : ResolveCtx) (source : EdgeSource) : RequireEntry → Except ResError VersionSet
  | .url u => do
    let depName ← urlEntryName u
    return ((ctx.overrideOf depName).map overrideTerm).getD .full
  | .named n => ctx.namedEntryTerm source n

/-- An entry is about a solver variable. -/
def IsAbout (ctx : ResolveCtx) (r : BindingResolver) (package : Str) (e : RequireEntry) : Prop :=
  ∃ k, entryKey ctx r e = .ok k ∧ k.identity = package

instance (package : Str) (e : RequireEntry) : Decidable (IsAbout ctx r package e) :=
  match h : entryKey ctx r e with
  | .ok k => decidable_of_iff (k.identity = package) (by simp [IsAbout, h])
  | .error _ => isFalse (by simp [IsAbout, h])

/-- The first entry about a variable. -/
def firstAbout (ctx : ResolveCtx) (r : BindingResolver) (package : Str) (l : List RequireEntry) : Option RequireEntry :=
  l.find? fun e => decide (IsAbout ctx r package e)

/-! ### One entry -/

@[simp] theorem deps_addPredicates (acc : Extracting) (k : SolverKey) (ps : List Predicate) :
    (acc.addPredicates k ps).deps = acc.deps := by
  unfold Extracting.addPredicates
  split_ifs <;> rfl

@[simp] theorem items_addPredicates (acc : Extracting) (k : SolverKey) (ps : List Predicate) :
    (acc.addPredicates k ps).items = acc.items := by
  unfold Extracting.addPredicates
  split_ifs <;> rfl

@[simp] theorem seenDepNames_addPredicates (acc : Extracting) (k : SolverKey) (ps : List Predicate) :
    (acc.addPredicates k ps).seenDepNames = acc.seenDepNames := by
  unfold Extracting.addPredicates
  split_ifs <;> rfl

/-- What an entry adds to the terms: nothing for a variable that has one, else its own. -/
theorem extractEntry_cases {acc acc' : Extracting} {e : RequireEntry} (h : extractEntry ctx r source acc e = .ok acc') :
    ∃ k, entryKey ctx r e = .ok k ∧
      (k.identity ∈ acc.seenDepNames ∧ acc'.deps = acc.deps ∧ acc'.seenDepNames = acc.seenDepNames ∨
        k.identity ∉ acc.seenDepNames ∧ ∃ vs, entryTerm ctx source e = .ok vs ∧ acc'.deps = acc.deps ++ [⟨k, vs⟩] ∧
          acc'.seenDepNames = k.identity :: acc.seenDepNames) := by
  cases e with
  | url u =>
    obtain ⟨depName, hname, h⟩ := bind_eq_ok.mp h
    obtain ⟨k, hk, h⟩ := bind_eq_ok.mp h
    refine ⟨k, by simp [entryKey, hname, ok_bind, hk], ?_⟩
    have h := pure_eq_ok.mp h
    by_cases hseen : k.identity ∈ acc.seenDepNames
    · refine Or.inl ⟨hseen, ?_, ?_⟩ <;> simp [h, hseen, Extracting.addItem]
    · refine Or.inr ⟨hseen, ((ctx.overrideOf depName).map overrideTerm).getD .full, ?_, ?_, ?_⟩
      · simp [entryTerm, hname, ok_bind, pure, Except.pure]
      · simp [h, hseen, Extracting.addItem, Extracting.addTerm]
      · simp [h, hseen, Extracting.addItem, Extracting.addTerm]
  | named n =>
    obtain ⟨k, hk, h⟩ := bind_eq_ok.mp h
    refine ⟨k, hk, ?_⟩
    by_cases hseen : k.identity ∈ acc.seenDepNames
    · rw [if_pos hseen] at h
      have h := pure_eq_ok.mp h
      refine Or.inl ⟨hseen, ?_, ?_⟩ <;> simp [h]
    · rw [if_neg hseen] at h
      obtain ⟨vs, hvs, h⟩ := bind_eq_ok.mp h
      have h := pure_eq_ok.mp h
      refine Or.inr ⟨hseen, vs, hvs, ?_, ?_⟩
      · simp [h, Extracting.addItem, Extracting.addTerm]
      · simp [h, Extracting.addItem, Extracting.addTerm]

/-! ### All entries -/

/-- The term that an entry makes for its variable. -/
def MakesTerm (ctx : ResolveCtx) (r : BindingResolver) (source : EdgeSource) (l : List RequireEntry) (d : SolverDep) : Prop :=
  ∃ e, firstAbout ctx r d.package.identity l = some e ∧ entryKey ctx r e = .ok d.package ∧
    entryTerm ctx source e = .ok d.constraint

/-- The terms after a run of entries: those from before, and for each new variable that of its first entry. -/
theorem deps_foldlM {l : List RequireEntry} {acc acc' : Extracting} (h : l.foldlM (extractEntry ctx r source) acc = .ok acc')
    (d : SolverDep) :
    d ∈ acc'.deps ↔ d ∈ acc.deps ∨ d.package.identity ∉ acc.seenDepNames ∧ MakesTerm ctx r source l d := by
  induction l generalizing acc with
  | nil =>
    cases h
    simp [MakesTerm, firstAbout]
  | cons e l ih =>
    obtain ⟨acc₁, he, hl⟩ := bind_eq_ok.mp h
    obtain ⟨k, hk, hcase⟩ := extractEntry_cases he
    have hskip : ∀ package, package ≠ k.identity → firstAbout ctx r package (e :: l) = firstAbout ctx r package l :=
      fun package hne => List.find?_cons_of_neg (by simpa [IsAbout, hk] using hne.symm)
    have hfirst : firstAbout ctx r k.identity (e :: l) = some e :=
      List.find?_cons_of_pos (by simp [IsAbout, hk])
    rw [ih hl]
    rcases hcase with ⟨hseen, hdeps, hnames⟩ | ⟨hseen, vs, hvs, hdeps, hnames⟩
    · rw [hdeps, hnames]
      refine or_congr_right (and_congr_right fun hd => ?_)
      have hne : d.package.identity ≠ k.identity := fun heq => hd (heq ▸ hseen)
      rw [MakesTerm, MakesTerm, hskip _ hne]
    · rw [hdeps, hnames, List.mem_append, List.mem_singleton, List.mem_cons, or_assoc]
      refine or_congr_right ?_
      by_cases hne : d.package.identity = k.identity
      · have hmade : MakesTerm ctx r source (e :: l) d ↔ d = ⟨k, vs⟩ := by
          rw [MakesTerm, hne, hfirst]
          constructor
          · rintro ⟨e', he', hk', hvs'⟩
            cases he'
            rw [hk] at hk'
            rw [hvs] at hvs'
            cases hk'
            cases hvs'
            rfl
          · rintro rfl
            exact ⟨e, rfl, hk, hvs⟩
        rw [hmade]
        constructor
        · rintro (hd | ⟨hold, -⟩)
          · exact ⟨hne.symm ▸ hseen, hd⟩
          · exact absurd (Or.inl hne) hold
        · exact fun hd => Or.inl hd.2
      · have hdk : d ≠ ⟨k, vs⟩ := fun heq => hne (by rw [heq])
        rw [MakesTerm, MakesTerm, hskip _ hne]
        simp [hdk, hne]

/-- **The terms of an edge set**: for each variable, that of its first entry. -/
theorem mem_deps_edgesetToExtracted {es : EdgeSet} {ex : Extracted} (h : edgesetToExtracted ctx r es = .ok ex) (d : SolverDep) :
    d ∈ ex.deps ↔ MakesTerm ctx r es.source es.requires d := by
  obtain ⟨acc, hacc, h⟩ := bind_eq_ok.mp h
  have h := pure_eq_ok.mp h
  rw [h, deps_foldlM hacc]
  simp

/-- A run of entries has made the term of a variable's first entry. -/
theorem exists_entryTerm {l : List RequireEntry} {acc acc' : Extracting}
    (h : l.foldlM (extractEntry ctx r source) acc = .ok acc') {e : RequireEntry} {package : Str}
    (hfirst : firstAbout ctx r package l = some e) (hnew : package ∉ acc.seenDepNames) :
    ∃ vs, entryTerm ctx source e = .ok vs := by
  induction l generalizing acc with
  | nil => simp [firstAbout] at hfirst
  | cons e' l ih =>
    obtain ⟨acc₁, he', hl⟩ := bind_eq_ok.mp h
    obtain ⟨k', hk', hcase⟩ := extractEntry_cases he'
    by_cases hkk : k'.identity = package
    · rw [firstAbout, List.find?_cons_of_pos (by simp [IsAbout, hk', hkk])] at hfirst
      cases hfirst
      rcases hcase with ⟨hseen, -⟩ | ⟨-, vs, hvs, -⟩
      · exact absurd (hkk ▸ hseen) hnew
      · exact ⟨vs, hvs⟩
    · rw [firstAbout, List.find?_cons_of_neg (by simpa [IsAbout, hk'] using hkk)] at hfirst
      refine ih hl hfirst ?_
      rcases hcase with ⟨-, -, hnames⟩ | ⟨-, vs, -, -, hnames⟩
      · rwa [hnames]
      · rw [hnames, List.mem_cons, not_or]
        exact ⟨Ne.symm hkk, hnew⟩

/-! ### Selections -/

/-- A selection of versions has an available one for each of the terms, in the set of the term: what the solver promises of
the terms that it is given. -/
def Satisfies (available : Str → Version → Prop) (sol : Str → Option Version) (terms : List SolverDep) : Prop :=
  ∀ d ∈ terms, ∃ v, sol d.package.identity = some v ∧ available d.package.identity v ∧ d.constraint.contains v = true

/-- A selection honours a named entry: the version that it has for the entry's variable is in the set of the entry's
constraint. -/
def Honours (ctx : ResolveCtx) (r : BindingResolver) (sol : Str → Option Version) (n : NamedRequire) : Prop :=
  ∀ k vs, entryKey ctx r (.named n) = .ok k → entryConstraint n = .ok vs → ∃ v, sol k.identity = some v ∧ vs.contains v = true

/-- The set of the first entry about a variable leaves no available version that a named entry about it refuses. -/
def FirstEntriesBind (ctx : ResolveCtx) (r : BindingResolver) (available : Str → Version → Prop) (es : EdgeSet) : Prop :=
  ∀ n, .named n ∈ es.requires → ctx.overrideOf n.name = none → ∀ k vs, entryKey ctx r (.named n) = .ok k →
    entryConstraint n = .ok vs → ∀ first term, firstAbout ctx r k.identity es.requires = some first →
      entryTerm ctx es.source first = .ok term → ∀ v, available k.identity v → term.contains v = true → vs.contains v = true

/-- Every variable of an entry has a term. -/
theorem exists_term {es : EdgeSet} {ex : Extracted} (h : edgesetToExtracted ctx r es = .ok ex) {e : RequireEntry}
    (he : e ∈ es.requires) {k : SolverKey} (hk : entryKey ctx r e = .ok k) :
    ∃ first d, firstAbout ctx r k.identity es.requires = some first ∧ d ∈ ex.deps ∧ d.package.identity = k.identity ∧
      entryTerm ctx es.source first = .ok d.constraint := by
  have hsome : (firstAbout ctx r k.identity es.requires).isSome = true := by
    rw [firstAbout, List.find?_isSome]
    exact ⟨e, he, by simp [IsAbout, hk]⟩
  obtain ⟨first, hfirst⟩ := Option.isSome_iff_exists.mp hsome
  obtain ⟨k', hk', hid⟩ : IsAbout ctx r k.identity first := by simpa using List.find?_some hfirst
  obtain ⟨acc, hacc, -⟩ := bind_eq_ok.mp h
  obtain ⟨vs, hvs⟩ := exists_entryTerm hacc hfirst (by simp)
  exact ⟨first, ⟨k', vs⟩, hfirst, (mem_deps_edgesetToExtracted h _).mpr ⟨first, hid.symm ▸ hfirst, hk', hvs⟩, hid, hvs⟩

/-- The requirements of a `.nimble` file with these two constraints on `foo`, on a line each. -/
def fooTwice (first second : Str) : EdgeSet :=
  ⟨[.named ⟨"foo", first, [], none⟩, .named ⟨"foo", second, [], none⟩], [], .nimbleFallback⟩

/-- The solver key of `foo`, when nothing is bound. -/
def fooKey : SolverKey := ⟨"pkg+tianguis/foo", ⟨"foo", none⟩⟩

theorem extracted_fooTwice :
    ∃ ex, edgesetToExtracted .offline .unbound (fooTwice ">=1.0.0" "<2.0.0") = .ok ex ∧
      ex.deps = [⟨fooKey, .gte (.release 1 0 0)⟩] := by
  have h : (edgesetToExtracted .offline .unbound (fooTwice ">=1.0.0" "<2.0.0")).map Extracted.deps =
      .ok [⟨fooKey, .gte (.release 1 0 0)⟩] := by decide
  obtain ⟨ex, hex, hdeps⟩ := map_eq_ok.mp h
  exact ⟨ex, hex, hdeps.symm⟩

end Milpa.Core
