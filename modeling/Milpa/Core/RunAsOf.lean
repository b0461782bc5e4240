import Milpa.Core.IndexAsOf
import Milpa.Core.Captured

/-!
# Runs as of a time

A step under a bound is a step as of then, unless it fetches a commit from git that is later
(`next_asOf`).
-/

namespace Milpa.Core.Resolver

open Solver Result

variable {bound : Timestamp} {ctx : ResolveCtx} {σ : ResolveState} {c c' : Config}

/-! ### What is the same as of a time -/

@[simp] theorem overrideTargetToRawOrigin_asOf (ov : Override) (index : Index) :
    overrideTargetToRawOrigin ov (indexAsOf bound index) = overrideTargetToRawOrigin ov index := by
  unfold overrideTargetToRawOrigin
  split <;> simp

@[simp] theorem rawSource_asOf (item : Item) (index : Index) : item.rawSource (indexAsOf bound index) = item.rawSource index := by
  cases item <;> simp [Item.rawSource]

@[simp] theorem requirementKey_asOf : (asOf bound ctx).requirementKey = ctx.requirementKey := by
  funext r name ns url gitRef
  simp only [ResolveCtx.requirementKey, canonicalKeyForRequirement, asOf, overrideTargetToRawOrigin_asOf, registrySource_asOf]

@[simp] theorem extractEntry_asOf : extractEntry (asOf bound ctx) = extractEntry ctx := by
  funext r source acc e
  cases e with
  | url u =>
    simp only [extractEntry, extractUrl, requirementKey_asOf]
    rfl
  | named n =>
    simp only [extractEntry, extractNamed, requirementKey_asOf]
    rfl

@[simp] theorem extractRequires_asOf : extractRequires (asOf bound ctx) = extractRequires ctx := by
  funext σ tree name version depDecl schema active ref annotation sourceId
  simp only [extractRequires, edgesetToExtracted, extractEntry_asOf]
  rfl

@[simp] theorem admitNewly_asOf : (asOf bound ctx).admitNewly = ctx.admitNewly := by
  have hkey : (asOf bound ctx).lateKey = ctx.lateKey := by
    funext r d
    cases d <;> simp [ResolveCtx.lateKey]
  have hlate : (asOf bound ctx).admitLate = ctx.admitLate := by
    funext package acc d
    simp only [ResolveCtx.admitLate, hkey]
    rfl
  funext package manifest old new σ
  rw [ResolveCtx.admitNewly, hlate, ResolveCtx.admitNewly]

@[simp] theorem fetchAnyTracked_asOf : fetchAnyTracked (asOf bound ctx) = fetchAnyTracked ctx := by
  funext name expectedIdentity total idx last candidates
  induction candidates generalizing idx last with
  | nil => rfl
  | cons prov candidates ih =>
    simp only [fetchAnyTracked, ih]
    rfl

@[simp] theorem gateOnly_asOf : gateOnly (asOf bound ctx) = gateOnly ctx := by
  have hshadow : checkShadow (asOf bound ctx) = checkShadow ctx := by
    funext r item sid
    cases item with
    | url d =>
      simp only [checkShadow]
      rw [show (asOf bound ctx).index = indexAsOf bound ctx.index from rfl, checkRegistryShadow_asOf]
      rfl
    | _ => rfl
  funext σ item
  simp only [gateOnly, hshadow]
  rw [show (asOf bound ctx).index = indexAsOf bound ctx.index from rfl]
  simp only [rawSource_asOf]
  rfl

@[simp] theorem fixpointRound_asOf : fixpointRound (asOf bound ctx) = fixpointRound ctx := by
  have hadd : addRequests (asOf bound ctx) = addRequests ctx := by
    funext r requests cpe
    simp only [addRequests, requirementKey_asOf]
  have htarget : roundTarget (asOf bound ctx) = roundTarget ctx := by
    funext σ acc target
    simp only [roundTarget, admitNewly_asOf]
  funext σ activations
  simp only [fixpointRound, additionalRequests, hadd, htarget]

@[simp] theorem query_asOf : query (asOf bound ctx) = query ctx := by
  have hmaterialize : materializeNamed (asOf bound ctx) = materializeNamed ctx := by
    funext σ name version entry
    simp only [materializeNamed, extractRequires_asOf, fetchAnyTracked_asOf]
  funext σ package version
  simp only [query, hmaterialize]

/-! ### Workers -/

@[simp] theorem processLocal_asOf : processLocal (asOf bound ctx) = processLocal ctx := by
  funext σ dep
  simp only [processLocal, extractRequires_asOf]
  rfl

@[simp] theorem processTarball_asOf : processTarball (asOf bound ctx) = processTarball ctx := by
  funext σ dep
  simp only [processTarball, extractRequires_asOf, fetchAnyTracked_asOf]
  rfl

@[simp] theorem processOci_asOf : processOci (asOf bound ctx) = processOci ctx := by
  funext σ dep
  simp only [processOci, extractRequires_asOf]
  rfl

/-- The versions of a name become stubs under a bound as they do as of then. -/
theorem processNamed_asOf (hbound : ctx.excludeNewer = some bound) {name : Str} {ns : Option Str} {r : ResolveState × List Item} :
    processNamed ctx σ name ns = .ok r ↔ processNamed (asOf bound ctx) σ name ns = .ok r := by
  have hmember : (asOf bound ctx).memberNames = ctx.memberNames := rfl
  simp only [processNamed, hmember]
  split_ifs
  · rfl
  · rfl
  · rfl
  · simp only [bind_eq_ok, enumerateNamed_asOf hbound]

/-- The fetch of a `git` dependency. -/
def gitFetch (ctx : ResolveCtx) (dep : UrlDep) : Except ResError (PackageTree × Receipt × ℕ) :=
  let provs := (candidateUrls ctx dep).map fun url => Transport.git url dep.gitRef (gitPin ctx dep).2
  fetchAnyTracked ctx dep.name (gitPin ctx dep).1 provs.length 0 none provs

/-- A commit is later than a bound, by its committer date. -/
def LaterCommit (bound : Timestamp) (receipt : Receipt) : Prop := ∃ date, receipt.committerDate = some date ∧ bound < date

theorem checkCommitDate_eq_ok (hbound : ctx.excludeNewer = some bound) {name : Str} {receipt : Receipt} {u : Unit} :
    checkCommitDate ctx name receipt = .ok u ↔ ¬ LaterCommit bound receipt := by
  rw [checkCommitDate, hbound, LaterCommit]
  cases receipt.committerDate <;> simp

@[simp] theorem checkCommitDate_asOf {name : Str} {receipt : Receipt} : checkCommitDate (asOf bound ctx) name receipt = .ok () := by
  unfold checkCommitDate
  cases receipt.committerDate <;> rfl

/-- A `git` dependency is visited under a bound as it is as of then, unless its commit is later. -/
theorem visitUrl_asOf (hbound : ctx.excludeNewer = some bound) {dep : UrlDep} {svar : SolverKey} {r : ResolveState × List Item} :
    visitUrl ctx σ dep svar = .ok r ↔
      visitUrl (asOf bound ctx) σ dep svar = .ok r ∧ ∀ fetched, gitFetch ctx dep = .ok fetched → ¬ LaterCommit bound fetched.2.1 := by
  have hpin : gitPin (asOf bound ctx) = gitPin ctx := rfl
  have hurls : candidateUrls (asOf bound ctx) = candidateUrls ctx := rfl
  simp only [visitUrl, hpin, hurls, extractRequires_asOf, fetchAnyTracked_asOf, checkCommitDate_asOf, bind_eq_ok]
  constructor
  · rintro ⟨fetched, hfetch, u, hdate, hrest⟩
    refine ⟨⟨fetched, hfetch, u, trivial, hrest⟩, fun fetched' hfetch' => ?_⟩
    cases hfetch.symm.trans hfetch'
    exact (checkCommitDate_eq_ok hbound).mp hdate
  · rintro ⟨⟨fetched, hfetch, u, -, hrest⟩, hdate⟩
    exact ⟨fetched, hfetch, u, (checkCommitDate_eq_ok hbound).mpr (hdate fetched hfetch), hrest⟩

@[simp] theorem revisitUrl_asOf : revisitUrl (asOf bound ctx) = revisitUrl ctx := by
  funext σ dep svar
  simp only [revisitUrl, admitNewly_asOf]

/-- What a configuration fetches from git in its next step. -/
def fetchedNext (ctx : ResolveCtx) (c : Config) : Option Receipt :=
  match c.tasks with
  | .dispatch (_, .url dep) :: _ =>
    if (dep.git, dep.gitRef, dep.subpath) ∈ c.state.seenUrl then none
    else
      match gitFetch ctx dep with
      | .ok (_, receipt, _) => some receipt
      | .error _ => none
  | _ => none

/-- The next step does not fetch a later commit. -/
def Punctual (bound : Timestamp) (ctx : ResolveCtx) (c : Config) : Prop := ∀ receipt ∈ fetchedNext ctx c, ¬ LaterCommit bound receipt

theorem punctual_asOf : Punctual bound (asOf bound ctx) c ↔ Punctual bound ctx c := by
  have hfetch : gitFetch (asOf bound ctx) = gitFetch ctx := by
    funext dep
    rw [gitFetch, fetchAnyTracked_asOf]
    rfl
  simp only [Punctual, fetchedNext, hfetch]

theorem fetchedNext_of_ne {q : Queued} {rest : List Task} (htasks : c.tasks = .dispatch q :: rest) (hq : ∀ dep, q.2 ≠ .url dep) :
    fetchedNext ctx c = none := by
  obtain ⟨origin, item⟩ := q
  unfold fetchedNext
  rw [htasks]
  cases item with
  | url dep => exact absurd rfl (hq dep)
  | _ => rfl

theorem punctual_url {origin : ItemOrigin} {dep : UrlDep} {rest : List Task} (htasks : c.tasks = .dispatch (origin, .url dep) :: rest) :
    Punctual bound ctx c ↔ ((dep.git, dep.gitRef, dep.subpath) ∉ c.state.seenUrl →
      ∀ fetched, gitFetch ctx dep = .ok fetched → ¬ LaterCommit bound fetched.2.1) := by
  unfold Punctual fetchedNext
  rw [htasks]
  dsimp only
  split_ifs with hseen
  · simp [hseen]
  · cases gitFetch ctx dep <;> simp [hseen]

/-- **A worker does under a bound what it does as of then, unless it fetches a later commit.** -/
theorem dispatch_asOf (hbound : ctx.excludeNewer = some bound) {q : Queued} {rest : List Task} (htasks : c.tasks = .dispatch q :: rest)
    {r : ResolveState × List Item} :
    dispatch ctx c.state q.2 = .ok r ↔ dispatch (asOf bound ctx) c.state q.2 = .ok r ∧ Punctual bound ctx c := by
  have hother : (∀ dep, q.2 ≠ .url dep) → Punctual bound ctx c := fun hq => by
    rw [Punctual, fetchedNext_of_ne htasks hq]
    nofun
  obtain ⟨origin, item⟩ := q
  cases item with
  | url dep =>
    rw [punctual_url htasks]
    simp only [dispatch, processUrl, revisitUrl_asOf]
    split_ifs with hseen
    · simp [hseen]
    · simp only [bind_eq_ok, visitUrl_asOf hbound, hseen, not_false_eq_true, forall_const]
      constructor
      · rintro ⟨svar, hsvar, hvisit, htime⟩
        exact ⟨⟨svar, hsvar, hvisit⟩, htime⟩
      · rintro ⟨⟨svar, hsvar, hvisit⟩, htime⟩
        exact ⟨svar, hsvar, hvisit, htime⟩
  | named name vs ns =>
    rw [dispatch, processNamed_asOf hbound]
    exact (and_iff_left (hother nofun)).symm
  | «local» dep =>
    rw [dispatch, ← processLocal_asOf]
    exact (and_iff_left (hother nofun)).symm
  | tarball dep =>
    rw [dispatch, ← processTarball_asOf]
    exact (and_iff_left (hother nofun)).symm
  | oci dep =>
    rw [dispatch, ← processOci_asOf]
    exact (and_iff_left (hother nofun)).symm

theorem punctual_of_tasks (h : ∀ q rest, c.tasks ≠ .dispatch q :: rest) : Punctual bound ctx c := by
  have hnone : fetchedNext ctx c = none := by
    unfold fetchedNext
    split
    · rename_i origin dep rest htasks
      exact absurd htasks (h _ _)
    · rfl
  rw [Punctual, hnone]
  nofun

/-- **A step under a bound is a step as of then that does not fetch a later commit.** -/
theorem next_asOf (hbound : ctx.excludeNewer = some bound) {r : Option Config} :
    next ctx c = .ok r ↔ next (asOf bound ctx) c = .ok r ∧ Punctual bound ctx c := by
  have horigin : Config.admittedOrigin (asOf bound ctx) = Config.admittedOrigin ctx := rfl
  unfold next
  split
  · rename_i q items survivors rest htasks
    rw [gateOnly_asOf, horigin]
    exact (and_iff_left (punctual_of_tasks (by simp [htasks]))).symm
  · rename_i survivors rest htasks
    exact (and_iff_left (punctual_of_tasks (by simp [htasks]))).symm
  · rename_i q rest htasks
    have hwork : ∀ w, dispatch ctx c.state q.2 = .ok w ↔ dispatch (asOf bound ctx) c.state q.2 = .ok w ∧ Punctual bound ctx c :=
      fun w => dispatch_asOf hbound htasks
    constructor
    · intro h
      split at h
      · cases h
      · rename_i σ items hdispatch
        obtain ⟨hdispatch, htime⟩ := (hwork _).mp hdispatch
        rw [hdispatch]
        exact ⟨h, htime⟩
    · rintro ⟨h, htime⟩
      split at h
      · cases h
      · rename_i σ items hdispatch
        rw [(hwork _).mpr ⟨hdispatch, htime⟩]
        exact h
  · rename_i htasks
    rw [fixpointRound_asOf]
    exact (and_iff_left (punctual_of_tasks (by simp [htasks]))).symm

/-! ### Walks -/

/-- The configurations that a walk passes. -/
def Walks (ctx : ResolveCtx) : Config → Config → Prop := Relation.ReflTransGen fun c c' => next ctx c = .ok (some c')

theorem exhaust_eq_pure {n : ℕ} :
    exhaust ctx (n + 1) c = pure c' ↔
      next ctx c = .ok none ∧ c = c' ∨ ∃ c₁, next ctx c = .ok (some c₁) ∧ exhaust ctx n c₁ = pure c' := by
  have hpure : ∀ {d : Config}, (pure d : Outcome ResError Config) = pure c' ↔ d = c' := fun {d} =>
    ⟨fun h => Except.ok.inj (Option.some.inj h), fun h => congrArg pure h⟩
  have hthrow : ∀ e : ResError, (throw e : Outcome ResError Config) ≠ pure c' := fun e h => nomatch Option.some.inj h
  rw [exhaust]
  cases next ctx c with
  | error e => simp [hthrow]
  | ok o =>
    cases o with
    | none => simp [hpure]
    | some c₁ => simp

/-- **A walk under a bound is a walk as of then that does not fetch a later commit.** -/
theorem exhaust_asOf (hbound : ctx.excludeNewer = some bound) {n : ℕ} :
    exhaust ctx n c = pure c' ↔
      exhaust (asOf bound ctx) n c = pure c' ∧ ∀ d, Walks (asOf bound ctx) c d → Punctual bound ctx d := by
  induction n generalizing c with
  | zero => exact ⟨nofun, fun h => nomatch h.1⟩
  | succ n ih =>
    rw [exhaust_eq_pure, exhaust_eq_pure]
    simp only [next_asOf hbound, ih]
    constructor
    · rintro (⟨⟨hnext, htime⟩, rfl⟩ | ⟨c₁, ⟨hnext, htime⟩, hexhaust, hwalks⟩)
      · refine ⟨.inl ⟨hnext, rfl⟩, fun d hd => ?_⟩
        rcases hd.cases_head with rfl | ⟨c₁, hnext', -⟩
        · exact htime
        · cases hnext.symm.trans hnext'
      · refine ⟨.inr ⟨c₁, hnext, hexhaust⟩, fun d hd => ?_⟩
        rcases hd.cases_head with rfl | ⟨c₂, hnext', hd⟩
        · exact htime
        · cases hnext.symm.trans hnext'
          exact hwalks d hd
    · rintro ⟨⟨hnext, rfl⟩ | ⟨c₁, hnext, hexhaust⟩, hwalks⟩
      · exact .inl ⟨⟨hnext, hwalks _ .refl⟩, rfl⟩
      · exact .inr ⟨c₁, ⟨hnext, hwalks c .refl⟩, hexhaust, fun d hd => hwalks d (.head hnext hd)⟩

end Milpa.Core.Resolver
