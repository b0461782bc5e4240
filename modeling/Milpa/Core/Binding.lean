import Mathlib.Logic.Function.Basic
import Mathlib.Logic.Relation
import Mathlib.Data.List.Perm.Basic
import Milpa.Core.SourceId

/-!
# Binding names to sources

`binding.rs`: `BindingResolver` decides which source each name of the dependency graph
stands for. Root claims are bound when it is made and keep their names; transitive
claims arrive one by one, in the order in which the graph is walked, and the first one
for a name binds it.

The walk's order has no say in the result (`submitAll_order_blind`). `Agree` is the
condition on a whole list of claims, blind to their order, under which none of them
conflicts, and `submitAll_iff_agree` shows by induction on the list that the walk
succeeds exactly under it and what it has bound then. The interned solver keys
do depend on the order: their display name is that of the first claim.
-/

namespace Milpa.Core

/-- `Claim`: one declaration site's claim on a dependency's origin. -/
structure Claim where
  name : Str
  sourceId : SourceId
  isRoot : Bool
  claimant : Str
  deriving DecidableEq, Repr

/-- `BindOutcome`. -/
inductive BindOutcome where
  /-- First claim for the key. -/
  | new
  /-- The claim matches the binding. -/
  | duplicate
  /-- The claim disagrees with a root binding and is discarded. -/
  | lostToRoot
  deriving DecidableEq, Repr

/-- `BindingDecision`. -/
structure BindingDecision where
  accepted : SourceId
  outcome : BindOutcome
  deriving DecidableEq, Repr

/-- `RES-BINDING-CONFLICT`: `conflicting sources for {name}: {existing} vs {claimed}`. -/
structure BindingConflict where
  name : Str
  existing : SourceId
  claimed : SourceId
  deriving DecidableEq, Repr

/-- `key_for`: the key a claim is grouped under. -/
def keyFor (claim : Claim) : DepKey := DepKey.fromSolverVar claim.name

/-- `BindingResolver`. -/
structure BindingResolver where
  bindings : DepKey → Option SourceId
  rootKeys : DepKey → Bool
  solverkeyIndex : Str → Option SolverKey

namespace BindingResolver

/-- The resolver without any binding. -/
def unbound : BindingResolver := ⟨fun _ => none, fun _ => false, fun _ => none⟩

/-- The insertion that `new` and `submit` share: the binding, and the solver key of its origin unless the origin
has one. -/
def bind (r : BindingResolver) (key : DepKey) (sourceId : SourceId) : BindingResolver :=
  let ck := canonical sourceId
  { r with
    bindings := Function.update r.bindings key (some sourceId)
    solverkeyIndex := Function.update r.solverkeyIndex ck (some ((r.solverkeyIndex ck).getD ⟨ck, key⟩)) }

/-- One round of the loop of `new`; `none` is a failed assertion. -/
def bindRoot (r : BindingResolver) (claim : Claim) : Option BindingResolver :=
  if claim.isRoot then
    let key := keyFor claim
    if (r.bindings key).all (· = claim.sourceId) then
      some { r.bind key claim.sourceId with rootKeys := Function.update r.rootKeys key true }
    else none
  else none

/-- `BindingResolver::new`; `none` is a panic. -/
def new (rootClaims : List Claim) : Option BindingResolver := rootClaims.foldlM bindRoot unbound

/-- `submit`: the answer and the resolver after it; `none` is a panic. -/
def submit (r : BindingResolver) (claim : Claim) : Option (Except BindingConflict BindingDecision × BindingResolver) :=
  if claim.isRoot then none
  else
    let key := keyFor claim
    match r.bindings key with
    | none => some (.ok ⟨claim.sourceId, .new⟩, r.bind key claim.sourceId)
    | some existing =>
      if existing = claim.sourceId then some (.ok ⟨existing, .duplicate⟩, r)
      else if r.rootKeys key then some (.ok ⟨existing, .lostToRoot⟩, r)
      else some (.error ⟨claim.name, existing, claim.sourceId⟩, r)

/-- The claims one after the other, as the walk of the graph submits them: the first conflict ends it. -/
def submitAll (r : BindingResolver) : List Claim → Option (Except BindingConflict BindingResolver)
  | [] => some (.ok r)
  | claim :: claims =>
    match r.submit claim with
    | none => none
    | some (.error e, _) => some (.error e)
    | some (.ok _, r') => r'.submitAll claims

/-- `canonical_for`: the solver key of a bound name; `none` is `MILPA-INTERNAL`. -/
def canonicalFor (r : BindingResolver) (key : DepKey) : Option SolverKey :=
  (r.bindings key).map fun sid =>
    let ck := canonical sid
    (r.solverkeyIndex ck).getD ⟨ck, key⟩

/-! ### The steps -/

/-- What `submit` can do. -/
theorem submit_cases {r r' : BindingResolver} {c : Claim} {res : Except BindingConflict BindingDecision}
    (h : r.submit c = some (res, r')) :
    c.isRoot = false ∧
      (r.bindings (keyFor c) = none ∧ res = .ok ⟨c.sourceId, .new⟩ ∧ r' = r.bind (keyFor c) c.sourceId ∨
        r' = r ∧ ∃ existing, r.bindings (keyFor c) = some existing ∧
          (existing = c.sourceId ∧ res = .ok ⟨existing, .duplicate⟩ ∨
            existing ≠ c.sourceId ∧ r.rootKeys (keyFor c) = true ∧ res = .ok ⟨existing, .lostToRoot⟩ ∨
            existing ≠ c.sourceId ∧ r.rootKeys (keyFor c) = false ∧
              res = .error ⟨c.name, existing, c.sourceId⟩)) := by
  unfold submit at h
  split_ifs at h with hroot
  refine ⟨by simpa using hroot, ?_⟩
  cases hb : r.bindings (keyFor c) with
  | none =>
    simp only [hb, Option.some.injEq, Prod.mk.injEq] at h
    exact Or.inl ⟨rfl, h.1.symm, h.2.symm⟩
  | some existing =>
    simp only [hb] at h
    split_ifs at h with heq hkey
    · simp only [Option.some.injEq, Prod.mk.injEq] at h
      exact Or.inr ⟨h.2.symm, existing, rfl, Or.inl ⟨heq, h.1.symm⟩⟩
    · simp only [Option.some.injEq, Prod.mk.injEq] at h
      exact Or.inr ⟨h.2.symm, existing, rfl, Or.inr (Or.inl ⟨heq, hkey, h.1.symm⟩)⟩
    · simp only [Option.some.injEq, Prod.mk.injEq] at h
      exact Or.inr ⟨h.2.symm, existing, rfl, Or.inr (Or.inr ⟨heq, by simpa using hkey, h.1.symm⟩)⟩

/-- A transitive claim is never an assertion failure. -/
theorem exists_submit (r : BindingResolver) {c : Claim} (hc : c.isRoot = false) : ∃ res r', r.submit c = some (res, r') := by
  unfold submit
  rw [if_neg (by simp [hc])]
  dsimp only
  split
  · exact ⟨_, _, rfl⟩
  · split_ifs
    · exact ⟨_, _, rfl⟩
    · exact ⟨_, _, rfl⟩
    · exact ⟨_, _, rfl⟩

/-- The root keys are bound. -/
def RootBound (r : BindingResolver) : Prop := ∀ k, r.rootKeys k = true → (r.bindings k).isSome = true

theorem rootBound_bind {r : BindingResolver} (h : RootBound r) (k : DepKey) (s : SourceId) : RootBound (r.bind k s) := by
  intro k' hk'
  by_cases hk : k' = k
  · simp [bind, hk]
  · simpa [bind, hk] using h k' hk'

theorem rootBound_submit {r r' : BindingResolver} {c : Claim} {res : Except BindingConflict BindingDecision}
    (h : r.submit c = some (res, r')) (hr : RootBound r) : RootBound r' := by
  obtain ⟨-, ⟨-, -, rfl⟩ | ⟨rfl, -⟩⟩ := submit_cases h
  · exact rootBound_bind hr _ _
  · exact hr

/-- `new` binds the root keys and no others. -/
theorem bindings_new {roots : List Claim} {r : BindingResolver} (h : new roots = some r) (k : DepKey) :
    (r.bindings k).isSome = r.rootKeys k := by
  unfold new at h
  have step : ∀ (l : List Claim) (a : BindingResolver), (∀ k, (a.bindings k).isSome = a.rootKeys k) →
      l.foldlM bindRoot a = some r → ∀ k, (r.bindings k).isSome = r.rootKeys k := by
    intro l
    induction l with
    | nil =>
      intro a ha hl
      cases hl
      exact ha
    | cons c l ih =>
      intro a ha hl
      obtain ⟨a', hc, hl⟩ := Option.bind_eq_some_iff.mp hl
      refine ih a' (fun k => ?_) hl
      unfold bindRoot at hc
      dsimp only at hc
      split_ifs at hc
      cases hc
      by_cases hk : k = keyFor c
      · simp [bind, hk]
      · simpa [bind, hk] using ha k
  exact step roots unbound (fun _ => rfl) h k

/-- A round of the loop of `new` binds its claim, and keeps what is bound. -/
theorem bindings_bindRoot {r r' : BindingResolver} {c : Claim} (h : r.bindRoot c = some r') :
    r'.bindings (keyFor c) = some c.sourceId ∧ ∀ k s, r.bindings k = some s → r'.bindings k = some s := by
  unfold bindRoot at h
  dsimp only at h
  split_ifs at h with hroot hall
  cases h
  refine ⟨by simp [bind], fun k s hs => ?_⟩
  by_cases hk : k = keyFor c
  · subst hk
    have hsame : s = c.sourceId := by simpa [hs] using hall
    simp [bind, hsame]
  · simpa [bind, hk] using hs

/-- `new` binds each of its claims. -/
theorem bindings_of_mem_new {claims : List Claim} {r : BindingResolver} (h : new claims = some r) {c : Claim}
    (hc : c ∈ claims) : r.bindings (keyFor c) = some c.sourceId := by
  unfold new at h
  have step : ∀ (l : List Claim) (a : BindingResolver), l.foldlM bindRoot a = some r →
      (∀ k s, a.bindings k = some s → r.bindings k = some s) ∧ ∀ c ∈ l, r.bindings (keyFor c) = some c.sourceId := by
    intro l
    induction l with
    | nil =>
      intro a hl
      cases hl
      exact ⟨fun _ _ h => h, by simp⟩
    | cons d l ih =>
      intro a hl
      obtain ⟨a', hd, hl⟩ := Option.bind_eq_some_iff.mp hl
      obtain ⟨hkeep, hall⟩ := ih a' hl
      obtain ⟨hbound, hkeep'⟩ := bindings_bindRoot hd
      exact ⟨fun k s hs => hkeep k s (hkeep' k s hs), List.forall_mem_cons.mpr ⟨hkeep _ _ hbound, hall⟩⟩
  exact (step claims unbound h).2 c hc

/-- The assertions of `new` hold of root claims that agree with what is bound and with each other. -/
theorem foldlM_bindRoot_isSome {claims : List Claim} (hroot : ∀ c ∈ claims, c.isRoot = true) (r : BindingResolver) :
    (claims.foldlM bindRoot r).isSome = true ↔
      ∀ c ∈ claims, (∀ s ∈ r.bindings (keyFor c), s = c.sourceId) ∧
        ∀ d ∈ claims, keyFor c = keyFor d → c.sourceId = d.sourceId := by
  induction claims generalizing r with
  | nil => simp
  | cons c l ih =>
    obtain ⟨hc, hl⟩ := List.forall_mem_cons.mp hroot
    rw [List.foldlM_cons, bindRoot, if_pos hc]
    dsimp only
    by_cases hall : (r.bindings (keyFor c)).all (· = c.sourceId) = true
    · rw [if_pos hall]
      show (l.foldlM bindRoot _).isSome = true ↔ _
      rw [ih hl]
      have hbound : ∀ s ∈ r.bindings (keyFor c), s = c.sourceId := by simpa [Option.all_eq_true] using hall
      constructor
      · intro h
        have hsame : ∀ d ∈ l, keyFor c = keyFor d → c.sourceId = d.sourceId := fun d hd hk => by
          refine (h d hd).1 c.sourceId ?_
          rw [← hk]
          simp [bind]
        intro d hd
        rcases List.mem_cons.mp hd with rfl | hd'
        · refine ⟨hbound, fun e he hk => ?_⟩
          rcases List.mem_cons.mp he with rfl | he
          · rfl
          · exact hsame e he hk
        · refine ⟨fun s hs => ?_, fun e he hk => ?_⟩
          · by_cases hk : keyFor d = keyFor c
            · rw [hk] at hs
              rw [hbound s hs]
              exact hsame d hd' hk.symm
            · exact (h d hd').1 s (by simpa [bind, hk] using hs)
          · rcases List.mem_cons.mp he with rfl | he
            · exact (hsame d hd' hk.symm).symm
            · exact (h d hd').2 e he hk
      · intro h d hd
        refine ⟨fun s hs => ?_, fun e he => (h d (List.mem_cons_of_mem _ hd)).2 e (List.mem_cons_of_mem _ he)⟩
        by_cases hk : keyFor d = keyFor c
        · have hs' : s = c.sourceId := by
            simp only [bind, hk, Function.update_self, Option.mem_def, Option.some.injEq] at hs
            exact hs.symm
          rw [hs']
          exact (h c List.mem_cons_self).2 d (List.mem_cons_of_mem _ hd) hk.symm
        · exact (h d (List.mem_cons_of_mem _ hd)).1 s (by simpa [bind, hk] using hs)
    · rw [if_neg hall]
      show (none : Option BindingResolver).isSome = true ↔ _
      refine iff_of_false (by simp) fun h => hall ?_
      simpa [Option.all_eq_true] using (h c List.mem_cons_self).1

/-- **`new` does not panic exactly when no two root claims of one key disagree.** -/
theorem new_isSome_iff {claims : List Claim} (hroot : ∀ c ∈ claims, c.isRoot = true) :
    (new claims).isSome = true ↔ ∀ c ∈ claims, ∀ d ∈ claims, keyFor c = keyFor d → c.sourceId = d.sourceId := by
  rw [new, foldlM_bindRoot_isSome hroot]
  refine forall₂_congr fun c _ => and_iff_right ?_
  simp [unbound]

/-! ### Whole runs -/

/-- `r'` comes from `r` by submissions, whatever their answers. -/
def Reaches (r r' : BindingResolver) : Prop :=
  Relation.ReflTransGen (fun a b => ∃ c res, a.submit c = some (res, b)) r r'

/-- No submission changes the binding of a root key, or which keys are root keys. -/
theorem Reaches.root {r r' : BindingResolver} (hr : RootBound r) (h : Reaches r r') :
    RootBound r' ∧ r'.rootKeys = r.rootKeys ∧ ∀ k, r.rootKeys k = true → r'.bindings k = r.bindings k := by
  induction h with
  | refl => exact ⟨hr, rfl, fun _ _ => rfl⟩
  | tail _ hstep ih =>
    obtain ⟨c, res, hsub⟩ := hstep
    obtain ⟨hbound, hkeys, hbind⟩ := ih
    refine ⟨rootBound_submit hsub hbound, ?_, fun k hk => ?_⟩
    · obtain ⟨-, ⟨-, -, rfl⟩ | ⟨rfl, -⟩⟩ := submit_cases hsub
      · exact hkeys
      · exact hkeys
    · obtain ⟨-, ⟨hnone, -, rfl⟩ | ⟨rfl, -⟩⟩ := submit_cases hsub
      · rw [← hbind k hk]
        have hne : k ≠ keyFor c := by
          rintro rfl
          have := hbound _ (hkeys ▸ hk)
          simp [hnone] at this
        simp [bind, hne]
      · exact hbind k hk

/-- No claim for a key that is no root key disagrees with the binding of the key or with
another claim for it. -/
def Agree (r : BindingResolver) (claims : List Claim) : Prop :=
  ∀ c ∈ claims, r.rootKeys (keyFor c) = false →
    (∀ s ∈ r.bindings (keyFor c), s = c.sourceId) ∧ ∀ d ∈ claims, keyFor d = keyFor c → d.sourceId = c.sourceId

/-- What is bound after claims that agree: what was bound before, and for other keys what is claimed. -/
def BoundBy (r : BindingResolver) (claims : List Claim) (k : DepKey) (s : SourceId) : Prop :=
  r.bindings k = some s ∨ r.bindings k = none ∧ ∃ c ∈ claims, keyFor c = k ∧ c.sourceId = s

/-- A key that is not bound is no root key. -/
theorem RootBound.rootKeys_of_unbound {r : BindingResolver} (hr : RootBound r) {k : DepKey} (h : r.bindings k = none) :
    r.rootKeys k = false := by
  by_contra hk
  have := hr k (by simpa using hk)
  simp [h] at this

theorem bindings_bind (r : BindingResolver) (k : DepKey) (s : SourceId) (k' : DepKey) :
    (r.bind k s).bindings k' = if k' = k then some s else r.bindings k' := by
  simp [bind, Function.update_apply]

/-- Binding the first of the claims leaves it to the others to agree. -/
theorem agree_bind {r : BindingResolver} (hr : RootBound r) {c : Claim} (claims : List Claim)
    (hc : r.bindings (keyFor c) = none) : Agree r (c :: claims) ↔ Agree (r.bind (keyFor c) c.sourceId) claims := by
  have hroot := hr.rootKeys_of_unbound hc
  constructor
  · intro h d hd hkd
    obtain ⟨hs, hall⟩ := h d (List.mem_cons_of_mem _ hd) hkd
    refine ⟨fun s hs' => ?_, fun e he => hall e (List.mem_cons_of_mem _ he)⟩
    rw [bindings_bind] at hs'
    split_ifs at hs' with hk
    · cases hs'
      exact hall c List.mem_cons_self hk.symm
    · exact hs s hs'
  · intro h
    -- a claim for the key just bound agrees with the binding, so with `c`
    have hsame : ∀ d ∈ claims, keyFor d = keyFor c → d.sourceId = c.sourceId := fun d hd hk =>
      ((h d hd (hk ▸ hroot)).1 c.sourceId (by rw [bindings_bind, if_pos hk]; rfl)).symm
    intro d hd hkd
    rcases List.mem_cons.mp hd with rfl | hd'
    · refine ⟨fun s hs => by simp [hc] at hs, fun e he hk => ?_⟩
      rcases List.mem_cons.mp he with rfl | he
      · rfl
      · exact hsame e he hk
    · refine ⟨fun s hs => ?_, fun e he hk => ?_⟩
      · refine (h d hd' hkd).1 s ?_
        rw [bindings_bind, if_neg fun hk => ?_]
        · exact hs
        · rw [hk, hc] at hs
          exact Option.not_mem_none s hs
      · rcases List.mem_cons.mp he with rfl | he
        · exact (hsame d hd' hk.symm).symm
        · exact (h d hd' hkd).2 e he hk

theorem boundBy_bind {r : BindingResolver} {c : Claim} {claims : List Claim} (hc : r.bindings (keyFor c) = none)
    (hroot : r.rootKeys (keyFor c) = false) (hag : Agree r (c :: claims)) (k : DepKey) (s : SourceId) :
    BoundBy r (c :: claims) k s ↔ BoundBy (r.bind (keyFor c) c.sourceId) claims k s := by
  simp only [BoundBy, bindings_bind]
  by_cases hk : k = keyFor c
  · subst hk
    simp only [hc, if_true, reduceCtorEq, false_or, false_and, or_false, true_and, Option.some.injEq]
    constructor
    · rintro ⟨d, hd, hkd, rfl⟩
      exact (((hag c List.mem_cons_self hroot).2 d hd hkd)).symm
    · rintro rfl
      exact ⟨c, List.mem_cons_self, rfl, rfl⟩
  · simp only [if_neg hk, List.mem_cons, exists_eq_or_imp, Ne.symm hk, false_and, false_or]

/-- A claim for a bound key that does not conflict has no part in whether the others agree. -/
theorem agree_cons_of_bound {r : BindingResolver} {c : Claim} {existing : SourceId}
    (hb : r.bindings (keyFor c) = some existing) (hok : existing = c.sourceId ∨ r.rootKeys (keyFor c) = true)
    (claims : List Claim) : Agree r (c :: claims) ↔ Agree r claims := by
  constructor
  · intro h d hd hkd
    obtain ⟨hs, hall⟩ := h d (List.mem_cons_of_mem _ hd) hkd
    exact ⟨hs, fun e he => hall e (List.mem_cons_of_mem _ he)⟩
  · intro h
    have hsame : ∀ d ∈ claims, r.rootKeys (keyFor d) = false → keyFor d = keyFor c → d.sourceId = c.sourceId := by
      intro d hd hkd hk
      rcases hok with rfl | hroot
      · exact ((h d hd hkd).1 _ (hk ▸ hb)).symm
      · rw [hk, hroot] at hkd
        cases hkd
    intro d hd hkd
    rcases List.mem_cons.mp hd with rfl | hd'
    · refine ⟨fun s hs => ?_, fun e he hk => ?_⟩
      · rcases hok with rfl | hroot
        · simpa [hb, eq_comm] using hs
        · rw [hroot] at hkd
          cases hkd
      · rcases List.mem_cons.mp he with rfl | he
        · rfl
        · exact hsame e he (hk ▸ hkd) hk
    · refine ⟨(h d hd' hkd).1, fun e he hk => ?_⟩
      rcases List.mem_cons.mp he with rfl | he
      · exact (hsame d hd' hkd hk.symm).symm
      · exact (h d hd' hkd).2 e he hk

theorem boundBy_cons_of_bound {r : BindingResolver} {c : Claim} {existing : SourceId}
    (hb : r.bindings (keyFor c) = some existing) (claims : List Claim) (k : DepKey) (s : SourceId) :
    BoundBy r (c :: claims) k s ↔ BoundBy r claims k s := by
  simp only [BoundBy, List.mem_cons, exists_eq_or_imp]
  refine or_congr_right (and_congr_right fun hk => ?_)
  constructor
  · rintro (⟨rfl, -⟩ | h)
    · simp [hb] at hk
    · exact h
  · exact Or.inr

/-- **The walk succeeds exactly when the claims agree**, and then it has bound what they claim. -/
theorem submitAll_iff_agree {r : BindingResolver} (hr : RootBound r) {claims : List Claim}
    (hc : ∀ c ∈ claims, c.isRoot = false) :
    (Agree r claims → ∃ r', r.submitAll claims = some (.ok r') ∧ ∀ k s, r'.bindings k = some s ↔ BoundBy r claims k s) ∧
      (¬ Agree r claims → ∃ e, r.submitAll claims = some (.error e)) := by
  induction claims generalizing r with
  | nil => exact ⟨fun _ => ⟨r, rfl, by simp [BoundBy]⟩, fun h => absurd (by simp [Agree]) h⟩
  | cons c claims ih =>
    obtain ⟨hc₁, hcs⟩ := List.forall_mem_cons.mp hc
    obtain ⟨res, r', hsub⟩ := exists_submit r hc₁
    have hr' := rootBound_submit hsub hr
    rw [submitAll, hsub]
    obtain ⟨-, ⟨hnone, rfl, rfl⟩ | ⟨rfl, existing, hb, h⟩⟩ := submit_cases hsub
    · obtain ⟨ihok, iherr⟩ := ih hr' hcs
      refine ⟨fun hag => ?_, fun hag => iherr (mt (agree_bind hr claims hnone).mpr hag)⟩
      obtain ⟨r₂, hr₂, hbound⟩ := ihok ((agree_bind hr claims hnone).mp hag)
      refine ⟨r₂, hr₂, fun k s => ?_⟩
      rw [hbound, boundBy_bind hnone (hr.rootKeys_of_unbound hnone) hag]
    · obtain ⟨ihok, iherr⟩ := ih hr' hcs
      rcases h with ⟨heq, rfl⟩ | ⟨-, hroot, rfl⟩ | ⟨hne, hroot, rfl⟩
      · have hag := agree_cons_of_bound hb (Or.inl heq) claims
        simp only [hag, boundBy_cons_of_bound hb]
        exact ⟨ihok, iherr⟩
      · have hag := agree_cons_of_bound hb (Or.inr hroot) claims
        simp only [hag, boundBy_cons_of_bound hb]
        exact ⟨ihok, iherr⟩
      · refine ⟨fun hag => ?_, fun _ => ⟨_, rfl⟩⟩
        exact absurd ((hag c List.mem_cons_self hroot).1 existing hb) hne

theorem agree_perm {r : BindingResolver} {claims claims' : List Claim} (h : claims.Perm claims') :
    Agree r claims ↔ Agree r claims' := by
  simp only [Agree, h.mem_iff]

theorem boundBy_perm {r : BindingResolver} {claims claims' : List Claim} (h : claims.Perm claims') (k : DepKey)
    (s : SourceId) : BoundBy r claims k s ↔ BoundBy r claims' k s := by
  simp only [BoundBy, h.mem_iff]

/-- With the root claims bound and nothing else, claims agree unless two of them disagree on a key that is no root key. -/
theorem agree_new_iff {roots : List Claim} {r : BindingResolver} (hr : new roots = some r) (claims : List Claim) :
    ¬ Agree r claims ↔ ∃ c ∈ claims, ∃ d ∈ claims,
      keyFor d = keyFor c ∧ r.rootKeys (keyFor c) = false ∧ d.sourceId ≠ c.sourceId := by
  have hnone : ∀ k, r.rootKeys k = false → r.bindings k = none := fun k hk => by
    simpa [← bindings_new hr k] using hk
  constructor
  · intro h
    by_contra hno
    push Not at hno
    refine h fun c hc hk => ⟨by simp [hnone _ hk], fun d hd hdk => hno c hc d hd hdk hk⟩
  · rintro ⟨c, hc, d, hd, hk, hroot, hne⟩ hag
    exact hne ((hag c hc hroot).2 d hd hk)

/-- **Binding is blind to the order of the walk.** For a resolver that `new` made and any list of transitive
claims: the walk raises a conflict exactly when some key that is no root key is claimed with two sources; in
every order of the claims it ends alike, and where it succeeds with the same bindings; whatever has been
submitted, the root keys are bound as they were; and a submission whose answer is not that the claim is new
leaves the resolver as it was. -/
theorem submitAll_order_blind {roots : List Claim} {r : BindingResolver} (hr : new roots = some r)
    {claims : List Claim} (hc : ∀ c ∈ claims, c.isRoot = false) :
    (∃ out, r.submitAll claims = some out ∧
      ((∃ e, out = .error e) ↔ ∃ c ∈ claims, ∃ d ∈ claims,
        keyFor d = keyFor c ∧ r.rootKeys (keyFor c) = false ∧ d.sourceId ≠ c.sourceId) ∧
      ∀ claims', claims.Perm claims' → ∃ out', r.submitAll claims' = some out' ∧
        ((∃ e, out = .error e) ↔ ∃ e, out' = .error e) ∧
        ∀ r₁ r₂, out = .ok r₁ → out' = .ok r₂ → r₁.bindings = r₂.bindings) ∧
    (∀ r', Reaches r r' → ∀ k, r.rootKeys k = true → r'.bindings k = r.bindings k) ∧
    ∀ r' c res r'', Reaches r r' → r'.submit c = some (res, r'') → (∀ d, res = .ok d → d.outcome ≠ .new) → r'' = r' := by
  have hbound : RootBound r := fun k hk => (bindings_new hr k).trans hk
  refine ⟨?_, fun r' h => (h.root hbound).2.2, ?_⟩
  · by_cases hag : Agree r claims
    · obtain ⟨r₁, hr₁, hb₁⟩ := (submitAll_iff_agree hbound hc).1 hag
      refine ⟨_, hr₁, ?_, fun claims' hp => ?_⟩
      · rw [← agree_new_iff hr claims]
        simp [hag]
      · obtain ⟨r₂, hr₂, hb₂⟩ := (submitAll_iff_agree hbound fun c h => hc c (hp.mem_iff.mpr h)).1 ((agree_perm hp).mp hag)
        refine ⟨_, hr₂, by simp, ?_⟩
        rintro _ _ ⟨⟩ ⟨⟩
        funext k
        refine Option.ext fun s => ?_
        rw [hb₁, hb₂, boundBy_perm hp]
    · obtain ⟨e, he⟩ := (submitAll_iff_agree hbound hc).2 hag
      refine ⟨_, he, ?_, fun claims' hp => ?_⟩
      · rw [← agree_new_iff hr claims]
        simp [hag]
      · obtain ⟨e', he'⟩ :=
          (submitAll_iff_agree hbound fun c h => hc c (hp.mem_iff.mpr h)).2 (mt (agree_perm hp).mpr hag)
        exact ⟨_, he', by simp, by rintro _ _ ⟨⟩⟩
  · intro r' c res r'' _ hsub hnew
    obtain ⟨-, ⟨-, rfl, -⟩ | ⟨rfl, -⟩⟩ := submit_cases hsub
    · exact absurd rfl (hnew _ rfl)
    · rfl

/-- A root claim on `foo`, and transitive claims that lose to it and that bind `ns::bar`. -/
theorem submitAll_order_blind_foo_bar :
    let claims : List Claim := [⟨"foo", .member "fork", false, "a@1.0.0"⟩, ⟨"ns::bar", .member "bar", false, "a@1.0.0"⟩]
    ∃ r : BindingResolver, new [⟨"foo", .member "foo", true, "root"⟩] = some r ∧
      ∀ claims', claims.Perm claims' → ∀ r₁ r₂ : BindingResolver,
        r.submitAll claims = some (.ok r₁) → r.submitAll claims' = some (.ok r₂) → r₁.bindings = r₂.bindings := by
  intro claims
  have hnew : new [⟨"foo", .member "foo", true, "root"⟩] =
      some { unbound.bind (keyFor ⟨"foo", .member "foo", true, "root"⟩) (.member "foo") with
        rootKeys := Function.update unbound.rootKeys (keyFor ⟨"foo", .member "foo", true, "root"⟩) true } := rfl
  have hc : ∀ c ∈ claims, c.isRoot = false := by simp [claims]
  obtain ⟨out, hout, -, hperm⟩ := (submitAll_order_blind hnew hc).1
  refine ⟨_, hnew, fun claims' hp r₁ r₂ h₁ h₂ => ?_⟩
  obtain ⟨out', hout', -, heq⟩ := hperm claims' hp
  exact heq r₁ r₂ (Option.some.inj (hout.symm.trans h₁)) (Option.some.inj (hout'.symm.trans h₂))

/-! ### Keys and solver keys -/

/-- Bound keys are keys that claims have, and a solver key is kept under its own canonical text. -/
structure Tidy (r : BindingResolver) : Prop where
  keys : ∀ k s, r.bindings k = some s → ∃ x, k = DepKey.fromSolverVar x
  interned : ∀ ck k, r.solverkeyIndex ck = some k → k.identity = ck

theorem Tidy.bind {r : BindingResolver} (h : Tidy r) (c : Claim) : Tidy (r.bind (keyFor c) c.sourceId) := by
  constructor
  · intro k s hs
    rw [bindings_bind] at hs
    split_ifs at hs with hk
    · exact ⟨c.name, hk⟩
    · exact h.keys k s hs
  · intro ck k hk
    simp only [BindingResolver.bind, Function.update_apply] at hk
    split_ifs at hk with hck
    · cases hfound : r.solverkeyIndex (canonical c.sourceId) with
      | none =>
        simp only [hfound, Option.getD_none, Option.some.injEq] at hk
        rw [← hk, hck]
      | some found =>
        simp only [hfound, Option.getD_some, Option.some.injEq] at hk
        rw [← hk, hck, h.interned _ _ hfound]
    · exact h.interned ck k hk

theorem tidy_new {roots : List Claim} {r : BindingResolver} (h : new roots = some r) : Tidy r := by
  unfold new at h
  have step : ∀ (l : List Claim) (a : BindingResolver), Tidy a → l.foldlM bindRoot a = some r → Tidy r := by
    intro l
    induction l with
    | nil =>
      intro a ha hl
      cases hl
      exact ha
    | cons c l ih =>
      intro a ha hl
      obtain ⟨a', hc, hl⟩ := Option.bind_eq_some_iff.mp hl
      refine ih a' ?_ hl
      unfold bindRoot at hc
      dsimp only at hc
      split_ifs at hc
      cases hc
      exact ⟨(ha.bind c).keys, (ha.bind c).interned⟩
  exact step roots unbound ⟨by simp [unbound], by simp [unbound]⟩ h

theorem Tidy.submit {r r' : BindingResolver} (hr : Tidy r) {c : Claim} {res : Except BindingConflict BindingDecision}
    (h : r.submit c = some (res, r')) : Tidy r' := by
  obtain ⟨-, ⟨-, -, rfl⟩ | ⟨rfl, -⟩⟩ := submit_cases h
  · exact hr.bind c
  · exact hr

/-- What is bound stays bound as it was. -/
theorem bindings_submit {r r' : BindingResolver} {c : Claim} {res : Except BindingConflict BindingDecision}
    (h : r.submit c = some (res, r')) {k : DepKey} {s : SourceId} (hs : r.bindings k = some s) : r'.bindings k = some s := by
  obtain ⟨-, ⟨hnone, -, rfl⟩ | ⟨rfl, -⟩⟩ := submit_cases h
  · rw [bindings_bind, if_neg fun hk => ?_]
    · exact hs
    · rw [hk, hnone] at hs
      cases hs
  · exact hs

/-- The solver key of a name is the canonical text of what the name is bound to. -/
theorem Tidy.canonicalFor {r : BindingResolver} (hr : Tidy r) {key : DepKey} {k : SolverKey} (h : r.canonicalFor key = some k) :
    ∃ s x, r.bindings key = some s ∧ key = DepKey.fromSolverVar x ∧ k.identity = canonical s := by
  obtain ⟨s, hs, rfl⟩ := Option.map_eq_some_iff.mp h
  obtain ⟨x, hx⟩ := hr.keys key s hs
  refine ⟨s, x, hs, hx, ?_⟩
  show ((r.solverkeyIndex (canonical s)).getD ⟨canonical s, key⟩).identity = canonical s
  cases hfound : r.solverkeyIndex (canonical s) with
  | none => rfl
  | some found => exact hr.interned _ found hfound

/-- What is bound is a normal form, it has a solver key, and a solver key is shown under a name that is bound to its source. -/
structure Sound (r : BindingResolver) : Prop where
  normal : ∀ k s, r.bindings k = some s → ∃ raw, Accepted raw ∧ s = normalForm raw
  indexed : ∀ k s, r.bindings k = some s → (r.solverkeyIndex (canonical s)).isSome = true
  shown : ∀ ck k, r.solverkeyIndex ck = some k → ∃ s, r.bindings k.display = some s ∧ canonical s = ck

theorem Sound.bind {r : BindingResolver} (h : Sound r) {key : DepKey} {raw : SourceId} (haccepted : Accepted raw)
    (hagrees : ∀ s ∈ r.bindings key, s = normalForm raw) : Sound (r.bind key (normalForm raw)) := by
  have hindex : ∀ ck, (r.bind key (normalForm raw)).solverkeyIndex ck =
      if ck = canonical (normalForm raw) then some ((r.solverkeyIndex ck).getD ⟨ck, key⟩) else r.solverkeyIndex ck := by
    intro ck
    simp only [BindingResolver.bind, Function.update_apply]
    split_ifs with hck
    · rw [hck]
    · rfl
  have hkeep : ∀ k s, r.bindings k = some s → (r.bind key (normalForm raw)).bindings k = some s := by
    intro k s hs
    rw [bindings_bind]
    split_ifs with hk
    · rw [hagrees s (hk ▸ hs)]
    · exact hs
  refine ⟨fun k s hs => ?_, fun k s hs => ?_, fun ck k hk => ?_⟩
  · rw [bindings_bind] at hs
    split_ifs at hs
    · exact ⟨raw, haccepted, (Option.some.inj hs).symm⟩
    · exact h.normal k s hs
  · rw [hindex]
    split_ifs with hck
    · rfl
    · rw [bindings_bind] at hs
      split_ifs at hs
      · exact absurd (congrArg canonical (Option.some.inj hs)).symm hck
      · exact h.indexed k s hs
  · rw [hindex] at hk
    have hold : ∀ k', r.solverkeyIndex ck = some k' → ∃ s, (r.bind key (normalForm raw)).bindings k'.display = some s ∧ canonical s = ck := by
      intro k' hk'
      obtain ⟨s, hs, hcanonical⟩ := h.shown ck k' hk'
      exact ⟨s, hkeep _ _ hs, hcanonical⟩
    split_ifs at hk with hck
    · obtain rfl := Option.some.inj hk
      cases hfound : r.solverkeyIndex ck with
      | none => exact ⟨_, (bindings_bind _ _ _ _).trans (if_pos rfl), hck.symm⟩
      | some found => exact hold found hfound
    · exact hold k hk

/-- `new` makes a sound resolver of claims on normal forms. -/
theorem sound_new {claims : List Claim} {r : BindingResolver} (h : new claims = some r)
    (hclaims : ∀ c ∈ claims, ∃ raw, Accepted raw ∧ c.sourceId = normalForm raw) : Sound r := by
  unfold new at h
  have step : ∀ (l : List Claim) (a : BindingResolver), (∀ c ∈ l, ∃ raw, Accepted raw ∧ c.sourceId = normalForm raw) → Sound a →
      l.foldlM bindRoot a = some r → Sound r := by
    intro l
    induction l with
    | nil =>
      intro a _ ha hl
      cases hl
      exact ha
    | cons c l ih =>
      intro a hall ha hl
      obtain ⟨a', hc, hl⟩ := Option.bind_eq_some_iff.mp hl
      refine ih a' (fun c' hc' => hall c' (List.mem_cons_of_mem _ hc')) ?_ hl
      obtain ⟨raw, haccepted, hraw⟩ := hall c List.mem_cons_self
      unfold bindRoot at hc
      dsimp only at hc
      split_ifs at hc with hroot hagrees
      cases hc
      have hbound : Sound (a.bind (keyFor c) (normalForm raw)) := ha.bind haccepted fun s hs => by
        rw [Option.mem_def.mp hs] at hagrees
        rw [← hraw]
        simpa using hagrees
      rw [← hraw] at hbound
      exact ⟨hbound.normal, hbound.indexed, hbound.shown⟩
  exact step claims unbound hclaims ⟨by simp [unbound], by simp [unbound], by simp [unbound]⟩ h

theorem Sound.submit {r r' : BindingResolver} (hr : Sound r) {c : Claim} {res : Except BindingConflict BindingDecision} {raw : SourceId}
    (haccepted : Accepted raw) (hraw : c.sourceId = normalForm raw) (h : r.submit c = some (res, r')) : Sound r' := by
  obtain ⟨-, ⟨hnone, -, rfl⟩ | ⟨rfl, -⟩⟩ := submit_cases h
  · rw [hraw]
    exact hr.bind haccepted (by simp [hnone])
  · exact hr

end BindingResolver

end Milpa.Core
