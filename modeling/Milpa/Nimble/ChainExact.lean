import Milpa.Nimble.Branches
import Milpa.Nimble.ConditionExact

/-!
# What the predicates of a branch say

Nim takes the first branch of a chain with a condition that is true. The predicates of a
branch are those of its condition with the contraries of the conditions before it, so they
say that the branch is taken as long as the conditions that Nim evaluates are sharp
(`when_translation_exact_iff`).
-/

namespace Milpa.Nimble

open NimScript

/-! ### Chains -/

/-- What follows the first branch of a chain: an `else` is the last branch. -/
def FollowsWhen : List BranchRaw → Prop
  | [] => True
  | b :: chain => b.kind = .elif ∧ FollowsWhen chain ∨ b.kind = .else ∧ chain = []

theorem followsWhen_chainLoop (fuel indent : ℕ) (region : Region) : FollowsWhen (chainLoop fuel indent region).1 := by
  induction fuel generalizing region with
  | zero => trivial
  | succ fuel ih =>
    rw [chainLoop]
    split
    · trivial
    dsimp only
    split_ifs
    · trivial
    split
    · exact .inl ⟨rfl, ih _⟩
    split
    · exact .inr ⟨rfl, rfl⟩
    · trivial

/-- A chain is a `when` with what follows it. -/
theorem exists_of_mem_chains {region : Region} {chain : List BranchRaw} (h : chain ∈ chains region) :
    ∃ b rest, chain = b :: rest ∧ b.kind = .when ∧ FollowsWhen rest := by
  obtain ⟨line, below, -, h⟩ := (Consume.mem_run shrinks_chainStep).mp h
  rw [chainStep] at h
  split at h
  · obtain rfl := List.mem_singleton.mp h
    exact ⟨_, _, rfl, rfl, followsWhen_chainLoop _ _ _⟩
  · cases h

/-! ### The branch that is taken -/

/-- The condition of a branch is true on a target; there is none for an `else`. -/
def branchTrue (t : Target) (b : BranchRaw) : Bool :=
  match b.kind with
  | .when | .elif => (NimScript.condition b.cond).any (Condition.holds t)
  | .else => true

/-- The branch of a chain that Nim takes on a target. -/
def takenBranch (t : Target) (chain : List BranchRaw) : Option ℕ := chain.findIdx? (branchTrue t)

/-- The conditions of a chain that Nim evaluates on a target are sharp: it evaluates them up to the first that is true. -/
def EvaluatedSharp (t : Target) : List BranchRaw → Prop
  | [] => True
  | b :: chain =>
    match b.kind with
    | .when | .elif => (∀ c ∈ NimScript.condition b.cond, c.Sharp t) ∧ (branchTrue t b = false → EvaluatedSharp t chain)
    | .else => True

/-- The predicates of the branches of a chain say which one is taken on a target. -/
def Says (t : Target) (predicates : List (Option (List Predicate))) (chain : List BranchRaw) : Prop :=
  ∀ i preds, predicates[i]? = some (some preds) → (satisfied t preds = true ↔ takenBranch t chain = some i)

/-! ### Predicates of a branch -/

section

variable {t : Target} {preds prior : List Predicate} {b : BranchRaw} {chain : List BranchRaw}

theorem satisfied_append (preds prior : List Predicate) : satisfied t (preds ++ prior) = (satisfied t preds && satisfied t prior) := by
  rw [satisfied, List.all_append]
  rfl

/-- The predicate of a condition that is one comparison or symbol. -/
theorem satisfied_negatePred {pred : Predicate} {c : Condition} (h : Translation [pred] c) :
    satisfied t [negatePred pred] = !satisfied t [pred] := by
  simp only [satisfied, List.all_cons, List.all_nil, Bool.and_true, negatePred]
  cases h with
  | single h => exact satisfied_negated (axis_of_translated h t).2 pred.negated
  | not h => exact satisfied_negated (axis_of_translated h t).2 true

/-- Predicates that are not those of two comparisons say, when they are negated, the contrary. -/
theorem satisfied_map_negatePred {c : Condition} (h : Translation preds c) (hlen : ¬ 1 < preds.length) :
    satisfied t (preds.map negatePred) = !satisfied t preds := by
  have hone : ∃ pred, preds = [pred] := by
    cases h with
    | single h => exact ⟨_, rfl⟩
    | not h => exact ⟨_, rfl⟩
    | and h₁ h₂ => exact absurd (by simp) hlen
  obtain ⟨pred, rfl⟩ := hone
  exact satisfied_negatePred h

/-- What a branch with a condition that is recognized says. -/
theorem exists_of_not_poisons {siblings : Bool} (h : poisons siblings b = false) (hkind : b.kind ≠ .else) :
    ∃ preds c, parseWhenCondition b.cond = some preds ∧ NimScript.condition b.cond = some c ∧ Translation preds c ∧
      (siblings = true → ¬ 1 < preds.length) := by
  have hdef : poisons siblings b = ((parseWhenCondition b.cond).isNone ||
      siblings && (parseWhenCondition b.cond).any fun preds => decide (1 < preds.length)) := by
    unfold poisons
    cases hk : b.kind with
    | when => cases parseWhenCondition b.cond <;> simp
    | elif => cases parseWhenCondition b.cond <;> simp
    | «else» => exact absurd hk hkind
  rw [hdef] at h
  cases hparse : parseWhenCondition b.cond with
  | none => simp [hparse] at h
  | some preds =>
    obtain ⟨c, hc, htrans⟩ := condition_of_parse hparse
    refine ⟨preds, c, rfl, hc, htrans, ?_⟩
    rintro rfl
    simpa [hparse] using h

theorem takenBranch_cons_zero : takenBranch t (b :: chain) = some 0 ↔ branchTrue t b = true := by
  rw [takenBranch, List.findIdx?_cons]
  cases branchTrue t b <;> simp

theorem takenBranch_cons_succ {i : ℕ} :
    takenBranch t (b :: chain) = some (i + 1) ↔ branchTrue t b = false ∧ takenBranch t chain = some i := by
  rw [takenBranch, takenBranch, List.findIdx?_cons]
  cases branchTrue t b <;> simp

theorem says_cons {predicates : List (Option (List Predicate))} :
    Says t (some preds :: predicates) (b :: chain) ↔
      (satisfied t preds = true ↔ branchTrue t b = true) ∧
        ∀ i preds, predicates[i]? = some (some preds) → (satisfied t preds = true ↔ branchTrue t b = false ∧ takenBranch t chain = some i) := by
  constructor
  · intro h
    refine ⟨(h 0 preds rfl).trans takenBranch_cons_zero, fun i preds hget => ?_⟩
    exact (h (i + 1) preds (by simpa using hget)).trans takenBranch_cons_succ
  · rintro ⟨hhead, htail⟩ i preds hget
    cases i with
    | zero =>
      obtain rfl : _ = preds := by simpa using hget
      exact hhead.trans takenBranch_cons_zero.symm
    | succ i => exact (htail i preds (by simpa using hget)).trans takenBranch_cons_succ.symm

/-- After a branch that is taken, the predicates of no branch hold. -/
theorem not_satisfied_of_prior (hprior : satisfied t prior = false) (h : FollowsWhen chain) {i : ℕ}
    (hget : (branchPredicatesLoop prior chain)[i]? = some (some preds)) : satisfied t preds = false := by
  induction chain generalizing prior i with
  | nil => simp [branchPredicatesLoop] at hget
  | cons b chain ih =>
    rw [branchPredicatesLoop] at hget
    rcases h with ⟨hkind, hchain⟩ | ⟨hkind, rfl⟩
    · rw [hkind] at hget
      cases i with
      | zero =>
        obtain rfl : _ = preds := by simpa using hget
        rw [satisfied_append, hprior, Bool.and_false]
      | succ i =>
        refine ih ?_ hchain (by simpa using hget)
        rw [satisfied_append, hprior, Bool.false_and]
    · rw [hkind] at hget
      cases i with
      | zero =>
        obtain rfl : prior = preds := by simpa using hget
        exact hprior
      | succ i => simp [branchPredicatesLoop] at hget

/-- A branch with a condition: its predicates say whether it is taken where the condition is sharp, and the branches after it are
decided as they are without it, unless it is taken. -/
theorem says_condition_iff {c : Condition} (hprior : satisfied t prior = true) (htrans : Translation preds c)
    (htrue : branchTrue t b = c.holds t) (hlen : chain = [] ∨ ¬ 1 < preds.length) (hchain : FollowsWhen chain)
    (ih : satisfied t (prior ++ preds.map negatePred) = true →
      (Says t (branchPredicatesLoop (prior ++ preds.map negatePred) chain) chain ↔ EvaluatedSharp t chain)) :
    Says t (some (preds ++ prior) :: branchPredicatesLoop (prior ++ preds.map negatePred) chain) (b :: chain) ↔
      c.Sharp t ∧ (branchTrue t b = false → EvaluatedSharp t chain) := by
  rw [says_cons, satisfied_append, hprior, Bool.and_true, htrue, satisfied_translation htrans t]
  refine and_congr_right fun hsharp => ?_
  have hsays : satisfied t preds = true ↔ c.holds t = true := (satisfied_translation htrans t).mpr hsharp
  rcases hlen with rfl | hlen
  · simp [branchPredicatesLoop, EvaluatedSharp]
  have hnegated : satisfied t (preds.map negatePred) = !satisfied t preds := satisfied_map_negatePred htrans hlen
  cases hholds : c.holds t with
  | true =>
    have hafter : satisfied t (prior ++ preds.map negatePred) = false := by
      rw [satisfied_append, hnegated, hsays.mpr hholds, Bool.not_true, Bool.and_false]
    simp only [Bool.true_eq_false, false_and, iff_false, Bool.not_eq_true, false_implies, iff_true]
    intro i preds hget
    exact not_satisfied_of_prior hafter hchain hget
  | false =>
    have hbefore : satisfied t preds = false := by
      rw [← Bool.not_eq_true, hsays, hholds]
      exact Bool.false_ne_true
    have hafter : satisfied t (prior ++ preds.map negatePred) = true := by
      rw [satisfied_append, hprior, hnegated, hbefore, Bool.not_false, Bool.and_true]
    simp only [true_and, true_implies]
    exact ih hafter

/-- **What comes after the `when` of a chain.** -/
theorem says_followsWhen_iff (hprior : satisfied t prior = true) (hchain : FollowsWhen chain)
    (hpoisons : ∀ b ∈ chain, poisons true b = false) :
    Says t (branchPredicatesLoop prior chain) chain ↔ EvaluatedSharp t chain := by
  induction chain generalizing prior with
  | nil => simp [Says, branchPredicatesLoop, EvaluatedSharp]
  | cons b chain ih =>
    rw [branchPredicatesLoop, EvaluatedSharp]
    rcases hchain with ⟨hkind, hchain⟩ | ⟨hkind, rfl⟩
    · obtain ⟨preds, c, hparse, hcond, htrans, hlen⟩ :=
        exists_of_not_poisons (hpoisons b List.mem_cons_self) (by simp [hkind])
      have htrue : branchTrue t b = c.holds t := by simp [branchTrue, hkind, hcond]
      simp only [hkind, hparse, Option.getD_some, hcond, Option.mem_def, Option.some.injEq, forall_eq']
      exact says_condition_iff hprior htrans htrue (.inr (hlen rfl)) hchain fun h =>
        ih h hchain fun b hb => hpoisons b (List.mem_cons_of_mem _ hb)
    · simp only [hkind, iff_true]
      exact says_cons.mpr ⟨by simp [hprior, branchTrue, hkind], by simp [branchPredicatesLoop]⟩

/-- **The predicates of a chain that is tracked.** -/
theorem says_chain_iff {region : Region} (h : chain ∈ chains region) (hplain : poisoned chain = false) :
    Says t (branchPredicates 0 chain) chain ↔ EvaluatedSharp t chain := by
  obtain ⟨b, rest, rfl, hkind, hrest⟩ := exists_of_mem_chains h
  have hpoisons : ∀ b' ∈ b :: rest, poisons (decide (1 < (b :: rest).length)) b' = false := by
    simpa [poisoned] using hplain
  obtain ⟨preds, c, hparse, hcond, htrans, hlen⟩ := exists_of_not_poisons (hpoisons b List.mem_cons_self) (by simp [hkind])
  have htrue : branchTrue t b = c.holds t := by simp [branchTrue, hkind, hcond]
  have hsiblings : rest = [] ∨ ¬ 1 < preds.length := by
    cases rest with
    | nil => exact .inl rfl
    | cons b' rest => exact .inr (hlen (by simp))
  rw [branchPredicates, hplain, if_neg (by simp), branchPredicatesLoop, EvaluatedSharp]
  simp only [hkind, hparse, Option.getD_some, hcond, Option.mem_def, Option.some.injEq, forall_eq']
  have hnone : satisfied t [] = true := rfl
  have hcons := says_condition_iff hnone htrans htrue hsiblings hrest fun hafter => ?_
  · simpa using hcons
  · cases rest with
    | nil => simp [Says, branchPredicatesLoop, EvaluatedSharp]
    | cons b' rest =>
      refine says_followsWhen_iff hafter hrest fun b'' hb => ?_
      simpa using hpoisons b'' (List.mem_cons_of_mem _ hb)

end

/-! ### What is reported -/

/-- The chains at the top of a file. -/
def topChains (lines : List Str) : List (List BranchRaw) := chains lines.zipIdx

theorem branchPredicates_of_depth {depth : ℕ} {chain : List BranchRaw} (h : 1 ≤ depth) :
    branchPredicates depth chain = chain.map fun _ => none := by simp [branchPredicates, h]

/-- A branch of a chain inside another has no predicates. -/
theorem predicates_scanRegion {levels : ℕ} (hlevels : levels < maxWhenDepth) {region : Region} {branch : WhenBranch}
    (h : branch ∈ scanRegion levels region) : branch.predicates = none := by
  induction levels generalizing region with
  | zero => rw [mem_report h]
  | succ levels ih =>
    rw [scanRegion] at h
    obtain ⟨chain, -, h⟩ := List.mem_flatMap.mp h
    obtain ⟨⟨b, preds⟩, hb, h⟩ := List.mem_flatMap.mp h
    rcases List.mem_append.mp h with h | h
    · rw [mem_report h]
      rw [branchPredicates_of_depth (by omega)] at hb
      obtain ⟨-, -, rfl⟩ := List.mem_map.mp (List.of_mem_zip hb).2
      rfl
    · exact ih (by omega) h

/-- **Predicates are reported for the branches of the chains at the top that are recognized.** -/
theorem exists_of_mem_parseWhenBranches {lines : List Str} {preds : List Predicate} {requireLines : List ℕ}
    (h : ⟨some preds, requireLines⟩ ∈ parseWhenBranches lines) :
    ∃ chain ∈ topChains lines, poisoned chain = false ∧
      ∃ (i : ℕ) (b : BranchRaw), chain[i]? = some b ∧ (branchPredicates 0 chain)[i]? = some (some preds) ∧ requireLines = directRequires b := by
  rw [parseWhenBranches, maxWhenDepth, scanRegion] at h
  obtain ⟨chain, hchain, h⟩ := List.mem_flatMap.mp h
  obtain ⟨⟨b, p⟩, hb, h⟩ := List.mem_flatMap.mp h
  rcases List.mem_append.mp h with h | h
  · obtain ⟨rfl, rfl⟩ : some preds = p ∧ requireLines = directRequires b := by simpa using mem_report h
    refine ⟨chain, hchain, ?_, ?_⟩
    · by_contra hpoisoned
      rw [branchPredicates, eq_true_of_ne_false hpoisoned] at hb
      simpa using (List.of_mem_zip hb).2
    · obtain ⟨i, hi⟩ := List.getElem?_of_mem hb
      rw [List.getElem?_zip_eq_some] at hi
      exact ⟨i, b, hi.1, hi.2, rfl⟩
  · have hnone := predicates_scanRegion (by decide) h
    cases hnone

/-- **Predicates say what a condition says, and those of a branch say that Nim takes it, exactly where the comparisons of versions
that are evaluated are sharp.** -/
theorem when_translation_exact_iff (cond : Str) (lines : List Str) :
    (∀ preds : List Predicate, parseWhenCondition cond = some preds →
      ∃ c, NimScript.condition cond = some c ∧ ∀ t : Target, (satisfied t preds = true ↔ c.holds t = true) ↔ c.Sharp t) ∧
    (∀ chain ∈ topChains lines, poisoned chain = false →
      ∀ t : Target, Says t (branchPredicates 0 chain) chain ↔ EvaluatedSharp t chain) ∧
    ∀ (preds : List Predicate) (requireLines : List ℕ), ⟨some preds, requireLines⟩ ∈ parseWhenBranches lines →
      ∃ chain ∈ topChains lines, poisoned chain = false ∧
        ∃ (i : ℕ) (b : BranchRaw), chain[i]? = some b ∧ (branchPredicates 0 chain)[i]? = some (some preds) ∧
          requireLines = directRequires b := by
  refine ⟨fun preds hparse => ?_, fun chain hchain hplain t => says_chain_iff hchain hplain,
    fun preds requireLines h => exists_of_mem_parseWhenBranches h⟩
  obtain ⟨c, hcond, htrans⟩ := condition_of_parse hparse
  exact ⟨c, hcond, fun t => satisfied_translation htrans t⟩

/-- Nim 1.6.0 for Linux on amd64. -/
def linuxTarget : Target where
  platform := "linux"
  arch := "amd64"
  major := 1
  minor := 6
  patch := 0
  defined symbol := decide (symbol ∈ (["linux", "amd64"] : List Str))
  platforms := by decide
  archs := by decide

/-- **Nim 1.6 satisfies the predicate of `NimMajor > 1`**, where the condition is false. -/
theorem major_greater_not_exact :
    ¬ ∀ (cond : Str) (preds : List Predicate) (c : Condition) (t : Target), parseWhenCondition cond = some preds →
      NimScript.condition cond = some c → (satisfied t preds = true ↔ c.holds t = true) := by
  intro h
  have hexact := h "NimMajor > 1" [predicate "nim" ">1.0.0"] (.version .gt [1]) linuxTarget (by decide) (by decide)
  have hsatisfied : satisfied linuxTarget [predicate "nim" ">1.0.0"] = true := by decide
  exact absurd (hexact.mp hsatisfied) (by decide)

end Milpa.Nimble
