import Mathlib.Data.List.Chain
import Mathlib.Logic.Relation
import Milpa.Core.IndexState
import Milpa.Kdl.Reader

/-!
# Histories of the baseline

Over any sequence of loads of an index, the baseline only moves up: the gate replaces it
by a candidate that dominates it, and leaves it otherwise (`dominates_of_load`). So the
last baseline dominates every earlier one (`dominates_of_history`).
-/

namespace Milpa.Core

open Milpa.Kdl Relation

section

variable (kdlParse : Str → Except Str (List KdlNode)) (sha256Hex : Str → Str)

/-- A load that the gate lets through takes the baseline sidecar to what it is afterwards. -/
def Load (baseline baseline' : Option Str) : Prop :=
  ∃ policy existingMeta candidate nowUnix url decision,
    runRatchetGate kdlParse sha256Hex policy baseline existingMeta candidate nowUnix url = .ok decision ∧
      baseline' = applyRatchetWrites baseline decision candidate

variable {kdlParse sha256Hex}

theorem load_of_run {baseline : Option Str} {candidate : Str} (policy : TrustPolicy) (existingMeta : BaselineMeta)
    (h : (runRatchetGate kdlParse sha256Hex policy baseline existingMeta candidate 0 []).map
      (applyRatchetWrites baseline · candidate) = .ok (some candidate)) :
    Load kdlParse sha256Hex baseline (some candidate) := by
  obtain ⟨decision, hdecision, hwrites⟩ := Result.map_eq_ok.mp h
  exact ⟨policy, existingMeta, candidate, 0, [], decision, hdecision, hwrites⟩

/-- What `evaluate_gate` can decide where there is a baseline. -/
theorem evaluateGate_cases {policy : TrustPolicy} {candidate text url : Str} {existingMeta : BaselineMeta} {nowUnix : ℤ}
    {decision : GateDecision}
    (h : evaluateGate kdlParse sha256Hex policy candidate (some text) existingMeta nowUnix url = .ok decision) :
    decision.advance = false ∨
      decision.advance = true ∧ policy ≠ .off ∧ ∃ s s', parseBaseline kdlParse text = .ok s ∧
        parseBaseline kdlParse candidate = .ok s' ∧ (check s s').advanced = true := by
  unfold evaluateGate at h
  split at h
  · simp at h
  · next index candidateState hbuild =>
    have hcandidate : parseBaseline kdlParse candidate = .ok candidateState := by rw [parseBaseline, hbuild]
    by_cases hoff : policy = .off
    · rw [if_pos hoff] at h
      obtain rfl := Except.ok.inj h
      exact Or.inl rfl
    · rw [if_neg hoff] at h
      obtain ⟨s, hs, h⟩ := Result.bind_eq_ok.mp h
      dsimp only at h
      by_cases hclean : (check s candidateState).clean = true
      · rw [if_pos hclean] at h
        obtain rfl := Result.pure_eq_ok.mp h
        rw [clean_check] at hclean
        exact Or.inr ⟨rfl, hoff, s, candidateState, hs, hcandidate, hclean⟩
      · rw [if_neg hclean] at h
        rcases Result.ok_ite h with h | h
        · exact absurd h Result.throw_ne_ok
        · obtain rfl := Result.pure_eq_ok.mp h
          exact Or.inl rfl

/-- **A load leaves the baseline or replaces it by one that dominates it.** -/
theorem dominates_of_load {text : Str} {s : IndexState} {baseline' : Option Str} (hs : parseBaseline kdlParse text = .ok s)
    (h : Load kdlParse sha256Hex (some text) baseline') :
    ∃ text' s', baseline' = some text' ∧ parseBaseline kdlParse text' = .ok s' ∧ Dominates s s' := by
  obtain ⟨policy, existingMeta, candidate, nowUnix, url, decision, hrun, rfl⟩ := h
  by_cases hoff : policy = .off
  · -- `off` neither reads the baseline nor writes it
    have hadvance : decision.advance = false := by
      subst hoff
      unfold runRatchetGate evaluateGate at hrun
      split at hrun
      · simp at hrun
      · rw [if_pos rfl] at hrun
        obtain rfl := Except.ok.inj hrun
        rfl
    exact ⟨text, s, by rw [applyRatchetWrites, hadvance]; rfl, hs, .refl s⟩
  · rw [runRatchetGate, if_neg hoff, if_neg hoff] at hrun
    rcases evaluateGate_cases hrun with hadvance | ⟨hadvance, -, b, s', hb, hs', hcheck⟩
    · exact ⟨text, s, by rw [applyRatchetWrites, hadvance]; rfl, hs, .refl s⟩
    · obtain rfl : b = s := Except.ok.inj (hb.symm.trans hs)
      refine ⟨candidate, s', by rw [applyRatchetWrites, hadvance]; rfl, hs', ?_⟩
      exact (check_advanced_iff (wellFormed_of_parseBaseline hs) (wellFormed_of_parseBaseline hs')).mp hcheck

/-- The last baseline of a run of loads dominates the first one. -/
theorem dominates_of_history {text : Str} {s : IndexState} {baseline' : Option Str}
    (hs : parseBaseline kdlParse text = .ok s) (h : ReflTransGen (Load kdlParse sha256Hex) (some text) baseline') :
    ∃ text' s', baseline' = some text' ∧ parseBaseline kdlParse text' = .ok s' ∧ Dominates s s' := by
  induction h with
  | refl => exact ⟨text, s, rfl, hs, .refl s⟩
  | tail _ hload ih =>
    obtain ⟨text', s', rfl, hs', hdom⟩ := ih
    obtain ⟨text'', s'', rfl, hs'', hdom'⟩ := dominates_of_load hs' hload
    exact ⟨text'', s'', rfl, hs'', hdom.trans hdom'⟩

end

/-- **The ratchet only moves up.** Dominance is reflexive and transitive; the state of every index is well formed, and in
a chain of such states each of which passes the check against the one before, each state dominates all before it; and in
every run of loads of an index, under any policies, every baseline dominates those before it. -/
theorem ratchet_dominance (kdlParse : Str → Except Str (List KdlNode)) (sha256Hex : Str → Str) :
    (∀ s, Dominates s s) ∧ (∀ s s' s'', Dominates s s' → Dominates s' s'' → Dominates s s'') ∧
      (∀ text s, parseBaseline kdlParse text = .ok s → WellFormed s) ∧
      (∀ states : List IndexState, (∀ s ∈ states, WellFormed s) →
        states.IsChain (fun s s' => (check s s').advanced = true) → states.Pairwise Dominates) ∧
      ∀ baseline text baseline', ReflTransGen (Load kdlParse sha256Hex) baseline (some text) →
        ReflTransGen (Load kdlParse sha256Hex) (some text) baseline' →
        ∀ s, parseBaseline kdlParse text = .ok s →
          ∃ text' s', baseline' = some text' ∧ parseBaseline kdlParse text' = .ok s' ∧ Dominates s s' := by
  refine ⟨.refl, fun _ _ _ => .trans, fun _ _ => wellFormed_of_parseBaseline, ?_,
    fun _ _ _ _ h s hs => dominates_of_history hs h⟩
  intro states hstates hchain
  have hdominates : states.IsChain Dominates := by
    refine hchain.imp_of_mem_imp fun s s' hs hs' hcheck => ?_
    exact (check_advanced_iff (hstates s hs) (hstates s' hs')).mp hcheck
  have : IsTrans IndexState Dominates := ⟨fun _ _ _ => .trans⟩
  exact hdominates.pairwise

/-- An index with one version of a package, without a content hash. -/
def firstText : Str := "package \"a\" \x7b\nnamespace \"n\"\nversion \"1.0.0\" \x7b\n\x7d\n\x7d"

/-- The same index, with a content hash. -/
def nextText : Str :=
  "package \"a\" \x7b\nnamespace \"n\"\nversion \"1.0.0\" \x7b\ncontent_hash \"h\"\n\x7d\n\x7d"

/-- Trust on first use, then a load under `strict` that adds the content hash. -/
theorem ratchet_dominance_two_loads :
    ∃ s s', parseBaseline read firstText = .ok s ∧ parseBaseline read nextText = .ok s' ∧ Dominates s s' := by
  have hfirst : Load read id none (some firstText) := load_of_run .warn ⟨none, none, none⟩ (by decide)
  have hnext : Load read id (some firstText) (some nextText) :=
    load_of_run .strict ⟨none, none, none⟩ (by decide)
  obtain ⟨s, hs⟩ : ∃ s, parseBaseline read firstText = .ok s := Result.isOk_iff.mp (by decide)
  obtain ⟨text', s', htext', hs', hdom⟩ := (ratchet_dominance read id).2.2.2.2 none firstText (some nextText)
    (.single hfirst) (.single hnext) s hs
  obtain rfl := Option.some.inj htext'
  exact ⟨s, s', hs, hs', hdom⟩

end Milpa.Core
