import Mathlib.Data.Finset.Card
import Mathlib.Logic.Relation
import Mathlib.Order.Bounds.Basic

/-!
# Following a relation with a worklist

What a relation leads to from a set is the least set that has the set in it and that the
relation does not leave (`isLeast_reachable`). A loop that takes an element from a list of
those still to be followed, and adds to it the successors that it has not seen, finds
exactly that, once there is fuel for everything that can be found (`mem_follow`).
-/

namespace Milpa.Worklist

variable {α : Type*}

/-- What a relation leads to from a set. -/
def Reachable (r : α → α → Prop) (s : Set α) : Set α := {b | ∃ a ∈ s, Relation.ReflTransGen r a b}

/-- A set that a relation does not leave. -/
def IsClosed (r : α → α → Prop) (s : Set α) : Prop := ∀ a ∈ s, ∀ b, r a b → b ∈ s

theorem subset_reachable (r : α → α → Prop) (s : Set α) : s ⊆ Reachable r s := fun a ha => ⟨a, ha, .refl⟩

theorem isClosed_reachable (r : α → α → Prop) (s : Set α) : IsClosed r (Reachable r s) := by
  rintro b ⟨a, ha, hab⟩ c hbc
  exact ⟨a, ha, hab.tail hbc⟩

/-- A set that the relation does not leave has everything in it that the relation leads to from its elements. -/
theorem reachable_subset {r : α → α → Prop} {s t : Set α} (hst : s ⊆ t) (ht : IsClosed r t) : Reachable r s ⊆ t := by
  rintro b ⟨a, ha, hab⟩
  induction hab with
  | refl => exact hst ha
  | tail _ hbc ih => exact ht _ ih _ hbc

/-- What a relation leads to is the least set that it does not leave. -/
theorem isLeast_reachable (r : α → α → Prop) (s : Set α) : IsLeast {t | s ⊆ t ∧ IsClosed r t} (Reachable r s) :=
  ⟨⟨subset_reachable r s, isClosed_reachable r s⟩, fun _ ht => reachable_subset ht.1 ht.2⟩

theorem IsClosed.union {r : α → α → Prop} {s t : Set α} (hs : IsClosed r s) (ht : IsClosed r t) : IsClosed r (s ∪ t) := by
  rintro a (ha | ha) b hab
  · exact Or.inl (hs a ha b hab)
  · exact Or.inr (ht a ha b hab)

/-! ### The loop -/

variable [DecidableEq α]

/-- The successors of an element that have not been seen. -/
def fresh (next : α → List α) (seen : List α) (a : α) : List α := ((next a).filter fun b => decide (b ∉ seen)).dedup

/-- The loop: what has been seen, and what of it is still to be followed. -/
def follow (next : α → List α) : ℕ → List α → List α → List α
  | 0, seen, _ => seen
  | _ + 1, seen, [] => seen
  | n + 1, seen, a :: todo => follow next n (seen ++ fresh next seen a) (fresh next seen a ++ todo)

variable {next : α → List α}

theorem mem_fresh {seen : List α} {a b : α} : b ∈ fresh next seen a ↔ b ∈ next a ∧ b ∉ seen := by
  simp [fresh]

theorem subset_follow (n : ℕ) (seen todo : List α) : seen ⊆ follow next n seen todo := by
  induction n generalizing seen todo with
  | zero => exact List.Subset.refl _
  | succ n ih =>
    cases todo with
    | nil => exact List.Subset.refl _
    | cons a todo => exact List.Subset.trans (List.subset_append_left seen _) (ih _ _)

/-- The loop finds nothing that the relation does not lead to. -/
theorem follow_subset {t : Set α} (ht : IsClosed (fun a b => b ∈ next a) t) {n : ℕ} {seen todo : List α}
    (hseen : ∀ a ∈ seen, a ∈ t) (htodo : ∀ a ∈ todo, a ∈ t) : ∀ a ∈ follow next n seen todo, a ∈ t := by
  induction n generalizing seen todo with
  | zero => exact hseen
  | succ n ih =>
    cases todo with
    | nil => exact hseen
    | cons a todo =>
      have ha : a ∈ t := htodo a List.mem_cons_self
      have hfresh : ∀ b ∈ fresh next seen a, b ∈ t := fun b hb => ht a ha b (mem_fresh.mp hb).1
      refine ih (fun b hb => ?_) fun b hb => ?_
      · exact (List.mem_append.mp hb).elim (hseen b) (hfresh b)
      · exact (List.mem_append.mp hb).elim (hfresh b) fun hb => htodo b (List.mem_cons_of_mem a hb)

/-- What of `u` has not been seen: there is that much left to find. -/
def unseen (u : Finset α) (seen : List α) : ℕ := (u \ seen.toFinset).card

theorem unseen_fresh {u : Finset α} {a : α} (hnext : ∀ b ∈ next a, b ∈ u) (seen : List α) :
    unseen u (seen ++ fresh next seen a) + (fresh next seen a).length = unseen u seen := by
  have hsub : (fresh next seen a).toFinset ⊆ u \ seen.toFinset := by
    intro b hb
    obtain ⟨hb, hnew⟩ := mem_fresh.mp (List.mem_toFinset.mp hb)
    exact Finset.mem_sdiff.mpr ⟨hnext b hb, by simpa using hnew⟩
  have hcard : (fresh next seen a).toFinset.card = (fresh next seen a).length :=
    List.toFinset_card_of_nodup (List.nodup_dedup _)
  have hle := Finset.card_le_card hsub
  have hsplit : u \ (seen.toFinset ∪ (fresh next seen a).toFinset) = (u \ seen.toFinset) \ (fresh next seen a).toFinset :=
    sdiff_sdiff_left.symm
  rw [unseen, unseen, List.toFinset_append, hsplit, Finset.card_sdiff_of_subset hsub]
  omega

/-- What has been seen and is not still to be followed has had its successors seen. -/
def Followed (next : α → List α) (seen todo : List α) : Prop := ∀ a ∈ seen, a ∈ todo ∨ ∀ b ∈ next a, b ∈ seen

/-- The loop follows everything that it finds, given fuel. -/
theorem isClosed_follow {u : Finset α} (hnext : ∀ a, ∀ b ∈ next a, b ∈ u) {n : ℕ} {seen todo : List α}
    (hfuel : todo.length + unseen u seen < n) (hfollowed : Followed next seen todo) :
    IsClosed (fun a b => b ∈ next a) {a | a ∈ follow next n seen todo} := by
  induction n generalizing seen todo with
  | zero => omega
  | succ n ih =>
    cases todo with
    | nil =>
      intro a ha b hb
      exact (hfollowed a ha).elim (fun h => absurd h List.not_mem_nil) fun h => h b hb
    | cons a todo =>
      refine ih ?_ fun c hc => ?_
      · have := unseen_fresh (hnext a) seen
        rw [List.length_append]
        rw [List.length_cons] at hfuel
        omega
      · rcases List.mem_append.mp hc with hc | hc
        · rcases hfollowed c hc with hc | hc
          · rcases List.mem_cons.mp hc with rfl | hc
            · refine Or.inr fun b hb => ?_
              by_cases hb' : b ∈ seen
              · exact List.mem_append_left _ hb'
              · exact List.mem_append_right _ (mem_fresh.mpr ⟨hb, hb'⟩)
            · exact Or.inl (List.mem_append_right _ hc)
          · exact Or.inr fun b hb => List.mem_append_left _ (hc b hb)
        · exact Or.inl (List.mem_append_left _ hc)

/-- **The loop finds what the relation leads to.** -/
theorem mem_follow {u : Finset α} (hnext : ∀ a, ∀ b ∈ next a, b ∈ u) {n : ℕ} {seed : List α}
    (hfuel : seed.length + u.card < n) (b : α) :
    b ∈ follow next n seed seed ↔ b ∈ Reachable (fun a b => b ∈ next a) {a | a ∈ seed} := by
  constructor
  · have hseed : ∀ a ∈ seed, a ∈ Reachable (fun a b => b ∈ next a) {a | a ∈ seed} := fun a ha => subset_reachable _ _ ha
    exact follow_subset (isClosed_reachable _ _) hseed hseed b
  · have hle : unseen u seed ≤ u.card := Finset.card_le_card Finset.sdiff_subset
    have hclosed : IsClosed (fun a b => b ∈ next a) {a | a ∈ follow next n seed seed} :=
      isClosed_follow hnext (by omega) fun a ha => Or.inl ha
    exact fun hb => reachable_subset (fun a ha => subset_follow n seed seed ha) hclosed hb

end Milpa.Worklist
