import Milpa.Nimble.Scan

/-!
# The lines of chains

What `parse_when_branches` reports are lines of the chains at the top of a file, so a
requirement on another line has no predicates (`predicatesAt_of_not_mem`).
-/

namespace Milpa.Nimble

/-- The lines of the chains of a region. -/
def chainLines (region : Region) : List ℕ := (chains region).flatMap fun chain => chain.flatMap fun b => b.headerLine :: b.body.map Prod.snd

theorem suffix_skipContinuation (tail : Str) (below : Region) : skipContinuation tail below <:+ below := by
  induction below generalizing tail with
  | nil => exact List.suffix_rfl
  | cons line below ih =>
    rw [skipContinuation]
    split_ifs
    · exact (ih _).trans (List.suffix_cons _ _)
    · exact List.suffix_rfl

theorem shrinks_directStep : Consume.Shrinks directStep := by
  intro line below
  rw [directStep]
  split
  · exact suffix_trackChain _ line.2 _
  split_ifs
  · exact suffix_skipContinuation _ _
  · exact List.suffix_rfl

theorem shrinks_linearStep : Consume.Shrinks linearStep := by
  intro line below
  rw [linearStep]
  split_ifs
  · exact suffix_skipContinuation _ _
  · exact List.suffix_rfl

/-- A loop that gives lines gives lines of the region. -/
theorem run_subset {step : Str × ℕ → Region → List ℕ × Region} (hs : Consume.Shrinks step)
    (hline : ∀ line below, (step line below).1 ⊆ [line.2]) (region : Region) : Consume.run step region ⊆ region.map Prod.snd := by
  intro n hn
  obtain ⟨line, below, hreach, hmem⟩ := (Consume.mem_run hs).mp hn
  obtain rfl := List.mem_singleton.mp (hline line below hmem)
  exact List.mem_map_of_mem ((hreach.isSuffix hs).subset List.mem_cons_self)

theorem collectDirectRequires_subset (region : Region) : collectDirectRequires region ⊆ region.map Prod.snd := by
  refine run_subset shrinks_directStep (fun line below => ?_) region
  rw [directStep]
  split
  · exact List.nil_subset _
  split_ifs
  · exact List.Subset.refl _
  · exact List.nil_subset _

theorem linearRequires_subset (region : Region) : Consume.run linearStep region ⊆ region.map Prod.snd := by
  refine run_subset shrinks_linearStep (fun line below => ?_) region
  rw [linearStep]
  split_ifs
  · exact List.Subset.refl _
  · exact List.nil_subset _

/-! ### Branches -/

/-- The branch lies in the region. -/
def Within (b : BranchRaw) (region : Region) : Prop := b.headerLine ∈ region.map Prod.snd ∧ b.body ⊆ region

theorem Within.mono {b : BranchRaw} {region larger : Region} (h : Within b region) (hsub : region ⊆ larger) : Within b larger :=
  ⟨List.map_subset _ hsub h.1, fun _ hline => hsub (h.2 hline)⟩

theorem within_chainLoop {fuel indent : ℕ} {region : Region} : ∀ b ∈ (chainLoop fuel indent region).1, Within b region := by
  induction fuel generalizing region with
  | zero => simp [chainLoop]
  | succ fuel ih =>
    intro b hb
    rw [chainLoop] at hb
    split at hb
    · cases hb
    rename_i line below hregion
    have hsuffix : line :: below <:+ region := hregion ▸ List.dropWhile_suffix _
    have hbody : below.takeWhile (inBody indent) ⊆ region := fun x hx =>
      hsuffix.subset (List.mem_cons_of_mem _ ((List.takeWhile_prefix _).subset hx))
    have hline : line.2 ∈ region.map Prod.snd := List.mem_map_of_mem (hsuffix.subset List.mem_cons_self)
    have hafter : below.dropWhile (inBody indent) ⊆ region := fun x hx =>
      hsuffix.subset (List.mem_cons_of_mem _ ((List.dropWhile_suffix _).subset hx))
    dsimp only at hb
    split_ifs at hb
    · cases hb
    split at hb
    · rcases List.mem_cons.mp hb with rfl | hb
      · exact ⟨hline, hbody⟩
      · exact (ih b hb).mono hafter
    split at hb
    · obtain rfl := List.mem_singleton.mp hb
      exact ⟨hline, hbody⟩
    · cases hb

theorem within_of_mem_chains {region : Region} {chain : List BranchRaw} {b : BranchRaw} (h : chain ∈ chains region) (hb : b ∈ chain) :
    Within b region := by
  obtain ⟨line, below, hreach, h⟩ := (Consume.mem_run shrinks_chainStep).mp h
  have hsub : line :: below ⊆ region := (hreach.isSuffix shrinks_chainStep).subset
  rw [chainStep] at h
  split at h
  · rename_i header hheader
    obtain rfl := List.mem_singleton.mp h
    rcases List.mem_cons.mp hb with rfl | hb
    · exact ⟨List.mem_map_of_mem (hsub List.mem_cons_self), fun x hx =>
        hsub (List.mem_cons_of_mem _ ((List.takeWhile_prefix _).subset hx))⟩
    · exact (within_chainLoop b hb).mono fun x hx => hsub (List.mem_cons_of_mem _ ((List.dropWhile_suffix _).subset hx))
  · cases h

theorem directRequires_subset (b : BranchRaw) : directRequires b ⊆ b.headerLine :: b.body.map Prod.snd := by
  intro n hn
  rcases List.mem_append.mp hn with hn | hn
  · split_ifs at hn
    · rw [List.mem_singleton.mp hn]
      exact List.mem_cons_self
    · cases hn
  · exact List.mem_cons_of_mem _ (collectDirectRequires_subset _ hn)

/-- A branch that is reported comes from a branch of a chain, or from inside it. -/
theorem exists_of_mem_scanRegion {levels : ℕ} {region : Region} {branch : WhenBranch} (h : branch ∈ scanRegion (levels + 1) region) :
    ∃ chain ∈ chains region, ∃ b ∈ chain, branch.requireLines = directRequires b ∨ branch ∈ scanRegion levels b.body := by
  rw [scanRegion] at h
  obtain ⟨chain, hchain, h⟩ := List.mem_flatMap.mp h
  obtain ⟨⟨b, preds⟩, hb, h⟩ := List.mem_flatMap.mp h
  refine ⟨chain, hchain, b, (List.of_mem_zip hb).1, ?_⟩
  rcases List.mem_append.mp h with h | h
  · exact .inl (congrArg WhenBranch.requireLines (mem_report h))
  · exact .inr h

theorem requireLines_subset {levels : ℕ} {region : Region} {branch : WhenBranch} (h : branch ∈ scanRegion levels region) :
    branch.requireLines ⊆ region.map Prod.snd := by
  induction levels generalizing region with
  | zero =>
    rw [mem_report h]
    exact linearRequires_subset region
  | succ levels ih =>
    obtain ⟨chain, hchain, b, hb, h⟩ := exists_of_mem_scanRegion h
    have hwithin := within_of_mem_chains hchain hb
    have hbody : b.body.map Prod.snd ⊆ region.map Prod.snd := List.map_subset _ hwithin.2
    rcases h with h | h
    · rw [h]
      intro n hn
      rcases List.mem_cons.mp (directRequires_subset b hn) with rfl | hn
      · exact hwithin.1
      · exact hbody hn
    · exact fun n hn => hbody (ih h hn)

/-- **Only lines of chains are reported.** -/
theorem requireLines_subset_chainLines {lines : List Str} {branch : WhenBranch} (h : branch ∈ parseWhenBranches lines) :
    branch.requireLines ⊆ chainLines lines.zipIdx := by
  have htop : branch ∈ scanRegion (7 + 1) lines.zipIdx := h
  obtain ⟨chain, hchain, b, hb, h⟩ := exists_of_mem_scanRegion htop
  have hlines : b.headerLine :: b.body.map Prod.snd ⊆ chainLines lines.zipIdx := fun n hn =>
    List.mem_flatMap.mpr ⟨chain, hchain, List.mem_flatMap.mpr ⟨b, hb, hn⟩⟩
  rcases h with h | h
  · rw [h]
    exact fun n hn => hlines (directRequires_subset b hn)
  · exact fun n hn => hlines (List.mem_cons_of_mem _ (requireLines_subset h hn))

/-- **A requirement outside the chains has no predicates.** -/
theorem predicatesAt_of_not_mem {lines : List Str} {line : ℕ} (h : line ∉ chainLines lines.zipIdx) :
    predicatesAt (parseWhenBranches lines) line = [] := by
  have hnone : linePreds (parseWhenBranches lines) line = none := by
    rw [linePreds, Option.map_eq_none_iff, List.find?_eq_none]
    intro branch hbranch
    rw [decide_eq_true_iff]
    exact fun hmem => h (requireLines_subset_chainLines (List.mem_reverse.mp hbranch) hmem)
  rw [predicatesAt, hnone]

end Milpa.Nimble
