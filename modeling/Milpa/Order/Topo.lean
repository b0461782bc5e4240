import Mathlib.Data.List.Perm.Basic
import Mathlib.Logic.Relation

/-!
# Depth-first order

The order in which a depth-first visit leaves the nodes of a graph: a node comes after
those that it leads to, unless they lead back to it. The visit is by fuel, and the number
of nodes is enough of it (`visit_fuel`); every node is ordered once (`order_perm`).
-/

namespace Milpa.Topo

universe u

variable {α : Type u} [DecidableEq α] (nodes : List α) (edges : α → List α)

/-- The variables of a visit. -/
structure Visit (α : Type u) where
  ordered : List α
  visited : List α
  visiting : List α

/-- A visit of a node: it is skipped if it was visited, or is not there, or is being visited. -/
def visit : ℕ → α → Visit α → Visit α
  | 0, _, w => w
  | n + 1, a, w =>
    if a ∈ w.visited ∨ a ∉ nodes then w
    else if a ∈ w.visiting then w
    else
      let w' := (edges a).foldl (fun w b => visit n b w) { w with visiting := a :: w.visiting }
      ⟨w'.ordered ++ [a], a :: w'.visited, w'.visiting.erase a⟩

/-- The order of all nodes. -/
def order : List α := (nodes.foldl (fun w a => visit nodes edges (nodes.length + 1) a w) ⟨[], [], []⟩).ordered

variable {nodes edges}

/-- The nodes that are being visited are the same before and after a visit. -/
theorem visiting_visit (n : ℕ) (a : α) (w : Visit α) : (visit nodes edges n a w).visiting = w.visiting := by
  induction n generalizing a w with
  | zero => rfl
  | succ n ih =>
    have hfold : ∀ (l : List α) (w : Visit α), (l.foldl (fun w b => visit nodes edges n b w) w).visiting = w.visiting := by
      intro l
      induction l with
      | nil => exact fun _ => rfl
      | cons b l ihl => exact fun w => (ihl _).trans (ih b w)
    rw [visit]
    split_ifs
    · rfl
    · rfl
    · show List.erase _ a = _
      rw [hfold, List.erase_cons_head]

/-- What a visit keeps: each visited node is ordered, once, and none of them is being visited. -/
structure Sound (nodes : List α) (w : Visit α) : Prop where
  nodup : w.ordered.Nodup
  ordered : ∀ a, a ∈ w.ordered ↔ a ∈ w.visited
  nodes : ∀ a ∈ w.visited, a ∈ nodes
  apart : ∀ a ∈ w.visiting, a ∉ w.visited

omit [DecidableEq α] in
theorem sound_start : Sound nodes ⟨[], [], []⟩ := by constructor <;> simp

omit [DecidableEq α] in
/-- A visit begins. -/
theorem Sound.enter {a : α} {w : Visit α} (h : Sound nodes w) (hunvisited : a ∉ w.visited) :
    Sound nodes { w with visiting := a :: w.visiting } := by
  refine ⟨h.nodup, h.ordered, h.nodes, fun b hb => ?_⟩
  rcases List.mem_cons.mp hb with rfl | hb
  · exact hunvisited
  · exact h.apart b hb

/-- A visit, and a run of visits, keep what is sound and forget nothing. -/
theorem sound_visit (edges : α → List α) (n : ℕ) (a : α) {w : Visit α} (h : Sound nodes w) :
    Sound nodes (visit nodes edges n a w) ∧ ∀ b ∈ w.visited, b ∈ (visit nodes edges n a w).visited := by
  induction n generalizing a w with
  | zero => exact ⟨h, fun _ => id⟩
  | succ n ih =>
    have hfold : ∀ (l : List α) (w : Visit α), Sound nodes w → Sound nodes (l.foldl (fun w b => visit nodes edges n b w) w) ∧
        ∀ b ∈ w.visited, b ∈ (l.foldl (fun w b => visit nodes edges n b w) w).visited := by
      intro l
      induction l with
      | nil => exact fun w h => ⟨h, fun _ => id⟩
      | cons b l ihl =>
        intro w h
        obtain ⟨h₁, hmono₁⟩ := ih b h
        obtain ⟨h₂, hmono₂⟩ := ihl _ h₁
        exact ⟨h₂, fun b' hb' => hmono₂ b' (hmono₁ b' hb')⟩
    have hvisiting : ∀ (l : List α) (w : Visit α), (l.foldl (fun w b => visit nodes edges n b w) w).visiting = w.visiting := by
      intro l
      induction l with
      | nil => exact fun _ => rfl
      | cons b l ihl => exact fun w => (ihl _).trans (visiting_visit n b w)
    rw [visit]
    split_ifs with hskip hcycle
    · exact ⟨h, fun _ => id⟩
    · exact ⟨h, fun _ => id⟩
    · obtain ⟨hunvisited, hnode⟩ := not_or.mp hskip
      rw [not_not] at hnode
      have hstart : Sound nodes { w with visiting := a :: w.visiting } := h.enter hunvisited
      obtain ⟨hw', hmono⟩ := hfold (edges a) _ hstart
      have hsame := hvisiting (edges a) { w with visiting := a :: w.visiting }
      set w' := (edges a).foldl (fun w b => visit nodes edges n b w) { w with visiting := a :: w.visiting }
      -- `a` is still being visited, so it is not ordered yet
      have hnew : a ∉ w'.visited := hw'.apart a (by rw [hsame]; exact List.mem_cons_self)
      refine ⟨⟨?_, ?_, ?_, ?_⟩, fun b hb => List.mem_cons_of_mem _ (hmono b hb)⟩
      · rw [List.nodup_append]
        refine ⟨hw'.nodup, List.pairwise_singleton _ a, fun b hb c hc heq => hnew ?_⟩
        rw [← List.mem_singleton.mp hc, ← heq]
        exact (hw'.ordered b).mp hb
      · intro b
        rw [List.mem_append, List.mem_singleton, List.mem_cons, hw'.ordered, or_comm]
      · intro b hb
        rcases List.mem_cons.mp hb with rfl | hb
        · exact hnode
        · exact hw'.nodes b hb
      · intro b hb hvisited
        change b ∈ w'.visiting.erase a at hb
        rw [hsame, List.erase_cons_head] at hb
        rcases List.mem_cons.mp hvisited with rfl | hvisited
        · exact hcycle hb
        · exact hw'.apart b (by rw [hsame]; exact List.mem_cons_of_mem _ hb) hvisited

/-- A node that is visited from outside is visited after that. -/
theorem mem_visited_visit (n : ℕ) {a : α} {w : Visit α} (ha : a ∈ nodes) (hw : w.visiting = []) :
    a ∈ (visit nodes edges (n + 1) a w).visited := by
  rw [visit]
  split_ifs with hskip hcycle
  · exact hskip.resolve_right fun hne => hne ha
  · simp [hw] at hcycle
  · exact List.mem_cons_self

/-- **Every node is ordered once.** -/
theorem order_perm (edges : α → List α) (h : nodes.Nodup) : (order nodes edges).Perm nodes := by
  have step : ∀ (l : List α) (w : Visit α), (∀ a ∈ l, a ∈ nodes) → Sound nodes w → w.visiting = [] →
      Sound nodes (l.foldl (fun w a => visit nodes edges (nodes.length + 1) a w) w) ∧
        ∀ a, a ∈ w.visited ∨ a ∈ l → a ∈ (l.foldl (fun w a => visit nodes edges (nodes.length + 1) a w) w).visited := by
    intro l
    induction l with
    | nil => exact fun w _ hw _ => ⟨hw, fun a ha => ha.resolve_right List.not_mem_nil⟩
    | cons b l ih =>
      intro w hl hw hempty
      obtain ⟨h₁, hmono⟩ := sound_visit edges (nodes.length + 1) b hw
      obtain ⟨h₂, hall⟩ := ih _ (fun a ha => hl a (List.mem_cons_of_mem _ ha)) h₁ ((visiting_visit _ _ _).trans hempty)
      refine ⟨h₂, fun a ha => hall a ?_⟩
      rcases ha with ha | ha
      · exact Or.inl (hmono a ha)
      · rcases List.mem_cons.mp ha with rfl | ha
        · exact Or.inl (mem_visited_visit _ (hl a List.mem_cons_self) hempty)
        · exact Or.inr ha
  obtain ⟨hsound, hall⟩ := step nodes ⟨[], [], []⟩ (fun _ => id) sound_start rfl
  exact (List.perm_ext_iff_of_nodup hsound.nodup h).mpr fun a =>
    ⟨fun ha => hsound.nodes a ((hsound.ordered a).mp ha), fun ha => (hsound.ordered a).mpr (hall a (Or.inr ha))⟩

/-- A node less, once it is being visited. -/
theorem filter_visiting_lt {a : α} {w : Visit α} (hnode : a ∈ nodes) (hcycle : a ∉ w.visiting) :
    (nodes.filter fun b => decide (b ∉ a :: w.visiting)).length < (nodes.filter fun b => decide (b ∉ w.visiting)).length := by
  have hsub : (nodes.filter fun b => decide (b ∉ a :: w.visiting)).Sublist (nodes.filter fun b => decide (b ∉ w.visiting)) :=
    List.monotone_filter_right nodes fun b hb => by simp_all
  refine Nat.lt_of_le_of_ne hsub.length_le fun heq => ?_
  have hmem : a ∈ nodes.filter fun b => decide (b ∉ w.visiting) := List.mem_filter.mpr ⟨hnode, by simpa using hcycle⟩
  rw [← hsub.eq_of_length heq] at hmem
  simp at hmem

/-- As much fuel as there are nodes that are not being visited is enough. -/
theorem visit_fuel {n : ℕ} {a : α} {w : Visit α} (h : (nodes.filter fun b => decide (b ∉ w.visiting)).length < n) :
    visit nodes edges (n + 1) a w = visit nodes edges n a w := by
  induction n generalizing a w with
  | zero => exact absurd h (Nat.not_lt_zero _)
  | succ n ih =>
    rw [visit, visit]
    split_ifs with hskip hcycle
    · rfl
    · rfl
    · have hnode : a ∈ nodes := not_not.mp (not_or.mp hskip).2
      have hless : (nodes.filter fun b => decide (b ∉ a :: w.visiting)).length < n := by
        have := filter_visiting_lt hnode hcycle
        omega
      have hfold : ∀ (l : List α) (w' : Visit α), w'.visiting = a :: w.visiting →
          l.foldl (fun w b => visit nodes edges (n + 1) b w) w' = l.foldl (fun w b => visit nodes edges n b w) w' := by
        intro l
        induction l with
        | nil => exact fun _ _ => rfl
        | cons b l ihl =>
          intro w' hw'
          rw [List.foldl_cons, List.foldl_cons, ih (by rwa [hw'])]
          exact ihl _ ((visiting_visit n b w').trans hw')
      rw [hfold (edges a) _ rfl]

/-! ### What is reached -/

variable (nodes edges) in
/-- The order of the nodes that some nodes lead to. -/
def reached (starts : List α) : List α := (starts.foldl (fun w a => visit nodes edges (nodes.length + 1) a w) ⟨[], [], []⟩).ordered

/-- One node leads to another one that is there. -/
def Leads (nodes : List α) (edges : α → List α) (a b : α) : Prop := b ∈ edges a ∧ b ∈ nodes

/-- What a run of visits from some nodes has added: it comes from these nodes, and leads to nothing that is left. -/
structure Added (nodes : List α) (edges : α → List α) (starts : List α) (w w' : Visit α) : Prop where
  mono : ∀ b ∈ w.visited, b ∈ w'.visited
  started : ∀ a ∈ starts, a ∈ nodes → a ∈ w'.visited ∨ a ∈ w.visiting
  closed : ∀ x ∈ w'.visited, x ∉ w.visited → ∀ b, Leads nodes edges x b → b ∈ w'.visited ∨ b ∈ w.visiting
  origin : ∀ x ∈ w'.visited, x ∉ w.visited → ∃ a ∈ starts, a ∈ nodes ∧ Relation.ReflTransGen (Leads nodes edges) a x

omit [DecidableEq α] in
theorem Added.refl (nodes : List α) (edges : α → List α) (w : Visit α) : Added nodes edges [] w w :=
  ⟨fun _ => id, nofun, fun _ h hn => absurd h hn, fun _ h hn => absurd h hn⟩

omit [DecidableEq α] in
theorem Added.cons {a : α} {l : List α} {w w₁ w₂ : Visit α} (hsame : w₁.visiting = w.visiting) (h₁ : Added nodes edges [a] w w₁)
    (h₂ : Added nodes edges l w₁ w₂) : Added nodes edges (a :: l) w w₂ where
  mono := fun b hb => h₂.mono b (h₁.mono b hb)
  started := fun b hb hnode => by
    rcases List.mem_cons.mp hb with rfl | hb
    · exact (h₁.started b List.mem_cons_self hnode).imp_left (h₂.mono b)
    · exact hsame ▸ h₂.started b hb hnode
  closed := fun x hx hnew b hb => by
    by_cases hx₁ : x ∈ w₁.visited
    · exact (h₁.closed x hx₁ hnew b hb).imp_left (h₂.mono b)
    · exact hsame ▸ h₂.closed x hx hx₁ b hb
  origin := fun x hx hnew => by
    by_cases hx₁ : x ∈ w₁.visited
    · obtain ⟨c, hc, hpath⟩ := h₁.origin x hx₁ hnew
      exact ⟨c, by simpa using Or.inl (List.mem_singleton.mp hc), hpath⟩
    · obtain ⟨c, hc, hpath⟩ := h₂.origin x hx hx₁
      exact ⟨c, List.mem_cons_of_mem a hc, hpath⟩

/-- A visit with enough fuel. -/
theorem added_visit {n : ℕ} (a : α) {w : Visit α} (h : Sound nodes w)
    (hfuel : (nodes.filter fun b => decide (b ∉ w.visiting)).length < n) : Added nodes edges [a] w (visit nodes edges n a w) := by
  induction n generalizing a w with
  | zero => exact absurd hfuel (Nat.not_lt_zero _)
  | succ n ih =>
    rw [visit]
    split_ifs with hskip hcycle
    · refine ⟨fun _ => id, fun b hb hnode => .inl ?_, fun _ hx hn => absurd hx hn, fun _ hx hn => absurd hx hn⟩
      rw [List.mem_singleton.mp hb] at hnode ⊢
      exact hskip.resolve_right fun hne => hne hnode
    · refine ⟨fun _ => id, fun b hb _ => .inr ?_, fun _ hx hn => absurd hx hn, fun _ hx hn => absurd hx hn⟩
      rwa [List.mem_singleton.mp hb]
    · obtain ⟨hunvisited, hnode⟩ := not_or.mp hskip
      rw [not_not] at hnode
      have hless : (nodes.filter fun b => decide (b ∉ a :: w.visiting)).length < n := by
        have := filter_visiting_lt hnode hcycle
        omega
      have hstart : Sound nodes { w with visiting := a :: w.visiting } := h.enter hunvisited
      -- the edges are visited one after the other, with `a` among the nodes that are being visited
      have hfold : ∀ (l : List α) (w₁ : Visit α), Sound nodes w₁ → w₁.visiting = a :: w.visiting →
          Added nodes edges l w₁ (l.foldl (fun w b => visit nodes edges n b w) w₁) := by
        intro l
        induction l with
        | nil => exact fun w₁ _ _ => .refl nodes edges w₁
        | cons b l ihl =>
          intro w₁ hw₁ hsame
          have hvisit := (visiting_visit n b w₁ : (visit nodes edges n b w₁).visiting = _)
          exact .cons hvisit (ih b hw₁ (by rwa [hsame])) (ihl _ (sound_visit edges n b hw₁).1 (hvisit.trans hsame))
      have hadded := hfold (edges a) _ hstart rfl
      set w' := (edges a).foldl (fun w b => visit nodes edges n b w) { w with visiting := a :: w.visiting }
      refine ⟨fun b hb => List.mem_cons_of_mem a (hadded.mono b hb), fun b hb _ => .inl ?_, fun x hx hnew b hb => ?_, fun x hx hnew => ?_⟩
      · rw [List.mem_singleton.mp hb]
        exact List.mem_cons_self
      · have hleads : b ∈ w'.visited ∨ b ∈ a :: w.visiting := by
          rcases List.mem_cons.mp hx with rfl | hx
          · exact hadded.started b hb.1 hb.2
          · exact hadded.closed x hx hnew b hb
        rcases hleads with hleads | hleads
        · exact .inl (List.mem_cons_of_mem a hleads)
        · rcases List.mem_cons.mp hleads with rfl | hleads
          · exact .inl List.mem_cons_self
          · exact .inr hleads
      · refine ⟨a, List.mem_singleton_self a, hnode, ?_⟩
        rcases List.mem_cons.mp hx with rfl | hx
        · exact .refl
        · obtain ⟨c, hc, hcnode, hpath⟩ := hadded.origin x hx hnew
          exact .head ⟨hc, hcnode⟩ hpath

/-- A run of visits from outside. -/
theorem added_run (edges : α → List α) (starts : List α) {w : Visit α} (h : Sound nodes w) (hempty : w.visiting = []) :
    Added nodes edges starts w (starts.foldl (fun w a => visit nodes edges (nodes.length + 1) a w) w) ∧
      Sound nodes (starts.foldl (fun w a => visit nodes edges (nodes.length + 1) a w) w) := by
  induction starts generalizing w with
  | nil => exact ⟨.refl nodes edges w, h⟩
  | cons a starts ih =>
    have hsame : (visit nodes edges (nodes.length + 1) a w).visiting = w.visiting := visiting_visit (nodes.length + 1) a w
    have hfuel : (nodes.filter fun b => decide (b ∉ w.visiting)).length < nodes.length + 1 :=
      Nat.lt_succ_of_le (List.length_filter_le _ _)
    obtain ⟨hadded, hsound⟩ := ih (sound_visit edges (nodes.length + 1) a h).1 (hsame.trans hempty)
    exact ⟨.cons hsame (added_visit a h hfuel) hadded, hsound⟩

/-- **What is reached.** The nodes that are ordered are those that the starts lead to. -/
theorem mem_reached (edges : α → List α) (starts : List α) (x : α) :
    x ∈ reached nodes edges starts ↔ ∃ a ∈ starts, a ∈ nodes ∧ Relation.ReflTransGen (Leads nodes edges) a x := by
  have hstart : Sound nodes ⟨[], [], []⟩ := sound_start
  obtain ⟨hadded, hsound⟩ := added_run edges starts hstart rfl
  rw [reached, hsound.ordered]
  constructor
  · exact fun hx => hadded.origin x hx nofun
  · rintro ⟨a, ha, hnode, hpath⟩
    induction hpath with
    | refl => exact (hadded.started a ha hnode).resolve_right nofun
    | tail _ hleads ih => exact (hadded.closed _ ih nofun _ hleads).resolve_right nofun

/-- Each of them is ordered once. -/
theorem nodup_reached (edges : α → List α) (starts : List α) : (reached nodes edges starts).Nodup := by
  have hstart : Sound nodes ⟨[], [], []⟩ := sound_start
  obtain ⟨-, hsound⟩ := added_run edges starts hstart rfl
  exact hsound.nodup

end Milpa.Topo
