import Milpa.Solver.VersionSetLaws
import Milpa.Solver.VersionText

/-!
# The text of a version set

`from_constraint` reads the set that `vs_to_constraint_str` writes: a set with the same
versions, where the versions in its bounds can be read (`fromConstraint_toConstraintStr`).
-/

namespace Milpa.Solver

open Result

/-! ### Sets with bounds that can be read -/

/-- The bounds of an interval can be read. -/
def Interval.Readable (iv : Interval) : Prop := (∀ v ∈ iv.lo, v.Readable) ∧ ∀ v ∈ iv.hi, v.Readable

namespace VersionSet

/-- The bounds of a version set can be read. -/
def Readable (s : VersionSet) : Prop := ∀ iv ∈ s.intervals, iv.Readable

theorem readable_full : Readable full := by
  intro iv hiv
  rw [List.mem_singleton.mp hiv]
  exact ⟨fun v hv => absurd hv (by simp), fun v hv => absurd hv (by simp)⟩

theorem readable_extendLast {a b : Interval} (ha : a.Readable) (hb : b.Readable) : (extendLast a b).Readable := by
  refine ⟨ha.1, fun v hv => ?_⟩
  obtain ⟨aLo, aHi, aLoC, aHiC⟩ := a
  obtain ⟨bLo, bHi, bLoC, bHiC⟩ := b
  cases aHi with
  | none => simp [extendLast, maxBound] at hv
  | some av =>
    cases bHi with
    | none => simp [extendLast, maxBound] at hv
    | some bv =>
      have hbounds : v = av ∨ v = bv := by
        cases hcmp : av.cmp bv <;> simp [extendLast, maxBound, hcmp] at hv <;> simp [hv]
      rcases hbounds with rfl | rfl
      · exact ha.2 v rfl
      · exact hb.2 v rfl

theorem readable_overlap {a b : Interval} (ha : a.Readable) (hb : b.Readable) : (overlap a b).Readable := by
  obtain ⟨aLo, aHi, aLoC, aHiC⟩ := a
  obtain ⟨bLo, bHi, bLoC, bHiC⟩ := b
  constructor
  · intro v hv
    have hbounds : v ∈ aLo ∨ v ∈ bLo := by
      cases aLo with
      | none => exact Or.inr (by simpa [overlap, maxLoWithClosed] using hv)
      | some av =>
        cases bLo with
        | none => exact Or.inl (by simpa [overlap, maxLoWithClosed] using hv)
        | some bv => cases hcmp : av.cmp bv <;> simp [overlap, maxLoWithClosed, hcmp] at hv <;> simp [hv]
    exact hbounds.elim (ha.1 v) (hb.1 v)
  · intro v hv
    have hbounds : v ∈ aHi ∨ v ∈ bHi := by
      cases aHi with
      | none => exact Or.inr (by simpa [overlap, minHiWithClosed] using hv)
      | some av =>
        cases bHi with
        | none => exact Or.inl (by simpa [overlap, minHiWithClosed] using hv)
        | some bv => cases hcmp : av.cmp bv <;> simp [overlap, minHiWithClosed, hcmp] at hv <;> simp [hv]
    exact hbounds.elim (ha.2 v) (hb.2 v)

/-- The bounds of an intersection are bounds of what is intersected. -/
theorem Readable.intersect {s t : VersionSet} (hs : Readable s) (ht : Readable t) : Readable (s.intersect t) := by
  refine forall_normalizeIntervals (fun _ _ => readable_extendLast) fun iv hiv => ?_
  obtain ⟨a, ha, hiv⟩ := List.mem_flatMap.mp hiv
  obtain ⟨b, hb, rfl⟩ := List.mem_map.mp (List.mem_filter.mp hiv).1
  exact readable_overlap (hs a ha) (ht b hb)

/-! ### Constructors -/

/-- What is covered lies below the top. -/
theorem covers_gte (v : Version) (x : Cut) : Stretch.Covers loCut hiCut (gte v).intervals x ↔ cutAt v false ≤ x ∧ x < ⊤ := by
  simp [gte, Stretch.Covers, Stretch.Mem, loCut, hiCut]

theorem covers_lt (v : Version) (x : Cut) : Stretch.Covers loCut hiCut (lt v).intervals x ↔ x < cutAt v false := by
  simp [lt, Stretch.Covers, Stretch.Mem, loCut, hiCut]

theorem covers_eq (v : Version) (x : Cut) :
    Stretch.Covers loCut hiCut (eq v).intervals x ↔ cutAt v false ≤ x ∧ x < cutAt v true := by
  simp [eq, Stretch.Covers, Stretch.Mem, loCut, hiCut]

theorem cutAt_false_lt_true (v : Version) : cutAt v false < cutAt v true := by
  simp [cutAt_lt]

theorem covers_gt (v : Version) (x : Cut) : Stretch.Covers loCut hiCut (gt v).intervals x ↔ cutAt v true ≤ x ∧ x < ⊤ := by
  rw [gt, covers_intersect, covers_gte]
  constructor
  · rintro ⟨⟨hle, hx⟩, hne⟩
    rw [covers_complement (Built.eq v).canonicalForm hx, covers_eq] at hne
    exact ⟨not_lt.mp fun hlt => hne ⟨hle, hlt⟩, hx⟩
  · rintro ⟨hle, hx⟩
    rw [covers_complement (Built.eq v).canonicalForm hx, covers_eq]
    exact ⟨⟨(cutAt_false_lt_true v).le.trans hle, hx⟩, fun h => absurd h.2 (not_lt.mpr hle)⟩

theorem covers_lte (v : Version) (x : Cut) : Stretch.Covers loCut hiCut (lte v).intervals x ↔ x < cutAt v true := by
  rw [lte, covers_union, covers_lt, covers_eq]
  constructor
  · rintro (h | h)
    · exact h.trans (cutAt_false_lt_true v)
    · exact h.2
  · intro h
    by_cases hlt : x < cutAt v false
    · exact Or.inl hlt
    · exact Or.inr ⟨not_lt.mp hlt, h⟩

/-! ### Clauses -/

theorem display_cons (v : Version) : ∃ c cs, v.display = c :: cs ∧ c.isDigit = true := by
  obtain ⟨c, cs, hc⟩ := List.exists_cons_of_ne_nil (Str.ofNat_ne_nil v.major.toNat)
  refine ⟨c, _, by rw [display_eq, coreText, hc]; rfl, ?_⟩
  exact Str.isDigit_of_mem_ofNat (n := v.major.toNat) (by rw [hc]; exact List.mem_cons_self)

/-- The four operators that are written. -/
def boundOps : List (Str × (Version → VersionSet)) := [(">=", gte), (">", gt), ("<=", lte), ("<", lt)]

/-- A clause: an operator and a version. -/
def clauseText (op : Str) (v : Version) : Str := op ++ v.display

theorem findSome?_clauseText {op : Str} {make : Version → VersionSet} (hop : (op, make) ∈ boundOps) (v : Version) :
    (clauseOps.findSome? fun o => ((clauseText op v).stripPrefix o.1).map fun rest => (o.2, rest)) = some (make, v.display) := by
  obtain ⟨c, cs, hv, hdigit⟩ := display_cons v
  have hne : c ≠ '=' := by
    rintro rfl
    exact absurd hdigit (by decide)
  rw [clauseText, hv]
  simp only [boundOps, List.mem_cons, Prod.mk.injEq, List.not_mem_nil, or_false] at hop
  rcases hop with ⟨rfl, rfl⟩ | ⟨rfl, rfl⟩ | ⟨rfl, rfl⟩ | ⟨rfl, rfl⟩
  · simp [clauseOps, Str.stripPrefix, List.isPrefixOf?]
  · simp [clauseOps, Str.stripPrefix, List.isPrefixOf?, hne.symm]
  · simp [clauseOps, Str.stripPrefix, List.isPrefixOf?]
  · simp [clauseOps, Str.stripPrefix, List.isPrefixOf?, hne.symm]

/-- A character of a clause. -/
def isClauseChar (c : Char) : Bool := isVersionChar c || c == '<' || c == '>' || c == '='

theorem not_isWhitespace_of_isClauseChar {c : Char} (h : isClauseChar c = true) : Str.isWhitespace c = false := by
  simp only [isClauseChar, Bool.or_eq_true, beq_iff_eq] at h
  rcases h with ((h | rfl) | rfl) | rfl
  · exact not_isWhitespace_of_isVersionChar h
  · decide
  · decide
  · decide

theorem isClauseChar_of_mem {op : Str} {make : Version → VersionSet} (hop : (op, make) ∈ boundOps) {v : Version} (h : v.Readable) :
    ∀ c ∈ clauseText op v, isClauseChar c = true := by
  intro c hc
  rcases List.mem_append.mp hc with hc | hc
  · have hops : (boundOps.all fun e => e.1.all isClauseChar) = true := by decide
    exact List.all_eq_true.mp (List.all_eq_true.mp hops _ hop) c hc
  · simp [isClauseChar, isVersionChar_of_mem_display h c hc]

/-- **A clause is read as it was written.** -/
theorem parseClause_clauseText {op : Str} {make : Version → VersionSet} (hop : (op, make) ∈ boundOps) {v : Version}
    (h : v.Readable) : parseClause (clauseText op v) = .ok (make v) := by
  have htrim : (clauseText op v).trim = clauseText op v :=
    Str.trim_eq_self fun c hc => not_isWhitespace_of_isClauseChar (isClauseChar_of_mem hop h c hc)
  have hversion : v.display.trim = v.display :=
    Str.trim_eq_self fun c hc => not_isWhitespace_of_isVersionChar (isVersionChar_of_mem_display h c hc)
  unfold parseClause
  dsimp only
  rw [htrim, findSome?_clauseText hop]
  dsimp only
  rw [hversion, parseVersion_display h]

/-! ### Text between white space -/

/-- Text, with white space around it. -/
def Padded (text core : Str) : Prop :=
  ∃ pre post, text = pre ++ core ++ post ∧ (∀ c ∈ pre, Str.isWhitespace c = true) ∧ ∀ c ∈ post, Str.isWhitespace c = true

theorem isWhitespace_of_mem_blank : ∀ c ∈ (" " : Str), Str.isWhitespace c = true := by
  intro c hc
  obtain rfl := List.mem_singleton.mp (show c ∈ [' '] from hc)
  rfl

theorem Padded.refl (core : Str) : Padded core core := ⟨[], [], by simp, by simp, by simp⟩

theorem Padded.trim {text core : Str} (h : Padded text core) (hcore : core ≠ [])
    (hplain : ∀ c ∈ core, Str.isWhitespace c = false) : text.trim = core := by
  obtain ⟨pre, post, rfl, hpre, hpost⟩ := h
  unfold Str.trim
  have hdrop : (pre ++ core ++ post).dropWhile Str.isWhitespace = core ++ post := by
    rw [List.append_assoc, List.dropWhile_append_of_pos hpre]
    obtain ⟨c, cs, rfl⟩ := List.exists_cons_of_ne_nil hcore
    rw [List.cons_append, List.dropWhile_cons_of_neg (by simp [hplain c List.mem_cons_self])]
  rw [hdrop]
  have hpost' : (core ++ post).rdropWhile Str.isWhitespace = core.rdropWhile Str.isWhitespace := by
    unfold List.rdropWhile
    rw [List.reverse_append, List.dropWhile_append_of_pos fun c hc => hpost c (List.mem_reverse.mp hc)]
  rw [hpost', List.rdropWhile_eq_self_iff]
  intro hne
  rw [hplain _ (List.getLast_mem hne)]
  decide

theorem Padded.not_mem {text core : Str} (h : Padded text core) {c : Char} (hc : Str.isWhitespace c = false) (hcore : c ∉ core) :
    c ∉ text := by
  obtain ⟨pre, post, rfl, hpre, hpost⟩ := h
  intro hmem
  rcases List.mem_append.mp hmem with hmem | hmem
  · rcases List.mem_append.mp hmem with hmem | hmem
    · rw [hpre c hmem] at hc
      cases hc
    · exact hcore hmem
  · rw [hpost c hmem] at hc
    cases hc

theorem parseClause_padded {op : Str} {make : Version → VersionSet} (hop : (op, make) ∈ boundOps) {v : Version} (h : v.Readable)
    {text : Str} (htext : Padded text (clauseText op v)) : parseClause text.trim = .ok (make v) := by
  rw [htext.trim ?_ fun c hc => not_isWhitespace_of_isClauseChar (isClauseChar_of_mem hop h c hc), parseClause_clauseText hop h]
  obtain ⟨c, cs, hv, -⟩ := display_cons v
  simp [clauseText, hv]

theorem ampersand_not_mem {op : Str} {make : Version → VersionSet} (hop : (op, make) ∈ boundOps) {v : Version} (h : v.Readable)
    {text : Str} (htext : Padded text (clauseText op v)) : '&' ∉ text := by
  refine htext.not_mem (by decide) fun hmem => ?_
  exact absurd (isClauseChar_of_mem hop h '&' hmem) (by decide)

/-! ### Arms -/

/-- The set above the lower bound of an interval. -/
def loSet (iv : Interval) : VersionSet :=
  match iv.lo with
  | some v => if iv.loClosed then gte v else gt v
  | none => full

/-- The set below the upper bound of an interval. -/
def hiSet (iv : Interval) : VersionSet :=
  match iv.hi with
  | some v => if iv.hiClosed then lte v else lt v
  | none => full

theorem mem_iff_bounds (iv : Interval) (x : Cut) :
    Stretch.Mem loCut hiCut x iv ↔
      Stretch.Covers loCut hiCut (loSet iv).intervals x ∧ Stretch.Covers loCut hiCut (hiSet iv).intervals x := by
  have hlo : Stretch.Covers loCut hiCut (loSet iv).intervals x ↔ loCut iv ≤ x ∧ x < ⊤ := by
    obtain ⟨lo, hi, loC, hiC⟩ := iv
    cases lo with
    | none => simp [loSet, covers_full, loCut]
    | some v => cases loC <;> simp [loSet, covers_gte, covers_gt, loCut]
  have hhi : Stretch.Covers loCut hiCut (hiSet iv).intervals x ↔ x < hiCut iv := by
    obtain ⟨lo, hi, loC, hiC⟩ := iv
    cases hi with
    | none => simp [hiSet, covers_full, hiCut]
    | some v => cases hiC <;> simp [hiSet, covers_lte, covers_lt, hiCut]
  rw [hlo, hhi, Stretch.Mem]
  exact ⟨fun h => ⟨⟨h.1, h.2.trans_le le_top⟩, h.2⟩, fun h => ⟨h.1.1, h.2⟩⟩

/-- The clause of a lower bound. -/
theorem loClause_mem (closed : Bool) :
    ((if closed then ">=" else ">" : Str), fun v => if closed then gte v else gt v) ∈ boundOps := by
  cases closed <;> simp [boundOps]

/-- The clause of an upper bound. -/
theorem hiClause_mem (closed : Bool) :
    ((if closed then "<=" else "<" : Str), fun v => if closed then lte v else lt v) ∈ boundOps := by
  cases closed <;> simp [boundOps]

/-- The text of an interval. -/
def armText (iv : Interval) : Str := List.intercalate " & " (intervalClauses iv)

theorem parseArm_cons {clauses : List Str} {sets : List VersionSet}
    (h : List.Forall₂ (fun clause set => parseClause (Str.trim clause) = .ok set) clauses sets) (start : VersionSet) :
    clauses.foldlM (fun armResult clause => do return armResult.intersect (← parseClause (Str.trim clause))) start =
      .ok (sets.foldl intersect start) := by
  induction h generalizing start with
  | nil => rfl
  | cons hclause _ ih =>
    rw [List.foldlM_cons, hclause]
    exact ih _

theorem split_of_not_mem {text : Str} {c : Char} (h : c ∉ text) : text.split c = [text] := by
  have hsplit : ([c].intercalate [text]).splitOn c = [text] := List.splitOn_intercalate c (by simpa using h) (by simp)
  show List.splitOn c text = [text]
  simpa [List.intercalate] using hsplit

theorem split_pair {a b : Str} {c : Char} (ha : c ∉ a) (hb : c ∉ b) : (a ++ c :: b).split c = [a, b] := by
  have hsplit : ([c].intercalate [a, b]).splitOn c = [a, b] := List.splitOn_intercalate c (by simpa using ⟨ha, hb⟩) (by simp)
  show List.splitOn c (a ++ c :: b) = [a, b]
  simpa [List.intercalate] using hsplit

/-- **An arm is read as it was written.** -/
theorem parseArm_armText {iv : Interval} (h : iv.Readable) (hne : intervalClauses iv ≠ []) {text : Str}
    (htext : Padded text (armText iv)) :
    ∃ s, parseArm text = .ok s ∧ ∀ x, Stretch.Covers loCut hiCut s.intervals x ↔ Stretch.Mem loCut hiCut x iv := by
  obtain ⟨lo, hi, loC, hiC⟩ := iv
  have hloMem := loClause_mem loC
  have hhiMem := hiClause_mem hiC
  cases lo with
  | none =>
    cases hi with
    | none => exact absurd rfl hne
    | some v =>
      have hv : v.Readable := h.2 v rfl
      have htext : Padded text (clauseText (if hiC then "<=" else "<") v) := by
        simpa [armText, intervalClauses, List.intercalate, clauseText] using htext
      have hread := parseArm_cons (.cons (parseClause_padded hhiMem hv htext) .nil) full
      refine ⟨_, by rw [parseArm, split_of_not_mem (ampersand_not_mem hhiMem hv htext)]; exact hread, fun x => ?_⟩
      rw [mem_iff_bounds, List.foldl_cons, List.foldl_nil, covers_intersect]
      rfl
  | some v =>
    have hv : v.Readable := h.1 v rfl
    cases hi with
    | none =>
      have htext : Padded text (clauseText (if loC then ">=" else ">") v) := by
        simpa [armText, intervalClauses, List.intercalate, clauseText] using htext
      have hread := parseArm_cons (.cons (parseClause_padded hloMem hv htext) .nil) full
      refine ⟨_, by rw [parseArm, split_of_not_mem (ampersand_not_mem hloMem hv htext)]; exact hread, fun x => ?_⟩
      rw [mem_iff_bounds, List.foldl_cons, List.foldl_nil, covers_intersect]
      exact and_comm
    | some u =>
      have hu : u.Readable := h.2 u rfl
      obtain ⟨pre, post, rfl, hpre, hpost⟩ := htext
      have hlo : Padded (pre ++ clauseText (if loC then ">=" else ">") v ++ " ") (clauseText (if loC then ">=" else ">") v) :=
        ⟨pre, " ", rfl, hpre, isWhitespace_of_mem_blank⟩
      have hhi : Padded (" " ++ clauseText (if hiC then "<=" else "<") u ++ post) (clauseText (if hiC then "<=" else "<") u) :=
        ⟨" ", post, rfl, isWhitespace_of_mem_blank, hpost⟩
      have hread := parseArm_cons (.cons (parseClause_padded hloMem hv hlo) (.cons (parseClause_padded hhiMem hu hhi) .nil)) full
      have hsplit := split_pair (ampersand_not_mem hloMem hv hlo) (ampersand_not_mem hhiMem hu hhi)
      have htext : pre ++ armText ⟨some v, some u, loC, hiC⟩ ++ post =
          pre ++ clauseText (if loC then ">=" else ">") v ++ " " ++ '&' :: (" " ++ clauseText (if hiC then "<=" else "<") u ++ post) := by
        simp [armText, intervalClauses, List.intercalate, clauseText]
      refine ⟨_, by rw [htext, parseArm, hsplit]; exact hread, fun x => ?_⟩
      rw [mem_iff_bounds, List.foldl_cons, List.foldl_cons, List.foldl_nil, covers_intersect, covers_intersect, and_assoc]
      exact ⟨fun h => h.2, fun h => ⟨(covers_full x).mpr (lt_top_of_covers h.1), h⟩⟩

/-! ### Sets -/

/-- A separator between arms, for arms without one. -/
theorem splitOr_of_not_mem {s : Str} (h : '|' ∉ s) : splitOr s = [s] := by
  induction s with
  | nil => rfl
  | cons c s ih =>
    obtain ⟨hc, hs⟩ := List.ne_and_not_mem_of_not_mem_cons h
    rw [splitOr.eq_def]
    split
    · rename_i heq; cases heq
    · rename_i heq; obtain ⟨rfl, -⟩ := List.cons.inj heq; exact absurd rfl hc
    · rename_i heq; obtain ⟨rfl, -⟩ := List.cons.inj heq; exact absurd rfl hc
    · rename_i heq
      obtain ⟨rfl, rfl⟩ := List.cons.inj heq
      rw [ih hs]
      rfl

theorem splitOr_append {a b : Str} (h : '|' ∉ a) : splitOr (a ++ '|' :: ' ' :: b) = a :: splitOr (' ' :: b) := by
  induction a with
  | nil => rfl
  | cons c a ih =>
    obtain ⟨hc, ha⟩ := List.ne_and_not_mem_of_not_mem_cons h
    rw [List.cons_append, splitOr.eq_def]
    split
    · rename_i heq; cases heq
    · rename_i heq; obtain ⟨rfl, -⟩ := List.cons.inj heq; exact absurd rfl hc
    · rename_i heq; obtain ⟨rfl, -⟩ := List.cons.inj heq; exact absurd rfl hc
    · rename_i heq
      obtain ⟨rfl, rfl⟩ := List.cons.inj heq
      rw [ih ha]
      rfl

/-- Text of arms is split into its arms. -/
theorem splitOr_arms {arms : List Str} (hne : arms ≠ []) (h : ∀ arm ∈ arms, '|' ∉ arm) (pre : Str)
    (hpre : ∀ c ∈ pre, Str.isWhitespace c = true) :
    List.Forall₂ Padded (splitOr (pre ++ List.intercalate " | " arms)) arms := by
  have hbar : '|' ∉ pre := fun hmem => absurd (hpre _ hmem) (by decide)
  induction arms generalizing pre with
  | nil => exact absurd rfl hne
  | cons arm arms ih =>
    obtain ⟨harm, hrest⟩ := List.forall_mem_cons.mp h
    cases arms with
    | nil =>
      have htext : pre ++ List.intercalate " | " [arm] = pre ++ arm := by simp [List.intercalate]
      rw [htext, splitOr_of_not_mem (by simpa using ⟨hbar, harm⟩)]
      exact .cons ⟨pre, [], by simp, hpre, by simp⟩ .nil
    | cons next arms =>
      have htext : pre ++ List.intercalate " | " (arm :: next :: arms) =
          (pre ++ arm ++ " ") ++ '|' :: ' ' :: List.intercalate " | " (next :: arms) := by
        rw [List.intercalate_cons_cons]
        simp
      rw [htext, splitOr_append (by simpa using ⟨hbar, harm⟩)]
      have hbare : '|' ∉ (" " : Str) := fun hmem => absurd (isWhitespace_of_mem_blank _ hmem) (by decide)
      exact .cons ⟨pre, " ", rfl, hpre, isWhitespace_of_mem_blank⟩ (ih (by simp) hrest " " isWhitespace_of_mem_blank hbare)

/-- Text that begins with a comparison and does not end with white space. -/
structure Trimmed (s : Str) : Prop where
  head : s.head? = some '<' ∨ s.head? = some '>'
  last : ∀ c ∈ s.getLast?, Str.isWhitespace c = false

theorem Trimmed.ne_nil {s : Str} (h : Trimmed s) : s ≠ [] := by
  rintro rfl
  rcases h.head with h | h <;> cases h

theorem Trimmed.trim {s : Str} (h : Trimmed s) : s.trim = s := by
  refine Str.trim_of_ends (fun c hc => ?_) h.last
  rcases h.head with h | h
  · cases h.symm.trans hc
    decide
  · cases h.symm.trans hc
    decide

/-- Parts that are trimmed, with a separator between them. -/
theorem trimmed_intercalate (sep : Str) {parts : List Str} (hne : parts ≠ []) (h : ∀ part ∈ parts, Trimmed part) :
    Trimmed (List.intercalate sep parts) := by
  induction parts with
  | nil => exact absurd rfl hne
  | cons part parts ih =>
    obtain ⟨hpart, hrest⟩ := List.forall_mem_cons.mp h
    cases parts with
    | nil => simpa [List.intercalate] using hpart
    | cons next parts =>
      have htail := ih (by simp) hrest
      rw [List.intercalate_cons_cons]
      constructor
      · rw [List.append_assoc, List.head?_append_of_ne_nil _ hpart.ne_nil]
        exact hpart.head
      · rw [List.getLast?_append_of_ne_nil _ htail.ne_nil]
        exact htail.last

theorem trimmed_clauseText {op : Str} {make : Version → VersionSet} (hop : (op, make) ∈ boundOps) {v : Version} (h : v.Readable) :
    Trimmed (clauseText op v) := by
  constructor
  · simp only [boundOps, List.mem_cons, Prod.mk.injEq, List.not_mem_nil, or_false] at hop
    rcases hop with ⟨rfl, -⟩ | ⟨rfl, -⟩ | ⟨rfl, -⟩ | ⟨rfl, -⟩
    · exact Or.inr rfl
    · exact Or.inr rfl
    · exact Or.inl rfl
    · exact Or.inl rfl
  · intro c hc
    exact not_isWhitespace_of_isClauseChar (isClauseChar_of_mem hop h c (List.mem_of_mem_getLast? hc))

/-- The clauses of an interval are clauses with versions that can be read. -/
theorem intervalClauses_cases {iv : Interval} (h : iv.Readable) {clause : Str} (hc : clause ∈ intervalClauses iv) :
    ∃ op make v, (op, make) ∈ boundOps ∧ v.Readable ∧ clause = clauseText op v := by
  obtain ⟨lo, hi, loC, hiC⟩ := iv
  rcases List.mem_append.mp hc with hc | hc
  · cases lo with
    | none => cases hc
    | some v => exact ⟨_, _, v, loClause_mem loC, h.1 v rfl, List.mem_singleton.mp hc⟩
  · cases hi with
    | none => cases hc
    | some v => exact ⟨_, _, v, hiClause_mem hiC, h.2 v rfl, List.mem_singleton.mp hc⟩

theorem trimmed_armText {iv : Interval} (h : iv.Readable) (hne : intervalClauses iv ≠ []) : Trimmed (armText iv) := by
  refine trimmed_intercalate _ hne fun clause hc => ?_
  obtain ⟨op, make, v, hop, hv, rfl⟩ := intervalClauses_cases h hc
  exact trimmed_clauseText hop hv

theorem bar_not_mem_armText {iv : Interval} (h : iv.Readable) : '|' ∉ armText iv := by
  intro hmem
  rcases Str.mem_of_mem_intercalate hmem with hmem | ⟨clause, hclause, hmem⟩
  · exact absurd hmem (by decide)
  · obtain ⟨op, make, v, hop, hv, rfl⟩ := intervalClauses_cases h hclause
    exact absurd (isClauseChar_of_mem hop hv '|' hmem) (by decide)

theorem foldlM_arms {pieces : List Str} {intervals : List Interval} (hreadable : ∀ iv ∈ intervals, iv.Readable)
    (hne : ∀ iv ∈ intervals, intervalClauses iv ≠ []) (h : List.Forall₂ Padded pieces (intervals.map armText)) (start : VersionSet) :
    ∃ t, pieces.foldlM (fun result arm => do return result.union (← parseArm arm)) start = .ok t ∧
      ∀ x, Stretch.Covers loCut hiCut t.intervals x ↔
        Stretch.Covers loCut hiCut start.intervals x ∨ Stretch.Covers loCut hiCut intervals x := by
  induction intervals generalizing pieces start with
  | nil =>
    cases h
    exact ⟨start, rfl, by simp⟩
  | cons iv intervals ih =>
    obtain ⟨piece, pieces, hpiece, hpieces, rfl⟩ := List.forall₂_cons_right_iff.mp h
    obtain ⟨hiv, hreadable⟩ := List.forall_mem_cons.mp hreadable
    obtain ⟨hclauses, hne⟩ := List.forall_mem_cons.mp hne
    obtain ⟨s, hs, hcovers⟩ := parseArm_armText hiv hclauses hpiece
    obtain ⟨t, ht, hfold⟩ := ih hreadable hne hpieces (start.union s)
    refine ⟨t, ?_, fun x => ?_⟩
    · rw [List.foldlM_cons, hs]
      exact ht
    · rw [hfold, covers_union, hcovers, Stretch.covers_cons, or_assoc]

/-- The set that is written is read, with the same cuts. -/
theorem covers_fromConstraint_toConstraintStr {s : VersionSet} (h : Readable s) :
    ∃ t, fromConstraint (some (toConstraintStr s)) = .ok t ∧
      ∀ x, Stretch.Covers loCut hiCut t.intervals x ↔ Stretch.Covers loCut hiCut s.intervals x := by
  unfold toConstraintStr
  split_ifs with hempty hfull
  · refine ⟨empty, by decide, fun x => ?_⟩
    rw [isEmpty, List.isEmpty_iff] at hempty
    rw [hempty, empty]
  · refine ⟨full, by decide, fun x => ?_⟩
    obtain ⟨⟨lo, hi, loC, hiC⟩, hiv, hbounds⟩ := List.any_eq_true.mp hfull
    simp only [Bool.and_eq_true, Option.isNone_iff_eq_none] at hbounds
    obtain ⟨rfl, rfl⟩ := hbounds
    exact (covers_full x).trans ⟨fun hx => ⟨_, hiv, bot_le, hx⟩, lt_top_of_covers⟩
  · have hne : ∀ iv ∈ s.intervals, intervalClauses iv ≠ [] := by
      intro iv hiv hnil
      refine hfull (List.any_eq_true.mpr ⟨iv, hiv, ?_⟩)
      obtain ⟨lo, hi, loC, hiC⟩ := iv
      cases lo <;> cases hi <;> simp [intervalClauses] at hnil ⊢
    have hintervals : s.intervals.map armText ≠ [] := by
      simpa [isEmpty] using hempty
    have htrimmed : Trimmed (List.intercalate " | " (s.intervals.map armText)) := by
      refine trimmed_intercalate _ hintervals fun arm harm => ?_
      obtain ⟨iv, hiv, rfl⟩ := List.mem_map.mp harm
      exact trimmed_armText (h iv hiv) (hne iv hiv)
    have hbars : ∀ arm ∈ s.intervals.map armText, '|' ∉ arm := by
      intro arm harm
      obtain ⟨iv, hiv, rfl⟩ := List.mem_map.mp harm
      exact bar_not_mem_armText (h iv hiv)
    obtain ⟨t, ht, hcovers⟩ := foldlM_arms h hne (splitOr_arms hintervals hbars [] (by simp)) empty
    refine ⟨t, ?_, fun x => ?_⟩
    · have hspecial : ¬ ((List.intercalate " | " (s.intervals.map armText)).isEmpty ||
          List.intercalate " | " (s.intervals.map armText) == ("any version" : Str)) = true := by
        rw [Bool.or_eq_true, not_or, List.isEmpty_iff, beq_iff_eq]
        refine ⟨htrimmed.ne_nil, fun heq => ?_⟩
        have hhead := htrimmed.head
        rw [heq] at hhead
        rcases hhead with hhead | hhead <;> cases hhead
      unfold fromConstraint
      dsimp only
      rw [show s.intervals.map (fun iv => List.intercalate " & " (intervalClauses iv)) = s.intervals.map armText from rfl,
        htrimmed.trim, if_neg hspecial]
      exact ht
    · rw [hcovers]
      exact or_iff_right (Stretch.not_covers_nil loCut hiCut x)

/-- **The set that is written is the set that is read.** -/
theorem fromConstraint_toConstraintStr {s : VersionSet} (h : Readable s) :
    ∃ t, fromConstraint (some (toConstraintStr s)) = .ok t ∧ ∀ w, t.contains w = s.contains w := by
  obtain ⟨t, ht, hcovers⟩ := covers_fromConstraint_toConstraintStr h
  refine ⟨t, ht, fun w => ?_⟩
  rw [Bool.eq_iff_iff, contains_iff, contains_iff, hcovers]

/-- Sets that are written in the same way have the same cuts. -/
theorem covers_of_toConstraintStr_eq {s t : VersionSet} (hs : Readable s) (ht : Readable t)
    (h : toConstraintStr s = toConstraintStr t) (x : Cut) :
    Stretch.Covers loCut hiCut s.intervals x ↔ Stretch.Covers loCut hiCut t.intervals x := by
  obtain ⟨u, hu, hsu⟩ := covers_fromConstraint_toConstraintStr hs
  obtain ⟨w, hw, htw⟩ := covers_fromConstraint_toConstraintStr ht
  rw [h] at hu
  obtain rfl : u = w := Except.ok.inj (hu.symm.trans hw)
  exact (hsu x).symm.trans (htw x)

end VersionSet

end Milpa.Solver
