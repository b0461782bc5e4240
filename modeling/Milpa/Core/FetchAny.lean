import Milpa.Core.Resolver

/-!
# The candidates of a fetch

`fetch_any_tracked`, with the directory that it clears and the tree that it hashes. The
first candidate whose transport succeeds decides: its tree has the pinned identity, or the
loop ends at once (`fetch_any_exact`). When all transports fail, the error tells how many
they were and how the last one failed; no error tells how each of them failed
(`failures_not_listed`). The resolver's own loop is this one where the directory can be
cleared and the tree can be hashed (`fetchAnyTracked_plain`).
-/

namespace Milpa.Core.FetchAny

/-! ### The loop -/

/-- What the loop asks of its surroundings, over a state: clearing the destination, a fetch into it, which fails with a code and a
message, and the identity of the tree in it. -/
structure Host (W : Type*) where
  clearDir : W → Except Str Unit × W
  fetch : Str → Transport → W → Except (Str × Str) Receipt × W
  computeContentHash : W → Except (Str × Str) Str

/-- How the loop fails: `MILPA-INTERNAL-IO` of the directory, an error of the identity, `ProvenanceDivergence` and `AllFailed` with
what their messages quote. -/
inductive Failure where
  | io (message : Str)
  | identity (error : Str × Str)
  | provenanceDivergence (name url expected got : Str)
  | allFailed (total : ℕ) (name : Str) (last : Option (Str × Str))
  deriving DecidableEq, Repr

/-- `prov_url_str`. -/
def provUrlStr : Transport → Str
  | .git url _ _ => url
  | .tarball url _ _ => url
  | .local path => path
  | .oci registry _ _ _ => registry

section Loop

variable {W : Type*} (host : Host W) (name : Str) (expectedIdentity : Option Str) (total : ℕ)

/-- The loop from candidate number `idx` on. -/
def fetchFrom (idx : ℕ) (last : Option (Str × Str)) : List Transport → W → Except Failure (Str × Receipt × ℕ) × W
  | [], w =>
    match host.clearDir w with
    | (.error e, w) => (.error (.io e), w)
    | (.ok (), w) => (.error (.allFailed total name last), w)
  | prov :: candidates, w =>
    match host.clearDir w with
    | (.error e, w) => (.error (.io e), w)
    | (.ok (), w) =>
      match host.fetch name prov w with
      | (.error e, w) => fetchFrom (idx + 1) (some e) candidates w
      | (.ok receipt, w) =>
        match host.computeContentHash w with
        | .error e => (.error (.identity e), w)
        | .ok identity =>
          match expectedIdentity with
          | some exp =>
            if exp ≠ identity then (.error (.provenanceDivergence name (provUrlStr prov) exp identity), w)
            else (.ok (identity, receipt, idx), w)
          | none => (.ok (identity, receipt, idx), w)

/-- `fetch_any_tracked`. -/
def fetchAnyTracked (candidates : List Transport) : W → Except Failure (Str × Receipt × ℕ) × W :=
  fetchFrom host name expectedIdentity candidates.length 0 none candidates

/-! ### What the transports do -/

/-- The transports of all candidates fail, in their order, each in the cleared destination. -/
inductive AllFail : W → List Transport → List (Str × Str) → W → Prop where
  | nil (w : W) : AllFail w [] [] w
  | cons {w w₁ w₂ w₃ : W} {prov : Transport} {rest : List Transport} {e : Str × Str} {es : List (Str × Str)}
      (hclear : host.clearDir w = (.ok (), w₁)) (hfetch : host.fetch name prov w₁ = (.error e, w₂)) (hrest : AllFail w₂ rest es w₃) :
      AllFail w (prov :: rest) (e :: es) w₃

/-- `prov`, number `i` of the candidates, is the first one whose transport succeeds; what is left is the state behind its fetch. -/
inductive FirstSuccess : W → List Transport → ℕ → Transport → Receipt → W → Prop where
  | here {w w₁ w₂ : W} {prov : Transport} {after : List Transport} {receipt : Receipt}
      (hclear : host.clearDir w = (.ok (), w₁)) (hfetch : host.fetch name prov w₁ = (.ok receipt, w₂)) :
      FirstSuccess w (prov :: after) 0 prov receipt w₂
  | later {w w₁ w₂ w₃ : W} {prov first : Transport} {rest : List Transport} {e : Str × Str} {i : ℕ} {receipt : Receipt}
      (hclear : host.clearDir w = (.ok (), w₁)) (hfetch : host.fetch name prov w₁ = (.error e, w₂))
      (hrest : FirstSuccess w₂ rest i first receipt w₃) : FirstSuccess w (prov :: rest) (i + 1) first receipt w₃

end Loop

section Exact

variable {W : Type*} {host : Host W} {name : Str} {expectedIdentity : Option Str} {total idx : ℕ} {last : Option (Str × Str)}
  {candidates : List Transport} {w w' : W}

theorem AllFail.length_eq {es : List (Str × Str)} (h : AllFail host name w candidates es w') : es.length = candidates.length := by
  induction h with
  | nil => rfl
  | cons _ _ _ ih => simp [ih]

/-- The candidates before the first one that succeeds fail, and nothing is said of those behind it. -/
theorem firstSuccess_iff {i : ℕ} {prov : Transport} {receipt : Receipt} :
    FirstSuccess host name w candidates i prov receipt w' ↔
      ∃ before after es w₁ w₂, candidates = before ++ prov :: after ∧ i = before.length ∧ AllFail host name w before es w₁ ∧
        host.clearDir w₁ = (.ok (), w₂) ∧ host.fetch name prov w₂ = (.ok receipt, w') := by
  constructor
  · intro h
    induction h with
    | here hclear hfetch => exact ⟨[], _, [], _, _, rfl, rfl, .nil _, hclear, hfetch⟩
    | later hclear hfetch _ ih =>
      obtain ⟨before, after, es, w₁, w₂, rfl, rfl, hfail, hrest⟩ := ih
      exact ⟨_ :: before, after, _ :: es, w₁, w₂, rfl, rfl, .cons hclear hfetch hfail, hrest⟩
  · rintro ⟨before, after, es, w₁, w₂, rfl, rfl, hfail, hclear, hfetch⟩
    induction hfail with
    | nil => exact .here hclear hfetch
    | cons hc hf _ ih => exact .later hc hf (ih hclear)

/-! ### What the loop returns -/

/-- The verdict on the candidate that succeeds. -/
def verdict (host : Host W) (name : Str) (expectedIdentity : Option Str) (idx : ℕ) (prov : Transport) (receipt : Receipt) (w : W) :
    Except Failure (Str × Receipt × ℕ) :=
  match host.computeContentHash w with
  | .error e => .error (.identity e)
  | .ok identity =>
    match expectedIdentity with
    | some exp =>
      if exp ≠ identity then .error (.provenanceDivergence name (provUrlStr prov) exp identity) else .ok (identity, receipt, idx)
    | none => .ok (identity, receipt, idx)

theorem fetchFrom_of_firstSuccess {i : ℕ} {prov : Transport} {receipt : Receipt}
    (h : FirstSuccess host name w candidates i prov receipt w') :
    fetchFrom host name expectedIdentity total idx last candidates w =
      (verdict host name expectedIdentity (idx + i) prov receipt w', w') := by
  induction h generalizing idx last with
  | here hclear hfetch =>
    simp only [fetchFrom, hclear, hfetch, verdict]
    split
    · rfl
    · split
      · split_ifs <;> rfl
      · rfl
  | later hclear hfetch _ ih =>
    rw [fetchFrom, hclear]
    simp only [hfetch]
    rw [ih, Nat.add_assoc, Nat.add_comm 1]

theorem fetchFrom_of_allFail {es : List (Str × Str)} {w₁ : W} (h : AllFail host name w candidates es w₁)
    (hclear : host.clearDir w₁ = (.ok (), w')) :
    fetchFrom host name expectedIdentity total idx last candidates w = (.error (.allFailed total name (es.getLast?.or last)), w') := by
  induction h generalizing idx last with
  | nil => simp [fetchFrom, hclear]
  | @cons _ _ _ _ _ _ e es hc hf _ ih =>
    rw [fetchFrom, hc]
    simp only [hf]
    rw [ih hclear]
    cases es with
    | nil => rfl
    | cons e' es => rw [List.getLast?_cons_cons, List.getLast?_cons, Option.some_or, Option.some_or]

/-- A run ends in one of three ways. -/
theorem run_cases (host : Host W) (name : Str) (expectedIdentity : Option Str) (total idx : ℕ) (last : Option (Str × Str))
    (candidates : List Transport) (w : W) :
    (∃ i prov receipt w', FirstSuccess host name w candidates i prov receipt w') ∨
      (∃ es w₁ w', AllFail host name w candidates es w₁ ∧ host.clearDir w₁ = (.ok (), w')) ∨
      ∃ e w', fetchFrom host name expectedIdentity total idx last candidates w = (.error (.io e), w') := by
  induction candidates generalizing w idx last with
  | nil =>
    rcases hclear : host.clearDir w with ⟨e | ⟨⟩, w'⟩
    · exact .inr (.inr ⟨e, w', by rw [fetchFrom, hclear]⟩)
    · exact .inr (.inl ⟨[], w, w', .nil w, hclear⟩)
  | cons prov rest ih =>
    rcases hclear : host.clearDir w with ⟨e | ⟨⟩, w₁⟩
    · exact .inr (.inr ⟨e, w₁, by rw [fetchFrom, hclear]⟩)
    · rcases hfetch : host.fetch name prov w₁ with ⟨e | receipt, w₂⟩
      · rcases ih (idx + 1) (some e) w₂ with ⟨i, first, receipt, w', h⟩ | ⟨es, w₃, w', h, hlast⟩ | ⟨e', w', h⟩
        · exact .inl ⟨i + 1, first, receipt, w', .later hclear hfetch h⟩
        · exact .inr (.inl ⟨e :: es, w₃, w', .cons hclear hfetch h, hlast⟩)
        · refine .inr (.inr ⟨e', w', ?_⟩)
          rw [fetchFrom, hclear]
          simp only [hfetch]
          exact h
      · exact .inl ⟨0, prov, receipt, w₂, .here hclear hfetch⟩

theorem verdict_eq_ok {prov : Transport} {receipt receipt' : Receipt} {identity : Str} {i : ℕ} :
    verdict host name expectedIdentity idx prov receipt w = .ok (identity, receipt', i) ↔
      host.computeContentHash w = .ok identity ∧ (∀ exp ∈ expectedIdentity, exp = identity) ∧ receipt = receipt' ∧ idx = i := by
  unfold verdict
  cases host.computeContentHash w with
  | error e => simp
  | ok got =>
    cases expectedIdentity with
    | none => simp
    | some exp =>
      dsimp only
      split_ifs with hne
      · refine iff_of_false (by simp) fun ⟨hgot, hpin, _⟩ => hne ?_
        rw [hpin exp rfl, Except.ok.inj hgot]
      · simp [not_not.mp hne]

theorem verdict_eq_divergence {prov : Transport} {receipt : Receipt} {name' url expected got : Str} :
    verdict host name expectedIdentity idx prov receipt w = .error (.provenanceDivergence name' url expected got) ↔
      host.computeContentHash w = .ok got ∧ expectedIdentity = some expected ∧ expected ≠ got ∧ name = name' ∧ provUrlStr prov = url := by
  unfold verdict
  cases host.computeContentHash w with
  | error e => simp
  | ok identity =>
    cases expectedIdentity with
    | none => simp
    | some exp =>
      dsimp only
      split_ifs with hne
      · simp only [Except.error.injEq, Failure.provenanceDivergence.injEq, Except.ok.injEq, Option.some.injEq]
        constructor
        · rintro ⟨rfl, rfl, rfl, rfl⟩
          exact ⟨rfl, rfl, hne, rfl, rfl⟩
        · rintro ⟨rfl, rfl, -, rfl, rfl⟩
          exact ⟨rfl, rfl, rfl, rfl⟩
      · refine iff_of_false (by simp) fun ⟨hgot, hexp, hne', _⟩ => hne ?_
        rwa [Option.some.inj hexp, Except.ok.inj hgot]

theorem verdict_ne_allFailed {prov : Transport} {receipt : Receipt} {name' : Str} :
    verdict host name expectedIdentity idx prov receipt w ≠ .error (.allFailed total name' last) := by
  unfold verdict
  split
  · simp
  · split
    · split_ifs <;> simp
    · simp

/-- **The loop over the candidates**, for every behaviour of the transports: the first one that succeeds is returned with its identity
when this is the pinned one, or there is no pin; another identity ends the loop in the state behind this fetch; and all have failed
when every transport has, the error then telling how many they were and how the last one failed. -/
theorem fetch_any_exact (host : Host W) (name : Str) (candidates : List Transport) (expectedIdentity : Option Str) (w : W) :
    (∀ identity receipt i w', fetchAnyTracked host name expectedIdentity candidates w = (.ok (identity, receipt, i), w') ↔
      ∃ prov, FirstSuccess host name w candidates i prov receipt w' ∧ host.computeContentHash w' = .ok identity ∧
        ∀ exp ∈ expectedIdentity, exp = identity) ∧
    (∀ url expected got w',
      fetchAnyTracked host name expectedIdentity candidates w = (.error (.provenanceDivergence name url expected got), w') ↔
        ∃ i prov receipt, FirstSuccess host name w candidates i prov receipt w' ∧ host.computeContentHash w' = .ok got ∧
          expectedIdentity = some expected ∧ expected ≠ got ∧ provUrlStr prov = url) ∧
    ∀ total last w', fetchAnyTracked host name expectedIdentity candidates w = (.error (.allFailed total name last), w') ↔
      ∃ es w₁, AllFail host name w candidates es w₁ ∧ host.clearDir w₁ = (.ok (), w') ∧ total = es.length ∧ last = es.getLast? := by
  have hsuccess : ∀ {i prov receipt w'}, FirstSuccess host name w candidates i prov receipt w' →
      fetchAnyTracked host name expectedIdentity candidates w = (verdict host name expectedIdentity i prov receipt w', w') := by
    intro i prov receipt w' h
    rw [fetchAnyTracked, fetchFrom_of_firstSuccess h, Nat.zero_add]
  have hfailed : ∀ {es w₁ w'}, AllFail host name w candidates es w₁ → host.clearDir w₁ = (.ok (), w') →
      fetchAnyTracked host name expectedIdentity candidates w = (.error (.allFailed es.length name es.getLast?), w') := by
    intro es w₁ w' h hclear
    rw [fetchAnyTracked, fetchFrom_of_allFail h hclear, h.length_eq, Option.or_none]
  have hcases := run_cases host name expectedIdentity candidates.length 0 none candidates w
  refine ⟨fun identity receipt i w' => ⟨fun h => ?_, ?_⟩, fun url expected got w' => ⟨fun h => ?_, ?_⟩,
    fun total last w' => ⟨fun h => ?_, ?_⟩⟩
  · rcases hcases with ⟨j, prov, receipt', w'', hfirst⟩ | ⟨es, w₁, w'', hfail, hclear⟩ | ⟨e, w'', hio⟩
    · rw [hsuccess hfirst, Prod.mk.injEq, verdict_eq_ok] at h
      obtain ⟨⟨hgot, hpin, rfl, rfl⟩, rfl⟩ := h
      exact ⟨prov, hfirst, hgot, hpin⟩
    · rw [hfailed hfail hclear] at h
      simp at h
    · rw [fetchAnyTracked, hio] at h
      simp at h
  · rintro ⟨prov, hfirst, hgot, hpin⟩
    rw [hsuccess hfirst, Prod.mk.injEq, verdict_eq_ok]
    exact ⟨⟨hgot, hpin, rfl, rfl⟩, rfl⟩
  · rcases hcases with ⟨j, prov, receipt', w'', hfirst⟩ | ⟨es, w₁, w'', hfail, hclear⟩ | ⟨e, w'', hio⟩
    · rw [hsuccess hfirst, Prod.mk.injEq, verdict_eq_divergence] at h
      obtain ⟨⟨hgot, hexp, hne, -, hurl⟩, rfl⟩ := h
      exact ⟨j, prov, receipt', hfirst, hgot, hexp, hne, hurl⟩
    · rw [hfailed hfail hclear] at h
      simp at h
    · rw [fetchAnyTracked, hio] at h
      simp at h
  · rintro ⟨i, prov, receipt, hfirst, hgot, hexp, hne, hurl⟩
    rw [hsuccess hfirst, Prod.mk.injEq, verdict_eq_divergence]
    exact ⟨⟨hgot, hexp, hne, rfl, hurl⟩, rfl⟩
  · rcases hcases with ⟨j, prov, receipt', w'', hfirst⟩ | ⟨es, w₁, w'', hfail, hclear⟩ | ⟨e, w'', hio⟩
    · rw [hsuccess hfirst, Prod.mk.injEq] at h
      exact absurd h.1 verdict_ne_allFailed
    · rw [hfailed hfail hclear] at h
      simp only [Prod.mk.injEq, Except.error.injEq, Failure.allFailed.injEq, true_and] at h
      obtain ⟨⟨rfl, rfl⟩, rfl⟩ := h
      exact ⟨es, w₁, hfail, hclear, rfl, rfl⟩
    · rw [fetchAnyTracked, hio] at h
      simp at h
  · rintro ⟨es, w₁, hfail, hclear, rfl, rfl⟩
    exact hfailed hfail hclear

end Exact

/-- Two mirrors that are gone: the first one fails as given, the second one has no such repository. -/
def goneMirrors (first : Str × Str) : Host Unit where
  clearDir w := (.ok (), w)
  fetch _ prov w := (.error (if provUrlStr prov = "https://a.example/x.git".toList then first
    else ("FETCH-GIT-FAILED".toList, "not found".toList)), w)
  computeContentHash _ := .error ("MILPA-INTERNAL-IO".toList, [])

/-- No error of the loop tells how each transport failed. -/
theorem failures_not_listed :
    ¬ ∃ listed : Failure → List (Str × Str), ∀ (host : Host Unit) (name : Str) (candidates : List Transport) (w w₁ w' : Unit)
      (es : List (Str × Str)), AllFail host name w candidates es w₁ → host.clearDir w₁ = (.ok (), w') →
        ∃ failure, fetchAnyTracked host name none candidates w = (.error failure, w') ∧ listed failure = es := by
  rintro ⟨listed, h⟩
  let candidates : List Transport := [.git "https://a.example/x.git".toList [] none, .git "https://b.example/x.git".toList [] none]
  have hrun : ∀ first : Str × Str, listed (.allFailed 2 "x".toList (some ("FETCH-GIT-FAILED".toList, "not found".toList))) =
      [first, ("FETCH-GIT-FAILED".toList, "not found".toList)] := by
    intro first
    obtain ⟨failure, hfailure, hlisted⟩ := h (goneMirrors first) "x".toList candidates () () ()
      [first, ("FETCH-GIT-FAILED".toList, "not found".toList)] (.cons rfl rfl (.cons rfl rfl (.nil ()))) rfl
    rw [← hlisted]
    congr 1
    exact Except.error.inj (congrArg Prod.fst hfailure)
  have hsame := (hrun ("FETCH-TIMEOUT".toList, [])).symm.trans (hrun ("FETCH-REFUSED".toList, []))
  exact absurd hsame (by decide)

/-! ### The resolver's loop -/

/-- Surroundings in which the destination can be cleared and the tree in it hashed. -/
def plainHost (ctx : ResolveCtx) : Host (Option PackageTree) where
  clearDir _ := (.ok (), none)
  fetch name prov w :=
    match ctx.fetch name prov with
    | .error e => (.error e, w)
    | .ok (tree, receipt) => (.ok receipt, some tree)
  computeContentHash w :=
    match w with
    | some tree => .ok tree.contentHash
    | none => .error ("MILPA-INTERNAL-IO".toList, [])

/-- What the resolver makes of a run in such surroundings. -/
def answerOf : Except Failure (Str × Receipt × ℕ) × Option PackageTree → Except ResError (PackageTree × Receipt × ℕ)
  | (.ok (_, receipt, idx), some tree) => .ok (tree, receipt, idx)
  | (.error (.provenanceDivergence name _ expected got), _) => .error (.provenanceDivergence name expected got)
  | (.error (.allFailed total name last), _) => .error (.fetchAllFailed name total last)
  | _ => .error .assertion

/-- The loop of the resolver is this loop. -/
theorem fetchAnyTracked_plain (ctx : ResolveCtx) (name : Str) (expectedIdentity : Option Str) (total idx : ℕ)
    (last : Option (Str × Str)) (candidates : List Transport) (w : Option PackageTree) :
    Resolver.fetchAnyTracked ctx name expectedIdentity total idx last candidates =
      answerOf (fetchFrom (plainHost ctx) name expectedIdentity total idx last candidates w) := by
  induction candidates generalizing idx last w with
  | nil => rfl
  | cons prov rest ih =>
    rw [Resolver.fetchAnyTracked, fetchFrom]
    dsimp only [plainHost]
    cases hfetch : ctx.fetch name prov with
    | error e => exact ih (idx + 1) (some e) none
    | ok fetched =>
      obtain ⟨tree, receipt⟩ := fetched
      cases expectedIdentity with
      | none => rfl
      | some exp =>
        by_cases heq : exp = tree.contentHash
        · simp [heq, answerOf]
        · simp [heq, answerOf]

end Milpa.Core.FetchAny
