import Milpa.Core.IndexCacheBaseline

/-!
# Strict history over a shared cache

Under the strict policy for the history, an index from the network dominates the stored
baseline, and becomes the baseline. A read of the cache does not run the gate: what it
returns dominates the baseline as long as only strict callers have written the index
(`strict_history`); what an `off` caller has let in is served as it is
(`served_to_strict`).
-/

namespace Milpa.Core.IndexCache

open Milpa.Kdl Milpa.Concurrent Process

variable {env : CacheEnv} {c : Call} {faulty : Prop} {l own : List CacheEvent} {ev : CacheEvent} {s s' : Slot}

/-! ### The gate, alone -/

/-- What the gate lets through under `strict` becomes the baseline. -/
theorem advance_of_strict {text : Str} {baseline : Option Str} {existingMeta : BaselineMeta} {decision : GateDecision}
    (h : gateOf env c text baseline existingMeta = .ok decision) (hstrict : c.indexHistoryPolicy = .strict) : decision.advance = true := by
  unfold gateOf evaluateGate at h
  split at h
  · cases h
  rw [if_neg (by rw [hstrict]; nofun)] at h
  split at h
  · cases h
    rfl
  obtain ⟨b, -, hcheck⟩ := Result.bind_eq_ok.mp h
  dsimp only at hcheck
  rcases Result.ok_ite hcheck with hclean | hdirty
  · cases Result.pure_eq_ok.mp hclean
    rfl
  · rw [if_pos hstrict] at hdirty
    exact absurd hdirty Result.throw_ne_ok

/-- Where no operation fails and nothing interferes, what is read of the baseline is what is stored. -/
theorem seen_of_readBaselineText {baseline : Option Str} (h : Returns False readBaselineText l (.ok baseline)) (hc : Chained s l s')
    (own : List CacheEvent) : baselineSeen (own ++ l) = s.baseline := by
  obtain ⟨isFile, l₁, l₂, rfl, hfile, hrest⟩ := returns_bind_ok h
  obtain ⟨s₁, ⟨rfl, heq⟩ | ⟨hfalse, -⟩⟩ := returns_look hfile
  swap
  · exact hfalse.elim
  obtain ⟨hs₁, hc⟩ := chained_cons.mp hc
  obtain rfl : s = s₁ := hs₁
  cases isFile with
  | false =>
    obtain ⟨rfl, -⟩ := returns_pure.mp hrest
    have hnone : s.baseline.isSome = false := (Except.ok.inj heq).symm
    rw [Option.isSome_eq_false_iff, Option.isNone_iff_eq_none] at hnone
    simp [baselineSeen, hnone]
  | true =>
    obtain ⟨raw, l₃, l₄, rfl, hread, hdecode⟩ := returns_bind_ok hrest
    obtain ⟨s₂, rfl, hraw⟩ := returns_readFile_ok hread
    obtain ⟨hs₂, -⟩ := chained_cons.mp hc
    obtain rfl : s = s₂ := hs₂
    have hnil : l₄ = [] := by
      cases htext : fromUtf8 raw with
      | none =>
        simp only [htext] at hdecode
        exact (returns_fail.mp hdecode).1
      | some text =>
        simp only [htext] at hdecode
        exact (returns_pure.mp hdecode).1
    simp [hnil, baselineSeen]

/-- So the gate decides on the stored baseline. -/
theorem seen_of_gate {index : Bytes} {decision : GateDecision} (h : Returns False (gate env c index) l (.ok decision))
    (hoff : c.indexHistoryPolicy ≠ .off) (hc : Chained s l s') (own : List CacheEvent) : baselineSeen (own ++ l) = s.baseline := by
  unfold gate at h
  split at h
  · cases (returns_fail.mp h).2
  rw [if_neg hoff] at h
  obtain ⟨baseline, l₁, l₂, rfl, hbaseline, hrest⟩ := returns_bind_ok h
  obtain ⟨existingMeta, l₃, l₄, rfl, hmeta, hend⟩ := returns_bind_ok hrest
  obtain ⟨rfl, -⟩ := returns_orFail_ok hend
  obtain ⟨t, ht, -⟩ := chained_append.mp hc
  rw [List.append_nil, ← List.append_assoc, baselineSeen_append, seen_of_readBaselineText hbaseline ht]
  intro ev hev
  obtain ⟨s, ⟨rfl, -⟩ | ⟨-, rfl, -⟩⟩ := returns_look hmeta <;>
    exact List.mem_singleton.mp hev ▸ ⟨nofun, nofun⟩

/-- What the gate lets through under `strict` dominates the stored baseline, and is going to replace it. -/
theorem advances_of_strict {index : Bytes} {decision : GateDecision} (h : Returns False (gate env c index) l (.ok decision))
    (hstrict : c.indexHistoryPolicy = .strict) (hc : Chained s l s') :
    s' = s ∧ decision.advance = true ∧ Advances env s.baseline index := by
  have hoff : c.indexHistoryPolicy ≠ .off := by
    rw [hstrict]
    nofun
  obtain ⟨text, baseline, existingMeta, -, hdecision⟩ := returns_gate_ok h
  have hadvance := advance_of_strict hdecision hstrict
  have hadvances := advances_of_gate h hadvance []
  rw [seen_of_gate h hoff hc] at hadvances
  exact ⟨hc.invariant (P := (· = s)) rfl fun ev hev h' => ((returns_gate h ev hev).2).trans h', hadvance, hadvances⟩

/-! ### The write of the index -/

/-- No other operation changes the index. -/
theorem index_of_effect {op : CacheOp} {write : Slot → Slot} (h : Effect op write) (hop : op ≠ .writeIndex) (s : Slot) :
    (write s).index = s.index := by
  cases op with
  | writeIndex => exact absurd rfl hop
  | writeBundle | writeBaseline | writeStamp | writeMeta =>
    obtain ⟨_, rfl⟩ := h
    rfl
  | writeSidecar =>
    obtain ⟨_, _, rfl⟩ := h
    rfl
  | _ =>
    cases h
    rfl

/-- The index and the baseline are as they were. -/
def SamePair (s s' : Slot) : Prop := s'.index = s.index ∧ s'.baseline = s.baseline

/-- The operations that change neither. -/
def CacheOp.keeps : CacheOp → Bool
  | .writeIndex | .writeBaseline => false
  | _ => true

theorem samePair_of_event {α : Type} {p q : Load α} (hp : p.Acts Effect) (h : Steps faulty p l q) (hev : ev ∈ l)
    (hop : ev.op.keeps = true) : SamePair ev.before ev.after := by
  obtain ⟨write, heffect, hafter⟩ := (hp.steps h).1 ev hev
  rw [hafter]
  split_ifs
  · exact ⟨rfl, rfl⟩
  · refine ⟨index_of_effect heffect ?_ _, baseline_of_effect heffect ?_ _⟩ <;>
    · intro heq
      rw [heq] at hop
      cases hop

/-- A part of a trace that changes neither. -/
theorem samePair_of_part {α : Type} {p q : Load α} (hp : p.Acts Effect) {part : List CacheEvent} (h : Steps faulty p l q)
    (hpart : part ⊆ l) (hops : ∀ ev ∈ part, ev.op.keeps = true) (hc : Chained s part s') : SamePair s s' :=
  hc.invariant (P := SamePair s) ⟨rfl, rfl⟩ fun ev hev hbefore =>
    have hafter := samePair_of_event hp h (hpart hev) (hops ev hev)
    ⟨hafter.1.trans hbefore.1, hafter.2.trans hbefore.2⟩

/-- A write of the index: before it, the gate has let it through, and only sidecars were written since. -/
def WritesIndex (env : CacheEnv) (c : Call) (faulty : Prop) (own : List CacheEvent) (ev : CacheEvent) : Prop :=
  ∃ index decision l₀ gated between, own = l₀ ++ gated ++ between ∧ Returns faulty (gate env c index) gated (.ok decision) ∧
    (∀ ev ∈ between, ev.op = .removeMarker ∨ ev.op = .writeMarker ∨ ev.op = .writeBundle) ∧
    ∃ s, ev = ⟨.writeIndex, s, { s with index := some index }, false⟩ ∨ ev = ⟨.writeIndex, s, s, true⟩

theorem WritesIndex.append (h : WritesIndex env c faulty own ev) (l : List CacheEvent) : WritesIndex env c faulty (l ++ own) ev := by
  obtain ⟨index, decision, l₀, gated, between, rfl, hgate, hbetween, hev⟩ := h
  exact ⟨index, decision, l ++ l₀, gated, between, by simp, hgate, hbetween, hev⟩

theorem steps_writeIndexToCache {index : Bytes} {now : ℕ} {α : Type} {f : Unit → Load α} {q : Load α}
    (h : Steps faulty (writeIndexToCache index now >>= f) (own ++ [ev]) q) (hop : ev.op = .writeIndex)
    (hf : ∀ u, (f u).Acts fun op _ => op ≠ ev.op) :
    own = [] ∧ ∃ s, ev = ⟨.writeIndex, s, { s with index := some index }, false⟩ ∨ ev = ⟨.writeIndex, s, s, true⟩ := by
  obtain ⟨q', hwrites⟩ := steps_bind_first hf h
  have hstamp : (attempt .writeStamp fun s => { s with stamp := some now }).Acts fun op _ => op ≠ ev.op :=
    acts_attempt (by rw [hop]; nofun)
  obtain ⟨q'', hwrite⟩ := steps_bind_first (fun _ => hstamp) hwrites
  exact steps_atomicWrite hwrite

/-- Before a fetch has written the index, the gate has let it through. -/
theorem steps_persist {isRecovery : Bool} {index : Bytes} {q : Load Persisted}
    (h : Steps faulty (persist env c isRecovery index) (own ++ [ev]) q) (hop : ev.op = .writeIndex) : WritesIndex env c faulty own ev := by
  have gated : (gate env c index).Acts fun op _ => op ≠ ev.op := hop ▸ acts_ne (acts_gate index) rfl
  have removeMarker : (attempt .removeMarker fun s => { s with noBundle := false }).Acts fun op _ => op ≠ ev.op :=
    acts_attempt (by rw [hop]; nofun)
  have writeMarker : (attempt .writeMarker fun s => { s with noBundle := true }).Acts fun op _ => op ≠ ev.op :=
    acts_attempt (by rw [hop]; nofun)
  have writeBundle : ∀ bundle, (atomicWrite .writeBundle fun s => { s with bundle := some bundle }).Acts fun op _ => op ≠ ev.op :=
    fun bundle => acts_atomicWrite (by rw [hop]; nofun)
  unfold persist at h
  split at h
  · obtain ⟨decision, l₁, l₂, rfl, hgate, hwrite⟩ := steps_bind_last gated h
    obtain ⟨rfl, hev⟩ := steps_writeIndexToCache hwrite hop fun _ => trivial
    exact ⟨index, decision, [], l₁, [], by simp, hgate, by simp, hev⟩
  rename_i g hgate
  split at h
  · rename_i bundle hbundle
    have checks : (checkFetched g isRecovery index bundle).Acts fun op _ => op ≠ ev.op := by
      unfold checkFetched
      split_ifs
      · split <;> trivial
      · exact acts_verifyAndEnforce _ _ _ _
    obtain ⟨result, l₁, l₂, rfl, hcheck, hrest₁⟩ := steps_bind_last checks h
    obtain ⟨decision, l₃, l₄, rfl, hgate, hrest₂⟩ := steps_bind_last gated hrest₁
    obtain ⟨u, l₅, l₆, rfl, hremove, hrest₃⟩ := steps_bind_last removeMarker hrest₂
    obtain ⟨u, l₇, l₈, rfl, hbundle, hrest₄⟩ := steps_bind_last (writeBundle bundle) hrest₃
    obtain ⟨rfl, hev⟩ := steps_writeIndexToCache hrest₄ hop fun _ => trivial
    refine ⟨index, decision, l₁, l₃, l₅ ++ l₇, by simp, hgate, ?_, hev⟩
    obtain ⟨s₂, rfl⟩ := returns_atomicWrite_ok hbundle
    obtain ⟨-, s₁, rfl | ⟨-, rfl⟩⟩ := returns_attempt hremove <;> simp
  · unfold persistWithoutBundle at h
    split_ifs at h
    · simpa using (steps_fail.mp h).1
    · simpa using (steps_fail.mp h).1
    obtain ⟨decision, l₁, l₂, rfl, hgate, hrest₁⟩ := steps_bind_last gated h
    obtain ⟨u, l₃, l₄, rfl, hmarker, hrest₂⟩ := steps_bind_last writeMarker hrest₁
    obtain ⟨rfl, hev⟩ := steps_writeIndexToCache hrest₂ hop fun _ => (acts_missingBundle g).bind fun _ => trivial
    refine ⟨index, decision, [], l₁, l₃, by simp, hgate, ?_, hev⟩
    obtain ⟨-, s₁, rfl | ⟨-, rfl⟩⟩ := returns_attempt hmarker <;> simp
  · unfold persistUnfetched at h
    split_ifs at h
    · simpa using (steps_fail.mp h).1
    obtain ⟨w, l₁, l₂, rfl, hmissing, hrest₁⟩ := steps_bind_last (acts_missingBundle g) h
    obtain ⟨decision, l₃, l₄, rfl, hgate, hrest₂⟩ := steps_bind_last gated hrest₁
    obtain ⟨u, l₅, l₆, rfl, hmarker, hrest₃⟩ := steps_bind_last (acts_writeIf writeMarker) hrest₂
    obtain ⟨rfl, hev⟩ := steps_writeIndexToCache hrest₃ hop fun _ => trivial
    refine ⟨index, decision, l₁, l₃, l₅, by simp, hgate, ?_, hev⟩
    cases isRecovery with
    | false =>
      rw [(returns_pure.mp hmarker).1]
      simp
    | true => obtain ⟨-, s₁, rfl | ⟨-, rfl⟩⟩ := returns_attempt hmarker <;> simp

theorem steps_writeIndex {q : Load GatedIndex} (h : Steps faulty (loadIndexWithHistory env c) (own ++ [ev]) q)
    (hop : ev.op = .writeIndex) : WritesIndex env c faulty own ev := by
  obtain ⟨l₀, l₁, isRecovery, index, q', rfl, -, hfetched⟩ := steps_load_fetched h (by rw [hop]; rfl)
  have mint : ∀ fetched, (mint env c fetched).Acts fun op _ => op ≠ ev.op := fun fetched => hop ▸ acts_ne (acts_mint fetched) rfl
  have writes : ∀ decision, (ratchetWrites decision index).Acts fun op _ => op ≠ ev.op := fun decision =>
    hop ▸ acts_ne (acts_ratchetWrites decision index) rfl
  obtain ⟨q'', hpersist⟩ := steps_bind_first (fun _ => (writes _).bind fun _ => mint _) hfetched
  exact (steps_persist hpersist hop).append l₀

/-! ### The cache of strict callers -/

/-- The index in the cache, if there is one, dominates the baseline. -/
def Upheld (env : CacheEnv) (s : Slot) : Prop := ∀ index, s.index = some index → Advances env s.baseline index

theorem upheld_empty : Upheld env .empty := nofun

theorem Upheld.samePair (h : Upheld env s) (hsame : SamePair s s') : Upheld env s' := by
  intro index hindex
  rw [hsame.2]
  exact h index (hsame.1 ▸ hindex)

/-- A call under `strict`, or one that has not written the index. -/
def Guarded (c : Call) (l : List CacheEvent) : Prop := c.indexHistoryPolicy = .strict ∨ ∀ ev ∈ l, ev.op ≠ .writeIndex

/-- A state dominates itself. -/
theorem Advances.self {seen : Option Bytes} {index : Bytes} (h : Advances env seen index) : Advances env (some index) index := by
  obtain ⟨state, hstate, -⟩ := h
  refine ⟨state, hstate, fun raw hraw => ?_⟩
  cases hraw
  exact ⟨state, hstate, .refl state⟩

/-- A write of the index by a strict caller. -/
theorem upheld_of_writesIndex {q : Load GatedIndex} (h : WritesIndex env c False own ev)
    (hsteps : Steps False (loadIndexWithHistory env c) own q) (hc : Chained s own ev.before) (hstrict : c.indexHistoryPolicy = .strict)
    (hup : Upheld env ev.before) : Upheld env ev.after := by
  obtain ⟨index, decision, l₀, gated, between, rfl, hgate, hbetween, s₁, rfl | rfl⟩ := h
  · obtain ⟨t₂, hc, hc₃⟩ := chained_append.mp hc
    obtain ⟨t₁, hc₁, hc₂⟩ := chained_append.mp hc
    obtain ⟨rfl, -, hadvances⟩ := advances_of_strict hgate hstrict hc₂
    have hsame : SamePair t₂ s₁ := samePair_of_part acts_load hsteps (List.subset_append_right _ _)
      (fun ev hev => by obtain hop | hop | hop := hbetween ev hev <;> rw [hop] <;> rfl) hc₃
    intro index' hindex'
    cases hindex'
    exact hsame.2 ▸ hadvances
  · exact hup

/-- A write of the baseline: the index is the same by then. -/
theorem upheld_of_writesBaseline {q : Load GatedIndex} (h : WritesBaseline env c False own ev)
    (hsteps : Steps False (loadIndexWithHistory env c) own q) (hc : Chained s own ev.before) (hup : Upheld env ev.before) :
    Upheld env ev.after := by
  obtain ⟨index, decision, w, l₀, l₁, rfl, hpersist, hadvance, s₁, rfl | rfl⟩ := h
  · obtain ⟨gated, between, s₂, ev', rfl, hgate, hev', -⟩ := hpersist.trace
    obtain ⟨t₂, -, hc₂⟩ := chained_append.mp hc
    obtain ⟨t₁, -, hc₁⟩ := chained_append.mp hc₂
    obtain ⟨-, hc₀⟩ := chained_cons.mp hc₁
    have hsame : SamePair { s₂ with index := some index } s₁ := samePair_of_part acts_load hsteps (by simp)
      (fun ev hev => by rw [List.mem_singleton.mp hev, hev']; rfl) hc₀
    intro index' hindex'
    obtain rfl : index = index' := Option.some.inj (hsame.1.symm.trans hindex')
    exact (advances_of_gate hgate hadvance []).self
  · exact hup

/-- What strict callers leave. -/
theorem upheld_of_steps {q : Load GatedIndex} (h : Steps False (loadIndexWithHistory env c) l q) (hc : Chained s l s') (hl : Guarded c l)
    (hup : Upheld env s) : Upheld env s' := by
  induction l using List.reverseRecOn generalizing q s' with
  | nil => exact chained_nil.mp hc ▸ hup
  | append_singleton own ev ih =>
    obtain ⟨q', hown, -⟩ := h.split
    obtain ⟨t, ht, hev⟩ := chained_append.mp hc
    obtain ⟨rfl, hafter⟩ := chained_cons.mp hev
    obtain rfl := chained_nil.mp hafter
    have hbefore := ih hown ht (hl.imp_right fun h ev hev => h ev (List.mem_append_left _ hev))
    by_cases hop : ev.op.keeps = true
    · exact hbefore.samePair (samePair_of_event acts_load h (by simp) hop)
    · have hcases : ev.op = .writeIndex ∨ ev.op = .writeBaseline := by
        cases hev : ev.op <;> rw [hev] at hop <;> first | exact absurd rfl hop | simp
      obtain hop | hop := hcases
      · have hstrict := hl.resolve_right fun h => h ev (by simp) hop
        exact upheld_of_writesIndex (steps_writeIndex h hop) hown ht hstrict hbefore
      · exact upheld_of_writesBaseline (steps_writeBaseline h hop) hown ht hbefore

/-! ### What is returned -/

/-- An index that dominates a baseline. -/
def Served (env : CacheEnv) (baseline : Option Bytes) (g : GatedIndex) : Prop :=
  ∃ index text, fromUtf8 index = some text ∧ Index.parse env.kdlParse text = .ok g.index ∧ Advances env baseline index

theorem run_ratchetWrites {decision : GateDecision} (hadvance : decision.advance = true) (index : Bytes) (s : Slot) :
    ((ratchetWrites decision index).run s).2.index = s.index ∧ ((ratchetWrites decision index).run s).2.baseline = some index := by
  unfold ratchetWrites writeIf writeNewMeta
  rw [hadvance]
  cases decision.newMeta <;> exact ⟨rfl, rfl⟩

/-- An index that a strict caller has fetched dominates the baseline, and is the next one. -/
theorem fetched_strict {isRecovery : Bool} {index : Bytes} {g : GatedIndex}
    (h : Returns False (loadFetched env c isRecovery index) l (.ok g)) (hc : Chained s l s') (hstrict : c.indexHistoryPolicy = .strict) :
    Served env s.baseline g ∧ Served env s'.baseline g ∧ Upheld env s' := by
  obtain ⟨decision, w, l₁, l₂, l₃, rfl, hpersist, hwrites, hmint⟩ := returns_loadFetched_ok h
  obtain ⟨gated, between, t, ev, hl₁, hgate, hev, -⟩ := hpersist.trace
  obtain ⟨u₂, hwritten, hc₃⟩ := chained_append.mp hc
  obtain ⟨u₁, hc₁, hc₂⟩ := chained_append.mp hwritten
  rw [hl₁] at hc₁
  obtain ⟨t₂, hgated, hwrite⟩ := chained_append.mp hc₁
  obtain ⟨t₁, hgated, -⟩ := chained_append.mp hgated
  obtain ⟨rfl, hadvance, hadvances⟩ := advances_of_strict hgate hstrict hgated
  -- the index is parsed from the candidate
  obtain ⟨text, baseline, existingMeta, htext, hdecision⟩ := returns_gate_ok hgate
  obtain ⟨state, hbuild⟩ := gateOf_index hdecision
  have hparsed : Index.parse env.kdlParse text = .ok g.index := by
    rw [(returns_mint_ok hmint).1]
    exact parse_of_buildIndexState hbuild
  -- after the stamp the index is the candidate, after the writes of the ratchet so is the baseline
  obtain ⟨-, hstamp⟩ := chained_cons.mp hwrite
  have hindex : u₁.index = some index := by
    have hsame := samePair_of_part (acts_loadFetched isRecovery index) h (by simp [hl₁])
      (fun ev' hev' => by rw [List.mem_singleton.mp hev', hev]; rfl) hstamp
    exact hsame.1
  have hrun : (ratchetWrites decision index).run u₁ = (.ok (), u₂) := run_of_returns hwrites hc₂
  have hafter := run_ratchetWrites hadvance index u₁
  rw [hrun] at hafter
  have hsame : SamePair u₂ s' := samePair_of_part (acts_loadFetched isRecovery index) h (List.subset_append_right _ _)
    (fun ev hev => ?_) hc₃
  · have hbaseline : s'.baseline = some index := hsame.2.trans hafter.2
    refine ⟨⟨index, text, htext, hparsed, hadvances⟩, ⟨index, text, htext, hparsed, ?_⟩, fun index' hindex' => ?_⟩
    · rw [hbaseline]
      exact hadvances.self
    · obtain rfl : index = index' := Option.some.inj ((hsame.1.trans (hafter.1.trans hindex)).symm.trans hindex')
      rw [hbaseline]
      exact hadvances.self
  · obtain ⟨write, hkind, -⟩ := ((acts_mint _).steps hmint).1 ev hev
    have hmints := hkind.2
    cases hop : ev.op <;> rw [hop] at hmints <;> first | rfl | cases hmints

theorem CacheOp.keeps_of_precedes {op : CacheOp} (h : op.precedes = true) : op.keeps = true := by
  cases op <;> first | rfl | cases h

theorem CacheOp.precedes_of_serves {op : CacheOp} (h : op.serves = true) : op.precedes = true := by
  cases op <;> first | rfl | cases h

theorem upheld_of_calls {s₁ : Slot} (h : Calls (loadIndexWithHistory env) Guarded s₁ s) (hup : Upheld env s₁) : Upheld env s := by
  induction h with
  | refl => exact hup
  | tail _ hcall ih =>
    obtain ⟨c, l, q, hguarded, hsteps, hc⟩ := hcall
    exact upheld_of_steps hsteps hc hguarded ih

/-- **Strict history over a shared cache.** What a strict caller gets from the network dominates the baseline that was stored, and is
the baseline then. What it gets from the cache dominates the stored baseline, if the cached index did so at some time since which
calls were made one after the other, each of them cut off anywhere, and of those only strict ones have written the index. -/
theorem strict_history {l : List CacheEvent} {g : GatedIndex} (hstrict : c.indexHistoryPolicy = .strict)
    (h : Returns False (loadIndexWithHistory env c) l (.ok g)) (hc : Chained s l s') :
    ((∃ ev ∈ l, ev.op = .writeIndex) → Served env s.baseline g ∧ Served env s'.baseline g ∧ Upheld env s') ∧
      ∀ s₁, Upheld env s₁ → Calls (loadIndexWithHistory env) Guarded s₁ s → Served env s.baseline g ∧ Served env s'.baseline g := by
  obtain ⟨l₀, l₁, hl, hl₀, hcases⟩ := returns_load_cases h
  rw [hl] at hc
  obtain ⟨t, hc₀, hc₁⟩ := chained_append.mp hc
  have hsame : SamePair s t := samePair_of_part acts_load h (hl ▸ List.subset_append_left _ _)
    (fun ev hev => CacheOp.keeps_of_precedes (hl₀ ev hev)) hc₀
  obtain hserved | ⟨isRecovery, index, -, hfetched⟩ := hcases
  · have hops : ∀ ev ∈ l₁, ev.op.precedes = true := fun ev hev => by
      obtain ⟨write, hkind, -⟩ := (acts_tryServeFromCache.steps hserved).1 ev hev
      exact CacheOp.precedes_of_serves hkind.2
    constructor
    · rintro ⟨ev, hev, hop⟩
      have hprecedes : ev.op.precedes = true := (List.mem_append.mp (hl ▸ hev)).elim (hl₀ ev) (hops ev)
      rw [hop] at hprecedes
      cases hprecedes
    · intro s₁ hup hcalls
      obtain ⟨t', index, text, parsed, w, l₂, l₃, rfl, hindex, -, htext, hparse, -, hmint⟩ := returns_tryServeFromCache_ok hserved
      obtain ⟨ht, -⟩ := chained_cons.mp hc₁
      obtain rfl : t = t' := ht
      have hparsed : Index.parse env.kdlParse text = .ok g.index := by
        rw [(returns_mint_ok hmint).1]
        exact hparse
      have hadvances : Advances env s.baseline index := upheld_of_calls hcalls hup index (hsame.1 ▸ hindex)
      have hafter : SamePair t s' := samePair_of_part acts_load h (hl ▸ List.subset_append_right _ _)
        (fun ev hev => CacheOp.keeps_of_precedes (hops ev hev)) hc₁
      refine ⟨⟨index, text, htext, hparsed, hadvances⟩, ⟨index, text, htext, hparsed, ?_⟩⟩
      rw [hafter.2, hsame.2]
      exact hadvances
  · have hfinal := fetched_strict hfetched hc₁ hstrict
    rw [hsame.2] at hfinal
    exact ⟨fun _ => hfinal, fun _ _ _ => ⟨hfinal.1, hfinal.2.1⟩⟩

/-! ### Examples -/

/-- A read of the cache, without a network. -/
def reading : Call where
  __ := fetching .off "" []
  httpGet := .error "offline"
  indexHistoryPolicy := .strict

/-- A call that lets any index into the cache. -/
def admitting (index : Str) : Call := { refreshing index with indexHistoryPolicy := .off }

/-- After a strict load. -/
def afterStrict : Slot := ((loadIndexWithHistory plainEnv (refreshing firstText)).run .empty).2

/-- After a strict load, then one that has let in an index without packages. -/
def afterOff : Slot := ((loadIndexWithHistory plainEnv (admitting "")).run afterStrict).2

/-- What a strict load has fetched is what the next one reads, and it is the baseline. -/
theorem strict_history_read : ∃ g, Served plainEnv (some (utf8 firstText)) g := by
  obtain ⟨g, hg⟩ : ∃ g, ((loadIndexWithHistory plainEnv reading).run afterStrict).1 = .ok g := Result.isOk_iff.mp (by decide)
  obtain ⟨l, hl, hc⟩ := exists_returns (loadIndexWithHistory plainEnv reading) afterStrict
  rw [hg] at hl
  have hcalls : Calls (loadIndexWithHistory plainEnv) Guarded .empty afterStrict :=
    calls_run (loadIndexWithHistory plainEnv) Guarded (refreshing firstText) (fun _ => .inl rfl) .empty
  have hserved := ((strict_history rfl hl hc).2 .empty upheld_empty hcalls).1
  have hbaseline : afterStrict.baseline = some (utf8 firstText) := by decide
  exact ⟨g, hbaseline ▸ hserved⟩

/-- What the state of an index says about a version is what the index says. -/
theorem stateIs_entries {bytes : Bytes} {state : IndexState} {text : Str} {index : Index} (h : StateIs env bytes state)
    (htext : fromUtf8 bytes = some text) (hparse : Index.parse env.kdlParse text = .ok index) :
    ∃ schemaVersion epoch commitment, state = indexStateFrom schemaVersion epoch commitment index := by
  obtain ⟨text', htext', hstate⟩ := h
  cases htext.symm.trans htext'
  unfold parseBaseline at hstate
  split at hstate
  · rename_i index' state' hbuild
    cases hstate
    obtain ⟨index'', hparse', hrest₁⟩ := Result.bind_eq_ok.mp hbuild
    obtain ⟨schemaVersion, -, hrest₂⟩ := Result.bind_eq_ok.mp hrest₁
    obtain ⟨epoch, -, hrest₃⟩ := Result.bind_eq_ok.mp hrest₂
    obtain ⟨commitment, -, hrest₄⟩ := Result.bind_eq_ok.mp hrest₃
    obtain ⟨rfl, rfl⟩ := Prod.mk.inj (Result.pure_eq_ok.mp hrest₄)
    cases hparse.symm.trans hparse'
    exact ⟨schemaVersion, epoch, commitment, rfl⟩
  · cases hstate
  · cases hstate

/-- What an `off` caller has let in is served to a strict one. -/
theorem served_to_strict :
    ¬ ∀ (s s' : Slot) (c : Call) (g : GatedIndex), Calls (loadIndexWithHistory plainEnv) (fun _ _ => True) .empty s →
      c.indexHistoryPolicy = .strict → (loadIndexWithHistory plainEnv c).run s = (.ok g, s') → Served plainEnv s'.baseline g := by
  intro h
  have hcalls : Calls (loadIndexWithHistory plainEnv) (fun _ _ => True) .empty afterOff :=
    (calls_run (loadIndexWithHistory plainEnv) _ (refreshing firstText) (fun _ => trivial) .empty).trans
      (calls_run (loadIndexWithHistory plainEnv) _ (admitting "") (fun _ => trivial) afterStrict)
  have hresult : ((loadIndexWithHistory plainEnv reading).run afterOff).1 = .ok ⟨⟨[]⟩, none, none, .unarmed⟩ := by decide
  have hbaseline : ((loadIndexWithHistory plainEnv reading).run afterOff).2.baseline = some (utf8 firstText) := by decide
  obtain ⟨index, text, htext, hparse, state, hstate, hdom⟩ := h afterOff _ reading _ hcalls rfl (Prod.ext hresult rfl)
  obtain ⟨first, ⟨text', htext', hfirst⟩, hdominates⟩ := hdom _ hbaseline
  obtain ⟨schemaVersion, epoch, commitment, rfl⟩ := stateIs_entries hstate htext hparse
  -- the baseline has a version that an index without packages does not have
  have hentry : ((parseBaseline read firstText).toOption.bind fun s => s.get? ⟨"n", "a", "1.0.0"⟩).isSome := by decide
  have hutf8 : fromUtf8 (utf8 firstText) = some firstText := by decide
  cases hutf8.symm.trans htext'
  rw [show parseBaseline read firstText = .ok first from hfirst] at hentry
  obtain ⟨e, he⟩ := Option.isSome_iff_exists.mp hentry
  obtain ⟨e', he', -⟩ := hdominates _ e he
  rw [get?_indexStateFrom, if_neg (by decide)] at he'
  cases he'

end Milpa.Core.IndexCache
