import Milpa.Core.GateHistory
import Milpa.Core.IndexCacheTrust

/-!
# The baseline among processes

Each baseline that a load writes dominates the one that the load has read, in any
interleaving, and none is undone in a run where the baseline is still the one that was read
when it is replaced (`baseline_advances`). There is no lock: a load that was overtaken
replaces what it has not seen (`overtaken_baseline`).
-/

namespace Milpa.Core.IndexCache

open Milpa.Kdl Milpa.Concurrent Process

variable {env : CacheEnv} {c : Call} {faulty : Prop} {l own : List CacheEvent} {ev : CacheEvent}

/-! ### What is read of the baseline -/

/-- The baseline as a process knows it: from its last look at it. -/
def baselineSeen (own : List CacheEvent) : Option Bytes :=
  own.foldl (fun seen ev => match ev.op with
    | .baselineIsFile => none
    | .readBaseline => ev.before.baseline
    | _ => seen) none

/-- The event leaves alone what the process knows of the baseline. -/
def BesideBaseline (ev : CacheEvent) : Prop := ev.op ≠ .baselineIsFile ∧ ev.op ≠ .readBaseline

theorem baselineSeen_append {own' : List CacheEvent} (h : ∀ ev ∈ own', BesideBaseline ev) :
    baselineSeen (own ++ own') = baselineSeen own := by
  induction own' using List.reverseRecOn with
  | nil => rw [List.append_nil]
  | append_singleton own' ev ih =>
    obtain ⟨hfile, hread⟩ := h ev (by simp)
    rw [← List.append_assoc, baselineSeen, List.foldl_append, List.foldl_cons, List.foldl_nil]
    refine Eq.trans ?_ (ih fun ev' hev' => h ev' (List.mem_append_left _ hev'))
    split
    · exact absurd ‹_› hfile
    · exact absurd ‹_› hread
    · rfl

/-- A text of the baseline, as far as it is known. -/
def SeenAs (own : List CacheEvent) (baseline : Option Str) : Prop :=
  match baseline with
  | none => baselineSeen own = none
  | some text => ∃ raw, baselineSeen own = some raw ∧ fromUtf8 raw = some text

theorem SeenAs.append {baseline : Option Str} {own' : List CacheEvent} (h : SeenAs own baseline) (hown : ∀ ev ∈ own', BesideBaseline ev) :
    SeenAs (own ++ own') baseline := by
  unfold SeenAs at h ⊢
  rw [baselineSeen_append hown]
  exact h

theorem returns_readBaselineText_ok {baseline : Option Str} (h : Returns faulty readBaselineText l (.ok baseline)) (own : List CacheEvent) :
    SeenAs (own ++ l) baseline := by
  obtain ⟨isFile, l₁, l₂, rfl, hfile, hrest⟩ := returns_bind_ok h
  obtain ⟨s, b, rfl⟩ : ∃ s b, l₁ = [⟨.baselineIsFile, s, s, b⟩] := by
    obtain ⟨s, ⟨rfl, -⟩ | ⟨-, rfl, -⟩⟩ := returns_look hfile <;> exact ⟨s, _, rfl⟩
  cases isFile with
  | false =>
    obtain ⟨rfl, heq⟩ := returns_pure.mp hrest
    cases heq
    simp [SeenAs, baselineSeen]
  | true =>
    obtain ⟨raw, l₃, l₄, rfl, hread, hdecode⟩ := returns_bind_ok hrest
    obtain ⟨s', rfl, hraw⟩ := returns_readFile_ok hread
    cases htext : fromUtf8 raw with
    | none =>
      simp only [htext] at hdecode
      cases (returns_fail.mp hdecode).2
    | some text =>
      simp only [htext] at hdecode
      obtain ⟨rfl, heq⟩ := returns_pure.mp hdecode
      cases heq
      exact ⟨raw, by simp [baselineSeen, hraw], htext⟩

/-- The gate decides on the baseline that the process has read; `off` looks at none. -/
theorem returns_gate_seen {index : Bytes} {decision : GateDecision} (h : Returns faulty (gate env c index) l (.ok decision))
    (own : List CacheEvent) :
    ∃ text, fromUtf8 index = some text ∧
      ((c.indexHistoryPolicy = .off ∧ gateOf env c text none ⟨none, none, none⟩ = .ok decision) ∨
        ∃ baseline existingMeta, c.indexHistoryPolicy ≠ .off ∧ gateOf env c text baseline existingMeta = .ok decision ∧
          SeenAs (own ++ l) baseline) := by
  unfold gate at h
  split at h
  · cases (returns_fail.mp h).2
  rename_i text htext
  refine ⟨text, htext, ?_⟩
  split_ifs at h with hoff
  · exact .inl ⟨hoff, (returns_orFail_ok h).2⟩
  · obtain ⟨baseline, l₁, l₂, rfl, hbaseline, hrest⟩ := returns_bind_ok h
    obtain ⟨existingMeta, l₃, l₄, rfl, hmeta, hend⟩ := returns_bind_ok hrest
    obtain ⟨rfl, hdecision⟩ := returns_orFail_ok hend
    refine .inr ⟨baseline, existingMeta, hoff, hdecision, ?_⟩
    rw [List.append_nil, ← List.append_assoc]
    refine (returns_readBaselineText_ok hbaseline own).append fun ev hev => ?_
    obtain ⟨s, ⟨rfl, -⟩ | ⟨-, rfl, -⟩⟩ := returns_look hmeta <;>
      exact List.mem_singleton.mp hev ▸ ⟨nofun, nofun⟩

/-! ### Advances -/

/-- The bytes are an index with a state. -/
def StateIs (env : CacheEnv) (bytes : Bytes) (s : IndexState) : Prop :=
  ∃ text, fromUtf8 bytes = some text ∧ parseBaseline env.kdlParse text = .ok s

theorem StateIs.unique {bytes : Bytes} {s s' : IndexState} (h : StateIs env bytes s) (h' : StateIs env bytes s') : s = s' := by
  obtain ⟨text, htext, hs⟩ := h
  obtain ⟨text', htext', hs'⟩ := h'
  cases htext.symm.trans htext'
  exact Except.ok.inj (hs.symm.trans hs')

/-- The bytes are an index that dominates a baseline, if there is one. -/
def Advances (env : CacheEnv) (seen : Option Bytes) (index : Bytes) : Prop :=
  ∃ s', StateIs env index s' ∧ ∀ raw, seen = some raw → ∃ s, StateIs env raw s ∧ Dominates s s'

/-- A decision to advance is made on an index that dominates the baseline that was read. -/
theorem advances_of_gate {index : Bytes} {decision : GateDecision} (h : Returns faulty (gate env c index) l (.ok decision))
    (hadvance : decision.advance = true) (own : List CacheEvent) : Advances env (baselineSeen (own ++ l)) index := by
  obtain ⟨text, htext, ⟨hoff, hdecision⟩ | ⟨baseline, existingMeta, hoff, hdecision, hseen⟩⟩ := returns_gate_seen h own
  · exfalso
    unfold gateOf evaluateGate at hdecision
    split at hdecision
    · cases hdecision
    · rw [if_pos hoff] at hdecision
      cases hdecision
      cases hadvance
  cases baseline with
  | none =>
    obtain ⟨state, hbuild⟩ := gateOf_index hdecision
    refine ⟨state, ⟨text, htext, by rw [parseBaseline, hbuild]⟩, fun raw hraw => ?_⟩
    rw [show baselineSeen (own ++ l) = none from hseen] at hraw
    cases hraw
  | some baseline =>
    obtain ⟨raw, hraw, hbaseline⟩ := hseen
    rcases evaluateGate_cases hdecision with hstays | ⟨-, -, s, s', hs, hs', hcheck⟩
    · rw [hstays] at hadvance
      cases hadvance
    · refine ⟨s', ⟨text, htext, hs'⟩, fun raw' hraw' => ?_⟩
      cases hraw.symm.trans hraw'
      exact ⟨s, ⟨baseline, hbaseline, hs⟩,
        (check_advanced_iff (wellFormed_of_parseBaseline hs) (wellFormed_of_parseBaseline hs')).mp hcheck⟩

/-! ### The write -/

section

variable {α : Type} {p : Load α} {member : CacheOp → Bool} {op₀ : CacheOp}

/-- A process of a class makes none of the other operations. -/
theorem acts_ne (hp : p.Acts (Within member)) (hop : member op₀ = false) : p.Acts fun op _ => op ≠ op₀ :=
  hp.mono fun op write h heq => by
    obtain ⟨-, hmember⟩ := h
    rw [heq, hop] at hmember
    cases hmember

end

/-- What is not done before something is fetched is done after it. -/
theorem steps_load_fetched {q : Load GatedIndex} (h : Steps faulty (loadIndexWithHistory env c) (own ++ [ev]) q)
    (hop : ev.op.precedes = false) :
    ∃ l₀ l₁ isRecovery index q', own = l₀ ++ l₁ ∧ c.httpGet = .ok index ∧
      Steps faulty (loadFetched env c isRecovery index) (l₁ ++ [ev]) q' := by
  have serve : (tryServeFromCache env c).Acts fun op _ => op ≠ ev.op := by
    refine acts_ne acts_tryServeFromCache ?_
    cases hev : ev.op <;> rw [hev] at hop <;> first | rfl | cases hop
  have network : ∀ isRecovery own, Steps faulty (loadFromNetwork env c isRecovery) (own ++ [ev]) q →
      ∃ isRecovery index q', c.httpGet = .ok index ∧ Steps faulty (loadFetched env c isRecovery index) (own ++ [ev]) q' := by
    intro isRecovery own h
    unfold loadFromNetwork at h
    split at h
    · exact ⟨_, _, _, ‹_›, h⟩
    · have offline : (loadOffline env c).Acts fun op _ => op ≠ ev.op := by
        refine (acts_look fun heq => ?_).bind fun isFile => ?_
        · rw [← heq] at hop
          cases hop
        · cases isFile with
          | false => trivial
          | true => exact serve.bind fun served => by cases served <;> trivial
      exact absurd rfl (offline.not_mem h ev (by simp))
  have fresh : (cacheIsFresh c).Acts fun op _ => op ≠ ev.op := by
    unfold cacheIsFresh
    split_ifs
    · trivial
    · refine acts_look fun heq => ?_
      rw [← heq] at hop
      cases hop
  obtain ⟨isFresh, l₁, l₂, rfl, -, hrest⟩ := steps_bind_last fresh h
  cases isFresh with
  | false =>
    obtain ⟨isRecovery, index, q', hget, hfetched⟩ := network _ _ hrest
    exact ⟨l₁, l₂, isRecovery, index, q', rfl, hget, hfetched⟩
  | true =>
    obtain ⟨served, l₃, l₄, rfl, -, hrecover⟩ := steps_bind_last serve hrest
    cases served with
    | none =>
      obtain ⟨isRecovery, index, q', hget, hfetched⟩ := network _ _ hrecover
      exact ⟨l₁ ++ l₃, l₄, isRecovery, index, q', by simp, hget, hfetched⟩
    | some g => simpa using (steps_pure.mp hrecover).1

/-- A write of the baseline: before it, the index was written, after a decision to advance. -/
def WritesBaseline (env : CacheEnv) (c : Call) (faulty : Prop) (own : List CacheEvent) (ev : CacheEvent) : Prop :=
  ∃ index decision w l₀ l₁, own = l₀ ++ l₁ ∧ Persisting env c faulty index decision w l₁ ∧ decision.advance = true ∧
    ∃ s, ev = ⟨.writeBaseline, s, { s with baseline := some index }, false⟩ ∨ ev = ⟨.writeBaseline, s, s, true⟩

theorem WritesBaseline.append (h : WritesBaseline env c faulty own ev) (l : List CacheEvent) : WritesBaseline env c faulty (l ++ own) ev := by
  obtain ⟨index, decision, w, l₀, l₁, rfl, hpersist, hadvance, hev⟩ := h
  exact ⟨index, decision, w, l ++ l₀, l₁, by simp, hpersist, hadvance, hev⟩

theorem steps_atomicWrite {op : CacheOp} {write : Slot → Slot} {q : Load Unit}
    (h : Steps faulty (atomicWrite op write) (own ++ [ev]) q) :
    own = [] ∧ ∃ s, ev = ⟨op, s, write s, false⟩ ∨ ev = ⟨op, s, s, true⟩ := by
  generalize hl : own ++ [ev] = l at h
  cases h with
  | refl => simp at hl
  | act s h =>
    cases h
    obtain rfl : own = [] := by simpa using congrArg List.length hl
    exact ⟨rfl, s, .inl (List.cons.inj hl).1⟩
  | fault s hfaulty h =>
    cases h
    obtain rfl : own = [] := by simpa using congrArg List.length hl
    exact ⟨rfl, s, .inr (List.cons.inj hl).1⟩

theorem steps_ratchetWrites {index : Bytes} {decision : GateDecision} {q : Load Unit}
    (h : Steps faulty (ratchetWrites decision index) (own ++ [ev]) q) (hop : ev.op = .writeBaseline) :
    own = [] ∧ decision.advance = true ∧
      ∃ s, ev = ⟨.writeBaseline, s, { s with baseline := some index }, false⟩ ∨ ev = ⟨.writeBaseline, s, s, true⟩ := by
  have newMeta : (writeNewMeta decision.newMeta).Acts fun op _ => op ≠ ev.op := by
    rw [hop]
    unfold writeNewMeta
    split
    · exact acts_atomicWrite nofun
    · trivial
  obtain ⟨q', hwrite⟩ := steps_bind_first (fun _ => newMeta) h
  cases hadvance : decision.advance with
  | false =>
    rw [hadvance] at hwrite
    obtain ⟨hnil, -⟩ := steps_pure.mp hwrite
    simp at hnil
  | true =>
    rw [hadvance] at hwrite
    obtain ⟨hown, s, hev⟩ := steps_atomicWrite hwrite
    exact ⟨hown, rfl, s, hev⟩

theorem steps_loadFetched {isRecovery : Bool} {index : Bytes} {q : Load GatedIndex}
    (h : Steps faulty (loadFetched env c isRecovery index) (own ++ [ev]) q) (hop : ev.op = .writeBaseline) :
    WritesBaseline env c faulty own ev := by
  have persist : (persist env c isRecovery index).Acts fun op _ => op ≠ ev.op := hop ▸ acts_ne (acts_persist isRecovery index) rfl
  have mint : ∀ fetched, (mint env c fetched).Acts fun op _ => op ≠ ev.op := fun fetched => hop ▸ acts_ne (acts_mint fetched) rfl
  obtain ⟨⟨decision, w⟩, l₁, l₂, rfl, hpersist, hrest⟩ := steps_bind_last persist h
  obtain ⟨q', hwrites⟩ := steps_bind_first (fun _ => mint _) hrest
  obtain ⟨rfl, hadvance, hev⟩ := steps_ratchetWrites hwrites hop
  exact ⟨index, decision, w, [], l₁, by simp, returns_persist_ok hpersist, hadvance, hev⟩

/-- Before a load has written the baseline, it has written the index, after a decision to advance. -/
theorem steps_writeBaseline {q : Load GatedIndex} (h : Steps faulty (loadIndexWithHistory env c) (own ++ [ev]) q)
    (hop : ev.op = .writeBaseline) : WritesBaseline env c faulty own ev := by
  obtain ⟨l₀, l₁, isRecovery, index, q', rfl, -, hfetched⟩ := steps_load_fetched h (by rw [hop]; rfl)
  exact (steps_loadFetched hfetched hop).append l₀

/-! ### The theorem -/

/-- A baseline that is replaced is the one that the process has read. -/
def Unmoved (own : List CacheEvent) (ev : CacheEvent) : Prop := ev.op = .writeBaseline → ev.before.baseline = baselineSeen own

theorem WritesBaseline.advances (h : WritesBaseline env c faulty own ev) (hfailed : ev.failed = false) :
    ∃ index, ev.after.baseline = some index ∧ Advances env (baselineSeen own) index := by
  obtain ⟨index, decision, w, l₀, l₁, rfl, hpersist, hadvance, s, rfl | rfl⟩ := h
  · obtain ⟨gated, between, s', ev', rfl, hgate, hev', hbetween⟩ := hpersist.trace
    refine ⟨index, rfl, ?_⟩
    -- what comes after the gate does not look at the baseline
    have hbeside : ∀ ev ∈ between ++ [⟨.writeIndex, s', { s' with index := some index }, false⟩, ev'], BesideBaseline ev := by
      intro ev hev
      simp only [List.mem_append, List.mem_cons, List.not_mem_nil, or_false] at hev
      obtain hev | rfl | rfl := hev
      · obtain hop | hop | hop := hbetween ev hev <;> simp [BesideBaseline, hop]
      · simp [BesideBaseline]
      · simp [BesideBaseline, hev']
    rw [List.append_assoc gated, ← List.append_assoc l₀, baselineSeen_append hbeside]
    exact advances_of_gate hgate hadvance l₀
  · cases hfailed

/-- No other operation changes the baseline. -/
theorem baseline_of_effect {op : CacheOp} {write : Slot → Slot} (h : Effect op write) (hop : op ≠ .writeBaseline) (s : Slot) :
    (write s).baseline = s.baseline := by
  cases op with
  | writeBaseline => exact absurd rfl hop
  | writeBundle | writeIndex | writeStamp | writeMeta =>
    obtain ⟨_, rfl⟩ := h
    rfl
  | writeSidecar =>
    obtain ⟨_, _, rfl⟩ := h
    rfl
  | _ =>
    cases h
    rfl

/-- The baseline after some actions, against the one before them. -/
def Upward (env : CacheEnv) (s s' : Slot) : Prop :=
  ∀ raw state, s.baseline = some raw → StateIs env raw state →
    ∃ raw' state', s'.baseline = some raw' ∧ StateIs env raw' state' ∧ Dominates state state'

theorem Upward.refl (s : Slot) : Upward env s s := fun raw state hraw hstate => ⟨raw, state, hraw, hstate, .refl state⟩

theorem Upward.trans {s s' s'' : Slot} (h : Upward env s s') (h' : Upward env s' s'') : Upward env s s'' := by
  intro raw state hraw hstate
  obtain ⟨raw', state', hraw', hstate', hdom⟩ := h raw state hraw hstate
  obtain ⟨raw'', state'', hraw'', hstate'', hdom'⟩ := h' raw' state' hraw' hstate'
  exact ⟨raw'', state'', hraw'', hstate'', hdom.trans hdom'⟩

/-- One action of a load, where the baseline that it replaces is the one that was read. -/
theorem upward_of_steps {q : Load GatedIndex} (hunmoved : Unmoved own ev)
    (h : Steps faulty (loadIndexWithHistory env c) (own ++ [ev]) q) : Upward env ev.before ev.after := by
  obtain ⟨write, heffect, hafter⟩ := (acts_load.steps h).1 ev (by simp)
  cases hfailed : ev.failed with
  | true =>
    rw [hafter, if_pos hfailed]
    exact .refl _
  | false =>
    by_cases hop : ev.op = .writeBaseline
    · obtain ⟨index, hindex, state', hstate', hdom⟩ := (steps_writeBaseline h hop).advances hfailed
      intro raw state hraw hstate
      obtain ⟨s, hs, hdominates⟩ := hdom raw ((hunmoved hop).symm.trans hraw)
      obtain rfl := hs.unique hstate
      exact ⟨index, state', hindex, hstate', hdominates⟩
    · have hsame : ev.after.baseline = ev.before.baseline := by
        rw [hafter, if_neg (by rw [hfailed]; decide)]
        exact baseline_of_effect heffect hop _
      exact fun raw state hraw hstate => ⟨raw, state, hsame.trans hraw, hstate, .refl state⟩

/-- **The baseline among processes.** In every interleaving of loads, with operations that fail: a baseline that is written
dominates the one that its process has read, if it has read one. And in every run where a baseline that is replaced is the one that
the process has read, every baseline is dominated by all later ones. -/
theorem baseline_advances (env : CacheEnv) (s₀ : Slot) (P Q : Pool CacheOp Slot LoadError GatedIndex Call) :
    (Pool.Run True (loadIndexWithHistory env) (fun _ _ => True) ⟨s₀, []⟩ P →
      ∀ t ∈ P.threads, ∀ own ev own', t.own = own ++ ev :: own' → ev.op = .writeBaseline → ev.failed = false →
        ∃ index, ev.after.baseline = some index ∧ Advances env (baselineSeen own) index) ∧
      (Pool.Run True (loadIndexWithHistory env) Unmoved ⟨s₀, []⟩ P → Pool.Run True (loadIndexWithHistory env) Unmoved P Q →
        Upward env P.state Q.state) := by
  constructor
  · intro hrun t ht own ev own' hown hop hfailed
    have htrace := Pool.traced_of_run hrun t ht
    rw [hown, List.append_cons] at htrace
    obtain ⟨q, hsteps, -⟩ := htrace.split
    exact (steps_writeBaseline hsteps hop).advances hfailed
  · intro hreach hrun
    refine Pool.Run.induction Upward.refl (fun _ _ _ => Upward.trans) ?_ (Pool.traced_of_run hreach) hrun
    exact fun c own ev q => upward_of_steps

/-! ### Examples -/

/-- A call that fetches an index, whatever is cached. -/
def refreshing (index : Str) : Call where
  __ := fetching .off index []
  refresh := true
  indexHistoryPolicy := .strict

/-- After a first load, two loads have read the baseline, and one of them has replaced it. -/
def overtaking : Pool CacheOp Slot LoadError GatedIndex Call :=
  (Pool.launch (loadIndexWithHistory plainEnv) .empty [refreshing firstText, refreshing nextText, refreshing firstText]).follow
    (List.replicate 6 0 ++ List.replicate 3 1 ++ List.replicate 3 2 ++ List.replicate 4 1)

/-- The other one has replaced it too. -/
def overtakenBaseline : Pool CacheOp Slot LoadError GatedIndex Call := overtaking.follow (List.replicate 4 2)

theorem run_overtaking : Pool.Run True (loadIndexWithHistory plainEnv) (fun _ _ => True) ⟨.empty, []⟩ overtaking :=
  (Pool.run_launch _ _).trans (Pool.run_follow _ _)

/-- The second load has written an index with a content hash, over one that has none. -/
theorem baseline_advances_next : Advances plainEnv (some (utf8 firstText)) (utf8 nextText) := by
  have hwrite : ∃ t ∈ overtaking.threads, ∃ k : Fin t.own.length, t.own[k].op = .writeBaseline ∧ t.own[k].failed = false ∧
      t.own[k].after.baseline = some (utf8 nextText) ∧ baselineSeen (t.own.take k) = some (utf8 firstText) := by decide
  obtain ⟨t, ht, k, hop, hfailed, hafter, hseen⟩ := hwrite
  have hown : t.own = t.own.take k ++ t.own[k] :: t.own.drop (k + 1) := by
    rw [Fin.getElem_fin, ← List.drop_eq_getElem_cons, List.take_append_drop]
  obtain ⟨index, hindex, hadvances⟩ :=
    (baseline_advances plainEnv .empty overtaking overtaking).1 run_overtaking t ht _ _ _ hown hop hfailed
  rw [hseen] at hadvances
  cases hafter.symm.trans hindex
  exact hadvances

/-- A load that was overtaken undoes the advance. -/
theorem overtaken_baseline :
    ¬ ∀ P Q : Pool CacheOp Slot LoadError GatedIndex Call,
      Pool.Run False (loadIndexWithHistory plainEnv) (fun _ _ => True) ⟨.empty, []⟩ P →
        Pool.Run False (loadIndexWithHistory plainEnv) (fun _ _ => True) P Q → Upward plainEnv P.state Q.state := by
  intro h
  have hupward := h overtaking overtakenBaseline ((Pool.run_launch _ _).trans (Pool.run_follow _ _)) (Pool.run_follow _ _)
  have hbefore : overtaking.state.baseline = some (utf8 nextText) := by decide
  have hafter : overtakenBaseline.state.baseline = some (utf8 firstText) := by decide
  have htexts : fromUtf8 (utf8 nextText) = some nextText ∧ fromUtf8 (utf8 firstText) = some firstText := by decide
  obtain ⟨s', hs'⟩ : ∃ s, parseBaseline read nextText = .ok s := Result.isOk_iff.mp (by decide)
  obtain ⟨raw, s, hraw, ⟨text, htext, hs⟩, hdom⟩ := hupward _ s' hbefore ⟨nextText, htexts.1, hs'⟩
  cases hafter.symm.trans hraw
  cases htexts.2.symm.trans htext
  have hcheck := (check_advanced_iff (wellFormed_of_parseBaseline hs') (wellFormed_of_parseBaseline hs)).mpr hdom
  have hdirty : ((parseBaseline read nextText).bind fun s' => (parseBaseline read firstText).map fun s => (check s' s).advanced) =
      .ok false := by decide
  rw [hs', show parseBaseline read firstText = .ok s from hs] at hdirty
  cases hcheck.symm.trans (Except.ok.inj hdirty)

end Milpa.Core.IndexCache
