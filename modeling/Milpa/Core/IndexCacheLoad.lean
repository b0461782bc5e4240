import Milpa.Core.IndexCacheTraces

/-!
# What a load does

What each operation of a load does to the files (`acts_load`), and what a load that returns
an index has it from (`returns_load_ok`).
-/

namespace Milpa.Core.IndexCache

open Milpa.Concurrent Process

variable {env : CacheEnv} {c : Call} {faulty : Prop} {l : List CacheEvent}

/-! ### Effects -/

/-- What an operation writes. -/
def Effect (op : CacheOp) (write : Slot → Slot) : Prop :=
  match op with
  | .removeBundle => write = fun s => { s with bundle := none }
  | .removeMarker => write = fun s => { s with noBundle := false }
  | .writeMarker => write = fun s => { s with noBundle := true }
  | .writeBundle => ∃ bundle, write = fun s => { s with bundle := some bundle }
  | .writeIndex => ∃ index, write = fun s => { s with index := some index }
  | .writeStamp => ∃ now, write = fun s => { s with stamp := some now }
  | .writeBaseline => ∃ baseline, write = fun s => { s with baseline := some baseline }
  | .writeMeta => ∃ newMeta, write = fun s => { s with baselineMeta := some newMeta }
  | .writeSidecar => ∃ pointer bytes, write = fun s => { s with commitments := Function.update s.commitments pointer (some bytes) }
  | _ => write = id

/-- The operations of the mint. -/
def CacheOp.mints : CacheOp → Bool
  | .readPointer | .readSidecar | .writeSidecar => true
  | _ => false

/-- The operations on the sidecars, for what is cached. -/
def CacheOp.checks : CacheOp → Bool
  | .markerExists | .bundleLooksOk | .readBundle | .removeBundle | .removeMarker => true
  | _ => false

/-- The operations of a read of the cache: nothing of what was fetched is written. -/
def CacheOp.serves : CacheOp → Bool
  | .readIndex => true
  | op => op.checks || op.mints

/-- The operations of the gate of the history. -/
def CacheOp.consults : CacheOp → Bool
  | .baselineIsFile | .readBaseline | .readMeta => true
  | _ => false

/-- The operations up to the stamp. -/
def CacheOp.persists : CacheOp → Bool
  | .removeMarker | .writeMarker | .writeBundle | .writeIndex | .writeStamp => true
  | op => op.consults

/-- The operations after the stamp, up to the mint. -/
def CacheOp.advances : CacheOp → Bool
  | .writeBaseline | .writeMeta => true
  | _ => false

/-- An operation of a class. -/
abbrev Within (member : CacheOp → Bool) (op : CacheOp) (write : Slot → Slot) : Prop := Effect op write ∧ member op = true

section

variable {α : Type} {kind : CacheOp → (Slot → Slot) → Prop}

theorem acts_look {op : CacheOp} {get : Slot → α} {failed : α} (h : kind op id) : (look op get failed).Acts kind :=
  ⟨h, fun _ => trivial, trivial⟩

theorem acts_readFile {op : CacheOp} {get : Slot → Option Bytes} (h : kind op id) : (readFile op get).Acts kind := by
  refine ⟨h, fun s => ?_, trivial⟩
  dsimp only
  split <;> trivial

theorem acts_attempt {op : CacheOp} {write : Slot → Slot} (h : kind op write) : (attempt op write).Acts kind :=
  ⟨h, fun _ => trivial, trivial⟩

theorem acts_atomicWrite {op : CacheOp} {write : Slot → Slot} (h : kind op write) : (atomicWrite op write).Acts kind :=
  ⟨h, fun _ => trivial, trivial⟩

theorem acts_writeIf {write : Bool} {p : Load Unit} (h : p.Acts kind) : (writeIf write p).Acts kind := by
  cases write
  · trivial
  · exact h

end

theorem acts_mint (fetched : FetchedIndex) : (mint env c fetched).Acts (Within CacheOp.mints) := by
  have keep : ∀ pointer sidecar status, (keepSidecar pointer sidecar status).Acts (Within CacheOp.mints) := by
    intro pointer sidecar status
    unfold keepSidecar
    split
    · exact acts_attempt ⟨⟨_, _, rfl⟩, rfl⟩
    · trivial
  have status : ∀ epoch pointer, (loadEpochCommitmentStatus env epoch pointer).Acts (Within CacheOp.mints) := by
    intro epoch pointer
    cases pointer with
    | none => trivial
    | some pointer => exact (acts_look ⟨rfl, rfl⟩).bind fun cached => (keep _ _ _).bind fun _ => trivial
  unfold mint
  split
  · exact (acts_look ⟨rfl, rfl⟩).bind fun pointer => (status _ _).bind fun _ => acts_ofExcept _
  · trivial

theorem acts_deleteBundleSidecars : deleteBundleSidecars.Acts (Within CacheOp.checks) :=
  (acts_attempt ⟨rfl, rfl⟩).bind fun _ => acts_attempt ⟨rfl, rfl⟩

theorem acts_missingBundle {kind : CacheOp → (Slot → Slot) → Prop} (g : TrustGate) : (missingBundle g).Acts kind :=
  (acts_ofExcept _).bind fun _ => trivial

theorem acts_verifyAndEnforce {kind : CacheOp → (Slot → Slot) → Prop} (g : TrustGate) (index bundle : Bytes) (maxAge : Option ℕ) :
    (verifyAndEnforce g index bundle maxAge).Acts kind :=
  (acts_ofExcept _).bind fun _ => trivial

theorem acts_cachedVerification (g : TrustGate) (index : Bytes) : (cachedVerification env g index).Acts (Within CacheOp.checks) := by
  refine (acts_look ⟨rfl, rfl⟩).bind fun marked => ?_
  cases marked with
  | true => exact (acts_missingBundle g).bind fun _ => trivial
  | false =>
    refine (acts_look ⟨rfl, rfl⟩).bind fun ok => ?_
    cases ok with
    | true =>
      refine (acts_readFile ⟨rfl, rfl⟩).bind fun bundle => ?_
      exact (acts_verifyAndEnforce _ _ _ _).bind fun _ => trivial
    | false => exact acts_deleteBundleSidecars.bind fun _ => trivial

theorem CacheOp.serves_of_mints {op : CacheOp} (h : op.mints = true) : op.serves = true := by
  cases op <;> first | rfl | cases h

theorem CacheOp.serves_of_checks {op : CacheOp} (h : op.checks = true) : op.serves = true := by
  cases op <;> first | rfl | cases h

theorem acts_tryServeFromCache : (tryServeFromCache env c).Acts (Within CacheOp.serves) := by
  have serve : ∀ index w, (serveIf env c index w).Acts (Within CacheOp.serves) := by
    intro index w
    cases w with
    | none => trivial
    | some w =>
      refine Acts.bind ?_ fun _ => trivial
      unfold serveCached
      split
      · trivial
      · refine (acts_ofExcept _).bind fun parsed => ?_
        exact (acts_mint _).mono fun op write h => ⟨h.1, CacheOp.serves_of_mints h.2⟩
  refine (acts_readFile ⟨rfl, rfl⟩).bind fun index => ?_
  split
  · rename_i g hgate
    have check : (cachedVerification env g index).Acts (Within CacheOp.checks) := acts_cachedVerification g index
    exact (check.mono fun op write h => ⟨h.1, CacheOp.serves_of_checks h.2⟩).bind fun w => serve _ w
  · exact serve _ _

theorem acts_gate (index : Bytes) : (gate env c index).Acts (Within CacheOp.consults) := by
  have baseline : readBaselineText.Acts (Within CacheOp.consults) := by
    refine (acts_look ⟨rfl, rfl⟩).bind fun isFile => ?_
    cases isFile with
    | false => trivial
    | true =>
      refine (acts_readFile ⟨rfl, rfl⟩).bind fun raw => ?_
      split <;> trivial
  unfold gate
  split
  · trivial
  · split_ifs
    · exact acts_ofExcept _
    · exact baseline.bind fun _ => (acts_look ⟨rfl, rfl⟩).bind fun _ => acts_ofExcept _

theorem CacheOp.persists_of_consults {op : CacheOp} (h : op.consults = true) : op.persists = true := by
  cases op <;> first | rfl | cases h

theorem acts_writeIndexToCache (bytes : Bytes) (now : ℕ) : (writeIndexToCache bytes now).Acts (Within CacheOp.persists) :=
  (acts_atomicWrite ⟨⟨_, rfl⟩, rfl⟩).bind fun _ => acts_attempt ⟨⟨_, rfl⟩, rfl⟩

theorem acts_persist (isRecovery : Bool) (index : Bytes) : (persist env c isRecovery index).Acts (Within CacheOp.persists) := by
  have gated : (gate env c index).Acts (Within CacheOp.persists) :=
    (acts_gate index).mono fun _ _ h => ⟨h.1, CacheOp.persists_of_consults h.2⟩
  unfold persist
  split
  · exact gated.bind fun _ => (acts_writeIndexToCache _ _).bind fun _ => trivial
  rename_i g hgate
  split
  · refine Acts.bind ?_ fun _ => gated.bind fun _ => (acts_attempt ⟨rfl, rfl⟩).bind fun _ =>
      (acts_atomicWrite ⟨⟨_, rfl⟩, rfl⟩).bind fun _ => (acts_writeIndexToCache _ _).bind fun _ => trivial
    unfold checkFetched
    split_ifs
    · split <;> trivial
    · exact acts_verifyAndEnforce _ _ _ _
  · unfold persistWithoutBundle
    split_ifs
    · trivial
    · trivial
    · exact gated.bind fun _ => (acts_attempt ⟨rfl, rfl⟩).bind fun _ =>
        (acts_writeIndexToCache _ _).bind fun _ => (acts_missingBundle g).bind fun _ => trivial
  · unfold persistUnfetched
    split_ifs
    · trivial
    · exact (acts_missingBundle g).bind fun _ => gated.bind fun _ => (acts_writeIf (acts_attempt ⟨rfl, rfl⟩)).bind fun _ =>
        (acts_writeIndexToCache _ _).bind fun _ => trivial

theorem acts_ratchetWrites (decision : GateDecision) (index : Bytes) : (ratchetWrites decision index).Acts (Within CacheOp.advances) := by
  refine (acts_writeIf (acts_atomicWrite ⟨⟨_, rfl⟩, rfl⟩)).bind fun _ => ?_
  unfold writeNewMeta
  split
  · exact acts_atomicWrite ⟨⟨_, rfl⟩, rfl⟩
  · trivial

theorem acts_loadFetched (isRecovery : Bool) (index : Bytes) : (loadFetched env c isRecovery index).Acts Effect := by
  refine ((acts_persist _ _).mono fun _ _ h => h.1).bind fun r => ?_
  refine ((acts_ratchetWrites _ _).mono fun _ _ h => h.1).bind fun _ => ?_
  exact (acts_mint _).mono fun _ _ h => h.1

/-- Every operation of a load does what its name says. -/
theorem acts_load : (loadIndexWithHistory env c).Acts Effect := by
  have serve : (tryServeFromCache env c).Acts Effect := acts_tryServeFromCache.mono fun _ _ h => h.1
  have network : ∀ isRecovery, (loadFromNetwork env c isRecovery).Acts Effect := by
    intro isRecovery
    unfold loadFromNetwork
    split
    · exact acts_loadFetched _ _
    · refine (acts_look rfl).bind fun isFile => ?_
      cases isFile with
      | false => trivial
      | true =>
        refine serve.bind fun served => ?_
        cases served <;> trivial
  refine Acts.bind ?_ fun fresh => ?_
  · unfold cacheIsFresh
    split_ifs
    · trivial
    · exact acts_look rfl
  cases fresh with
  | false => exact network false
  | true =>
    refine serve.bind fun served => ?_
    cases served with
    | none => exact network true
    | some gated => trivial

/-! ### From the network -/

theorem returns_writeIndexToCache_ok {index : Bytes} {now : ℕ} {u : Unit} (h : Returns faulty (writeIndexToCache index now) l (.ok u)) :
    ∃ s ev, l = [⟨.writeIndex, s, { s with index := some index }, false⟩, ev] ∧ ev.op = .writeStamp := by
  obtain ⟨u', l₁, l₂, rfl, hwrite, hstamp⟩ := returns_bind_ok h
  obtain ⟨s, rfl⟩ := returns_atomicWrite_ok hwrite
  obtain ⟨-, s', rfl | ⟨-, rfl⟩⟩ := returns_attempt hstamp
  · exact ⟨s, _, rfl, rfl⟩
  · exact ⟨s, _, rfl, rfl⟩

theorem returns_checkFetched_ok {g : TrustGate} {isRecovery : Bool} {index bundle : Bytes} {result : VerificationResult}
    (h : Returns faulty (checkFetched g isRecovery index bundle) l (.ok result)) :
    l = [] ∧ result = g.verifier index bundle g.config.trustBundle g.config.expectedSigner (some g.config.maxAgeSeconds) ∧
      enforceIndexTrust result g.config.policy = .ok () := by
  unfold checkFetched at h
  split_ifs at h
  · split at h
    · rename_i htrusted
      obtain ⟨rfl, heq⟩ := returns_pure.mp h
      cases heq
      exact ⟨rfl, htrusted.symm, by simp [enforceIndexTrust]⟩
    · cases (returns_fail.mp h).2
  · exact returns_verifyAndEnforce_ok h

/-- The bundle that was fetched. -/
def BundleFetched (g : TrustGate) (bundle : Bytes) : Prop := g.bundleHttpGet = .ok bundle

/-- A fetched index, with its witness: what was fetched has passed the gates, then the sidecars and the index were written. -/
structure Persisting (env : CacheEnv) (c : Call) (faulty : Prop) (index : Bytes) (decision : GateDecision)
    (w : Option VerificationResult × Option IndexBundleInfo) (l : List CacheEvent) : Prop where
  witness : WitnessOf env c index (fun g => some g.config.maxAgeSeconds) BundleFetched w
  trace : ∃ gated between s ev, l = gated ++ between ++ [⟨.writeIndex, s, { s with index := some index }, false⟩, ev] ∧
    Returns faulty (gate env c index) gated (.ok decision) ∧ ev.op = .writeStamp ∧
    ∀ ev ∈ between, ev.op = .removeMarker ∨ ev.op = .writeMarker ∨ ev.op = .writeBundle

theorem returns_persist_ok {isRecovery : Bool} {index : Bytes} {decision : GateDecision}
    {w : Option VerificationResult × Option IndexBundleInfo}
    (h : Returns faulty (persist env c isRecovery index) l (.ok (decision, w))) : Persisting env c faulty index decision w l := by
  unfold persist at h
  split at h
  · rename_i hgate
    obtain ⟨decision', l₁, l₂, rfl, hgated, hrest₁⟩ := returns_bind_ok h
    obtain ⟨u, l₃, l₄, rfl, hwrite, hend⟩ := returns_bind_ok hrest₁
    obtain ⟨s, ev, rfl, hev⟩ := returns_writeIndexToCache_ok hwrite
    obtain ⟨rfl, heq⟩ := returns_pure.mp hend
    cases heq
    exact ⟨by rw [WitnessOf, hgate], l₁, [], s, ev, by simp, hgated, hev, by simp⟩
  rename_i g hgate
  split at h
  · rename_i bundle hbundle
    obtain ⟨result, l₁, l₂, rfl, hcheck, hrest₁⟩ := returns_bind_ok h
    obtain ⟨rfl, hresult, hpass⟩ := returns_checkFetched_ok hcheck
    obtain ⟨decision', l₁, l₂, rfl, hgated, hrest₂⟩ := returns_bind_ok hrest₁
    obtain ⟨u, l₃, l₄, rfl, hmarker, hrest₃⟩ := returns_bind_ok hrest₂
    obtain ⟨u, l₅, l₆, rfl, hbundlewrite, hrest₄⟩ := returns_bind_ok hrest₃
    obtain ⟨u, l₇, l₈, rfl, hwrite, hend⟩ := returns_bind_ok hrest₄
    obtain ⟨s, ev, rfl, hev⟩ := returns_writeIndexToCache_ok hwrite
    obtain ⟨rfl, heq⟩ := returns_pure.mp hend
    cases heq
    refine ⟨?_, l₁, l₃ ++ l₅, s, ev, by simp, hgated, hev, ?_⟩
    · rw [WitnessOf, hgate]
      exact .verified hbundle hresult hpass
    · obtain ⟨s₂, rfl⟩ := returns_atomicWrite_ok hbundlewrite
      obtain ⟨-, s₁, rfl | ⟨-, rfl⟩⟩ := returns_attempt hmarker <;> simp
  · unfold persistWithoutBundle at h
    split_ifs at h
    · cases (returns_fail.mp h).2
    · cases (returns_fail.mp h).2
    obtain ⟨decision', l₁, l₂, rfl, hgated, hrest₁⟩ := returns_bind_ok h
    obtain ⟨u, l₃, l₄, rfl, hmarker, hrest₂⟩ := returns_bind_ok hrest₁
    obtain ⟨u, l₅, l₆, rfl, hwrite, hrest₃⟩ := returns_bind_ok hrest₂
    obtain ⟨s, ev, rfl, hev⟩ := returns_writeIndexToCache_ok hwrite
    obtain ⟨w', l₇, l₈, rfl, hmissing, hend⟩ := returns_bind_ok hrest₃
    obtain ⟨rfl, rfl, hpass⟩ := returns_missingBundle_ok hmissing
    obtain ⟨rfl, heq⟩ := returns_pure.mp hend
    cases heq
    refine ⟨?_, l₁, l₃, s, ev, by simp, hgated, hev, ?_⟩
    · rw [WitnessOf, hgate]
      exact .missing hpass
    · obtain ⟨-, s₁, rfl | ⟨-, rfl⟩⟩ := returns_attempt hmarker <;> simp
  · unfold persistUnfetched at h
    split_ifs at h
    · cases (returns_fail.mp h).2
    obtain ⟨w', l₁, l₂, rfl, hmissing, hrest₁⟩ := returns_bind_ok h
    obtain ⟨rfl, rfl, hpass⟩ := returns_missingBundle_ok hmissing
    obtain ⟨decision', l₁, l₂, rfl, hgated, hrest₂⟩ := returns_bind_ok hrest₁
    obtain ⟨u, l₃, l₄, rfl, hmarker, hrest₃⟩ := returns_bind_ok hrest₂
    obtain ⟨u, l₅, l₆, rfl, hwrite, hend⟩ := returns_bind_ok hrest₃
    obtain ⟨s, ev, rfl, hev⟩ := returns_writeIndexToCache_ok hwrite
    obtain ⟨rfl, heq⟩ := returns_pure.mp hend
    cases heq
    refine ⟨?_, l₁, l₃, s, ev, by simp, hgated, hev, ?_⟩
    · rw [WitnessOf, hgate]
      exact .missing hpass
    · cases isRecovery with
      | false =>
        obtain ⟨rfl, -⟩ := returns_pure.mp hmarker
        simp
      | true => obtain ⟨-, s₁, rfl | ⟨-, rfl⟩⟩ := returns_attempt hmarker <;> simp

theorem CacheOp.ne_of_advances {op : CacheOp} (h : op.advances = true) : op ≠ .readIndex ∧ op ≠ .writeIndex := by
  cases op <;> first | exact ⟨by decide, by decide⟩ | cases h

/-- After a fetch has returned, what it knows of the index is what was fetched. -/
theorem Persisting.indexSeen {index : Bytes} {decision : GateDecision} {w : Option VerificationResult × Option IndexBundleInfo}
    (h : Persisting env c faulty index decision w l) (l₀ : List CacheEvent) {l' : List CacheEvent} (hl' : ∀ ev ∈ l', Aside ev) :
    indexSeen (l₀ ++ (l ++ l')) = some index := by
  obtain ⟨gated, between, s, ev, rfl, -, hev, -⟩ := h.trace
  have hsplit : l₀ ++ (gated ++ between ++ [⟨.writeIndex, s, { s with index := some index }, false⟩, ev] ++ l') =
      (l₀ ++ gated ++ between) ++ ⟨.writeIndex, s, { s with index := some index }, false⟩ :: (ev :: l') := by simp
  rw [hsplit, indexSeen_of_mem (.inr rfl)]
  exact List.forall_mem_cons.mpr ⟨⟨by rw [hev]; decide, by rw [hev]; decide⟩, hl'⟩

/-- A fetched index that is returned: the gates and the writes, then the baseline, then the mint. -/
theorem returns_loadFetched_ok {isRecovery : Bool} {index : Bytes} {g : GatedIndex}
    (h : Returns faulty (loadFetched env c isRecovery index) l (.ok g)) :
    ∃ decision w l₁ l₂ l₃, l = l₁ ++ l₂ ++ l₃ ∧ Persisting env c faulty index decision w l₁ ∧
      Returns faulty (ratchetWrites decision index) l₂ (.ok ()) ∧
      Returns faulty (mint env c ⟨decision.index, w.1, w.2⟩) l₃ (.ok g) := by
  obtain ⟨⟨decision, w⟩, l₁, l₂, rfl, hpersist, hrest⟩ := returns_bind_ok h
  obtain ⟨u, l₃, l₄, rfl, hwrites, hmint⟩ := returns_bind_ok hrest
  exact ⟨decision, w, l₁, l₃, l₄, by simp, returns_persist_ok hpersist, hwrites, hmint⟩

/-! ### The load -/

/-- The bytes that an index was made from were read by the load, with the bundle of its witness. -/
def FromCache (env : CacheEnv) (c : Call) (index : Bytes) (w : Option VerificationResult × Option IndexBundleInfo)
    (l : List CacheEvent) : Prop :=
  (∃ s, ⟨.readIndex, s, s, false⟩ ∈ l ∧ s.index = some index) ∧ WitnessOf env c index (fun _ => none) (fun _ => BundleRead l) w

/-- They were fetched, with the bundle, and the age of the bundle was bounded. -/
def FromNetwork (env : CacheEnv) (c : Call) (index : Bytes) (w : Option VerificationResult × Option IndexBundleInfo) : Prop :=
  c.httpGet = .ok index ∧ WitnessOf env c index (fun g => some g.config.maxAgeSeconds) BundleFetched w

/-- What a load returns is made from bytes that it knows at the end of the first part of its trace; the second part is the mint. -/
structure Snapshot (env : CacheEnv) (c : Call) (l l' : List CacheEvent) (g : GatedIndex) (index : Bytes) (text : Str) : Prop where
  seen : indexSeen l = some index
  isText : fromUtf8 index = some text
  parsed : Index.parse env.kdlParse text = .ok g.index
  source : FromCache env c index (g.verification, g.bundleInfo) l ∨ FromNetwork env c index (g.verification, g.bundleInfo)
  stamped : Stamped env c l' g

/-- What was read stays read. -/
theorem FromCache.mono {index : Bytes} {w : Option VerificationResult × Option IndexBundleInfo} {l' : List CacheEvent}
    (h : FromCache env c index w l) (hl : l ⊆ l') : FromCache env c index w l' := by
  obtain ⟨⟨s, hread, hs⟩, hw⟩ := h
  refine ⟨⟨s, hl hread, hs⟩, ?_⟩
  unfold WitnessOf at hw ⊢
  split at hw
  · exact hw
  · exact hw.mono fun b ⟨t, ht, hb⟩ => ⟨t, hl ht, hb⟩

theorem snapshot_of_served (l₀ : List CacheEvent) {g : GatedIndex} (h : Returns faulty (tryServeFromCache env c) l (.ok (some g))) :
    ∃ l₁ l₂ index text, l₀ ++ l = l₁ ++ l₂ ∧ Snapshot env c l₁ l₂ g index text := by
  obtain ⟨s, index, text, parsed, w, l₁, l₂, rfl, hs, haside, htext, hparse, hw, hmint⟩ := returns_tryServeFromCache_ok h
  obtain ⟨hindex, hverification, hinfo, hstamped⟩ := returns_mint_ok hmint
  refine ⟨l₀ ++ ⟨.readIndex, s, s, false⟩ :: l₁, l₂, index, text, by simp, ?_, htext, hindex ▸ hparse, .inl ?_, hstamped⟩
  · rw [indexSeen_of_mem (.inl rfl) haside, hs]
  · rw [hverification, hinfo]
    have hcache : FromCache env c index w (⟨.readIndex, s, s, false⟩ :: l₁) := by
      refine ⟨⟨s, List.mem_cons_self, hs⟩, ?_⟩
      unfold WitnessOf at hw ⊢
      split at hw
      · exact hw
      · exact hw.mono fun b ⟨t, ht, hb⟩ => ⟨t, List.mem_cons_of_mem _ ht, hb⟩
    exact hcache.mono (List.subset_append_right _ _)

theorem snapshot_of_fetched (l₀ : List CacheEvent) {isRecovery : Bool} {index : Bytes} {g : GatedIndex} (hget : c.httpGet = .ok index)
    (h : Returns faulty (loadFetched env c isRecovery index) l (.ok g)) :
    ∃ l₁ l₂ text, l₀ ++ l = l₁ ++ l₂ ∧ Snapshot env c l₁ l₂ g index text := by
  obtain ⟨decision, w, l₁, l₂, l₃, rfl, hpersist, hwrites, hmint⟩ := returns_loadFetched_ok h
  obtain ⟨hindex, hverification, hinfo, hstamped⟩ := returns_mint_ok hmint
  obtain ⟨gated, between, s, ev, htrace, hgate, -, -⟩ := hpersist.trace
  obtain ⟨text, baseline, existingMeta, htext, hdecision⟩ := returns_gate_ok hgate
  obtain ⟨state, hbuild⟩ := gateOf_index hdecision
  have haside : ∀ ev ∈ l₂, Aside ev := fun ev hev => by
    obtain ⟨write, hkind, -⟩ := ((acts_ratchetWrites decision index).steps hwrites).1 ev hev
    exact CacheOp.ne_of_advances hkind.2
  refine ⟨l₀ ++ (l₁ ++ l₂), l₃, text, by simp, ?_, htext, hindex ▸ parse_of_buildIndexState hbuild, .inr ⟨hget, ?_⟩, hstamped⟩
  · exact hpersist.indexSeen l₀ haside
  · rw [hverification, hinfo]
    exact hpersist.witness

/-- The operations before what a load returns is read or fetched: nothing but sidecars is written. -/
def CacheOp.precedes : CacheOp → Bool
  | .readStamp | .indexIsFile => true
  | op => op.serves

/-- A load that returns an index has it from the cache, or has fetched it. -/
theorem returns_load_cases {g : GatedIndex} (h : Returns faulty (loadIndexWithHistory env c) l (.ok g)) :
    ∃ l₀ l₁, l = l₀ ++ l₁ ∧ (∀ ev ∈ l₀, ev.op.precedes = true) ∧
      (Returns faulty (tryServeFromCache env c) l₁ (.ok (some g)) ∨
        ∃ isRecovery index, c.httpGet = .ok index ∧ Returns faulty (loadFetched env c isRecovery index) l₁ (.ok g)) := by
  have serves : ∀ {l : List CacheEvent} {r}, Returns faulty (tryServeFromCache env c) l r → ∀ ev ∈ l, ev.op.precedes = true := by
    intro l r h ev hev
    obtain ⟨write, hkind, -⟩ := (acts_tryServeFromCache.steps h).1 ev hev
    have hserves := hkind.2
    cases hop : ev.op <;> rw [hop] at hserves <;> first | rfl | cases hserves
  have network : ∀ isRecovery l, Returns faulty (loadFromNetwork env c isRecovery) l (.ok g) →
      ∃ l₀ l₁, l = l₀ ++ l₁ ∧ (∀ ev ∈ l₀, ev.op.precedes = true) ∧
        (Returns faulty (tryServeFromCache env c) l₁ (.ok (some g)) ∨
          ∃ isRecovery index, c.httpGet = .ok index ∧ Returns faulty (loadFetched env c isRecovery index) l₁ (.ok g)) := by
    intro isRecovery l h
    unfold loadFromNetwork at h
    split at h
    · rename_i index hget
      exact ⟨[], l, rfl, by simp, .inr ⟨isRecovery, index, hget, h⟩⟩
    · obtain ⟨isFile, l₁, l₂, rfl, hlook, hrest⟩ := returns_bind_ok h
      have hfirst : ∀ ev ∈ l₁, ev.op.precedes = true := by
        obtain ⟨s, ⟨rfl, -⟩ | ⟨-, rfl, -⟩⟩ := returns_look hlook <;> simp [CacheOp.precedes]
      cases isFile with
      | false => cases (returns_fail.mp hrest).2
      | true =>
        obtain ⟨served, l₃, l₄, rfl, hserve, hend⟩ := returns_bind_ok hrest
        cases served with
        | none => cases (returns_fail.mp hend).2
        | some g' =>
          obtain ⟨rfl, heq⟩ := returns_pure.mp hend
          cases heq
          exact ⟨l₁, l₃, by simp, hfirst, .inl hserve⟩
  obtain ⟨fresh, l₁, l₂, rfl, hfresh, hrest⟩ := returns_bind_ok h
  have hfirst : ∀ ev ∈ l₁, ev.op.precedes = true := by
    unfold cacheIsFresh at hfresh
    split_ifs at hfresh
    · rw [(returns_pure.mp hfresh).1]
      simp
    · obtain ⟨s, ⟨rfl, -⟩ | ⟨-, rfl, -⟩⟩ := returns_look hfresh <;> simp [CacheOp.precedes]
  cases fresh with
  | false =>
    obtain ⟨l₃, l₄, rfl, hl₃, hcases⟩ := network false l₂ hrest
    exact ⟨l₁ ++ l₃, l₄, by simp, List.forall_mem_append.mpr ⟨hfirst, hl₃⟩, hcases⟩
  | true =>
    obtain ⟨served, l₃, l₄, rfl, hserve, hend⟩ := returns_bind_ok hrest
    cases served with
    | none =>
      obtain ⟨l₅, l₆, rfl, hl₅, hcases⟩ := network true l₄ hend
      exact ⟨l₁ ++ l₃ ++ l₅, l₆, by simp, List.forall_mem_append.mpr
        ⟨List.forall_mem_append.mpr ⟨hfirst, serves hserve⟩, hl₅⟩, hcases⟩
    | some g' =>
      obtain ⟨rfl, heq⟩ := returns_pure.mp hend
      cases heq
      exact ⟨l₁, l₃, by simp, hfirst, .inl hserve⟩

/-- **What a load returns.** The index is parsed from bytes that the load has read or fetched, the witness is about these bytes,
and the status is from the pointer that was read last. -/
theorem returns_load_ok {g : GatedIndex} (h : Returns faulty (loadIndexWithHistory env c) l (.ok g)) :
    ∃ l₁ l₂ index text, l = l₁ ++ l₂ ∧ Snapshot env c l₁ l₂ g index text := by
  obtain ⟨l₀, l', rfl, -, hserved | ⟨isRecovery, index, hget, hfetched⟩⟩ := returns_load_cases h
  · exact snapshot_of_served l₀ hserved
  · obtain ⟨l₁, l₂, text, hsplit, hsnapshot⟩ := snapshot_of_fetched l₀ hget hfetched
    exact ⟨l₁, l₂, index, text, hsplit, hsnapshot⟩

end Milpa.Core.IndexCache
