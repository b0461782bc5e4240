import Milpa.Core.IndexCacheLoad
import Milpa.Kdl.Reader

/-!
# Strict trust over the histories of a cache

Under the strict policy a load returns an index only if the verifier trusts its bytes, with
the bundle that was used in the same call; whatever callers, with whatever policies, have
left in the cache (`strict_trust`). A refusal of the gate has written nothing: it comes
before all writes, and only the recovery has removed sidecars by then. The commitment is
checked after the writes, as part of the mint (`commitment_error_after_writes`).
-/

namespace Milpa.Core.IndexCache

open Milpa.Concurrent Process

variable {env : CacheEnv} {c : Call} {faulty : Prop} {l : List CacheEvent} {α β : Type}

/-! ### Refusals -/

/-- The errors of the trust gate. -/
def LoadError.refuses : LoadError → Bool
  | .trust _ | .recovery _ | .inconsistentOffline => true
  | _ => false

/-- The operations that write something. -/
def CacheOp.writes : CacheOp → Bool
  | .writeMarker | .writeBundle | .writeIndex | .writeStamp | .writeBaseline | .writeMeta | .writeSidecar => true
  | _ => false

/-- A trace writes nothing. -/
def Quiet (l : List CacheEvent) : Prop := ∀ ev ∈ l, ev.op.writes = false

theorem Quiet.append {l' : List CacheEvent} (h : Quiet l) (h' : Quiet l') : Quiet (l ++ l') := fun ev hev =>
  (List.mem_append.mp hev).elim (h ev) (h' ev)

theorem quiet_nil : Quiet [] := fun _ hev => absurd hev List.not_mem_nil

/-- The gate does not refuse here. -/
def Accepts (p : Load α) : Prop := ∀ l e, Returns True p l (.error e) → e.refuses = false

/-- Where the gate refuses, nothing was written. -/
def RefusesQuietly (p : Load α) : Prop := ∀ l e, Returns True p l (.error e) → e.refuses = true → Quiet l

theorem Accepts.refusesQuietly {p : Load α} (h : Accepts p) : RefusesQuietly p := fun l e herror hrefuses => by
  rw [h l e herror] at hrefuses
  cases hrefuses

theorem Accepts.bind {p : Load α} {f : α → Load β} (h : Accepts p) (hf : ∀ a, Accepts (f a)) : Accepts (p >>= f) := by
  intro l e herror
  obtain ⟨e', heq, hfirst⟩ | ⟨a, l₁, l₂, rfl, -, hsecond⟩ := returns_bind herror
  · cases heq
    exact h l e hfirst
  · exact hf a l₂ e hsecond

/-- A first part that writes nothing. -/
theorem RefusesQuietly.bind {p : Load α} {f : α → Load β} (h : RefusesQuietly p)
    (hquiet : ∀ l a, Returns True p l (.ok a) → Quiet l ∨ Accepts (f a)) (hf : ∀ a, RefusesQuietly (f a)) : RefusesQuietly (p >>= f) := by
  intro l e herror hrefuses
  obtain ⟨e', heq, hfirst⟩ | ⟨a, l₁, l₂, rfl, hfirst, hsecond⟩ := returns_bind herror
  · cases heq
    exact h l e hfirst hrefuses
  · rcases hquiet l₁ a hfirst with hl₁ | haccepts
    · exact hl₁.append (hf a l₂ e hsecond hrefuses)
    · rw [haccepts l₂ e hsecond] at hrefuses
      cases hrefuses

theorem accepts_pure (a : α) : Accepts (Pure.pure a : Load α) := fun _ _ h => by cases (returns_pure.mp h).2

theorem accepts_fail {e : LoadError} (h : e.refuses = false) : Accepts (Process.fail e : Load α) := fun _ _ herror => by
  cases (returns_fail.mp herror).2
  exact h

theorem refusesQuietly_fail (e : LoadError) : RefusesQuietly (Process.fail e : Load α) := fun _ _ herror _ => by
  rw [(returns_fail.mp herror).1]
  exact quiet_nil

theorem accepts_look {op : CacheOp} {get : Slot → α} {failed : α} : Accepts (look op get failed) := fun _ _ h =>
  absurd h not_returns_look_error

theorem accepts_readFile {op : CacheOp} {get : Slot → Option Bytes} : Accepts (readFile op get) := fun _ _ h => by
  obtain ⟨s, b, -, ⟨bytes, -, -, heq⟩ | heq⟩ := returns_readFile h <;> cases heq
  rfl

theorem accepts_attempt {op : CacheOp} {write : Slot → Slot} : Accepts (attempt op write) := fun _ _ h => by
  cases (returns_attempt h).1

theorem accepts_atomicWrite {op : CacheOp} {write : Slot → Slot} : Accepts (atomicWrite op write) := fun _ _ h => by
  obtain ⟨s, ⟨-, heq⟩ | ⟨-, heq⟩⟩ := returns_atomicWrite h <;> cases heq
  rfl

theorem accepts_orFail {ε : Type} {x : Except ε α} {f : ε → LoadError} (h : ∀ e, (f e).refuses = false) : Accepts (orFail x f) :=
  fun _ _ herror => by
    obtain ⟨-, e, -, rfl⟩ := returns_orFail_error herror
    exact h e

theorem refusesQuietly_orFail {ε : Type} {x : Except ε α} {f : ε → LoadError} : RefusesQuietly (orFail x f) := fun _ _ herror _ => by
  rw [(returns_orFail_error herror).1]
  exact quiet_nil

theorem quiet_of_acts {p : Load α} {r : Except LoadError α} {member : CacheOp → Bool} (hp : p.Acts (Within member))
    (hmember : ∀ op : CacheOp, member op = true → op.writes = false) (h : Returns faulty p l r) : Quiet l := fun ev hev => by
  obtain ⟨write, hkind, -⟩ := (hp.steps h).1 ev hev
  exact hmember ev.op hkind.2

theorem quiet_look {op : CacheOp} {get : Slot → α} {failed : α} {r : Except LoadError α} (hop : op.writes = false)
    (h : Returns faulty (look op get failed) l r) : Quiet l := by
  obtain ⟨s, ⟨rfl, -⟩ | ⟨-, rfl, -⟩⟩ := returns_look h <;> exact fun ev hev => by simpa [List.mem_singleton.mp hev] using hop

theorem quiet_readFile {op : CacheOp} {get : Slot → Option Bytes} {r : Except LoadError Bytes} (hop : op.writes = false)
    (h : Returns faulty (readFile op get) l r) : Quiet l := by
  obtain ⟨s, b, rfl, -⟩ := returns_readFile h
  exact fun ev hev => by simpa [List.mem_singleton.mp hev] using hop

/-! ### The parts of a load -/

theorem accepts_mint (fetched : FetchedIndex) : Accepts (mint env c fetched) := by
  unfold mint
  split
  · refine accepts_look.bind fun pointer => Accepts.bind ?_ fun status => accepts_orFail fun _ => rfl
    intro l e herror
    obtain ⟨⟨status, heq, -⟩, -⟩ := returns_loadEpochCommitmentStatus herror
    cases heq
  · exact accepts_pure _

theorem accepts_gate (index : Bytes) : Accepts (gate env c index) := by
  have baseline : Accepts readBaselineText := by
    refine accepts_look.bind fun isFile => ?_
    cases isFile with
    | false => exact accepts_pure _
    | true =>
      refine accepts_readFile.bind fun raw => ?_
      split
      · exact accepts_pure _
      · exact accepts_fail rfl
  unfold gate
  split
  · exact accepts_fail rfl
  · split_ifs
    · exact accepts_orFail fun _ => rfl
    · exact baseline.bind fun _ => accepts_look.bind fun _ => accepts_orFail fun _ => rfl

theorem quiet_gate {index : Bytes} {r : Except LoadError GateDecision} (h : Returns faulty (gate env c index) l r) : Quiet l :=
  fun ev hev => by obtain ⟨hop | hop | hop, -⟩ := returns_gate h ev hev <;> rw [hop] <;> rfl

theorem accepts_writeIndexToCache (index : Bytes) (now : ℕ) : Accepts (writeIndexToCache index now) :=
  accepts_atomicWrite.bind fun _ => accepts_attempt

/-- What the policy lets through once, it lets through again. -/
theorem accepts_missingBundle {g : TrustGate} (h : g.config.policy ≠ .strict) : Accepts (missingBundle g) := by
  refine Accepts.bind ?_ fun _ => accepts_pure _
  intro l e herror
  obtain ⟨-, result, hresult, -⟩ := returns_orFail_error herror
  exact absurd (enforceIndexTrust_error hresult).2.2 h

theorem quiet_missingBundle {g : TrustGate} {w : Option VerificationResult × Option IndexBundleInfo}
    (h : Returns faulty (missingBundle g) l (.ok w)) : Quiet l := by
  rw [(returns_missingBundle_ok h).1]
  exact quiet_nil

theorem refusesQuietly_verifyAndEnforce (g : TrustGate) (index bundle : Bytes) (maxAge : Option ℕ) :
    RefusesQuietly (verifyAndEnforce g index bundle maxAge) :=
  refusesQuietly_orFail.bind (fun _ _ h => .inl ((returns_orFail_ok h).1 ▸ quiet_nil)) fun _ => (accepts_pure _).refusesQuietly

theorem refusesQuietly_missingBundle (g : TrustGate) : RefusesQuietly (missingBundle g) :=
  refusesQuietly_orFail.bind (fun _ _ h => .inl ((returns_orFail_ok h).1 ▸ quiet_nil)) fun _ => (accepts_pure _).refusesQuietly

theorem CacheOp.quiet_of_checks {op : CacheOp} (h : op.checks = true) : op.writes = false := by
  cases op <;> first | rfl | cases h

theorem refusesQuietly_cachedVerification (g : TrustGate) (index : Bytes) : RefusesQuietly (cachedVerification env g index) :=
  fun _ _ h _ => quiet_of_acts (acts_cachedVerification g index) (fun _ => CacheOp.quiet_of_checks) h

theorem quiet_cachedVerification {g : TrustGate} {index : Bytes}
    {r : Except LoadError (Option (Option VerificationResult × Option IndexBundleInfo))}
    (h : Returns faulty (cachedVerification env g index) l r) : Quiet l :=
  quiet_of_acts (acts_cachedVerification g index) (fun _ => CacheOp.quiet_of_checks) h

theorem accepts_serveIf (index : Bytes) (w : Option (Option VerificationResult × Option IndexBundleInfo)) :
    Accepts (serveIf env c index w) := by
  cases w with
  | none => exact accepts_pure _
  | some w =>
    refine Accepts.bind ?_ fun _ => accepts_pure _
    unfold serveCached
    split
    · exact accepts_fail rfl
    · exact (accepts_orFail fun _ => rfl).bind fun _ => accepts_mint _

theorem refusesQuietly_tryServeFromCache : RefusesQuietly (tryServeFromCache env c) := by
  refine accepts_readFile.refusesQuietly.bind (fun _ _ h => .inl (quiet_readFile rfl h)) fun index => ?_
  split
  · exact (refusesQuietly_cachedVerification _ _).bind (fun _ _ h => .inl (quiet_cachedVerification h))
      fun w => (accepts_serveIf _ w).refusesQuietly
  · exact (accepts_serveIf _ _).refusesQuietly

/-- Where the cache is inconsistent, nothing was written. -/
theorem quiet_of_inconsistent (h : Returns faulty (tryServeFromCache env c) l (.ok none)) : Quiet l := by
  obtain ⟨index, l₁, l₂, rfl, hread, hrest⟩ := returns_bind_ok h
  refine (quiet_readFile rfl hread).append ?_
  have serve : ∀ w l, Returns faulty (serveIf env c index w) l (.ok none) → l = [] := by
    intro w l h
    cases w with
    | none => exact (returns_pure.mp h).1
    | some w =>
      obtain ⟨g, l₃, l₄, rfl, -, hend⟩ := returns_bind_ok h
      cases (returns_pure.mp hend).2
  cases hgate : c.trustGate with
  | none =>
    simp only [hgate] at hrest
    rw [serve _ _ hrest]
    exact quiet_nil
  | some g =>
    simp only [hgate] at hrest
    obtain ⟨w, l₃, l₄, rfl, hcheck, hserve⟩ := returns_bind_ok hrest
    rw [serve _ _ hserve, List.append_nil]
    exact quiet_cachedVerification hcheck

theorem refusesQuietly_persist (isRecovery : Bool) (index : Bytes) : RefusesQuietly (persist env c isRecovery index) := by
  have gated : ∀ {α : Type} {f : GateDecision → Load α}, (∀ a, RefusesQuietly (f a)) → RefusesQuietly (gate env c index >>= f) :=
    fun hf => (accepts_gate index).refusesQuietly.bind (fun _ _ h => .inl (quiet_gate h)) hf
  unfold persist
  split
  · refine gated fun decision => Accepts.refusesQuietly ?_
    exact (accepts_writeIndexToCache _ _).bind fun _ => accepts_pure _
  rename_i g hgate
  split
  · refine RefusesQuietly.bind ?_ (fun _ _ h => .inl ((returns_checkFetched_ok h).1 ▸ quiet_nil)) fun result => gated fun decision =>
      Accepts.refusesQuietly ?_
    · unfold checkFetched
      split_ifs
      · split
        · exact (accepts_pure _).refusesQuietly
        · exact refusesQuietly_fail _
      · exact refusesQuietly_verifyAndEnforce _ _ _ _
    · exact accepts_attempt.bind fun _ => accepts_atomicWrite.bind fun _ => (accepts_writeIndexToCache _ _).bind fun _ => accepts_pure _
  · unfold persistWithoutBundle
    split_ifs with hrecovery hstrict
    · exact refusesQuietly_fail _
    · exact refusesQuietly_fail _
    · refine gated fun decision => Accepts.refusesQuietly ?_
      exact accepts_attempt.bind fun _ => (accepts_writeIndexToCache _ _).bind fun _ =>
        (accepts_missingBundle hstrict).bind fun _ => accepts_pure _
  · unfold persistUnfetched
    split_ifs with hstrict
    · exact refusesQuietly_fail _
    · refine (refusesQuietly_missingBundle g).bind (fun _ _ h => .inl (quiet_missingBundle h)) fun w => gated fun decision =>
        Accepts.refusesQuietly ?_
      refine Accepts.bind ?_ fun _ => (accepts_writeIndexToCache _ _).bind fun _ => accepts_pure _
      cases isRecovery
      · exact accepts_pure _
      · exact accepts_attempt

theorem accepts_ratchetWrites (decision : GateDecision) (index : Bytes) : Accepts (ratchetWrites decision index) := by
  refine Accepts.bind ?_ fun _ => ?_
  · cases decision.advance
    · exact accepts_pure _
    · exact accepts_atomicWrite
  · unfold writeNewMeta
    split
    · exact accepts_atomicWrite
    · exact accepts_pure _

theorem refusesQuietly_loadFromNetwork (isRecovery : Bool) : RefusesQuietly (loadFromNetwork env c isRecovery) := by
  unfold loadFromNetwork
  split
  · refine (refusesQuietly_persist _ _).bind (fun _ _ _ => .inr ?_) fun r => ?_
    · exact (accepts_ratchetWrites _ _).bind fun _ => accepts_mint _
    · exact ((accepts_ratchetWrites _ _).bind fun _ => accepts_mint _).refusesQuietly
  · refine accepts_look.refusesQuietly.bind (fun _ _ h => .inl (quiet_look rfl h)) fun isFile => ?_
    cases isFile with
    | false => exact refusesQuietly_fail _
    | true =>
      refine refusesQuietly_tryServeFromCache.bind (fun l served h => ?_) fun served => ?_
      · cases served with
        | none => exact .inl (quiet_of_inconsistent h)
        | some g => exact .inr (accepts_pure _)
      · cases served with
        | none => exact refusesQuietly_fail _
        | some g => exact (accepts_pure _).refusesQuietly

/-- **Where the gate refuses, nothing was written.** -/
theorem refusesQuietly_load : RefusesQuietly (loadIndexWithHistory env c) := by
  have fresh : RefusesQuietly (cacheIsFresh c) ∧ ∀ l b, Returns True (cacheIsFresh c) l (.ok b) → Quiet l := by
    unfold cacheIsFresh
    split_ifs
    · exact ⟨(accepts_pure _).refusesQuietly, fun l b h => (returns_pure.mp h).1 ▸ quiet_nil⟩
    · exact ⟨accepts_look.refusesQuietly, fun l b h => quiet_look rfl h⟩
  refine fresh.1.bind (fun l b h => .inl (fresh.2 l b h)) fun isFresh => ?_
  cases isFresh with
  | false => exact refusesQuietly_loadFromNetwork false
  | true =>
    refine refusesQuietly_tryServeFromCache.bind (fun l served h => ?_) fun served => ?_
    · cases served with
      | none => exact .inl (quiet_of_inconsistent h)
      | some g => exact .inr (accepts_pure _)
    · cases served with
      | none => exact refusesQuietly_loadFromNetwork true
      | some g => exact (accepts_pure _).refusesQuietly

/-! ### The theorem -/

/-- The files after an operation are those before it, but for a sidecar that is removed. -/
def Kept (s s' : Slot) : Prop := s' = s ∨ s' = { s with bundle := none } ∨ s' = { s with noBundle := false }

theorem kept_of_effect {op : CacheOp} {write : Slot → Slot} (h : Effect op write) (hop : op.writes = false) (s : Slot) :
    Kept s (write s) := by
  cases op with
  | removeBundle => exact h ▸ .inr (.inl rfl)
  | removeMarker => exact h ▸ .inr (.inr rfl)
  | writeMarker | writeBundle | writeIndex | writeStamp | writeBaseline | writeMeta | writeSidecar => cases hop
  | readStamp | readIndex | indexIsFile | markerExists | bundleLooksOk | readBundle | baselineIsFile | readBaseline | readMeta
  | readPointer | readSidecar => exact h ▸ .inl rfl

/-- A trace has read an index. -/
def IndexRead (l : List CacheEvent) (index : Bytes) : Prop := ∃ s, ⟨.readIndex, s, s, false⟩ ∈ l ∧ s.index = some index

/-- The index is parsed from bytes that the verifier trusts with a bundle: both were read by the call, or both were fetched by it,
and then the age was bounded. -/
structure TrustedBy (env : CacheEnv) (gate : TrustGate) (c : Call) (own : List CacheEvent) (g : GatedIndex) (index bundle : Bytes) :
    Prop where
  parsed : ∃ text, fromUtf8 index = some text ∧ Index.parse env.kdlParse text = .ok g.index
  verification : g.verification = some .trusted
  bundleInfo : g.bundleInfo = env.seams.describeIndexBundle bundle
  trusted : (IndexRead own index ∧ BundleRead own bundle ∧
      gate.verifier index bundle gate.config.trustBundle gate.config.expectedSigner none = .trusted) ∨
    (c.httpGet = .ok index ∧ gate.bundleHttpGet = .ok bundle ∧
      gate.verifier index bundle gate.config.trustBundle gate.config.expectedSigner (some gate.config.maxAgeSeconds) = .trusted)

theorem trustedBy_of_returns {gate : TrustGate} (hgate : c.trustGate = some gate) (hstrict : gate.config.policy = .strict) {g : GatedIndex}
    (h : Returns faulty (loadIndexWithHistory env c) l (.ok g)) : ∃ index bundle, TrustedBy env gate c l g index bundle := by
  obtain ⟨l₁, l₂, index, text, rfl, hsnapshot⟩ := returns_load_ok h
  have parsed := hsnapshot.parsed
  rcases hsnapshot.source with ⟨⟨s, hread, hs⟩, hw⟩ | ⟨hget, hw⟩
  · simp only [WitnessOf, hgate] at hw
    obtain ⟨bundle, ⟨t, ht, hb⟩, htrusted, heq⟩ := hw.strict hstrict
    obtain ⟨hverification, hinfo⟩ := Prod.mk.inj heq
    exact ⟨index, bundle, ⟨text, hsnapshot.isText, parsed⟩, hverification, hinfo,
      .inl ⟨⟨s, List.mem_append_left _ hread, hs⟩, ⟨t, List.mem_append_left _ ht, hb⟩, htrusted⟩⟩
  · simp only [WitnessOf, hgate] at hw
    obtain ⟨bundle, hfetched, htrusted, heq⟩ := hw.strict hstrict
    obtain ⟨hverification, hinfo⟩ := Prod.mk.inj heq
    exact ⟨index, bundle, ⟨text, hsnapshot.isText, parsed⟩, hverification, hinfo, .inr ⟨hget, hfetched, htrusted⟩⟩

/-- **Strict trust over the histories of a cache.** Whatever calls share a cache, one after the other or at the same time, each of
them cut off anywhere, with operations that fail: a call under the strict policy returns an index only if the verifier trusts the
bytes it is parsed from, with the bundle that the same call has read beside them or fetched with them. A call that the trust gate
refuses has left all files as they were, but for a sidecar of an inconsistent cache that it has removed. -/
theorem strict_trust {s₀ : Slot} {P : Pool CacheOp Slot LoadError GatedIndex Call}
    (hrun : Pool.Run True (loadIndexWithHistory env) (fun _ _ => True) ⟨s₀, []⟩ P) {t : Thread CacheOp Slot LoadError GatedIndex Call}
    (ht : t ∈ P.threads) :
    (∀ gate g, t.call.trustGate = some gate → gate.config.policy = .strict → t.rest = .pure g →
      ∃ index bundle, TrustedBy env gate t.call t.own g index bundle) ∧
      ∀ e, t.rest = .fail e → e.refuses = true → ∀ ev ∈ t.own, Kept ev.before ev.after := by
  have htrace := Pool.traced_of_run hrun t ht
  constructor
  · intro gate g hgate hstrict hrest
    rw [hrest] at htrace
    exact trustedBy_of_returns hgate hstrict htrace
  · intro e hrest hrefuses ev hev
    rw [hrest] at htrace
    have hquiet : ev.op.writes = false := refusesQuietly_load t.own e htrace hrefuses ev hev
    obtain ⟨write, heffect, hafter⟩ := (acts_load.steps htrace).1 ev hev
    rw [hafter]
    split_ifs
    · exact .inl rfl
    · exact kept_of_effect heffect hquiet _

/-! ### Examples -/

/-- An environment with the reader of `Kdl`, and no JSON. -/
def plainEnv : CacheEnv := ⟨Kdl.read, id, ⟨fun _ => none, fun _ => none⟩⟩

/-- A verifier that trusts the bundle with one byte of zero for any bytes. -/
def zeroVerifier : Verifier := fun _ bundle _ _ _ => if bundle = [0] then .trusted else .digestMismatch

/-- A configuration of the policy. -/
def configOf (policy : TrustPolicy) : IndexTrustConfig := ⟨policy, ⟨[], []⟩, [], 604800⟩

/-- A call that gets an index and a bundle, in the second 100, with a window of 50 seconds. -/
def fetching (policy : TrustPolicy) (index : Str) (bundle : Bytes) : Call where
  url := "https://h/index.kdl"
  httpGet := .ok (utf8 index)
  ttlSeconds := 50
  nowUnix := 100
  config := some (configOf policy)
  verifier := some zeroVerifier
  bundleHttpGet := some (.ok bundle)
  refresh := false
  indexHistoryPolicy := .off
  epoch := none

/-- An index with a commitment. -/
def armedText : Str := "attestation-epoch-commitment \"aaaaaaaaaaaaaaaaaaaaaaaaaaaaaaaaaaaaaaaaaaaaaaaaaaaaaaaaaaaaaaaa\""

/-- The inputs of the phase, where the payload cannot be fetched. -/
def unfetchable : EpochCommitmentInputs := ⟨zeroVerifier, [], ⟨[], []⟩, .error "404", .strict⟩

/-- A trusted index is fetched, and read from the cache by the next call. -/
theorem strict_trust_fetched :
    ∃ index bundle g own, TrustedBy plainEnv ⟨configOf .strict, zeroVerifier, .ok [0]⟩ (fetching .strict "" [0]) own g index bundle := by
  obtain ⟨own, hrun⟩ := Pool.exists_run_call True (loadIndexWithHistory plainEnv) (fetching .strict "" [0]) .empty []
  have hresult : ((loadIndexWithHistory plainEnv (fetching .strict "" [0])).run .empty).1 = .ok ⟨⟨[]⟩, some .trusted, none, .unarmed⟩ := by
    decide
  rw [hresult] at hrun
  obtain ⟨index, bundle, htrusted⟩ := (strict_trust hrun List.mem_cons_self).1 _ _ rfl rfl rfl
  exact ⟨index, bundle, _, own, htrusted⟩

/-- The commitment is checked after the writes: where it cannot be verified, the index was cached. -/
theorem commitment_error_after_writes :
    ¬ ∀ (c : Call) (gate : TrustGate), c.trustGate = some gate → gate.config.policy = .strict →
      ∀ e, ((loadIndexWithHistory plainEnv c).run .empty).1 = .error e → (e.refuses = true ∨ ∃ reason, e = .epoch (.commitmentInvalid reason)) →
        ((loadIndexWithHistory plainEnv c).run .empty).2.index = none := by
  intro h
  have herror : ((loadIndexWithHistory plainEnv { fetching .strict armedText [0] with epoch := some unfetchable }).run .empty).1 =
      .error (.epoch (.commitmentInvalid "sidecar unfetchable")) := by decide +kernel
  have hnone := h { fetching .strict armedText [0] with epoch := some unfetchable } _ rfl rfl _ herror (.inr ⟨_, rfl⟩)
  have hsome : ((loadIndexWithHistory plainEnv { fetching .strict armedText [0] with epoch := some unfetchable }).run .empty).2.index =
      some (utf8 armedText) := by decide +kernel
  rw [hsome] at hnone
  cases hnone

end Milpa.Core.IndexCache
