import Milpa.Core.IndexCache

/-!
# Traces of a load

What the parts of a load have done when they return: the bytes that were read or fetched,
what the gates have found out about them (`returns_gate_ok`), and what is known after the
mint (`returns_mint_ok`). The facts hold whatever other processes do in between.
-/

namespace Milpa.Core.IndexCache

open Milpa.Concurrent Process

variable {env : CacheEnv} {c : Call} {faulty : Prop} {l : List CacheEvent}

/-! ### Operations -/

section

variable {α β ε : Type} {op : CacheOp} {e : LoadError}

theorem returns_look {get : Slot → α} {failed : α} {r : Except LoadError α} (h : Returns faulty (look op get failed) l r) :
    ∃ s, (l = [⟨op, s, s, false⟩] ∧ r = .ok (get s)) ∨ faulty ∧ l = [⟨op, s, s, true⟩] ∧ r = .ok failed := by
  obtain ⟨s, l', rfl, hrest⟩ | ⟨hfaulty, s, l', rfl, hrest⟩ := returns_act.mp h
  · obtain ⟨rfl, rfl⟩ := returns_pure.mp hrest
    exact ⟨s, .inl ⟨rfl, rfl⟩⟩
  · obtain ⟨rfl, rfl⟩ := returns_pure.mp hrest
    exact ⟨s, .inr ⟨hfaulty, rfl, rfl⟩⟩

/-- Looking does not fail. -/
theorem not_returns_look_error {get : Slot → α} {failed : α} : ¬ Returns faulty (look op get failed) l (.error e) := by
  intro h
  obtain ⟨s, ⟨-, h⟩ | ⟨-, -, h⟩⟩ := returns_look h <;> cases h

theorem returns_readFile {get : Slot → Option Bytes} {r : Except LoadError Bytes} (h : Returns faulty (readFile op get) l r) :
    ∃ s b, l = [⟨op, s, s, b⟩] ∧ ((∃ bytes, b = false ∧ get s = some bytes ∧ r = .ok bytes) ∨ r = .error .io) := by
  obtain ⟨s, l', rfl, hrest⟩ | ⟨-, s, l', rfl, hrest⟩ := returns_act.mp h
  · cases hget : get s with
    | none =>
      simp only [hget] at hrest
      obtain ⟨rfl, rfl⟩ := returns_fail.mp hrest
      exact ⟨s, false, rfl, .inr rfl⟩
    | some bytes =>
      simp only [hget] at hrest
      obtain ⟨rfl, rfl⟩ := returns_pure.mp hrest
      exact ⟨s, false, rfl, .inl ⟨bytes, rfl, hget, rfl⟩⟩
  · obtain ⟨rfl, rfl⟩ := returns_fail.mp hrest
    exact ⟨s, true, rfl, .inr rfl⟩

theorem returns_readFile_ok {get : Slot → Option Bytes} {bytes : Bytes} (h : Returns faulty (readFile op get) l (.ok bytes)) :
    ∃ s, l = [⟨op, s, s, false⟩] ∧ get s = some bytes := by
  obtain ⟨s, b, rfl, ⟨bytes', rfl, hget, heq⟩ | heq⟩ := returns_readFile h
  · cases heq
    exact ⟨s, rfl, hget⟩
  · cases heq

theorem returns_attempt {write : Slot → Slot} {r : Except LoadError Unit} (h : Returns faulty (attempt op write) l r) :
    r = .ok () ∧ ∃ s, l = [⟨op, s, write s, false⟩] ∨ faulty ∧ l = [⟨op, s, s, true⟩] := by
  obtain ⟨s, l', rfl, hrest⟩ | ⟨hfaulty, s, l', rfl, hrest⟩ := returns_act.mp h
  · obtain ⟨rfl, rfl⟩ := returns_pure.mp hrest
    exact ⟨rfl, s, .inl rfl⟩
  · obtain ⟨rfl, rfl⟩ := returns_pure.mp hrest
    exact ⟨rfl, s, .inr ⟨hfaulty, rfl⟩⟩

theorem returns_atomicWrite {write : Slot → Slot} {r : Except LoadError Unit} (h : Returns faulty (atomicWrite op write) l r) :
    ∃ s, (l = [⟨op, s, write s, false⟩] ∧ r = .ok ()) ∨ l = [⟨op, s, s, true⟩] ∧ r = .error .io := by
  obtain ⟨s, l', rfl, hrest⟩ | ⟨-, s, l', rfl, hrest⟩ := returns_act.mp h
  · obtain ⟨rfl, rfl⟩ := returns_pure.mp hrest
    exact ⟨s, .inl ⟨rfl, rfl⟩⟩
  · obtain ⟨rfl, rfl⟩ := returns_fail.mp hrest
    exact ⟨s, .inr ⟨rfl, rfl⟩⟩

theorem returns_atomicWrite_ok {write : Slot → Slot} {u : Unit} (h : Returns faulty (atomicWrite op write) l (.ok u)) :
    ∃ s, l = [⟨op, s, write s, false⟩] := by
  obtain ⟨s, ⟨rfl, -⟩ | ⟨-, h⟩⟩ := returns_atomicWrite h
  · exact ⟨s, rfl⟩
  · cases h

theorem returns_orFail {x : Except ε α} {f : ε → LoadError} {r : Except LoadError α} (h : Returns faulty (orFail x f) l r) :
    l = [] ∧ r = x.mapError f := returns_ofExcept.mp h

theorem returns_orFail_ok {x : Except ε α} {f : ε → LoadError} {a : α} (h : Returns faulty (orFail x f) l (.ok a)) :
    l = [] ∧ x = .ok a := by
  obtain ⟨rfl, heq⟩ := returns_orFail h
  cases x with
  | ok b =>
    cases heq
    exact ⟨rfl, rfl⟩
  | error e => cases heq

theorem returns_orFail_error {x : Except ε α} {f : ε → LoadError} (h : Returns faulty (orFail x f) l (.error e)) :
    l = [] ∧ ∃ e', x = .error e' ∧ e = f e' := by
  obtain ⟨rfl, heq⟩ := returns_orFail h
  cases x with
  | ok b => cases heq
  | error e' =>
    cases heq
    exact ⟨rfl, e', rfl, rfl⟩

end

/-! ### What a trace has seen -/

/-- The index as a process knows it: from its last read or write of it. -/
def indexSeen (own : List CacheEvent) : Option Bytes :=
  own.foldl (fun seen ev => if ev.op = .readIndex ∨ ev.op = .writeIndex then ev.after.index else seen) none

/-- The event leaves alone what the process knows of the index. -/
def Aside (ev : CacheEvent) : Prop := ev.op ≠ .readIndex ∧ ev.op ≠ .writeIndex

theorem foldl_seen (own : List CacheEvent) (seen : Option Bytes) (h : ∀ ev ∈ own, Aside ev) :
    own.foldl (fun seen ev => if ev.op = .readIndex ∨ ev.op = .writeIndex then ev.after.index else seen) seen = seen := by
  induction own with
  | nil => rfl
  | cons ev own ih =>
    obtain ⟨hread, hwrite⟩ := h ev List.mem_cons_self
    rw [List.foldl_cons, if_neg (not_or.mpr ⟨hread, hwrite⟩)]
    exact ih fun ev' hev' => h ev' (List.mem_cons_of_mem ev hev')

theorem indexSeen_append {own own' : List CacheEvent} (h : ∀ ev ∈ own', Aside ev) : indexSeen (own ++ own') = indexSeen own := by
  rw [indexSeen, List.foldl_append]
  exact foldl_seen own' _ h

theorem indexSeen_of_mem {own own' : List CacheEvent} {ev : CacheEvent} (hev : ev.op = .readIndex ∨ ev.op = .writeIndex)
    (h : ∀ ev ∈ own', Aside ev) : indexSeen (own ++ ev :: own') = ev.after.index := by
  rw [indexSeen, List.foldl_append, List.foldl_cons, if_pos hev]
  exact foldl_seen own' _ h

/-! ### The mint -/

/-- What the phase of the commitment makes of a pointer. -/
def StatusOf (env : CacheEnv) (epoch : EpochCommitmentInputs) (pointer : Option Str) (status : EpochCommitmentStatus) : Prop :=
  ∃ sidecar fetchFailed,
    status = evaluateEpochCommitment env.seams epoch.verifier epoch.trustBundle epoch.expectedSigner pointer sidecar fetchFailed

/-- An armed index is not taken for an unarmed one. -/
theorem StatusOf.ne_unarmed {epoch : EpochCommitmentInputs} {pointer : Str} {status : EpochCommitmentStatus}
    (h : StatusOf env epoch (some pointer) status) : status ≠ .unarmed := by
  obtain ⟨sidecar, fetchFailed, rfl⟩ := h
  intro hunarmed
  cases evaluateEpochCommitment_eq_unarmed.mp hunarmed

theorem returns_keepSidecar {pointer : Str} {sidecar : Option Bytes} {status : EpochCommitmentStatus} {r : Except LoadError Unit}
    (h : Returns faulty (keepSidecar pointer sidecar status) l r) : r = .ok () ∧ ∀ ev ∈ l, ev.op = .writeSidecar := by
  unfold keepSidecar at h
  split at h
  · obtain ⟨rfl, s, rfl | ⟨-, rfl⟩⟩ := returns_attempt h <;> simp
  · obtain ⟨rfl, rfl⟩ := returns_pure.mp h
    simp

theorem returns_loadEpochCommitmentStatus {epoch : EpochCommitmentInputs} {pointer : Option Str}
    {r : Except LoadError EpochCommitmentStatus} (h : Returns faulty (loadEpochCommitmentStatus env epoch pointer) l r) :
    (∃ status, r = .ok status ∧ StatusOf env epoch pointer status) ∧ ∀ ev ∈ l, ev.op = .readSidecar ∨ ev.op = .writeSidecar := by
  cases pointer with
  | none =>
    obtain ⟨rfl, rfl⟩ := returns_pure.mp h
    exact ⟨⟨_, rfl, none, true, rfl⟩, fun ev hev => absurd hev List.not_mem_nil⟩
  | some pointer =>
    obtain ⟨e, rfl, herror⟩ | ⟨cached, l₁, l₂, rfl, hread, hrest⟩ := returns_bind h
    · exact absurd herror not_returns_look_error
    · have hop : ∀ ev ∈ l₁, ev.op = .readSidecar := by
        obtain ⟨s, ⟨rfl, -⟩ | ⟨-, rfl, -⟩⟩ := returns_look hread <;> simp
      obtain ⟨e, rfl, herror⟩ | ⟨u, l₃, l₄, rfl, hkeep, hend⟩ := returns_bind hrest
      · cases (returns_keepSidecar herror).1
      · obtain ⟨rfl, rfl⟩ := returns_pure.mp hend
        refine ⟨⟨_, rfl, _, _, rfl⟩, fun ev hev => ?_⟩
        rcases List.mem_append.mp hev with hev | hev
        · exact .inl (hop ev hev)
        · exact .inr ((returns_keepSidecar hkeep).2 ev (by simpa using hev))

theorem mintEnforced_eq_ok {fetched : FetchedIndex} {status : EpochCommitmentStatus} {entryTrust history : TrustPolicy} {g : GatedIndex}
    (h : mintEnforced fetched status entryTrust history = .ok g) :
    g = ⟨fetched.index, fetched.verification, fetched.bundleInfo, status⟩ := by
  obtain ⟨_, -, h⟩ := Result.bind_eq_ok.mp h
  obtain ⟨_, -, h⟩ := Result.bind_eq_ok.mp h
  exact Result.pure_eq_ok.mp h

/-- The status that an index is minted with, after a trace that ends with the reads of the phase. -/
def Stamped (env : CacheEnv) (c : Call) (l : List CacheEvent) (g : GatedIndex) : Prop :=
  match c.epoch with
  | none => l = [] ∧ g.epochCommitmentStatus = .unarmed
  | some epoch =>
    ∃ s b l', l = ⟨.readPointer, s, s, b⟩ :: l' ∧
      StatusOf env epoch (if b then none else s.index.bind (pointerOf env)) g.epochCommitmentStatus

/-- What the mint adds to what was fetched. -/
theorem returns_mint_ok {fetched : FetchedIndex} {g : GatedIndex} (h : Returns faulty (mint env c fetched) l (.ok g)) :
    g.index = fetched.index ∧ g.verification = fetched.verification ∧ g.bundleInfo = fetched.bundleInfo ∧ Stamped env c l g := by
  unfold mint at h
  unfold Stamped
  split at h
  · rename_i epoch hepoch
    rw [hepoch]
    obtain ⟨pointer, l₁, l₂, rfl, hpointer, hfold⟩ := returns_bind_ok h
    obtain ⟨status, l₃, l₄, rfl, hstatus, henforce⟩ := returns_bind_ok hfold
    obtain ⟨rfl, hminted⟩ := returns_orFail_ok henforce
    obtain ⟨⟨status', heq, hof⟩, -⟩ := returns_loadEpochCommitmentStatus hstatus
    cases heq
    rw [mintEnforced_eq_ok hminted]
    refine ⟨rfl, rfl, rfl, ?_⟩
    obtain ⟨s, ⟨rfl, heq⟩ | ⟨-, rfl, heq⟩⟩ := returns_look hpointer
    · cases heq
      exact ⟨s, false, _, rfl, hof⟩
    · cases heq
      exact ⟨s, true, _, rfl, hof⟩
  · rename_i hepoch
    rw [hepoch]
    obtain ⟨rfl, heq⟩ := returns_pure.mp h
    cases heq
    exact ⟨rfl, rfl, rfl, rfl, rfl⟩

/-! ### The witness -/

/-- What an index is witnessed by: its bundle, one of those that are given, or that it has none. -/
inductive Witnessed (env : CacheEnv) (g : TrustGate) (index : Bytes) (maxAge : Option ℕ) (given : Bytes → Prop) :
    Option VerificationResult × Option IndexBundleInfo → Prop
  | missing (hpass : enforceIndexTrust .bundleMissing g.config.policy = .ok ()) :
      Witnessed env g index maxAge given (some .bundleMissing, none)
  | verified {bundle : Bytes} {result : VerificationResult} (hgiven : given bundle)
      (hresult : result = g.verifier index bundle g.config.trustBundle g.config.expectedSigner maxAge)
      (hpass : enforceIndexTrust result g.config.policy = .ok ()) :
      Witnessed env g index maxAge given (some result, env.seams.describeIndexBundle bundle)

/-- Under `strict` a witness is a bundle that the verifier trusts. -/
theorem Witnessed.strict {g : TrustGate} {index : Bytes} {maxAge : Option ℕ} {given : Bytes → Prop}
    {w : Option VerificationResult × Option IndexBundleInfo} (h : Witnessed env g index maxAge given w)
    (hstrict : g.config.policy = .strict) :
    ∃ bundle, given bundle ∧ g.verifier index bundle g.config.trustBundle g.config.expectedSigner maxAge = .trusted ∧
      w = (some .trusted, env.seams.describeIndexBundle bundle) := by
  cases h with
  | missing hpass =>
    rw [hstrict] at hpass
    cases hpass
  | @verified bundle result hgiven hresult hpass =>
    rw [hstrict, enforceIndexTrust_strict] at hpass
    split_ifs at hpass with htrusted
    exact ⟨bundle, hgiven, hresult ▸ htrusted, by rw [htrusted]⟩

theorem Witnessed.mono {g : TrustGate} {index : Bytes} {maxAge : Option ℕ} {given given' : Bytes → Prop}
    {w : Option VerificationResult × Option IndexBundleInfo} (h : Witnessed env g index maxAge given w)
    (hgiven : ∀ b, given b → given' b) : Witnessed env g index maxAge given' w := by
  cases h with
  | missing hpass => exact .missing hpass
  | verified hb hresult hpass => exact .verified (hgiven _ hb) hresult hpass

/-- The witness of an index, where the gate is active. -/
def WitnessOf (env : CacheEnv) (c : Call) (index : Bytes) (maxAge : TrustGate → Option ℕ) (given : TrustGate → Bytes → Prop)
    (w : Option VerificationResult × Option IndexBundleInfo) : Prop :=
  match c.trustGate with
  | none => w = (none, none)
  | some g => Witnessed env g index (maxAge g) (given g) w

theorem returns_missingBundle_ok {g : TrustGate} {w : Option VerificationResult × Option IndexBundleInfo}
    (h : Returns faulty (missingBundle g) l (.ok w)) :
    l = [] ∧ w = (some .bundleMissing, none) ∧ enforceIndexTrust .bundleMissing g.config.policy = .ok () := by
  obtain ⟨u, l₁, l₂, rfl, henforce, hend⟩ := returns_bind_ok h
  obtain ⟨rfl, hpass⟩ := returns_orFail_ok henforce
  obtain ⟨rfl, heq⟩ := returns_pure.mp hend
  cases heq
  exact ⟨rfl, rfl, hpass⟩

theorem returns_verifyAndEnforce_ok {g : TrustGate} {index bundle : Bytes} {maxAge : Option ℕ} {result : VerificationResult}
    (h : Returns faulty (verifyAndEnforce g index bundle maxAge) l (.ok result)) :
    l = [] ∧ result = g.verifier index bundle g.config.trustBundle g.config.expectedSigner maxAge ∧
      enforceIndexTrust result g.config.policy = .ok () := by
  obtain ⟨u, l₁, l₂, rfl, henforce, hend⟩ := returns_bind_ok h
  obtain ⟨rfl, hpass⟩ := returns_orFail_ok henforce
  obtain ⟨rfl, heq⟩ := returns_pure.mp hend
  cases heq
  exact ⟨rfl, rfl, hpass⟩

/-- A trace has read a bundle. -/
def BundleRead (l : List CacheEvent) (bundle : Bytes) : Prop := ∃ s, ⟨.readBundle, s, s, false⟩ ∈ l ∧ s.bundle = some bundle

theorem returns_cachedVerification_ok {g : TrustGate} {index : Bytes} {w : Option VerificationResult × Option IndexBundleInfo}
    (h : Returns faulty (cachedVerification env g index) l (.ok (some w))) :
    Witnessed env g index none (BundleRead l) w ∧ ∀ ev ∈ l, Aside ev := by
  obtain ⟨marked, l₁, l₂, rfl, hmarker, hrest⟩ := returns_bind_ok h
  obtain ⟨s₁, b₁, rfl⟩ : ∃ s b, l₁ = [⟨.markerExists, s, s, b⟩] := by
    obtain ⟨s, ⟨rfl, -⟩ | ⟨-, rfl, -⟩⟩ := returns_look hmarker <;> exact ⟨s, _, rfl⟩
  cases marked with
  | true =>
    obtain ⟨w', l₃, l₄, rfl, hmissing, hend⟩ := returns_bind_ok hrest
    obtain ⟨rfl, rfl, hpass⟩ := returns_missingBundle_ok hmissing
    obtain ⟨rfl, heq⟩ := returns_pure.mp hend
    cases heq
    exact ⟨.missing hpass, by simp [Aside]⟩
  | false =>
    obtain ⟨ok, l₃, l₄, rfl, hlooks, hrest⟩ := returns_bind_ok hrest
    obtain ⟨s₂, b₂, rfl⟩ : ∃ s b, l₃ = [⟨.bundleLooksOk, s, s, b⟩] := by
      obtain ⟨s, ⟨rfl, -⟩ | ⟨-, rfl, -⟩⟩ := returns_look hlooks <;> exact ⟨s, _, rfl⟩
    cases ok with
    | true =>
      obtain ⟨bundle, l₅, l₆, rfl, hread, hverify⟩ := returns_bind_ok hrest
      obtain ⟨s₃, rfl, hbundle⟩ := returns_readFile_ok hread
      obtain ⟨result, l₇, l₈, rfl, henforce, hend⟩ := returns_bind_ok hverify
      obtain ⟨rfl, hresult, hpass⟩ := returns_verifyAndEnforce_ok henforce
      obtain ⟨rfl, heq⟩ := returns_pure.mp hend
      cases heq
      exact ⟨.verified ⟨s₃, by simp, hbundle⟩ hresult hpass, by simp [Aside]⟩
    | false =>
      obtain ⟨u, l₅, l₆, rfl, -, hend⟩ := returns_bind_ok hrest
      cases (returns_pure.mp hend).2

/-- An index that is served from the cache: the bytes that were read, witnessed by the bundle that was read, then the mint. -/
theorem returns_tryServeFromCache_ok {g : GatedIndex} (h : Returns faulty (tryServeFromCache env c) l (.ok (some g))) :
    ∃ s index text parsed w l₁ l₂, l = ⟨.readIndex, s, s, false⟩ :: (l₁ ++ l₂) ∧ s.index = some index ∧ (∀ ev ∈ l₁, Aside ev) ∧
      fromUtf8 index = some text ∧ Index.parse env.kdlParse text = .ok parsed ∧
      WitnessOf env c index (fun _ => none) (fun _ => BundleRead l₁) w ∧
      Returns faulty (mint env c ⟨parsed, w.1, w.2⟩) l₂ (.ok g) := by
  have serve : ∀ index w l, Returns faulty (serveIf env c index (some w)) l (.ok (some g)) →
      ∃ text parsed, fromUtf8 index = some text ∧ Index.parse env.kdlParse text = .ok parsed ∧
        Returns faulty (mint env c ⟨parsed, w.1, w.2⟩) l (.ok g) := by
    intro index w l h
    obtain ⟨g', l₁, l₂, rfl, hserve, hend⟩ := returns_bind_ok h
    obtain ⟨rfl, heq⟩ := returns_pure.mp hend
    cases heq
    unfold serveCached at hserve
    split at hserve
    · cases (returns_fail.mp hserve).2
    · rename_i text htext
      obtain ⟨parsed, l₃, l₄, rfl, hparse, hmint⟩ := returns_bind_ok hserve
      obtain ⟨rfl, hparsed⟩ := returns_orFail_ok hparse
      exact ⟨text, parsed, htext, hparsed, by simpa using hmint⟩
  obtain ⟨index, l₁, l₂, rfl, hread, hrest⟩ := returns_bind_ok h
  obtain ⟨s, rfl, hindex⟩ := returns_readFile_ok hread
  unfold WitnessOf
  cases hgate : c.trustGate with
  | none =>
    simp only [hgate] at hrest
    obtain ⟨text, parsed, htext, hparse, hmint⟩ := serve index _ _ hrest
    exact ⟨s, index, text, parsed, (none, none), [], l₂, rfl, hindex, by simp, htext, hparse, rfl, hmint⟩
  | some gt =>
    simp only [hgate] at hrest
    obtain ⟨w, l₃, l₄, rfl, hverify, hserve⟩ := returns_bind_ok hrest
    cases w with
    | none => cases (returns_pure.mp hserve).2
    | some w =>
      obtain ⟨hwitness, haside⟩ := returns_cachedVerification_ok hverify
      obtain ⟨text, parsed, htext, hparse, hmint⟩ := serve index w _ hserve
      exact ⟨s, index, text, parsed, w, l₃, l₄, rfl, hindex, haside, htext, hparse, hwitness, hmint⟩

/-! ### The gate of the history -/

/-- The operations of the gate of the history. -/
def GateRead (ev : CacheEvent) : Prop := ev.op = .baselineIsFile ∨ ev.op = .readBaseline ∨ ev.op = .readMeta

theorem GateRead.aside {ev : CacheEvent} (h : GateRead ev) : Aside ev := by
  obtain h | h | h := h <;> exact ⟨by rw [h]; decide, by rw [h]; decide⟩

theorem returns_readBaselineText {r : Except LoadError (Option Str)} (h : Returns faulty readBaselineText l r) :
    ∀ ev ∈ l, GateRead ev ∧ ev.after = ev.before := by
  obtain ⟨e, rfl, herror⟩ | ⟨isFile, l₁, l₂, rfl, hfile, hrest⟩ := returns_bind h
  · exact absurd herror not_returns_look_error
  have hfirst : ∀ ev ∈ l₁, GateRead ev ∧ ev.after = ev.before := by
    obtain ⟨s, ⟨rfl, -⟩ | ⟨-, rfl, -⟩⟩ := returns_look hfile <;> simp [GateRead]
  have hsecond : ∀ ev ∈ l₂, GateRead ev ∧ ev.after = ev.before := by
    cases isFile with
    | false =>
      obtain ⟨rfl, -⟩ := returns_pure.mp hrest
      simp
    | true =>
      obtain ⟨e, rfl, herror⟩ | ⟨raw, l₃, l₄, rfl, hread, hdecode⟩ := returns_bind hrest
      · obtain ⟨s, b, rfl, -⟩ := returns_readFile herror
        simp [GateRead]
      · obtain ⟨s, b, rfl, -⟩ := returns_readFile hread
        have hnil : l₄ = [] := by
          cases hraw : fromUtf8 raw with
          | none =>
            simp only [hraw] at hdecode
            exact (returns_fail.mp hdecode).1
          | some text =>
            simp only [hraw] at hdecode
            exact (returns_pure.mp hdecode).1
        simp [hnil, GateRead]
  intro ev hev
  exact (List.mem_append.mp hev).elim (hfirst ev) (hsecond ev)

/-- The gate only looks. -/
theorem returns_gate {index : Bytes} {r : Except LoadError GateDecision} (h : Returns faulty (gate env c index) l r) :
    ∀ ev ∈ l, GateRead ev ∧ ev.after = ev.before := by
  unfold gate at h
  split at h
  · obtain ⟨rfl, -⟩ := returns_fail.mp h
    simp
  split_ifs at h with hoff
  · obtain ⟨rfl, -⟩ := returns_orFail h
    simp
  obtain ⟨e, rfl, herror⟩ | ⟨baseline, l₁, l₂, rfl, hbaseline, hrest⟩ := returns_bind h
  · exact returns_readBaselineText herror
  have hfirst := returns_readBaselineText hbaseline
  have hsecond : ∀ ev ∈ l₂, GateRead ev ∧ ev.after = ev.before := by
    obtain ⟨e, rfl, herror⟩ | ⟨existingMeta, l₃, l₄, rfl, hmeta, hend⟩ := returns_bind hrest
    · exact absurd herror not_returns_look_error
    · obtain ⟨rfl, -⟩ := returns_orFail hend
      obtain ⟨s, ⟨rfl, -⟩ | ⟨-, rfl, -⟩⟩ := returns_look hmeta <;> simp [GateRead]
  intro ev hev
  exact (List.mem_append.mp hev).elim (hfirst ev) (hsecond ev)

/-- What the gate lets through is what it has parsed, against some baseline. -/
theorem returns_gate_ok {index : Bytes} {decision : GateDecision} (h : Returns faulty (gate env c index) l (.ok decision)) :
    ∃ text baseline existingMeta, fromUtf8 index = some text ∧ gateOf env c text baseline existingMeta = .ok decision := by
  unfold gate at h
  split at h
  · cases (returns_fail.mp h).2
  rename_i text htext
  split_ifs at h with hoff
  · exact ⟨text, _, _, htext, (returns_orFail_ok h).2⟩
  · obtain ⟨baseline, l₁, l₂, rfl, -, hrest⟩ := returns_bind_ok h
    obtain ⟨existingMeta, l₃, l₄, rfl, -, hend⟩ := returns_bind_ok hrest
    exact ⟨text, baseline, existingMeta, htext, (returns_orFail_ok hend).2⟩

/-- The index of a decision is that of the candidate, whose state was built. -/
theorem gateOf_index {text : Str} {baseline : Option Str} {existingMeta : BaselineMeta} {decision : GateDecision}
    (h : gateOf env c text baseline existingMeta = .ok decision) :
    ∃ state, buildIndexState env.kdlParse text = .ok (decision.index, state) := by
  unfold gateOf evaluateGate at h
  split at h
  · cases h
  rename_i index state hbuild
  refine ⟨state, ?_⟩
  rcases Result.ok_ite h with hoff | h
  · cases hoff
    exact hbuild
  split at h
  · cases h
    exact hbuild
  obtain ⟨b, -, hcheck⟩ := Result.bind_eq_ok.mp h
  dsimp only at hcheck
  rcases Result.ok_ite hcheck with hclean | hdirty
  · cases Result.pure_eq_ok.mp hclean
    exact hbuild
  rcases Result.ok_ite hdirty with hstrict | hwarn
  · exact absurd hstrict Result.throw_ne_ok
  · cases Result.pure_eq_ok.mp hwarn
    exact hbuild

theorem parse_of_buildIndexState {kdlParse : Str → Except Str (List Kdl.KdlNode)} {text : Str} {index : Index} {state : IndexState}
    (h : buildIndexState kdlParse text = .ok (index, state)) : Index.parse kdlParse text = .ok index := by
  obtain ⟨index', hparse, hrest⟩ := Result.bind_eq_ok.mp h
  obtain ⟨_, -, hrest⟩ := Result.bind_eq_ok.mp hrest
  obtain ⟨_, -, hrest⟩ := Result.bind_eq_ok.mp hrest
  obtain ⟨_, -, hrest⟩ := Result.bind_eq_ok.mp hrest
  cases Result.pure_eq_ok.mp hrest
  exact hparse

end Milpa.Core.IndexCache
