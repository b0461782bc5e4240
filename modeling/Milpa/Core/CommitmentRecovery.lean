import Milpa.Core.EpochCommitment
import Milpa.Core.IndexCacheTraces

/-!
# Recovery from a bad sidecar

`load_epoch_commitment_status`, called again and again for one pointer while the file in the
cache, the trust bundle and the signer change. A file is written only if it arms the
commitment, but one that is there is read before anything is fetched, and judged
afterwards: a call gets what the registry serves exactly when the file is absent or cannot
be read, or arms the commitment itself (`recovered_iff`).
-/

namespace Milpa.Core

/-- `Armed`. -/
def EpochCommitmentStatus.isArmed : EpochCommitmentStatus → Bool
  | armed _ _ => true
  | _ => false

end Milpa.Core

namespace Milpa.Core.IndexCache

open Milpa.Concurrent Process

/-! ### Calls one after the other -/

/-- A call of `load_epoch_commitment_status`: the files before and after it, what it did with them, and its result. -/
structure StatusCall where
  epoch : EpochCommitmentInputs
  before : Slot
  trace : List CacheEvent
  status : EpochCommitmentStatus
  after : Slot

/-- A call that was made for a pointer; its operations on files may fail. -/
structure StatusCall.Made (env : CacheEnv) (pointer : Str) (c : StatusCall) : Prop where
  returns : Returns True (loadEpochCommitmentStatus env c.epoch (some pointer)) c.trace (.ok c.status)
  chained : Chained c.before c.trace c.after

/-- What happens in a cache directory. -/
inductive Move where
  /-- The file of the pointer is changed, truncated or removed. -/
  | replace (file : Option Bytes)
  | call (c : StatusCall)

/-- The files with another one for the pointer. -/
def Slot.withCommitment (s : Slot) (pointer : Str) (file : Option Bytes) : Slot :=
  { s with commitments := Function.update s.commitments pointer file }

@[simp] theorem commitments_withCommitment (s : Slot) (pointer : Str) (file : Option Bytes) :
    (s.withCommitment pointer file).commitments pointer = file := Function.update_self _ _ _

/-- Moves one after the other, from the files before to the files after. -/
inductive Moves (env : CacheEnv) (pointer : Str) : Slot → List Move → Slot → Prop
  | nil (s : Slot) : Moves env pointer s [] s
  | replace {s s' : Slot} {moves : List Move} (file : Option Bytes) (h : Moves env pointer (s.withCommitment pointer file) moves s') :
      Moves env pointer s (.replace file :: moves) s'
  | call {c : StatusCall} {s' : Slot} {moves : List Move} (hmade : c.Made env pointer) (h : Moves env pointer c.after moves s') :
      Moves env pointer c.before (.call c :: moves) s'

variable {env : CacheEnv} {pointer : Str} {c : StatusCall}

/-- What a call makes of a sidecar, with its verifier, its trust bundle and its signer. -/
def statusOf (env : CacheEnv) (pointer : Str) (epoch : EpochCommitmentInputs) (sidecar : Option Bytes) : EpochCommitmentStatus :=
  evaluateEpochCommitment env.seams epoch.verifier epoch.trustBundle epoch.expectedSigner (some pointer) sidecar sidecar.isNone

/-- A sidecar evaluates to `Armed`. -/
def Arms (env : CacheEnv) (pointer : Str) (epoch : EpochCommitmentInputs) (bytes : Bytes) : Prop :=
  (statusOf env pointer epoch (some bytes)).isArmed = true

/-- A call returns `Armed` if the registry serves it a sidecar that evaluates to that. -/
def Recovered (env : CacheEnv) (pointer : Str) (c : StatusCall) : Prop :=
  ∀ bytes, c.epoch.httpGet = .ok bytes → Arms env pointer c.epoch bytes → c.status.isArmed = true

/-- A file that a call has written evaluates to `Armed`. -/
def WritesArmed (env : CacheEnv) (pointer : Str) (c : StatusCall) : Prop :=
  (∃ ev ∈ c.trace, ev.op = .writeSidecar ∧ ev.failed = false) →
    ∃ bytes, c.after.commitments pointer = some bytes ∧ Arms env pointer c.epoch bytes

/-- A read of the file fails. -/
def ReadFails (c : StatusCall) : Prop := ∃ ev ∈ c.trace, ev.op = .readSidecar ∧ ev.failed = true

/-- What is in the way of a sidecar that evaluates to `Armed` is nothing: the file is absent or cannot be read, or evaluates to that
itself. -/
def Unobstructed (env : CacheEnv) (pointer : Str) (c : StatusCall) : Prop :=
  (∃ bytes, c.epoch.httpGet = .ok bytes ∧ Arms env pointer c.epoch bytes) →
    ¬ ReadFails c → ∀ file ∈ c.before.commitments pointer, Arms env pointer c.epoch file

/-! ### A call -/

theorem arms_of_keepSidecar {sidecar : Option Bytes} {status : EpochCommitmentStatus} {r : Except LoadError Unit} {l : List CacheEvent}
    {s s' : Slot} (h : Returns True (keepSidecar pointer sidecar status) l r) (hc : Chained s l s')
    (hwrite : ∃ ev ∈ l, ev.op = .writeSidecar ∧ ev.failed = false) :
    ∃ bytes, sidecar = some bytes ∧ s'.commitments pointer = some bytes ∧ status.isArmed = true := by
  obtain ⟨ev, hev, hop, hfailed⟩ := hwrite
  unfold keepSidecar at h
  split at h
  · rename_i bytes identities time
    obtain ⟨rfl, t, rfl | ⟨-, rfl⟩⟩ := returns_attempt h
    · obtain ⟨rfl, hend⟩ := chained_cons.mp hc
      obtain rfl := chained_nil.mp hend
      exact ⟨bytes, rfl, Function.update_self _ _ _, rfl⟩
    · obtain rfl := List.mem_singleton.mp hev
      cases hfailed
  · obtain ⟨rfl, -⟩ := returns_pure.mp h
    exact absurd hev List.not_mem_nil

/-- What a call reads of the file. -/
def fileRead (pointer : Str) (c : StatusCall) (file : Option Bytes) : Prop :=
  (¬ ReadFails c ∧ file = c.before.commitments pointer) ∨ (ReadFails c ∧ file = none)

/-- A call judges the file that it reads, or else what the registry serves. -/
theorem StatusCall.Made.spec (h : c.Made env pointer) :
    (∃ file, fileRead pointer c file ∧ c.status = statusOf env pointer c.epoch (file <|> c.epoch.httpGet.toOption)) ∧ WritesArmed env pointer c := by
  obtain ⟨cached, l₁, l₂, hl, hread, hrest⟩ := returns_bind_ok h.returns
  obtain ⟨_, l₃, l₄, hl₂, hkeep, hend⟩ := returns_bind_ok hrest
  obtain ⟨rfl, hstatus⟩ := returns_pure.mp hend
  rw [List.append_nil] at hl₂
  subst hl₂
  have hstatus : c.status = statusOf env pointer c.epoch (cached <|> c.epoch.httpGet.toOption) := Except.ok.inj hstatus
  have hchained := h.chained
  rw [hl] at hchained
  obtain ⟨t, hfirst, hlast⟩ := chained_append.mp hchained
  have hwrites : ∀ ev ∈ l₂, ev.op = .writeSidecar := (returns_keepSidecar hkeep).2
  obtain ⟨s, hs⟩ := returns_look hread
  have hfile : fileRead pointer c cached := by
    rcases hs with ⟨rfl, hok⟩ | ⟨-, rfl, hok⟩
    · obtain ⟨rfl, -⟩ := chained_cons.mp hfirst
      refine .inl ⟨?_, Except.ok.inj hok⟩
      rintro ⟨ev, hev, hop, hfailed⟩
      rw [hl, List.mem_append] at hev
      rcases hev with hev | hev
      · obtain rfl := List.mem_singleton.mp hev
        cases hfailed
      · rw [hwrites ev hev] at hop
        cases hop
    · refine .inr ⟨⟨⟨.readSidecar, s, s, true⟩, ?_, rfl, rfl⟩, Except.ok.inj hok⟩
      rw [hl]
      exact List.mem_append_left _ List.mem_cons_self
  refine ⟨⟨cached, hfile, hstatus⟩, ?_⟩
  rintro ⟨ev, hev, hop, hfailed⟩
  have hmem : ev ∈ l₂ := by
    rw [hl, List.mem_append] at hev
    refine hev.resolve_left fun hev => ?_
    rcases hs with ⟨rfl, -⟩ | ⟨-, rfl, -⟩
    · obtain rfl := List.mem_singleton.mp hev
      cases hop
    · obtain rfl := List.mem_singleton.mp hev
      cases hop
  obtain ⟨bytes, hsidecar, hafter, harmed⟩ := arms_of_keepSidecar hkeep hlast ⟨ev, hmem, hop, hfailed⟩
  refine ⟨bytes, hafter, ?_⟩
  rw [Arms, ← hsidecar]
  exact harmed

/-- **A call gets what the registry serves exactly when nothing is in the way.** -/
theorem recovered_iff (h : c.Made env pointer) : Recovered env pointer c ↔ Unobstructed env pointer c := by
  obtain ⟨⟨file, hfile, hstatus⟩, -⟩ := h.spec
  constructor
  · rintro hrecovered ⟨bytes, hserved, harms⟩ hread file' hfile'
    obtain ⟨-, rfl⟩ | ⟨hfails, -⟩ := hfile
    · have := hrecovered bytes hserved harms
      rw [hstatus, show c.before.commitments pointer = some file' from hfile'] at this
      exact this
    · exact absurd hfails hread
  · intro hclear bytes hserved harms
    rw [hstatus, hserved]
    cases file with
    | none => exact harms
    | some file =>
      obtain ⟨hread, heq⟩ | ⟨-, heq⟩ := hfile
      · exact hclear ⟨bytes, hserved, harms⟩ hread file heq.symm
      · cases heq

/-! ### Runs -/

theorem Moves.made {s s' : Slot} {moves : List Move} (h : Moves env pointer s moves s') :
    ∀ c, .call c ∈ moves → c.Made env pointer := by
  induction h with
  | nil s => exact fun c hc => absurd hc List.not_mem_nil
  | replace file _ ih =>
    intro c hc
    rcases List.mem_cons.mp hc with hc | hc
    · cases hc
    · exact ih c hc
  | call hmade _ ih =>
    intro c hc
    rcases List.mem_cons.mp hc with hc | hc
    · cases hc
      exact hmade
    · exact ih c hc

/-- **In every sequence of calls, whatever becomes of the file between them, each of them recovers exactly when nothing is in the way of
any; and a file that a call writes evaluates to `Armed`.** -/
theorem sidecar_recovery_iff {s s' : Slot} {moves : List Move} (h : Moves env pointer s moves s') :
    ((∀ c, .call c ∈ moves → Recovered env pointer c) ↔ ∀ c, .call c ∈ moves → Unobstructed env pointer c) ∧
      ∀ c, .call c ∈ moves → WritesArmed env pointer c :=
  ⟨forall₂_congr fun c hc => recovered_iff (h.made c hc), fun c hc => (h.made c hc).spec.2⟩

/-! ### A file that is truncated -/

/-- Readers of JSON for which one sidecar, of one byte, lists no identities. -/
def oneSidecar : CacheEnv where
  kdlParse _ := .error []
  sha256Hex _ := []
  seams := ⟨fun _ => some ⟨0, [], none, none, none⟩, fun bytes => if bytes = [0x31] then some ([], []) else none⟩

/-- A call to which the registry serves that sidecar. -/
def servedCall : EpochCommitmentInputs where
  verifier := fun _ _ _ _ _ => .trusted
  expectedSigner := []
  trustBundle := ⟨[], []⟩
  httpGet := .ok [0x31]
  entryTrustPolicy := .off

theorem statusOf_oneSidecar (bytes : Bytes) :
    statusOf oneSidecar (commitmentDigest []) servedCall (some bytes) =
      if bytes = [0x31] then .armed [] 0 else .armingInvalid "sidecar malformed" := by
  have hvalid : ¬ isValidCommitmentPointer (commitmentDigest []) = false := by
    rw [commitmentDigest, isValidCommitmentPointer_hexLower]
    decide
  change evaluateEpochCommitment _ _ _ _ _ (some bytes) false = _
  rw [evaluateEpochCommitment.eq_def]
  dsimp only
  rw [if_neg hvalid, evaluateSidecar]
  by_cases hbytes : bytes = [0x31]
  · rw [if_pos hbytes]
    simp [oneSidecar, servedCall, hbytes, dedupFirst]
  · rw [if_neg hbytes]
    simp [oneSidecar, hbytes]

/-- A call that finds a file which does not arm the commitment leaves it. -/
theorem run_obstructed {epoch : EpochCommitmentInputs} {s : Slot} {file : Bytes} {reason : Str}
    (hfile : s.commitments pointer = some file) (hbad : statusOf env pointer epoch (some file) = .armingInvalid reason) :
    (loadEpochCommitmentStatus env epoch (some pointer)).run s = (.ok (.armingInvalid reason), s) := by
  have hbad : evaluateEpochCommitment env.seams epoch.verifier epoch.trustBundle epoch.expectedSigner (some pointer) (some file) false =
      .armingInvalid reason := hbad
  rw [loadEpochCommitmentStatus, look, act_bind, Process.run]
  simp [hfile, hbad, keepSidecar]

/-- A call that finds the file truncated. -/
theorem truncated_moves :
    ∃ c s', Moves oneSidecar (commitmentDigest []) .empty [.replace (some []), .call c] s' ∧ c.epoch = servedCall ∧
      c.status = .armingInvalid "sidecar malformed" := by
  let s := Slot.empty.withCommitment (commitmentDigest []) (some [])
  have hstatus : statusOf oneSidecar (commitmentDigest []) servedCall (some []) = .armingInvalid "sidecar malformed" := by
    rw [statusOf_oneSidecar, if_neg (by decide)]
  have hrun : (loadEpochCommitmentStatus oneSidecar servedCall (some (commitmentDigest []))).run s =
      (.ok (.armingInvalid "sidecar malformed"), s) := run_obstructed (commitments_withCommitment _ _ _) hstatus
  obtain ⟨l, hreturns, hchained⟩ := exists_returns (loadEpochCommitmentStatus oneSidecar servedCall (some (commitmentDigest []))) s
  rw [hrun] at hreturns hchained
  let c : StatusCall := ⟨servedCall, s, l, .armingInvalid "sidecar malformed", s⟩
  have hmade : c.Made oneSidecar (commitmentDigest []) := ⟨hreturns.mono (fun h => h.elim), hchained⟩
  exact ⟨c, s, .replace _ (.call hmade (.nil s)), rfl, rfl⟩

theorem arms_served : Arms oneSidecar (commitmentDigest []) servedCall [0x31] := by
  rw [Arms, statusOf_oneSidecar, if_pos rfl]
  rfl

theorem sidecar_recovery_truncated :
    ∃ c : StatusCall, ((∀ c', .call c' ∈ [Move.replace (some []), .call c] → Recovered oneSidecar (commitmentDigest []) c') ↔
        ∀ c', .call c' ∈ [Move.replace (some []), .call c] → Unobstructed oneSidecar (commitmentDigest []) c') ∧
      ∀ c', .call c' ∈ [Move.replace (some []), .call c] → WritesArmed oneSidecar (commitmentDigest []) c' := by
  obtain ⟨c, s', hmoves, -⟩ := truncated_moves
  exact ⟨c, sidecar_recovery_iff hmoves⟩

/-- **A file that was truncated keeps a call from the sidecar that the registry serves it.** -/
theorem truncated_sidecar_stuck :
    ∃ c s', Moves oneSidecar (commitmentDigest []) .empty [.replace (some []), .call c] s' ∧
      ¬ Recovered oneSidecar (commitmentDigest []) c := by
  obtain ⟨c, s', hmoves, hepoch, hstatus⟩ := truncated_moves
  refine ⟨c, s', hmoves, fun h => ?_⟩
  have hserved := h [0x31] (by rw [hepoch]; rfl) (hepoch ▸ arms_served)
  rw [hstatus] at hserved
  exact Bool.false_ne_true hserved

end Milpa.Core.IndexCache
