import Milpa.Core.IndexCacheTrust

/-!
# One snapshot

The parts of what a load returns: the packages, the verification and the description of the
bundle are always from the same bytes of the index. The status of the commitment is from
a second read of the file, and it is from these bytes where that read finds them
(`one_snapshot`). Without the inputs of the phase the status is never computed
(`off_keeps_unarmed`).
-/

namespace Milpa.Core.IndexCache

open Milpa.Concurrent Process

variable {env : CacheEnv} {c : Call} {faulty : Prop} {l : List CacheEvent}

/-- The read of the pointer does not fail, and finds the index that the call knows. -/
def Undisturbed (own : List CacheEvent) : Prop :=
  ∀ k (h : k < own.length), own[k].op = .readPointer → own[k].failed = false ∧ own[k].before.index = indexSeen (own.take k)

instance (own : List CacheEvent) : Decidable (Undisturbed own) :=
  inferInstanceAs (Decidable (∀ k (h : k < own.length), own[k].op = .readPointer →
    own[k].failed = false ∧ own[k].before.index = indexSeen (own.take k)))

theorem Undisturbed.of_append {own own' : List CacheEvent} {ev : CacheEvent} (h : Undisturbed (own ++ ev :: own'))
    (hop : ev.op = .readPointer) : ev.failed = false ∧ ev.before.index = indexSeen own := by
  have hlength : own.length < (own ++ ev :: own').length := by simp
  have hev : (own ++ ev :: own')[own.length] = ev := by simp
  have htake : (own ++ ev :: own').take own.length = own := by simp
  have := h own.length hlength
  rw [hev, htake] at this
  exact this hop

/-- What is known of the status, once the bytes of the index are. -/
structure StatusFrom (env : CacheEnv) (c : Call) (index : Bytes) (status : EpochCommitmentStatus) : Prop where
  /-- The phase has run on the pointer of these bytes. -/
  computed : ∀ epoch, c.epoch = some epoch → StatusOf env epoch (pointerOf env index) status
  /-- Where there is a pointer, the phase does not say that there is none. -/
  armed : c.epoch.isSome → (pointerOf env index).isSome → status ≠ .unarmed
  /-- Without its inputs the phase does not run. -/
  untouched : c.epoch = none → status = .unarmed

theorem statusFrom_of_stamped {l' : List CacheEvent} {g : GatedIndex} {index : Bytes} {text : Str} (h : Snapshot env c l l' g index text)
    (hown : Undisturbed (l ++ l')) : StatusFrom env c index g.epochCommitmentStatus := by
  have hstamped := h.stamped
  unfold Stamped at hstamped
  split at hstamped
  · rename_i hepoch
    obtain ⟨-, hstatus⟩ := hstamped
    refine ⟨fun epoch h => ?_, fun h => ?_, fun _ => hstatus⟩
    · cases hepoch.symm.trans h
    · rw [hepoch] at h
      cases h
  · rename_i epoch hepoch
    obtain ⟨s, b, l'', rfl, hof⟩ := hstamped
    obtain ⟨hread, hindex⟩ := hown.of_append rfl
    obtain rfl : b = false := hread
    -- what the second read finds is what the call knows, and that is the index it was made from
    have hpointer : s.index.bind (pointerOf env) = pointerOf env index := by
      rw [show s.index = some index from hindex.trans h.seen]
      rfl
    rw [if_neg Bool.false_ne_true, hpointer] at hof
    refine ⟨fun epoch' h' => ?_, fun _ hsome => ?_, fun hnone => ?_⟩
    · cases hepoch.symm.trans h'
      exact hof
    · obtain ⟨pointer, hsome⟩ := Option.isSome_iff_exists.mp hsome
      rw [hsome] at hof
      exact hof.ne_unarmed
    · cases hepoch.symm.trans hnone

/-- **One snapshot.** Whatever calls run at the same time, with operations that fail: what a call returns has its packages, its
verification and the description of its bundle from the same bytes of the index. Where its read of the pointer has found these
bytes, the status is from them as well, and it is not `Unarmed` if they carry a pointer. -/
theorem one_snapshot {s₀ : Slot} {P : Pool CacheOp Slot LoadError GatedIndex Call}
    (hrun : Pool.Run True (loadIndexWithHistory env) (fun _ _ => True) ⟨s₀, []⟩ P) {t : Thread CacheOp Slot LoadError GatedIndex Call}
    (ht : t ∈ P.threads) {g : GatedIndex} (hrest : t.rest = .pure g) :
    ∃ index text, fromUtf8 index = some text ∧ Index.parse env.kdlParse text = .ok g.index ∧
      (FromCache env t.call index (g.verification, g.bundleInfo) t.own ∨ FromNetwork env t.call index (g.verification, g.bundleInfo)) ∧
      (Undisturbed t.own → StatusFrom env t.call index g.epochCommitmentStatus) := by
  have htrace := Pool.traced_of_run hrun t ht
  rw [hrest] at htrace
  obtain ⟨l₁, l₂, index, text, hown, hsnapshot⟩ := returns_load_ok htrace
  refine ⟨index, text, hsnapshot.isText, hsnapshot.parsed, hsnapshot.source.imp_left fun hcache => ?_, fun hundisturbed => ?_⟩
  · rw [hown]
    exact hcache.mono (List.subset_append_left _ _)
  · exact statusFrom_of_stamped hsnapshot (hown ▸ hundisturbed)

/-! ### Examples -/

/-- An environment where a sidecar is the payload of no identities, and each bundle is described. -/
def armingEnv : CacheEnv := ⟨Kdl.read, id, ⟨fun _ => some ⟨5, [], none, none, none⟩, fun _ => some ([], [0])⟩⟩

/-- An index with the commitment of no identities. -/
def committedText : Str := ("attestation-epoch-commitment \"" : Str) ++ commitmentDigest [] ++ ("\"" : Str)

/-- A call that has the inputs of the phase. -/
def committing : Call where
  __ := fetching .strict committedText [0]
  indexHistoryPolicy := .strict
  epoch := some ⟨zeroVerifier, [], ⟨[], []⟩, .ok [1], .strict⟩

/-- The call alone, action after action. -/
def committed : Pool CacheOp Slot LoadError GatedIndex Call :=
  (Pool.launch (loadIndexWithHistory armingEnv) .empty [committing]).follow (List.replicate 12 0)

/-- A fetched index with a commitment, whose sidecar is verified: the status is from the bytes that were fetched. -/
theorem one_snapshot_committed : ∃ index, StatusFrom armingEnv committing index (.armed [] 5) := by
  have hrun : Pool.Run True (loadIndexWithHistory armingEnv) (fun _ _ => True) ⟨.empty, []⟩ committed :=
    (Pool.run_launch _ _).trans (Pool.run_follow _ _)
  have hends : ∀ t ∈ committed.threads, Undisturbed t.own ∧
      t.rest.ended = some (.ok ⟨⟨[]⟩, some .trusted, some ⟨5, [], none, none, none⟩, .armed [] 5⟩) := by decide +kernel
  obtain ⟨t, ht, hcall⟩ : ∃ t ∈ committed.threads, t.call = committing := by
    rw [← List.mem_map, committed, Pool.calls_follow]
    exact List.mem_cons_self
  obtain ⟨index, text, -, -, -, hstatus⟩ := one_snapshot hrun ht (eq_of_ended (hends t ht).2)
  exact ⟨index, hcall ▸ hstatus (hends t ht).1⟩

/-- The same call, while another one writes an index without a commitment before the pointer is read. -/
def overtaken : Pool CacheOp Slot LoadError GatedIndex Call :=
  (Pool.launch (loadIndexWithHistory armingEnv) .empty [committing, { fetching .strict "" [0] with refresh := true }]).follow
    (List.replicate 9 0 ++ List.replicate 5 1 ++ List.replicate 3 0)

/-- What `one_snapshot` asks of the second read cannot be left out. -/
theorem overtaken_mints_unarmed :
    ∃ t ∈ overtaken.threads, t.call.httpGet = .ok (utf8 committedText) ∧
      t.rest = .pure ⟨⟨[]⟩, some .trusted, some ⟨5, [], none, none, none⟩, .unarmed⟩ := by
  have hends : ∃ t ∈ overtaken.threads, t.call.httpGet.toOption = some (utf8 committedText) ∧
      t.rest.ended = some (.ok ⟨⟨[]⟩, some .trusted, some ⟨5, [], none, none, none⟩, .unarmed⟩) := by decide +kernel
  obtain ⟨t, ht, hget, hend⟩ := hends
  refine ⟨t, ht, ?_, eq_of_ended hend⟩
  cases hc : t.call.httpGet with
  | ok bytes =>
    rw [hc] at hget
    exact congrArg _ (Option.some.inj hget)
  | error e =>
    rw [hc] at hget
    cases hget

/-- Without the inputs of the phase an index with a commitment has the status of one without. -/
theorem off_mints_unarmed :
    ¬ ∀ P : Pool CacheOp Slot LoadError GatedIndex Call,
      Pool.Run True (loadIndexWithHistory plainEnv) (fun _ _ => True) ⟨.empty, []⟩ P → ∀ t ∈ P.threads, ∀ g index, t.rest = .pure g →
        FromNetwork plainEnv t.call index (g.verification, g.bundleInfo) → (pointerOf plainEnv index).isSome →
          g.epochCommitmentStatus ≠ .unarmed := by
  intro h
  obtain ⟨own, hrun⟩ := Pool.exists_run_call True (loadIndexWithHistory plainEnv) (fetching .off armedText []) .empty []
  have hresult : ((loadIndexWithHistory plainEnv (fetching .off armedText [])).run .empty).1 = .ok ⟨⟨[]⟩, none, none, .unarmed⟩ := by
    decide +kernel
  rw [hresult] at hrun
  exact h _ hrun _ List.mem_cons_self _ (utf8 armedText) rfl ⟨rfl, rfl⟩ (by decide) rfl

end Milpa.Core.IndexCache
