import Milpa.Concurrent.Process
import Milpa.Core.IndexTrust

/-!
# The cache of artifacts

`ContentAddressedHttpArtifactStore::get` with the functions of `atomic_cache.rs`, as a process
over the entry of one pointer in the cache directory. The temporary file of a write has a
name that no other writer chooses, so a rename puts there what was written. What the transport
answers is given with each call. A call heals an entry that does not verify by removing it
after a read of its own, and may so remove what another one has renamed over it: the entry
verifies in the end where no call stops in between (`getArtifact_concurrent`).
-/

namespace Milpa.Core.ArtifactCache

open Milpa.Concurrent

/-! ### The store -/

/-- The stores that share the code: `HttpDepDeclStore` and `HttpEntryBundleStore`. -/
inductive ArtifactKind where
  | depDecl
  | entryBundle
  deriving DecidableEq, Repr

namespace ArtifactKind

/-- What `verify` computes: `dep_decl_hash`, or the bare digest. -/
def hash : ArtifactKind → Bytes → Str
  | depDecl, bytes => "sha256:" ++ hexLower (sha256 bytes)
  | entryBundle, bytes => hexLower (sha256 bytes)

/-- `DEP_DECL_MAX_ARTIFACT_BYTES` and `ENTRY_BUNDLE_MAX_ARTIFACT_BYTES`. -/
def maxBytes : ArtifactKind → ℕ
  | depDecl => 1024 * 1024
  | entryBundle => 4 * 1024 * 1024

/-- The path under the base URL, and the extension. -/
def location : ArtifactKind → Str × Str
  | depDecl => ("dep-decl", ".kdl")
  | entryBundle => ("attestation", ".bundle")

/-- The segment of the URL: `hex_of`, or the pin as it is. -/
def urlToken : ArtifactKind → Str → Str
  | depDecl, pointer => (pointer.stripPrefix "sha256:").getD pointer
  | entryBundle, pointer => pointer

end ArtifactKind

/-- `ContentAddressedHttpArtifactStore`, with its cache directory. -/
structure ArtifactStore where
  kind : ArtifactKind
  baseUrl : Str

/-- `artifact_url`. -/
def ArtifactStore.artifactUrl (store : ArtifactStore) (urlToken : Str) : Str :=
  store.baseUrl ++ (store.kind.location.1 ++ '/' :: (urlToken ++ store.kind.location.2))

/-- Why a fetch fails. -/
inductive FetchDetail where
  | transport (message : Str)
  /-- The body is longer than the cap of the store. -/
  | tooLarge (cap : ℕ)
  /-- `HTTP {status}`. -/
  | status (status : ℕ)
  deriving DecidableEq, Repr

/-- The errors of a `get`. -/
inductive ArtifactError where
  /-- `TNG-DEPDECL-FETCH-FAILED`, or `TNG-ENTRY-BUNDLE-MISSING`. -/
  | fetchFailed (kind : ArtifactKind) (reportKey url : Str) (detail : FetchDetail)
  /-- `TNG-DEPDECL-HASH-MISMATCH`, or `TNG-ENTRY-BUNDLE-PIN-MISMATCH`. -/
  | hashMismatch (kind : ArtifactKind) (expected computed : Str)
  deriving DecidableEq, Repr

/-- `verify`. -/
def verify (kind : ArtifactKind) (bytes : Bytes) (pointer : Str) : Except ArtifactError Unit :=
  rejectIf (kind.hash bytes ≠ pointer) (.hashMismatch kind pointer (kind.hash bytes))

/-- What the transport answers: an error, or a status with a body; a `file://` URL is answered with status 200. -/
abbrev Response := Except Str (ℕ × Bytes)

/-- `http_get_bytes`. -/
def httpGetBytes (store : ArtifactStore) (pointer : Str) (response : Response) : Except ArtifactError Bytes :=
  let failed := fun detail => ArtifactError.fetchFailed store.kind pointer (store.artifactUrl (store.kind.urlToken pointer)) detail
  match response with
  | .error message => .error (failed (.transport message))
  | .ok (status, body) =>
    if store.kind.maxBytes < body.length then .error (failed (.tooLarge store.kind.maxBytes))
    else if 400 ≤ status then .error (failed (.status status))
    else .ok body

/-! ### The process -/

/-- What is at the path of the entry. -/
inductive Node where
  | absent
  | file (bytes : Bytes)
  /-- Something that a read does not get, and a rename replaces. -/
  | unreadable
  /-- Neither `remove_file` nor a rename of a file changes it. -/
  | directory
  deriving DecidableEq, Repr

/-- `remove_file`. -/
def Node.remove : Node → Node
  | directory => directory
  | _ => absent

/-- `rename`, of a file. -/
def Node.rename (bytes : Bytes) : Node → Node
  | directory => directory
  | _ => file bytes

/-- The operations of a `get`. -/
inductive Op where
  | read
  | remove
  | fetch
  | writeTemp
  | rename (bytes : Bytes)
  deriving DecidableEq, Repr

/-- A `get`, on its way. -/
abbrev Get := Process Op Node ArtifactError

/-- `read_verified_or_self_heal`. -/
def readVerifiedOrSelfHeal (verifyFn : Bytes → Except ArtifactError Unit) : Get (Option Bytes) :=
  .act .read id
    (fun node => match node with
      | .file cached => match verifyFn cached with
        | .ok _ => pure (some cached)
        | .error _ => .act .remove Node.remove (fun _ => pure none) (pure none)
      | _ => pure none)
    (pure none)

/-- `atomic_write_bytes`, whose failure is ignored. -/
def atomicWriteBytes (data : Bytes) : Get Unit :=
  .act .writeTemp id (fun _ => .act (.rename data) (Node.rename data) (fun _ => pure ()) (pure ())) (pure ())

/-- The part of `get` after the fetch. -/
def afterFetch (store : ArtifactStore) (pointer : Str) (response : Response) : Get Bytes :=
  match httpGetBytes store pointer response with
  | .error e => .fail e
  | .ok bytes =>
    match verify store.kind bytes pointer with
    | .error e => .fail e
    | .ok _ => do
      atomicWriteBytes bytes
      return bytes

/-- `get`. -/
def getArtifact (store : ArtifactStore) (pointer : Str) (response : Response) : Get Bytes := do
  match ← readVerifiedOrSelfHeal fun bytes => verify store.kind bytes pointer with
  | some bytes => return bytes
  | none => .act .fetch id (fun _ => afterFetch store pointer response) (afterFetch store pointer response)

/-! ### How far a call is -/

section

variable (store : ArtifactStore) (pointer : Str) (response : Response)

/-- The call, with the fetch ahead. -/
def fetching : Get Bytes := .act .fetch id (fun _ => afterFetch store pointer response) (afterFetch store pointer response)

/-- The call, with the removal ahead. -/
def removing : Get Bytes :=
  .act .remove Node.remove (fun _ => fetching store pointer response) (fetching store pointer response)

/-- The call, with the rename ahead. -/
def moving (bytes : Bytes) : Get Bytes := .act (.rename bytes) (Node.rename bytes) (fun _ => pure bytes) (pure bytes)

/-- The call, with the write ahead. -/
def writing (bytes : Bytes) : Get Bytes := .act .writeTemp id (fun _ => moving bytes) (pure bytes)

/-- What the call does with what it has read. -/
def afterRead (node : Node) : Get Bytes :=
  match node with
  | .file cached => if store.kind.hash cached = pointer then pure cached else removing store pointer response
  | _ => fetching store pointer response

theorem getArtifact_eq :
    getArtifact store pointer response = .act .read id (afterRead store pointer response) (fetching store pointer response) := by
  refine congrArg (fun next => Process.act .read id next (fetching store pointer response)) (funext fun node => ?_)
  cases node with
  | file cached =>
    by_cases h : store.kind.hash cached = pointer
    · simp only [afterRead, verify, rejectIf, h, ne_eq, not_true_eq_false, if_true, if_false]
      rfl
    · simp only [afterRead, verify, rejectIf, h, ne_eq, not_false_eq_true, if_true, if_false]
      rfl
  | absent => rfl
  | unreadable => rfl
  | directory => rfl

theorem afterFetch_eq :
    afterFetch store pointer response = match httpGetBytes store pointer response with
      | .error e => .fail e
      | .ok bytes =>
        if store.kind.hash bytes = pointer then writing bytes
        else .fail (.hashMismatch store.kind pointer (store.kind.hash bytes)) := by
  unfold afterFetch
  split
  · rfl
  · next bytes _ =>
    by_cases h : store.kind.hash bytes = pointer
    · simp only [verify, rejectIf, h, ne_eq, not_true_eq_false, if_true, if_false]
      rfl
    · simp only [verify, rejectIf, h, ne_eq, not_false_eq_true, if_true, if_false]

end

/-- What a call has done before it fetches. -/
def Missed (ops : List Op) : Prop := ops = [.read] ∨ ops = [.read, .remove]

/-- How far a call is: the operations that it has made, and what is left of it. -/
inductive Stage (faulty : Prop) (store : ArtifactStore) (pointer : Str) (response : Response) : List Op → Get Bytes → Prop
  | start : Stage faulty store pointer response [] (getArtifact store pointer response)
  | hit {bytes : Bytes} (h : store.kind.hash bytes = pointer) : Stage faulty store pointer response [.read] (.pure bytes)
  | corrupt : Stage faulty store pointer response [.read] (removing store pointer response)
  | missed {ops : List Op} (h : Missed ops) : Stage faulty store pointer response ops (fetching store pointer response)
  | refused {ops : List Op} {e : ArtifactError} (h : Missed ops) (hfetch : httpGetBytes store pointer response = .error e) :
      Stage faulty store pointer response (ops ++ [.fetch]) (.fail e)
  | mismatched {ops : List Op} {bytes : Bytes} (h : Missed ops) (hfetch : httpGetBytes store pointer response = .ok bytes)
      (hhash : store.kind.hash bytes ≠ pointer) :
      Stage faulty store pointer response (ops ++ [.fetch]) (.fail (.hashMismatch store.kind pointer (store.kind.hash bytes)))
  | fetched {ops : List Op} {bytes : Bytes} (h : Missed ops) (hfetch : httpGetBytes store pointer response = .ok bytes)
      (hhash : store.kind.hash bytes = pointer) :
      Stage faulty store pointer response (ops ++ [.fetch]) (writing bytes)
  | unwritten {ops : List Op} {bytes : Bytes} (hfaulty : faulty) (h : Missed ops)
      (hfetch : httpGetBytes store pointer response = .ok bytes) (hhash : store.kind.hash bytes = pointer) :
      Stage faulty store pointer response (ops ++ [.fetch, .writeTemp]) (.pure bytes)
  | written {ops : List Op} {bytes : Bytes} (h : Missed ops) (hfetch : httpGetBytes store pointer response = .ok bytes)
      (hhash : store.kind.hash bytes = pointer) :
      Stage faulty store pointer response (ops ++ [.fetch, .writeTemp]) (moving bytes)
  | stored {ops : List Op} {bytes : Bytes} (h : Missed ops) (hfetch : httpGetBytes store pointer response = .ok bytes)
      (hhash : store.kind.hash bytes = pointer) :
      Stage faulty store pointer response (ops ++ [.fetch, .writeTemp, .rename bytes]) (.pure bytes)

section

variable {faulty : Prop} {store : ArtifactStore} {pointer : Str} {response : Response}

theorem Stage.afterFetch {ops : List Op} (h : Missed ops) :
    Stage faulty store pointer response (ops ++ [.fetch]) (afterFetch store pointer response) := by
  rw [afterFetch_eq]
  split
  · next e hfetch => exact .refused h hfetch
  · next bytes hfetch =>
    split_ifs with hhash
    · exact .fetched h hfetch hhash
    · exact .mismatched h hfetch hhash

theorem Stage.afterRead (node : Node) : Stage faulty store pointer response [.read] (afterRead store pointer response node) := by
  cases node with
  | file cached =>
    rw [Milpa.Core.ArtifactCache.afterRead]
    split_ifs with h
    · exact .hit h
    · exact .corrupt
  | absent => exact .missed (.inl rfl)
  | unreadable => exact .missed (.inl rfl)
  | directory => exact .missed (.inl rfl)

/-- A call goes from stage to stage. -/
theorem Stage.next {ops : List Op} {op : Op} {write : Node → Node} {next : Node → Get Bytes} {failed : Get Bytes}
    (h : Stage faulty store pointer response ops (.act op write next failed)) :
    (∀ node, Stage faulty store pointer response (ops ++ [op]) (next node)) ∧
      (faulty → Stage faulty store pointer response (ops ++ [op]) failed) := by
  generalize hp : (Process.act op write next failed : Get Bytes) = p at h
  cases h with
  | start =>
    rw [getArtifact_eq] at hp
    cases hp
    exact ⟨.afterRead, fun _ => .missed (.inl rfl)⟩
  | hit => cases hp
  | corrupt =>
    cases hp
    exact ⟨fun _ => .missed (.inr rfl), fun _ => .missed (.inr rfl)⟩
  | missed h =>
    cases hp
    exact ⟨fun _ => .afterFetch h, fun _ => .afterFetch h⟩
  | refused => cases hp
  | mismatched => cases hp
  | @fetched ops bytes h hfetch hhash =>
    cases hp
    rw [List.append_assoc]
    exact ⟨fun _ => .written h hfetch hhash, fun hfaulty => .unwritten hfaulty h hfetch hhash⟩
  | unwritten => cases hp
  | @written ops bytes h hfetch hhash =>
    cases hp
    rw [List.append_assoc]
    exact ⟨fun _ => .stored h hfetch hhash, fun _ => .stored h hfetch hhash⟩
  | stored => cases hp

theorem Stage.steps {ops : List Op} {p q : Get Bytes} {l : List (Event Op Node)} (h : Stage faulty store pointer response ops p)
    (hsteps : Process.Steps faulty p l q) : Stage faulty store pointer response (ops ++ l.map Event.op) q := by
  induction hsteps generalizing ops with
  | refl p => simpa using h
  | act s _ ih => simpa using ih (h.next.1 s)
  | fault s hfaulty _ ih => simpa using ih (h.next.2 hfaulty)

/-! ### What a call does -/

theorem Missed.fetch_notMem {ops : List Op} (h : Missed ops) : .fetch ∉ ops := by
  rcases h with rfl | rfl <;> decide

theorem Missed.rename_notMem {ops : List Op} (h : Missed ops) (bytes : Bytes) : .rename bytes ∉ ops := by
  rcases h with rfl | rfl <;> simp

theorem Missed.length_le {ops : List Op} (h : Missed ops) : ops.length ≤ 2 := by
  rcases h with rfl | rfl <;> decide

variable {ops : List Op}

/-- What is returned has the hash of the pointer. -/
theorem Stage.hash_of_pure {bytes : Bytes} (h : Stage faulty store pointer response ops (.pure bytes)) :
    store.kind.hash bytes = pointer := by
  generalize hp : (Process.pure bytes : Get Bytes) = p at h
  cases h with
  | start =>
    rw [getArtifact_eq] at hp
    cases hp
  | hit h =>
    cases hp
    exact h
  | unwritten _ _ _ hhash =>
    cases hp
    exact hhash
  | stored _ _ hhash =>
    cases hp
    exact hhash
  | corrupt => cases hp
  | missed => cases hp
  | refused => cases hp
  | mismatched => cases hp
  | fetched => cases hp
  | written => cases hp

/-- What is renamed into the cache has the hash of the pointer. -/
theorem Stage.hash_of_rename {p : Get Bytes} (h : Stage faulty store pointer response ops p) {bytes : Bytes}
    (hmem : .rename bytes ∈ ops) : store.kind.hash bytes = pointer := by
  cases h with
  | missed h => exact absurd hmem (h.rename_notMem bytes)
  | stored h _ hhash =>
    rcases List.mem_append.mp hmem with hmem | hmem
    · exact absurd hmem (h.rename_notMem bytes)
    · obtain rfl : bytes = _ := by simpa using hmem
      exact hhash
  | start => simp at hmem
  | hit => simp at hmem
  | corrupt => simp at hmem
  | refused h => exact absurd hmem (by simpa using h.rename_notMem bytes)
  | mismatched h => exact absurd hmem (by simpa using h.rename_notMem bytes)
  | fetched h => exact absurd hmem (by simpa using h.rename_notMem bytes)
  | unwritten _ h => exact absurd hmem (by simpa using h.rename_notMem bytes)
  | written h => exact absurd hmem (by simpa using h.rename_notMem bytes)

/-- Wrong bytes are an error after the one fetch. -/
theorem Stage.of_wrong {p : Get Bytes} (h : Stage faulty store pointer response ops p) {body : Bytes}
    (hbody : httpGetBytes store pointer response = .ok body) (hwrong : store.kind.hash body ≠ pointer) (hmem : .fetch ∈ ops) :
    p = .fail (.hashMismatch store.kind pointer (store.kind.hash body)) ∧ ops.count .fetch = 1 ∧ ∀ bytes, .rename bytes ∉ ops := by
  have hfetched {bytes : Bytes} (hfetch : httpGetBytes store pointer response = .ok bytes) : bytes = body :=
    Except.ok.inj (hfetch.symm.trans hbody)
  cases h with
  | mismatched h hfetch hhash =>
    obtain rfl := hfetched hfetch
    refine ⟨rfl, ?_, fun bytes => by simpa using h.rename_notMem bytes⟩
    rw [List.count_append, List.count_eq_zero_of_not_mem h.fetch_notMem]
    rfl
  | missed h => exact absurd hmem h.fetch_notMem
  | start => simp at hmem
  | hit => simp at hmem
  | corrupt => simp at hmem
  | refused _ hfetch => exact absurd (hfetch.symm.trans hbody) (by simp)
  | fetched _ hfetch hhash => exact absurd (hfetched hfetch ▸ hhash) hwrong
  | unwritten _ _ hfetch hhash => exact absurd (hfetched hfetch ▸ hhash) hwrong
  | written _ hfetch hhash => exact absurd (hfetched hfetch ▸ hhash) hwrong
  | stored _ hfetch hhash => exact absurd (hfetched hfetch ▸ hhash) hwrong

/-- Where the right bytes are served, no call fails. -/
theorem Stage.not_fail {e : ArtifactError} (h : Stage faulty store pointer response ops (.fail e)) {body : Bytes}
    (hbody : httpGetBytes store pointer response = .ok body) (hright : store.kind.hash body = pointer) : False := by
  generalize hp : (Process.fail e : Get Bytes) = p at h
  cases h with
  | start =>
    rw [getArtifact_eq] at hp
    cases hp
  | refused _ hfetch => exact absurd (hfetch.symm.trans hbody) (by simp)
  | mismatched _ hfetch hhash =>
    obtain rfl := Except.ok.inj (hfetch.symm.trans hbody)
    exact hhash hright
  | hit => cases hp
  | corrupt => cases hp
  | missed => cases hp
  | fetched => cases hp
  | unwritten => cases hp
  | written => cases hp
  | stored => cases hp

/-- A call makes at most five operations. -/
theorem Stage.length_le {p : Get Bytes} (h : Stage faulty store pointer response ops p) : ops.length ≤ 5 := by
  cases h with
  | start => decide
  | hit => decide
  | corrupt => decide
  | missed h => exact h.length_le.trans (by decide)
  | refused h =>
    have := h.length_le
    simp; omega
  | mismatched h =>
    have := h.length_le
    simp; omega
  | fetched h =>
    have := h.length_le
    simp; omega
  | unwritten _ h =>
    have := h.length_le
    simp; omega
  | written h =>
    have := h.length_le
    simp; omega
  | stored h =>
    have := h.length_le
    simp; omega

end

/-! ### The entry -/

/-- The entry is there, and verifies. -/
def Verifies (store : ArtifactStore) (pointer : Str) (node : Node) : Prop :=
  ∃ bytes, node = .file bytes ∧ store.kind.hash bytes = pointer

/-- The answers of a server that serves the right bytes, within the cap. -/
def Serving (store : ArtifactStore) (pointer : Str) : Type :=
  { response : Response // ∃ body, httpGetBytes store pointer response = .ok body ∧ store.kind.hash body = pointer }

/-- A call that such a server answers. -/
def servedArtifact (store : ArtifactStore) (pointer : Str) (response : Serving store pointer) : Get Bytes :=
  getArtifact store pointer response.1

/-- A call has removed an entry and has not renamed its file over it: it is in between, or has crashed there. -/
def Dangling {ι : Type} (t : Thread Op Node ArtifactError Bytes ι) : Prop :=
  .remove ∈ t.own.map Event.op ∧ ∀ bytes, .rename bytes ∉ t.own.map Event.op

section

variable {store : ArtifactStore} {pointer : Str}

/-- What the next operation of a call does, where no operation fails and the right bytes are served. -/
theorem Stage.act_cases {response : Serving store pointer} {ops : List Op} {op : Op} {write : Node → Node} {next : Node → Get Bytes}
    {failed : Get Bytes} (h : Stage False store pointer response.1 ops (.act op write next failed)) :
    (op = .read ∧ write = id ∧ ∀ node, (next node).ended = none ∨ Verifies store pointer node) ∨
      (op = .remove ∧ write = Node.remove ∧ ops = [.read]) ∨
      ((op = .fetch ∨ op = .writeTemp) ∧ write = id ∧ ∀ node, (next node).ended = none) ∨
      ∃ bytes, op = .rename bytes ∧ write = Node.rename bytes ∧ store.kind.hash bytes = pointer := by
  generalize hp : (Process.act op write next failed : Get Bytes) = p at h
  cases h with
  | start =>
    rw [getArtifact_eq] at hp
    cases hp
    refine .inl ⟨rfl, rfl, fun node => ?_⟩
    unfold ArtifactCache.afterRead
    split
    · next cached =>
      split_ifs with hhash
      · exact .inr ⟨cached, rfl, hhash⟩
      · exact .inl rfl
    · exact .inl rfl
  | corrupt =>
    cases hp
    exact .inr (.inl ⟨rfl, rfl, rfl⟩)
  | missed h =>
    cases hp
    refine .inr (.inr (.inl ⟨.inl rfl, rfl, fun _ => ?_⟩))
    obtain ⟨body, hbody, hright⟩ := response.2
    rw [afterFetch_eq, hbody]
    dsimp only
    rw [if_pos hright]
    rfl
  | fetched =>
    cases hp
    exact .inr (.inr (.inl ⟨.inr rfl, rfl, fun _ => rfl⟩))
  | written _ _ hhash =>
    cases hp
    exact .inr (.inr (.inr ⟨_, rfl, rfl, hhash⟩))
  | hit => cases hp
  | refused => cases hp
  | mismatched => cases hp
  | unwritten => cases hp
  | stored => cases hp

abbrev ServedPool (store : ArtifactStore) (pointer : Str) := Pool Op Node ArtifactError Bytes (Serving store pointer)

/-- The entry verifies, or a call is between its removal and its rename, or no call is at its end. -/
structure Healing (P : ServedPool store pointer) : Prop where
  replaceable : P.state ≠ .directory
  healed : Verifies store pointer P.state ∨ (∃ t ∈ P.threads, Dangling t) ∨ ∀ t ∈ P.threads, t.rest.ended = none

theorem stage_of_traced {faulty : Prop} {ι : Type} {responseOf : ι → Response} {P : Pool Op Node ArtifactError Bytes ι}
    (h : Pool.Traced faulty (fun i => getArtifact store pointer (responseOf i)) P) {t : Thread Op Node ArtifactError Bytes ι}
    (ht : t ∈ P.threads) : Stage faulty store pointer (responseOf t.call) (t.own.map Event.op) t.rest := by
  simpa using Stage.start.steps (h t ht)

theorem Dangling.act {ι : Type} {i : ι} {own : List (Event Op Node)} {p q : Get Bytes} {ev : Event Op Node}
    (h : Dangling ⟨i, own, p⟩) (hop : ∀ bytes, ev.op ≠ .rename bytes) : Dangling ⟨i, own ++ [ev], q⟩ := by
  obtain ⟨hremove, hrename⟩ := h
  refine ⟨by simpa using Or.inl hremove, fun bytes hmem => ?_⟩
  rw [List.map_append, List.mem_append] at hmem
  rcases hmem with hmem | hmem
  · exact hrename bytes hmem
  · exact hop bytes (List.mem_singleton.mp hmem).symm

theorem Healing.step {P P' : ServedPool store pointer} (h : Healing P)
    (htraced : Pool.Traced False (servedArtifact store pointer) P)
    (hstep : Pool.Step False (servedArtifact store pointer) (fun _ _ => True) P P') : Healing P' := by
  obtain ⟨hreplaceable, hhealed⟩ := h
  cases hstep with
  | start i s threads =>
    refine ⟨hreplaceable, hhealed.imp_right fun hhealed => hhealed.imp ?_ ?_⟩
    · exact fun ⟨t, ht, hdangling⟩ => ⟨t, List.mem_append_left _ ht, hdangling⟩
    · intro hnone t ht
      rcases List.mem_append.mp ht with ht | ht
      · exact hnone t ht
      · rw [List.mem_singleton.mp ht, servedArtifact, getArtifact_eq]
        rfl
  | fault hfaulty => exact hfaulty.elim
  | @act s before after i own op write next failed hmeets =>
    have hstage := stage_of_traced htraced (List.mem_append_right before List.mem_cons_self)
    -- an operation that leaves the entry as it is, after which the call is not at its end or the entry verifies
    have hlooks (hwrite : write = id) (hop : ∀ bytes, op ≠ .rename bytes)
        (hnext : (next s).ended = none ∨ Verifies store pointer s) :
        Healing (⟨write s, before ++ ⟨i, own ++ [⟨op, s, write s, false⟩], next s⟩ :: after⟩ : ServedPool store pointer) := by
      subst hwrite
      refine ⟨hreplaceable, ?_⟩
      rcases hhealed with hverifies | ⟨t, ht, hdangling⟩ | hnone
      · exact .inl hverifies
      · refine .inr (.inl ?_)
        rcases List.mem_append.mp ht with ht | ht
        · exact ⟨t, List.mem_append_left _ ht, hdangling⟩
        · rcases List.mem_cons.mp ht with rfl | ht
          · exact ⟨_, List.mem_append_right _ List.mem_cons_self, hdangling.act hop⟩
          · exact ⟨t, List.mem_append_right _ (List.mem_cons_of_mem _ ht), hdangling⟩
      · rcases hnext with hnext | hverifies
        · refine .inr (.inr fun t ht => ?_)
          rcases List.mem_append.mp ht with ht | ht
          · exact hnone t (List.mem_append_left _ ht)
          · rcases List.mem_cons.mp ht with rfl | ht
            · exact hnext
            · exact hnone t (List.mem_append_right _ (List.mem_cons_of_mem _ ht))
        · exact .inl hverifies
    rcases Stage.act_cases hstage with ⟨rfl, hwrite, hnext⟩ | ⟨rfl, rfl, hops⟩ | ⟨hop, hwrite, hnext⟩ | ⟨bytes, rfl, rfl, hhash⟩
    · exact hlooks hwrite (by simp) (hnext s)
    · -- the call that removes the entry is now in between
      refine ⟨by cases s <;> simp_all [Node.remove], .inr (.inl ⟨_, List.mem_append_right _ List.mem_cons_self, ?_, ?_⟩)⟩
      · simp
      · intro bytes
        dsimp only at hops
        simp [hops]
    · exact hlooks hwrite (by rcases hop with rfl | rfl <;> simp) (.inl (hnext s))
    · have hnode : Node.rename bytes s = .file bytes := by cases s <;> simp_all [Node.rename]
      exact ⟨by rw [hnode]; simp, .inl ⟨bytes, hnode, hhash⟩⟩

theorem healing_of_run {initial : Node} (hinitial : initial ≠ .directory) {P : ServedPool store pointer}
    (hrun : Pool.Run False (servedArtifact store pointer) (fun _ _ => True) ⟨initial, []⟩ P) : Healing P := by
  induction hrun with
  | refl => exact ⟨hinitial, .inr (.inr fun t ht => absurd ht List.not_mem_nil)⟩
  | tail hrun hstep ih => exact ih.step (Pool.traced_of_run hrun) hstep

/-- What holds of a call, whatever the others do, and whatever fails. -/
structure CallSafe (store : ArtifactStore) (pointer : Str) (t : Thread Op Node ArtifactError Bytes Response) : Prop where
  /-- What is returned has the hash of the pointer. -/
  returned : ∀ bytes, t.rest = .pure bytes → store.kind.hash bytes = pointer
  /-- What is renamed into the cache has it, too. -/
  renamed : ∀ bytes, .rename bytes ∈ t.own.map Event.op → store.kind.hash bytes = pointer
  /-- Wrong bytes are an error at once: there is no second fetch, and nothing is written. -/
  wrong : ∀ body, httpGetBytes store pointer t.call = .ok body → store.kind.hash body ≠ pointer → .fetch ∈ t.own.map Event.op →
    t.rest = .fail (.hashMismatch store.kind pointer (store.kind.hash body)) ∧ (t.own.map Event.op).count .fetch = 1 ∧
      ∀ bytes, .rename bytes ∉ t.own.map Event.op
  /-- With the right bytes no call fails. -/
  served : ∀ body, httpGetBytes store pointer t.call = .ok body → store.kind.hash body = pointer → ∀ e, t.rest ≠ .fail e
  /-- A call ends after five operations at most. -/
  bounded : t.own.length ≤ 5

end

/-- **The cache under concurrency.** Whatever is in it at first, and in every interleaving, with crashes and failures: what
is returned or renamed has the hash of the pointer, wrong bytes are an error, and with the right bytes no call fails. Where
the right bytes are served and no operation fails, the entry verifies once a call is at its end, unless a call has stopped
between its removal of the entry and its rename, or the entry is a directory. -/
theorem getArtifact_concurrent (store : ArtifactStore) (pointer : Str) :
    (∀ initial P, Pool.Run True (getArtifact store pointer) (fun _ _ => True) ⟨initial, []⟩ P →
      ∀ t ∈ P.threads, CallSafe store pointer t) ∧
      ∀ initial P, initial ≠ .directory → Pool.Run False (servedArtifact store pointer) (fun _ _ => True) ⟨initial, []⟩ P →
        (∃ t ∈ P.threads, t.rest.ended ≠ none) → (∀ t ∈ P.threads, ¬ Dangling t) → Verifies store pointer P.state := by
  constructor
  · intro initial P hrun t ht
    have hstage : Stage True store pointer t.call (t.own.map Event.op) t.rest := stage_of_traced (Pool.traced_of_run hrun) ht
    constructor
    case returned => exact fun bytes hrest => Stage.hash_of_pure (hrest ▸ hstage)
    case renamed => exact fun bytes => hstage.hash_of_rename
    case wrong => exact fun body => hstage.of_wrong
    case served => exact fun body hbody hright e hrest => Stage.not_fail (hrest ▸ hstage) hbody hright
    case bounded => simpa using hstage.length_le
  · intro initial P hinitial hrun ⟨t, ht, hended⟩ hnone
    rcases (healing_of_run hinitial hrun).healed with hverifies | ⟨t', ht', hdangling⟩ | hall
    · exact hverifies
    · exact absurd hdangling (hnone t' ht')
    · exact absurd (hall t ht) hended

/-! ### Examples -/

/-- A store of bundles. -/
def bundles : ArtifactStore := ⟨.entryBundle, "https://tianguis.example/"⟩

/-- The pin of a bundle of one byte. -/
def pin : Str := ArtifactKind.entryBundle.hash [1]

/-- A server that serves the byte. -/
def servingOne : Serving bundles pin := ⟨.ok (200, [1]), [1], rfl, rfl⟩

/-- Two calls find a corrupt entry. The second one heals it; then the first one removes what the second one has written. -/
def removedGood : ServedPool bundles pin :=
  (Pool.launch (servedArtifact bundles pin) (.file []) [servingOne, servingOne]).follow [0, 1, 1, 1, 1, 1, 0]

/-- The first call goes on, and writes the entry again. -/
def writtenAgain : ServedPool bundles pin := removedGood.follow [0, 0, 0]

theorem getArtifact_concurrent_two_calls : Verifies bundles pin writtenAgain.state := by
  have hrun : Pool.Run False (servedArtifact bundles pin) (fun _ _ => True) ⟨.file [], []⟩ writtenAgain :=
    ((Pool.run_launch _ _).trans (Pool.run_follow _ _)).trans (Pool.run_follow _ _)
  have hends : ∀ t ∈ writtenAgain.threads, t.rest.ended ≠ none ∧ .rename [1] ∈ t.own.map Event.op := by decide +kernel
  have hsome : ∃ t ∈ writtenAgain.threads, t.rest.ended ≠ none := by decide +kernel
  exact (getArtifact_concurrent bundles pin).2 _ _ (by simp) hrun hsome fun t ht hdangling => hdangling.2 _ (hends t ht).2

/-- A body that is over the cap of the bundles. -/
@[irreducible] def longBody : Bytes := List.replicate (4 * 1024 * 1024 + 1) 0

theorem getArtifact_run_refused {store : ArtifactStore} {pointer : Str} {response : Response} {e : ArtifactError}
    (h : httpGetBytes store pointer response = .error e) : (getArtifact store pointer response).run .absent = (.error e, .absent) := by
  rw [getArtifact_eq, Process.run_act]
  change (afterFetch store pointer response).run .absent = _
  rw [afterFetch_eq, h]
  rfl

theorem httpGetBytes_longBody (pointer : Str) :
    httpGetBytes bundles pointer (.ok (200, longBody)) =
      .error (.fetchFailed .entryBundle pointer (bundles.artifactUrl pointer) (.tooLarge ArtifactKind.entryBundle.maxBytes)) := by
  have hlength : bundles.kind.maxBytes < longBody.length := by
    rw [longBody, List.length_replicate]
    exact Nat.lt_succ_self _
  simp only [httpGetBytes, if_pos hlength]
  rfl

/-- A call that is served the long body. -/
theorem exists_run_longBody (pointer : Str) :
    ∃ l, Pool.Run False (getArtifact bundles pointer) (fun _ _ => True) ⟨.absent, []⟩
      ⟨.absent, [⟨.ok (200, longBody), l, .fail (.fetchFailed .entryBundle pointer (bundles.artifactUrl pointer)
        (.tooLarge ArtifactKind.entryBundle.maxBytes))⟩]⟩ := by
  obtain ⟨l, hrun⟩ := Pool.exists_run_call False (getArtifact bundles pointer) (.ok (200, longBody)) .absent []
  rw [getArtifact_run_refused (httpGetBytes_longBody pointer)] at hrun
  exact ⟨l, hrun⟩

/-- A call that stops before its fetch has removed what another one has written. A body over the cap is refused, whether it
is the right one or not. And a directory stays where it is. -/
theorem removed_or_refused :
    (Pool.Run False (servedArtifact bundles pin) (fun _ _ => True) ⟨.file [], []⟩ removedGood ∧
      (∀ t ∈ removedGood.threads, t.rest.ended = none → .fetch ∉ t.own.map Event.op) ∧
      (∃ t ∈ removedGood.threads, t.rest.ended = some (.ok [1])) ∧ removedGood.state = .absent) ∧
    (∃ pointer l, bundles.kind.hash longBody = pointer ∧
      Pool.Run False (getArtifact bundles pointer) (fun _ _ => True) ⟨.absent, []⟩
        ⟨.absent, [⟨.ok (200, longBody), l, .fail (.fetchFailed .entryBundle pointer (bundles.artifactUrl pointer)
          (.tooLarge ArtifactKind.entryBundle.maxBytes))⟩]⟩) ∧
    (∃ bytes l, bundles.kind.hash longBody ≠ bundles.kind.hash bytes ∧
      Pool.Run False (getArtifact bundles (bundles.kind.hash bytes)) (fun _ _ => True) ⟨.absent, []⟩
        ⟨.absent, [⟨.ok (200, longBody), l, .fail (.fetchFailed .entryBundle (bundles.kind.hash bytes)
          (bundles.artifactUrl (bundles.kind.hash bytes)) (.tooLarge ArtifactKind.entryBundle.maxBytes))⟩]⟩) ∧
    (servedArtifact bundles pin servingOne).run .directory = (.ok [1], .directory) := by
  refine ⟨⟨(Pool.run_launch _ _).trans (Pool.run_follow _ _), ?_, ?_, ?_⟩, ?_, ?_, ?_⟩
  · decide +kernel
  · decide +kernel
  · decide +kernel
  · obtain ⟨l, hrun⟩ := exists_run_longBody (bundles.kind.hash longBody)
    exact ⟨_, l, rfl, hrun⟩
  · -- the long body has the hash of at most one of these
    have hdistinct : bundles.kind.hash [1] ≠ bundles.kind.hash [2] := by decide +kernel
    obtain ⟨bytes, hbytes⟩ : ∃ bytes, bundles.kind.hash longBody ≠ bundles.kind.hash bytes := by
      by_cases h : bundles.kind.hash longBody = bundles.kind.hash [1]
      · exact ⟨[2], by rwa [h]⟩
      · exact ⟨[1], h⟩
    obtain ⟨l, hrun⟩ := exists_run_longBody (bundles.kind.hash bytes)
    exact ⟨bytes, l, hbytes, hrun⟩
  · decide +kernel

end Milpa.Core.ArtifactCache
