import Milpa.Core.Lockfile

/-!
# Paths of the store

`path_for` and `relpath` of `store.rs`: an entry of the content-addressed store lies under
the algorithm and the digest of its identity, and a link to it has a text that leads there
from the directory of the link. A path is the list of its components.
-/

namespace Milpa.Core

open Result

/-- A path: its components, with `/` for the root. -/
abbrev PathBuf := List Str

/-- The components of a text. -/
def components (text : Str) : PathBuf :=
  (if text.head? = some '/' then ["/".toList] else []) ++
    (text.splitOn '/').filter fun c => decide (c ≠ [] ∧ c ≠ ".".toList)

/-- `CaStore`. -/
structure CaStore where
  root : PathBuf
  deriving DecidableEq, Repr

/-- `path_for`. -/
def CaStore.pathFor (store : CaStore) (identity : Str) : Except IdentityError PathBuf := do
  let (algo, hex) ← parseIdentity identity
  return store.root ++ [algo, hex]

/-- The number of components that two paths begin with. -/
def commonLength (path base : PathBuf) : ℕ := ((path.zip base).takeWhile fun p => decide (p.1 = p.2)).length

/-- `relpath`. -/
def relpath (path base : PathBuf) : PathBuf :=
  let common := commonLength path base
  let out := List.replicate (base.length - common) "..".toList ++ path.drop common
  if out = [] then [".".toList] else out

/-- Where a text leads from a directory. -/
def follow (dir text : PathBuf) : PathBuf :=
  text.foldl (fun p c => if c = "..".toList then p.dropLast else if c = ".".toList then p else p ++ [c]) dir

/-- A path from the root that is written out: it has no `..` and no `.`. -/
structure Clean (path : PathBuf) : Prop where
  absolute : path.head? = some "/".toList
  noParent : "..".toList ∉ path
  noCurrent : ".".toList ∉ path

instance (path : PathBuf) : Decidable (Clean path) :=
  decidable_of_iff (path.head? = some "/".toList ∧ "..".toList ∉ path ∧ ".".toList ∉ path)
    ⟨fun ⟨ha, hp, hc⟩ => ⟨ha, hp, hc⟩, fun h => ⟨h.absolute, h.noParent, h.noCurrent⟩⟩

/-! ### Identities and their paths -/

/-- An identity that is valid is its algorithm and its digest. -/
theorem parseIdentity_eq_ok {s algorithm digest : Str} (h : parseIdentity s = .ok (algorithm, digest)) :
    s = algorithm ++ ':' :: digest ∧ algorithm = "dag-sha256".toList ∧ digest.all isLowerHex = true := by
  obtain ⟨⟨algo, hex⟩, hsplit, h⟩ := bind_eq_ok.mp h
  have hs : s = algo ++ ':' :: hex := by
    unfold splitIdentityScheme at hsplit
    split at hsplit
    · cases hsplit
      exact (Str.splitOnce_eq_some.mp ‹_›).1
    · cases hsplit
  dsimp only at h
  split at h
  · cases h
  · rename_i key expectedLen hfind
    have halgo : key = algo := by simpa using List.find?_some hfind
    have hkey : key = "dag-sha256".toList := by
      have hmem := List.mem_of_find?_eq_some hfind
      simp only [supportedAlgorithms, List.mem_singleton, Prod.mk.injEq] at hmem
      exact hmem.1
    split_ifs at h with hlen hhex
    cases h
    exact ⟨hs, halgo ▸ hkey, by simpa using hhex⟩

variable {store : CaStore}

theorem pathFor_eq_ok {identity : Str} {path : PathBuf} (h : store.pathFor identity = .ok path) :
    ∃ hex, identity = "dag-sha256:".toList ++ hex ∧ hex.all isLowerHex = true ∧ path = store.root ++ ["dag-sha256".toList, hex] := by
  obtain ⟨⟨algo, hex⟩, hparse, h⟩ := bind_eq_ok.mp h
  obtain ⟨hid, rfl, hhex⟩ := parseIdentity_eq_ok hparse
  exact ⟨hex, hid, hhex, pure_eq_ok.mp h⟩

/-- The identity of an entry is known from its path. -/
theorem pathFor_injective {identity identity' : Str} {path : PathBuf} (h : store.pathFor identity = .ok path)
    (h' : store.pathFor identity' = .ok path) : identity = identity' := by
  obtain ⟨hex, rfl, -, hpath⟩ := pathFor_eq_ok h
  obtain ⟨hex', rfl, -, hpath'⟩ := pathFor_eq_ok h'
  have heq := List.append_cancel_left (hpath.symm.trans hpath')
  rw [(List.cons.inj (List.cons.inj heq).2).1]

theorem pathFor_clean {identity : Str} {path : PathBuf} (hroot : Clean store.root) (h : store.pathFor identity = .ok path) : Clean path := by
  obtain ⟨hex, -, hhex, rfl⟩ := pathFor_eq_ok h
  have hdot : ∀ rest, hex ≠ '.' :: rest := fun rest heq => by
    rw [heq, List.all_cons] at hhex
    exact absurd hhex (by simp [show isLowerHex '.' = false from rfl])
  refine ⟨?_, ?_, ?_⟩
  · cases hr : store.root with
    | nil => exact absurd hroot.absolute (by simp [hr])
    | cons c rest => simpa [hr] using hroot.absolute
  · have hne : "..".toList ≠ hex := fun heq => hdot _ heq.symm
    simp only [List.mem_append, List.mem_cons, List.not_mem_nil, or_false, not_or]
    exact ⟨hroot.noParent, by decide, hne⟩
  · have hne : ".".toList ≠ hex := fun heq => hdot _ heq.symm
    simp only [List.mem_append, List.mem_cons, List.not_mem_nil, or_false, not_or]
    exact ⟨hroot.noCurrent, by decide, hne⟩

/-! ### Relative texts -/

theorem take_commonLength (path base : PathBuf) : path.take (commonLength path base) = base.take (commonLength path base) := by
  induction path generalizing base with
  | nil => cases base <;> simp [commonLength]
  | cons c path ih =>
    cases base with
    | nil => simp [commonLength]
    | cons d base =>
      by_cases h : c = d
      · have hsucc : commonLength (c :: path) (d :: base) = commonLength path base + 1 := by simp [commonLength, h]
        rw [hsucc, List.take_succ_cons, List.take_succ_cons, ih, h]
      · simp [commonLength, h]

theorem commonLength_le (path base : PathBuf) : commonLength path base ≤ base.length := by
  have hle : commonLength path base ≤ (path.zip base).length := (List.takeWhile_sublist _).length_le
  rw [List.length_zip] at hle
  omega

theorem follow_append (dir text text' : PathBuf) : follow dir (text ++ text') = follow (follow dir text) text' := List.foldl_append

theorem follow_parents (dir : PathBuf) (k : ℕ) : follow dir (List.replicate k "..".toList) = dir.take (dir.length - k) := by
  induction k generalizing dir with
  | zero => simp [follow]
  | succ k ih =>
    have hstep : follow dir (List.replicate (k + 1) "..".toList) = follow dir.dropLast (List.replicate k "..".toList) := rfl
    rw [hstep, ih, List.dropLast_eq_take, List.take_take, List.length_take]
    congr 1
    omega

theorem follow_names {text : PathBuf} (hparent : "..".toList ∉ text) (hcurrent : ".".toList ∉ text) (dir : PathBuf) :
    follow dir text = dir ++ text := by
  induction text generalizing dir with
  | nil => simp [follow]
  | cons c text ih =>
    obtain ⟨hc, hparent⟩ := not_or.mp (fun h => hparent (List.mem_cons.mpr h))
    obtain ⟨hc', hcurrent⟩ := not_or.mp (fun h => hcurrent (List.mem_cons.mpr h))
    have hstep : follow dir (c :: text) = follow (dir ++ [c]) text := by
      rw [follow, List.foldl_cons, if_neg (Ne.symm hc), if_neg (Ne.symm hc')]
      rfl
    rw [hstep, ih hparent hcurrent, List.append_assoc]
    rfl

/-- The relative text of a path leads to it. -/
theorem follow_relpath {path : PathBuf} (h : Clean path) (base : PathBuf) : follow base (relpath path base) = path := by
  have htake := take_commonLength path base
  have hle := commonLength_le path base
  have hout : follow base (List.replicate (base.length - commonLength path base) "..".toList ++ path.drop (commonLength path base)) = path := by
    rw [follow_append, follow_parents, follow_names (fun hmem => h.noParent (List.mem_of_mem_drop hmem))
      (fun hmem => h.noCurrent (List.mem_of_mem_drop hmem)), Nat.sub_sub_self hle, ← htake, List.take_append_drop]
  rw [relpath]
  split_ifs with hnil
  · rw [hnil] at hout
    exact hout
  · exact hout

end Milpa.Core
