import Mathlib.Data.List.Nodup
import Milpa.Types.Lockfile

/-!
# A selective update

`strip_dep_pin`, and `canonical_name_for` and `strip_pins_for_upgrade` of the command line,
which drive it. A dependency is found by its bare name, and every entry of that bare name
leaves the lockfile for the one that is put at its end: the rest of the lockfile is framed
where the bare name is unique (`frames_iff`), and the entries of other bare names are in any
case (`stripPins_frame`).
-/

namespace Milpa.Core

/-! ### One name -/

/-- A record that outlives the pin: a mirror that was declared. -/
def isDeclaredGit : ProvenanceRecord → Bool
  | .git _ _ _ origin _ => origin == "declared".toList
  | _ => false

/-- What is left of an entry whose pin is stripped. -/
def pinStripped (updated : LockedDep) : LockedDep :=
  { updated with identity := none, provenances := updated.provenances.filter isDeclaredGit }

/-- `strip_dep_pin`; `none` where it panics, as no entry has the name. -/
def stripDepPin (lockfile : Lockfile) (canonicalName : Str) : Option Lockfile := do
  let updated ← lockfile.deps.find? fun d => d.name = canonicalName
  let newDeps := lockfile.deps.filter fun d => d.name ≠ canonicalName
  return { lockfile with deps := newDeps ++ [pinStripped updated] }

@[simp] theorem pinStripped_name (d : LockedDep) : (pinStripped d).name = d.name := rfl

/-- The entries with a bare name. -/
def bearers (name : Str) (deps : List LockedDep) : List LockedDep := deps.filter fun d => d.name = name

theorem stripDepPin_eq_some {lockfile result : Lockfile} {name : Str} (h : stripDepPin lockfile name = some result) :
    ∃ updated, lockfile.deps.find? (fun d => d.name = name) = some updated ∧
      result = { lockfile with deps := lockfile.deps.filter (fun d => d.name ≠ name) ++ [pinStripped updated] } := by
  simp only [stripDepPin, Option.bind_eq_bind, Option.bind_eq_some_iff, Option.pure_def, Option.some.injEq] at h
  obtain ⟨updated, hfind, rfl⟩ := h
  exact ⟨updated, hfind, rfl⟩

/-- `result` is the lockfile with the pin of one entry of the name gone: that entry is somewhere in it,
and all others are as they were, in the order they were in. -/
def Frames (lockfile : Lockfile) (name : Str) (result : Lockfile) : Prop :=
  ∃ before d after before' after', lockfile.deps = before ++ d :: after ∧ d.name = name ∧
    before' ++ after' = before ++ after ∧ result = { lockfile with deps := before' ++ pinStripped d :: after' }

theorem filter_eq_self_of_bearers_nil {name : Str} {deps : List LockedDep} (h : bearers name deps = []) :
    deps.filter (fun d => d.name ≠ name) = deps := by
  rw [List.filter_eq_self]
  intro d hd
  simpa using List.filter_eq_nil_iff.mp h d hd

theorem length_filter_add_bearers (name : Str) (deps : List LockedDep) :
    (deps.filter fun d => d.name ≠ name).length + (bearers name deps).length = deps.length := by
  have := List.length_eq_length_filter_add (l := deps) fun d => decide (d.name = name)
  simp only [bearers, decide_not]
  omega

/-- One entry alone has the name: the lockfile around it. -/
theorem exists_split_of_bearers {name : Str} {deps : List LockedDep} (h : (bearers name deps).length = 1) :
    ∃ before d after, deps = before ++ d :: after ∧ d.name = name ∧ bearers name before = [] ∧ bearers name after = [] := by
  obtain ⟨d, hd⟩ := List.length_eq_one_iff.mp h
  have hmem : d ∈ bearers name deps := by simp [hd]
  obtain ⟨hin, hname⟩ := List.mem_filter.mp hmem
  obtain ⟨before, after, rfl⟩ := List.append_of_mem hin
  have hsplit : bearers name before ++ d :: bearers name after = [d] := by
    simpa [bearers, List.filter_append, List.filter_cons, hname] using hd
  refine ⟨before, d, after, rfl, by simpa using hname, ?_⟩
  have hlen := congrArg List.length hsplit
  simp only [List.length_append, List.length_cons, List.length_nil] at hlen
  exact ⟨List.eq_nil_of_length_eq_zero (by omega), List.eq_nil_of_length_eq_zero (by omega)⟩

/-- Stripping the pin of a name frames the lockfile just where one entry has the bare name. -/
theorem frames_iff (lockfile : Lockfile) (name : Str) :
    (∃ result, stripDepPin lockfile name = some result ∧ Frames lockfile name result) ↔
      (bearers name lockfile.deps).length = 1 := by
  constructor
  · rintro ⟨result, hstrip, before, d, after, before', after', hdeps, -, hsame, hresult⟩
    obtain ⟨updated, -, rfl⟩ := stripDepPin_eq_some hstrip
    -- No entry is lost, so all but one of them are kept by the filter.
    have hlen := congrArg (fun l : Lockfile => l.deps.length) hresult
    have hkept := congrArg List.length hsame
    have hall := length_filter_add_bearers name lockfile.deps
    rw [hdeps] at hall ⊢
    simp only [hdeps, List.length_append, List.length_cons, List.length_nil] at hlen hkept hall
    omega
  · intro h
    obtain ⟨before, d, after, hdeps, hname, hbefore, hafter⟩ := exists_split_of_bearers h
    have hfind : lockfile.deps.find? (fun d => d.name = name) = some d := by
      rw [hdeps, List.find?_append, List.find?_eq_none.mpr fun x hx => by
        simpa using List.filter_eq_nil_iff.mp hbefore x hx]
      simp [hname]
    have hfilter : lockfile.deps.filter (fun d => d.name ≠ name) = before ++ after := by
      rw [hdeps, List.filter_append, filter_eq_self_of_bearers_nil hbefore, List.filter_cons_of_neg (by simp [hname]),
        filter_eq_self_of_bearers_nil hafter]
    refine ⟨{ lockfile with deps := before ++ after ++ [pinStripped d] }, ?_, before, d, after, before ++ after, [],
      hdeps, hname, by simp, rfl⟩
    rw [stripDepPin, hfind, hfilter]
    rfl

/-- A lockfile with the package `http` of two namespaces. -/
def twoNamespaces : Lockfile where
  version := lockfileSchemaVersion
  strategy := "maxver".toList
  excludeNewer := none
  deps := [none, some "acme".toList].map fun ns =>
    ⟨"http".toList, ns, some "dag-sha256:0".toList, "1.0.0".toList, "src".toList, [], [], [], none, [], [], none, none, none⟩

/-- An update of `http` loses the package of this name in the other namespace. -/
theorem other_namespace_lost :
    ¬ ∀ (lockfile : Lockfile) (name : Str), (∃ d ∈ lockfile.deps, d.name = name) →
      ∃ result, stripDepPin lockfile name = some result ∧ Frames lockfile name result := by
  intro h
  have hone := (frames_iff twoNamespaces "http".toList).mp (h _ _ (by decide))
  exact absurd hone (by decide)

/-! ### The names of a command -/

/-- `canonical_name_for`. -/
def canonicalNameFor (name : Str) (lockfile : Lockfile) : Str :=
  match lockfile.deps.find? fun d => d.name = name ∨ name ∈ d.aliases with
  | some d => d.name
  | none => name

/-- `strip_pins_for_upgrade` from the lockfile on, for the names of the command; `none` where one is of no entry. -/
def stripPins (lockfile : Lockfile) (depNames : List Str) : Option Lockfile :=
  depNames.foldlM (fun result name => stripDepPin result (canonicalNameFor name result)) lockfile

/-- What the name of a command addresses: the entry that is found for it has it as its name or as an alias. -/
theorem stripDepPin_canonical {lockfile result : Lockfile} {name : Str}
    (h : stripDepPin lockfile (canonicalNameFor name lockfile) = some result) :
    ∃ d ∈ lockfile.deps, d.name = canonicalNameFor name lockfile ∧ (d.name = name ∨ name ∈ d.aliases) := by
  obtain ⟨updated, hfind, -⟩ := stripDepPin_eq_some h
  have hmem := List.mem_of_find?_eq_some hfind
  have hname : updated.name = canonicalNameFor name lockfile := by simpa using List.find?_some hfind
  unfold canonicalNameFor at hname ⊢
  split
  case h_1 d hd => exact ⟨d, List.mem_of_find?_eq_some hd, rfl, by simpa using List.find?_some hd⟩
  case h_2 hd =>
    rw [hd] at hname
    exact ⟨updated, hmem, hname, .inl hname⟩

/-- The entries that have none of the names, neither as their bare name nor as an alias. -/
def unaddressed (depNames : List Str) (lockfile : Lockfile) : List LockedDep :=
  lockfile.deps.filter fun d => d.name ∉ depNames ∧ ∀ a ∈ d.aliases, a ∉ depNames

theorem unaddressed_append_pinStripped {depNames : List Str} {d : LockedDep} {kept : List LockedDep} {lockfile : Lockfile}
    (haddressed : d.name ∈ depNames ∨ ∃ a ∈ d.aliases, a ∈ depNames) :
    unaddressed depNames { lockfile with deps := kept ++ [pinStripped d] } = unaddressed depNames { lockfile with deps := kept } := by
  have hgone : ¬ ((pinStripped d).name ∉ depNames ∧ ∀ a ∈ (pinStripped d).aliases, a ∉ depNames) := by
    rintro ⟨hname, haliases⟩
    rcases haddressed with h | ⟨a, ha, h⟩
    · exact hname h
    · exact haliases a ha h
  have hnil : unaddressed depNames { lockfile with deps := [pinStripped d] } = [] := by
    refine List.filter_eq_nil_iff.mpr fun e he => ?_
    rw [List.mem_singleton.mp he]
    exact decide_eq_true_iff.not.mpr hgone
  rw [unaddressed, List.filter_append]
  exact (congrArg _ hnil).trans (List.append_nil _)

/-- One name of the command, in a lockfile whose bare names are distinct. -/
theorem stripDepPin_frame {lockfile result : Lockfile} {name : Str} {depNames : List Str} (hmem : name ∈ depNames)
    (hnodup : (lockfile.deps.map LockedDep.name).Nodup)
    (h : stripDepPin lockfile (canonicalNameFor name lockfile) = some result) :
    (result.deps.map LockedDep.name).Nodup ∧ unaddressed depNames result = unaddressed depNames lockfile := by
  obtain ⟨d, hd, hname, haddressed⟩ := stripDepPin_canonical h
  obtain ⟨updated, hfind, rfl⟩ := stripDepPin_eq_some h
  have huniq : ∀ e ∈ lockfile.deps, e.name = d.name → e = d := fun e he =>
    List.inj_on_of_nodup_map hnodup he hd
  have hupdated : updated = d :=
    huniq updated (List.mem_of_find?_eq_some hfind) (by simpa [hname] using List.find?_some hfind)
  subst hupdated
  constructor
  · rw [List.map_append, List.nodup_append]
    refine ⟨hnodup.sublist (List.filter_sublist.map _), by simp, ?_⟩
    intro a ha b hb
    obtain ⟨e, he, rfl⟩ := List.mem_map.mp ha
    simp only [List.map_cons, pinStripped_name, List.map_nil, List.mem_singleton] at hb
    have := (List.mem_filter.mp he).2
    simp_all
  · have haddr : updated.name ∈ depNames ∨ ∃ a ∈ updated.aliases, a ∈ depNames := by
      rcases haddressed with rfl | halias
      · exact .inl hmem
      · exact .inr ⟨name, halias, hmem⟩
    rw [unaddressed_append_pinStripped haddr]
    -- The filter of the update drops the entry that is addressed, and this one only.
    simp only [unaddressed, List.filter_filter]
    refine List.filter_congr fun e he => ?_
    simp only [← Bool.decide_and, decide_eq_decide]
    refine ⟨And.left, fun hun => ⟨hun, fun heq => ?_⟩⟩
    rw [huniq e he (heq.trans hname.symm)] at hun
    rcases haddr with h | ⟨a, ha, h⟩
    · exact hun.1 h
    · exact hun.2 a ha h

/-- A whole command: what it does not address keeps its entry and its order. -/
theorem stripPins_frame {lockfile result : Lockfile} {depNames : List Str}
    (hnodup : (lockfile.deps.map LockedDep.name).Nodup) (h : stripPins lockfile depNames = some result) :
    unaddressed depNames result = unaddressed depNames lockfile := by
  suffices hrun : ∀ rest, (∀ name ∈ rest, name ∈ depNames) → ∀ lockfile : Lockfile,
      (lockfile.deps.map LockedDep.name).Nodup → stripPins lockfile rest = some result →
        unaddressed depNames result = unaddressed depNames lockfile from
    hrun depNames (fun _ hname => hname) lockfile hnodup h
  intro rest
  induction rest with
  | nil =>
    intro _ lockfile _ h
    obtain rfl : lockfile = result := by simpa [stripPins] using h
    rfl
  | cons name rest ih =>
    intro hsub lockfile hnodup h
    simp only [stripPins, List.foldlM_cons, Option.bind_eq_bind, Option.bind_eq_some_iff] at h
    obtain ⟨next, hstep, hrest⟩ := h
    obtain ⟨hnext, hframe⟩ := stripDepPin_frame (hsub name List.mem_cons_self) hnodup hstep
    rw [← hframe]
    exact ih (fun n hn => hsub n (List.mem_cons_of_mem _ hn)) next hnext hrest

end Milpa.Core
