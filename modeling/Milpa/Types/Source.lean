import Milpa.Types.Text

/-!
# Sources and keys

The data of `milpa_types` that say where a dependency comes from and what it is called:
`FetchableOrigin` and `SourceId`, the name `DepKey`, and the solver's variable
`SolverKey`.
-/

namespace Milpa

/-- `FetchableOrigin`: an origin that is fetched. -/
inductive FetchableOrigin where
  | git (url : Str) (gitRef subpath : Option Str)
  | oci (registry repository : Str) (digest subpath : Option Str)
  | tarball (url : Str) (subpath : Option Str)
  | local (path : Str)
  | registry (registry : Str) («namespace» : Option Str) (name : Str)
  deriving DecidableEq, Repr

/-- `SourceId`: a fetchable origin or a workspace member. -/
inductive SourceId where
  | fetchable (origin : FetchableOrigin)
  | member (memberName : Str)
  deriving DecidableEq, Repr

/-- `DepKey`. -/
structure DepKey where
  name : Str
  «namespace» : Option Str
  deriving DecidableEq, Repr

namespace DepKey

/-- `DepKey::bare`. -/
def bare (name : Str) : DepKey := ⟨name, none⟩

/-- `solver_var`: `name`, or `ns::name`. -/
def solverVar (k : DepKey) : Str :=
  match k.namespace with
  | none => k.name
  | some ns => ns ++ "::" ++ k.name

/-- `from_solver_var`. -/
def fromSolverVar (s : Str) : DepKey :=
  match s.splitOnceStr "::" with
  | some (ns, name) => ⟨name, some ns⟩
  | none => bare s

/-- A key is read from its text and written as it was. -/
theorem solverVar_fromSolverVar (s : Str) : (fromSolverVar s).solverVar = s := by
  unfold fromSolverVar
  cases h : s.splitOnceStr "::" with
  | none => rfl
  | some p =>
    obtain ⟨ns, name⟩ := p
    show ns ++ "::" ++ name = s
    rw [(Str.splitOnceStr_eq_some h).1, List.append_assoc]

theorem fromSolverVar_injective : Function.Injective fromSolverVar := fun a b h => by
  rw [← solverVar_fromSolverVar a, h, solverVar_fromSolverVar]

/-- `::` is found where it was written, after a text without a colon. -/
theorem splitOnceStr_colons {x y : Str} (hx : ':' ∉ x) : Str.splitOnceStr (x ++ "::" ++ y) "::" = some (x, y) := by
  cases hs : Str.splitOnceStr (x ++ "::" ++ y) "::" with
  | none => exact absurd (List.append_assoc x _ y) (Str.splitOnceStr_eq_none.mp hs x y)
  | some p =>
    obtain ⟨a, b⟩ := p
    obtain ⟨hab, hfirst⟩ := Str.splitOnceStr_eq_some hs
    have hle : a.length ≤ x.length := hfirst x y (List.append_assoc x _ y)
    rw [List.append_assoc] at hab
    rcases List.append_eq_append_iff.mp hab with ⟨m, rfl, hm⟩ | ⟨m, rfl, hm⟩
    · rw [List.length_append] at hle
      have hnil : m = [] := List.eq_nil_of_length_eq_zero (by omega)
      subst hnil
      rw [List.append_nil, List.append_cancel_left hm]
    · cases m with
      | nil => rw [List.append_nil, List.append_cancel_left hm]
      | cons c m =>
        -- the text before the occurrence found would be followed by a colon
        have hc : c = ':' := by simpa using (congrArg List.head? hm).symm
        exact absurd (by simp [hc]) hx

/-- A key whose parts have no colon is read back from its text. -/
theorem fromSolverVar_solverVar {k : DepKey} (hname : ':' ∉ k.name) (hns : ∀ ns ∈ k.namespace, ':' ∉ ns) :
    fromSolverVar k.solverVar = k := by
  obtain ⟨name, ns⟩ := k
  cases ns with
  | none =>
    have hnone : name.splitOnceStr "::" = none :=
      Str.splitOnceStr_eq_none.mpr fun a b h => hname (by rw [h]; simp)
    simp only [solverVar, fromSolverVar, hnone]
    rfl
  | some ns =>
    simp only [solverVar, fromSolverVar, splitOnceStr_colons (hns ns rfl)]

end DepKey

/-- `SolverKey`: the origin string that is the solver's variable, and the name it is shown
under. -/
structure SolverKey where
  identity : Str
  display : DepKey
  deriving DecidableEq, Repr

/-- `dep_dir_name`: the directory of a dependency below `_deps/`. -/
def depDirName (name : Str) («namespace» : Option Str) : Str :=
  match «namespace» with
  | none => name
  | some ns => "@" ++ ns ++ "/" ++ name

end Milpa
