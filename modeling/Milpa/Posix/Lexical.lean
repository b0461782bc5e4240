import Mathlib.Data.List.Count
import Mathlib.Data.List.Induction
import Mathlib.Data.Nat.Notation
import Mathlib.Tactic.Common

/-!
# Paths as texts

What the components of a path lead to when `..` takes the last one away, without a look at
what there is (`walk`), and the path from one directory to another (`relpath`): it leads
there unless the directory that it starts from has a `..` below what the two have in
common (`walk_relpath_iff`).
-/

namespace Milpa.Lexical

universe u

variable {α : Type u} [DecidableEq α] (up : α)

/-- One component: `..` leaves a directory, but the root. -/
def step (dir : List α) (c : α) : List α := if c = up then dir.dropLast else dir ++ [c]

/-- The components of a path, from a directory. -/
def walk (dir path : List α) : List α := path.foldl (step up) dir

/-- What a path leaves of the place that it starts from, and what it leads to from there: how many directories are left, and
the components after them. -/
def net (path : List α) : ℕ × List α :=
  path.foldl (fun n c => if c = up then if n.2 = [] then (n.1 + 1, []) else (n.1, n.2.dropLast) else (n.1, n.2 ++ [c])) (0, [])

variable {up}

@[simp] theorem walk_nil (dir : List α) : walk up dir [] = dir := rfl

theorem walk_append (dir path path' : List α) : walk up dir (path ++ path') = walk up (walk up dir path) path' :=
  List.foldl_append

theorem walk_singleton (dir : List α) (c : α) : walk up dir [c] = if c = up then dir.dropLast else dir ++ [c] := rfl

theorem net_append_singleton (path : List α) (c : α) :
    net up (path ++ [c]) = if c = up then if (net up path).2 = [] then ((net up path).1 + 1, []) else ((net up path).1, (net up path).2.dropLast)
      else ((net up path).1, (net up path).2 ++ [c]) := by
  rw [net, List.foldl_append]
  rfl

/-- A path leaves some directories, then enters others. -/
theorem walk_eq_net (dir path : List α) : walk up dir path = dir.take (dir.length - (net up path).1) ++ (net up path).2 := by
  induction path using List.reverseRecOn with
  | nil => simp [net]
  | append_singleton path c ih =>
    rw [walk_append, ih, walk_singleton, net_append_singleton]
    split_ifs with hup hnil
    · rw [hnil, List.append_nil, List.append_nil, List.dropLast_eq_take, List.length_take, List.take_take]
      congr 1
      omega
    · rw [List.dropLast_append_of_ne_nil hnil]
    · rw [List.append_assoc]

/-- Each `..` takes away a component, or leaves a directory. -/
theorem net_count (path : List α) : path.length + (net up path).1 = (net up path).2.length + 2 * path.count up := by
  induction path using List.reverseRecOn with
  | nil => simp [net]
  | append_singleton path c ih =>
    rw [net_append_singleton, List.count_append, List.length_append]
    split_ifs with hup hnil
    · rw [hnil] at ih
      simp only [hup, List.count_singleton_self, List.length_nil, List.length_singleton] at ih ⊢
      omega
    · have hpos : 0 < (net up path).2.length := List.length_pos_iff.mpr hnil
      simp only [hup, List.count_singleton_self, List.length_dropLast, List.length_singleton]
      omega
    · simp only [List.count_singleton, List.length_append, List.length_singleton, beq_iff_eq, if_neg hup]
      omega

/-! ### From one directory to another -/

/-- How many components two paths have in common at their beginning. -/
def common : List α → List α → ℕ
  | a :: as, b :: bs => if a = b then common as bs + 1 else 0
  | _, _ => 0

theorem take_common (a b : List α) : a.take (common a b) = b.take (common a b) := by
  induction a generalizing b with
  | nil => simp [common]
  | cons x as ih =>
    cases b with
    | nil => simp [common]
    | cons y bs =>
      rw [common]
      split_ifs with h
      · rw [List.take_succ_cons, List.take_succ_cons, h, ih]
      · rfl

variable (up) in
/-- The path to a target from a directory: up to what they have in common, then down. -/
def relpath (target base : List α) : List α :=
  List.replicate (base.length - common target base) up ++ target.drop (common target base)

theorem length_net_le (path : List α) : (net up path).2.length ≤ path.length := by
  induction path using List.reverseRecOn with
  | nil => simp [net]
  | append_singleton path c ih =>
    rw [net_append_singleton, List.length_append, List.length_singleton]
    split_ifs
    · simp
    · rw [List.length_dropLast]
      omega
    · rw [List.length_append, List.length_singleton]
      omega

/-- Going up leaves what was entered first, then directories. -/
theorem net_append_replicate (path : List α) (k : ℕ) :
    net up (path ++ List.replicate k up) =
      ((net up path).1 + (k - (net up path).2.length), (net up path).2.take ((net up path).2.length - k)) := by
  induction k with
  | zero => simp
  | succ k ih =>
    rw [List.replicate_succ', ← List.append_assoc, net_append_singleton, ih, if_pos rfl]
    split_ifs with hnil
    · have hle : (net up path).2.length ≤ k := by
        by_contra hlt
        have := congrArg List.length hnil
        simp only [List.length_take, List.length_nil] at this
        omega
      refine Prod.ext ?_ ?_
      · show _ + 1 = _
        dsimp only
        omega
      · rw [show (net up path).2.length - (k + 1) = 0 by omega, List.take_zero]
    · have hlt : k < (net up path).2.length := by
        by_contra hle
        rw [show (net up path).2.length - k = 0 by omega, List.take_zero] at hnil
        exact hnil rfl
      refine Prod.ext ?_ ?_
      · dsimp only
        omega
      · dsimp only
        rw [List.dropLast_eq_take, List.length_take, List.take_take]
        congr 1
        omega

/-- Going up once for each component: each `..` among them is a step too far, twice. -/
theorem net_back (path : List α) : net up (path ++ List.replicate path.length up) = (2 * path.count up, []) := by
  have hcount : path.length + (net up path).1 = (net up path).2.length + 2 * path.count up := net_count path
  have hle : (net up path).2.length ≤ path.length := length_net_le path
  rw [net_append_replicate, show (net up path).2.length - path.length = 0 by omega, List.take_zero]
  congr 1
  omega

/-- **The path to a target leads there**, from where its directory leads, if the directory has no `..` below what it has in common
with the target, or the target leaves what they have in common altogether. -/
theorem walk_relpath_iff (target base : List α) :
    walk up [] (base ++ relpath up target base) = walk up [] target ↔
      up ∉ base.drop (common target base) ∨
        (walk up [] (target.take (common target base))).length ≤ (net up (target.drop (common target base))).1 := by
  have htake := take_common target base
  set k := common target base
  have hbase : base ++ relpath up target base =
      target.take k ++ ((base.drop k ++ List.replicate (base.drop k).length up) ++ target.drop k) := by
    rw [List.length_drop, htake, List.append_assoc, ← List.append_assoc (base.take k), List.take_append_drop]
    rfl
  rw [hbase, walk_append, walk_append]
  conv_lhs => rhs; rw [← List.take_append_drop k target, walk_append]
  set dir := walk up [] (target.take k)
  set n := (net up (target.drop k)).1
  rw [walk_eq_net dir (base.drop k ++ _), net_back, List.append_nil, walk_eq_net _ (target.drop k), walk_eq_net dir (target.drop k),
    List.append_left_inj, List.length_take, List.take_take, ← List.count_pos_iff (a := up)]
  constructor
  · intro h
    have := congrArg List.length h
    simp only [List.length_take] at this
    omega
  · intro h
    congr 1
    omega

end Milpa.Lexical
