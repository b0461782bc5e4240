import Milpa.Solver.ConstraintText
import Milpa.Solver.VersionGaps

/-!
# Round trips of versions and version sets

`format_version_str` writes a version that `parse_version` gave so that it is read back as
it was, and `vs_to_constraint_str` writes a set made from such versions so that
`from_constraint` gives an equal set.
-/

namespace Milpa.Solver

/-- **A version that was read is read again from its text**, and its text is what is written of it. -/
theorem parseVersion_formatVersionStr {text : Str} {v : Version} (h : parseVersion text = some v) :
    parseVersion (formatVersionStr v) = some v ∧
      (parseVersion (formatVersionStr v)).map formatVersionStr = some (formatVersionStr v) := by
  have hread : parseVersion (formatVersionStr v) = some v := parseVersion_display (readable_parseVersion h)
  exact ⟨hread, by rw [hread, Option.map_some]⟩

theorem parseVersion_formatVersionStr_rc :
    parseVersion (formatVersionStr ⟨1, 2, 0, [.alpha "rc", .numeric 7], "b-1.02"⟩) =
        some ⟨1, 2, 0, [.alpha "rc", .numeric 7], "b-1.02"⟩ ∧
      (parseVersion (formatVersionStr ⟨1, 2, 0, [.alpha "rc", .numeric 7], "b-1.02"⟩)).map formatVersionStr =
        some (formatVersionStr ⟨1, 2, 0, [.alpha "rc", .numeric 7], "b-1.02"⟩) :=
  have hread : parseVersion "v1.02.0-rc.007+b-1.02" = some ⟨1, 2, 0, [.alpha "rc", .numeric 7], "b-1.02"⟩ := by
    decide
  parseVersion_formatVersionStr hread

namespace VersionSet

/-- The sets that the public constructors and the set operations make from versions that were read. -/
inductive FromParsed : VersionSet → Prop where
  | full : FromParsed full
  | empty : FromParsed empty
  | gte {text : Str} {v : Version} (h : parseVersion text = some v) : FromParsed (gte v)
  | gt {text : Str} {v : Version} (h : parseVersion text = some v) : FromParsed (gt v)
  | lt {text : Str} {v : Version} (h : parseVersion text = some v) : FromParsed (lt v)
  | lte {text : Str} {v : Version} (h : parseVersion text = some v) : FromParsed (lte v)
  | eq {text : Str} {v : Version} (h : parseVersion text = some v) : FromParsed (eq v)
  | fromConstraint {c : Option Str} {s : VersionSet} (h : fromConstraint c = .ok s) : FromParsed s
  | intersect {s t : VersionSet} : FromParsed s → FromParsed t → FromParsed (s.intersect t)
  | union {s t : VersionSet} : FromParsed s → FromParsed t → FromParsed (s.union t)
  | complement {s : VersionSet} : FromParsed s → FromParsed s.complement

theorem FromParsed.built {s : VersionSet} (h : FromParsed s) : Built s := by
  induction h with
  | full => exact .full
  | empty => exact .empty
  | gte _ => exact .gte _
  | gt _ => exact .gt _
  | lt _ => exact .lt _
  | lte _ => exact .lte _
  | eq _ => exact .eq _
  | fromConstraint h => exact .fromConstraint h
  | intersect _ _ hs ht => exact .intersect hs ht
  | union _ _ hs ht => exact .union hs ht
  | complement _ hs => exact .complement hs

/-! ### Bounds that can be read -/

theorem readable_release (major minor patch : UInt64) : (Version.release major minor patch).Readable :=
  ⟨by simp [Version.release], by simp [Version.release]⟩

theorem readable_interval {lo hi : Option Version} {loC hiC : Bool} (hlo : ∀ v ∈ lo, v.Readable) (hhi : ∀ v ∈ hi, v.Readable) :
    Readable ⟨[⟨lo, hi, loC, hiC⟩]⟩ := by
  intro iv hiv
  rw [List.mem_singleton.mp hiv]
  exact ⟨hlo, hhi⟩

theorem readable_gte {v : Version} (h : v.Readable) : Readable (gte v) := readable_interval (by simpa using h) (by simp)

theorem readable_lt {v : Version} (h : v.Readable) : Readable (lt v) := readable_interval (by simp) (by simpa using h)

theorem readable_eq {v : Version} (h : v.Readable) : Readable (eq v) := readable_interval (by simpa using h) (by simpa using h)

theorem readable_empty : Readable empty := fun _ hiv => absurd hiv List.not_mem_nil

/-- The bounds of a union are bounds of what is united. -/
theorem Readable.union {s t : VersionSet} (hs : Readable s) (ht : Readable t) : Readable (s.union t) := by
  refine forall_normalizeIntervals (fun _ _ => readable_extendLast) fun iv hiv => ?_
  rcases List.mem_append.mp hiv with hiv | hiv
  · exact hs iv hiv
  · exact ht iv hiv

/-- The bounds of the gaps are bounds of the intervals between which they lie. -/
theorem readable_gapsOf {first : Interval} {rest : List Interval} (h : ∀ iv ∈ first :: rest, iv.Readable) :
    ∀ iv ∈ gapsOf first rest, iv.Readable := by
  intro iv hiv
  simp only [gapsOf, List.mem_append, List.mem_map] at hiv
  rcases hiv with (hiv | ⟨⟨a, b⟩, hab, rfl⟩) | hiv
  · have hfirst := (h first List.mem_cons_self).1
    unfold leftGap at hiv
    split at hiv
    · rename_i lo0 hlo0
      rw [List.mem_singleton.mp hiv]
      exact ⟨by simp, by simpa using hfirst lo0 hlo0⟩
    · exact absurd hiv List.not_mem_nil
  · obtain ⟨ha, hb⟩ := List.of_mem_zip hab
    exact ⟨(h a ha).2, (h b (List.mem_cons_of_mem first hb)).1⟩
  · have hlast : (rest.getLastD first).Readable := by
      exact h _ List.getLastD_mem_cons
    unfold rightTail at hiv
    split at hiv
    · rename_i hi0 hhi0
      rw [List.mem_singleton.mp hiv]
      exact ⟨by simpa using hlast.2 hi0 hhi0, by simp⟩
    · exact absurd hiv List.not_mem_nil

theorem Readable.complement {s : VersionSet} (hs : Readable s) : Readable s.complement := by
  obtain ⟨_ | ⟨first, rest⟩⟩ := s
  · exact readable_full
  · refine forall_normalizeIntervals (fun _ _ => readable_extendLast) fun iv hiv => ?_
    exact readable_gapsOf hs iv hiv

theorem readable_gt {v : Version} (h : v.Readable) : Readable (gt v) := (readable_gte h).intersect (readable_eq h).complement

theorem readable_lte {v : Version} (h : v.Readable) : Readable (lte v) := (readable_lt h).union (readable_eq h)

theorem readable_tilde {v : Version} (h : v.Readable) : Readable (tilde v) := by
  unfold tilde
  dsimp only
  split_ifs
  · exact (readable_gte h).intersect (readable_lt (readable_release _ _ _))
  · exact (readable_gte h).intersect (readable_lt (readable_release _ _ _))

theorem readable_caret {v : Version} (h : v.Readable) : Readable (caret v) := by
  unfold caret
  dsimp only
  split_ifs
  · exact (readable_gte h).intersect (readable_lt (readable_release _ _ _))
  · exact (readable_gte h).intersect (readable_lt (readable_release _ _ _))
  · exact (readable_gte h).intersect (readable_lt (readable_release _ _ _))
  · exact (readable_gte h).intersect (readable_lt (readable_release _ _ _))

/-- Each operator makes a set with bounds that can be read. -/
theorem readable_clauseOp {op : Str} {make : Version → VersionSet} (hop : (op, make) ∈ clauseOps) {v : Version} (h : v.Readable) :
    Readable (make v) := by
  simp only [clauseOps, List.mem_cons, Prod.mk.injEq, List.not_mem_nil, or_false] at hop
  rcases hop with ⟨-, rfl⟩ | ⟨-, rfl⟩ | ⟨-, rfl⟩ | ⟨-, rfl⟩ | ⟨-, rfl⟩ | ⟨-, rfl⟩ | ⟨-, rfl⟩ | ⟨-, rfl⟩ | ⟨-, rfl⟩
  · exact readable_gte h
  · exact readable_lte h
  · exact readable_eq h
  · exact (readable_eq h).complement
  · exact readable_gt h
  · exact readable_lt h
  · exact readable_tilde h
  · exact readable_caret h
  · exact readable_eq h

theorem readable_parseClause {clause : Str} {s : VersionSet} (h : parseClause clause = .ok s) : Readable s := by
  unfold parseClause at h
  dsimp only at h
  split at h
  · rename_i make rest hop
    obtain ⟨op, hmem, hop⟩ := List.exists_of_findSome?_eq_some hop
    obtain ⟨_, -, hmake⟩ := Option.map_eq_some_iff.mp hop
    cases hmake
    split at h
    · rename_i v hv
      cases h
      exact readable_clauseOp hmem (readable_parseVersion hv)
    · cases h
  · cases h

theorem readable_parseArm {arm : Str} {s : VersionSet} (h : parseArm arm = .ok s) : Readable s := by
  refine Result.foldlM_invariant h readable_full fun s clause s' hs hstep => ?_
  obtain ⟨t, ht, hr⟩ := Result.bind_eq_ok.mp hstep
  cases hr
  exact hs.intersect (readable_parseClause ht)

theorem readable_fromConstraint {c : Option Str} {s : VersionSet} (h : fromConstraint c = .ok s) : Readable s := by
  unfold fromConstraint at h
  cases c with
  | none =>
    cases h
    exact readable_full
  | some raw =>
    dsimp only at h
    split_ifs at h
    · cases h
      exact readable_full
    · refine Result.foldlM_invariant h readable_empty fun s arm s' hs hstep => ?_
      obtain ⟨t, ht, hr⟩ := Result.bind_eq_ok.mp hstep
      cases hr
      exact hs.union (readable_parseArm ht)

theorem FromParsed.readable {s : VersionSet} (h : FromParsed s) : Readable s := by
  induction h with
  | full => exact readable_full
  | empty => exact readable_empty
  | gte h => exact readable_gte (readable_parseVersion h)
  | gt h => exact readable_gt (readable_parseVersion h)
  | lt h => exact readable_lt (readable_parseVersion h)
  | lte h => exact readable_lte (readable_parseVersion h)
  | eq h => exact readable_eq (readable_parseVersion h)
  | fromConstraint h => exact readable_fromConstraint h
  | intersect _ _ hs ht => exact hs.intersect ht
  | union _ _ hs ht => exact hs.union ht
  | complement _ hs => exact hs.complement

/-! ### The round trip -/

/-- **A set made from versions that were read is equal to the set that its text gives.** -/
theorem fromConstraint_toConstraintStr_eq {s : VersionSet} (h : FromParsed s) :
    ∃ t, fromConstraint (some (toConstraintStr s)) = .ok t ∧ (t == s) = true := by
  obtain ⟨t, ht, hcovers⟩ := covers_fromConstraint_toConstraintStr h.readable
  have hcanonical := (Built.fromConstraint ht).canonicalForm
  exact ⟨t, ht, (beq_iff_covers hcanonical h.built.canonicalForm).mpr hcovers⟩

theorem fromConstraint_toConstraintStr_pre :
    ∃ t, fromConstraint (some (toConstraintStr ((gte ⟨1, 0, 0, [.alpha "rc"], []⟩).intersect (eq ⟨1, 4, 0, [], []⟩).complement))) = .ok t ∧
      (t == (gte ⟨1, 0, 0, [.alpha "rc"], []⟩).intersect (eq ⟨1, 4, 0, [], []⟩).complement) = true :=
  have hrc : parseVersion "1.0.0-rc" = some ⟨1, 0, 0, [.alpha "rc"], []⟩ := by decide
  have hrelease : parseVersion "1.4.0" = some ⟨1, 4, 0, [], []⟩ := by decide
  fromConstraint_toConstraintStr_eq (.intersect (.gte hrc) (.complement (.eq hrelease)))

end VersionSet

end Milpa.Solver
