import Milpa.Solver.VersionText
import Mathlib

/-!
# Semver precedence

Section 11 of semver 2.0.0, on the texts of versions: the numbers of a release and the
identifiers made of digits alone are natural numbers of any size. The order of the versions
that `parse_version` gives agrees with it where the number of every such identifier fits into
a `u64`. A larger one is kept as text, and compared as text: `cmp_eq_precedence_iff` says when
that is noticed.
-/

namespace Milpa.Solver

/-! ### Lexicographic comparison -/

section

variable {α β : Type} [LinearOrder α] [LinearOrder β]

theorem cmp_toLex (a c : α) (b d : β) : cmp (toLex (a, b)) (toLex (c, d)) = (cmp a c).then (cmp b d) := by
  rcases lt_trichotomy a c with h | rfl | h
  · rw [(cmp_eq_lt_iff _ _).mpr h, Ordering.lt_then, cmp_eq_lt_iff, Prod.Lex.toLex_lt_toLex]
    exact Or.inl h
  · rw [cmp_self_eq_eq, Ordering.eq_then]
    rcases lt_trichotomy b d with h | rfl | h
    · rw [(cmp_eq_lt_iff _ _).mpr h, cmp_eq_lt_iff, Prod.Lex.toLex_lt_toLex]
      exact Or.inr ⟨rfl, h⟩
    · rw [cmp_self_eq_eq, cmp_self_eq_eq]
    · rw [(cmp_eq_gt_iff _ _).mpr h, cmp_eq_gt_iff, Prod.Lex.toLex_lt_toLex]
      exact Or.inr ⟨rfl, h⟩
  · rw [(cmp_eq_gt_iff _ _).mpr h, Ordering.gt_then, cmp_eq_gt_iff, Prod.Lex.toLex_lt_toLex]
    exact Or.inl h

theorem cmp_list (l m : List α) : @cmp (List α) _ LinearOrder.toDecidableLT l m = l.compareLex cmp m := by
  induction l generalizing m with
  | nil =>
    cases m with
    | nil => exact cmp_self_eq_eq _
    | cons b m => exact (cmp_eq_lt_iff _ _).mpr (List.nil_lt_cons b m)
  | cons a l ih =>
    cases m with
    | nil => exact (cmp_eq_gt_iff _ _).mpr (List.nil_lt_cons a l)
    | cons b m =>
      rw [List.compareLex_cons_cons, ← ih]
      rcases lt_trichotomy a b with h | rfl | h
      · rw [(cmp_eq_lt_iff _ _).mpr h, Ordering.lt_then, cmp_eq_lt_iff, List.cons_lt_cons_iff]
        exact Or.inl h
      · rw [cmp_self_eq_eq, Ordering.eq_then]
        rcases lt_trichotomy l m with h | rfl | h
        · rw [(cmp_eq_lt_iff _ _).mpr h, cmp_eq_lt_iff, List.cons_lt_cons_iff]
          exact Or.inr ⟨rfl, h⟩
        · rw [cmp_self_eq_eq, cmp_self_eq_eq]
        · rw [(cmp_eq_gt_iff _ _).mpr h, cmp_eq_gt_iff, List.cons_lt_cons_iff]
          exact Or.inr ⟨rfl, h⟩
      · rw [(cmp_eq_gt_iff _ _).mpr h, Ordering.gt_then, cmp_eq_gt_iff, List.cons_lt_cons_iff]
        exact Or.inl h

theorem compareLex_eq_eq {l m : List α} : l.compareLex cmp m = .eq ↔ l = m := by
  rw [← cmp_list]
  exact cmp_eq_eq_iff l m

theorem compareLex_eq_lt {l m : List α} : l.compareLex cmp m = .lt ↔ l < m := by
  rw [← cmp_list]
  exact cmp_eq_lt_iff l m

theorem compareLex_eq_gt {l m : List α} : l.compareLex cmp m = .gt ↔ m < l := by
  rw [← cmp_list]
  exact cmp_eq_gt_iff l m

end

/-! ### The parts of a text -/

/-- The text of a version without the white space around it, a leading `v`, and the build metadata. -/
def bareText (text : Str) : Str := (cutOnce ((text.trim.stripPrefix "v").getD text.trim) '+').1

/-- The number that digits write. -/
def decimal (digits : Str) : ℕ := Nat.ofDigitChars 10 digits 0

/-- The numbers of the release. -/
def releaseNumbers (text : Str) : List ℕ := (Str.split (cutOnce (bareText text) '-').1 '.').map decimal

/-- The identifiers of the pre-release tag, as they are written. -/
def tagIdentifiers (text : Str) : Option (List Str) := (cutOnce (bareText text) '-').2.map fun tag => tag.split '.'

/-! ### Precedence -/

/-- An identifier made of digits alone. -/
def isNumber (p : Str) : Bool := p.all Char.isDigit

/-- Two identifiers: numbers by their value, below the others, and these by their characters. -/
def identifierOrder (p q : Str) : Ordering :=
  match isNumber p, isNumber q with
  | true, true => cmp (decimal p) (decimal q)
  | true, false => .lt
  | false, true => .gt
  | false, false => p.compareLex cmp q

/-- Two tags: identifier by identifier, and a proper beginning is below. -/
def identifiersOrder (ps qs : List Str) : Ordering := ps.compareLex identifierOrder qs

/-- Two tags, where no tag is above each tag. -/
def tagOrder : Option (List Str) → Option (List Str) → Ordering
  | none, none => .eq
  | none, some _ => .gt
  | some _, none => .lt
  | some ps, some qs => identifiersOrder ps qs

/-- **The precedence of two texts**: releases first, then tags. -/
def precedence (a b : Str) : Ordering :=
  ((releaseNumbers a).compareLex cmp (releaseNumbers b)).then (tagOrder (tagIdentifiers a) (tagIdentifiers b))

/-! ### Where the code agrees -/

/-- A number that a `u64` holds. -/
def fitsU64 (p : Str) : Bool := isNumber p && decide (decimal p < 2 ^ 64)

/-- A number that no `u64` holds. -/
def isLarge (p : Str) : Bool := isNumber p && decide (2 ^ 64 ≤ decimal p)

/-- The same identifier: the same text, or the same number where both fit into a `u64`. -/
def SameIdentifier (p q : Str) : Prop := p = q ∨ fitsU64 p = true ∧ fitsU64 q = true ∧ decimal p = decimal q

instance (p q : Str) : Decidable (SameIdentifier p q) :=
  inferInstanceAs (Decidable (p = q ∨ fitsU64 p = true ∧ fitsU64 q = true ∧ decimal p = decimal q))

/-- Where the tags first differ, no large number is put in a wrong place by the characters of its digits. -/
def TagsTold : List Str → List Str → Prop
  | p :: ps, q :: qs =>
    if SameIdentifier p q then TagsTold ps qs
    else
      match isLarge p, isLarge q with
      | false, false => True
      | true, false => fitsU64 q = true ∨ p < q
      | false, true => fitsU64 p = true ∨ q < p
      | true, true => p.compareLex cmp q = (cmp (decimal p) (decimal q)).then (identifiersOrder ps qs)
  | _, _ => True

/-- The releases differ, or a tag is missing, or the tags are told apart rightly. -/
def Told (a b : Str) : Prop :=
  releaseNumbers a = releaseNumbers b → ∀ ps qs, tagIdentifiers a = some ps → tagIdentifiers b = some qs → TagsTold ps qs

/-- Tags without large numbers are told apart rightly. -/
theorem tagsTold_of_forall {ps qs : List Str} (hp : ∀ p ∈ ps, isLarge p = false) (hq : ∀ q ∈ qs, isLarge q = false) :
    TagsTold ps qs := by
  induction ps generalizing qs with
  | nil => trivial
  | cons p ps ih =>
    cases qs with
    | nil => trivial
    | cons q qs =>
      obtain ⟨hp, hps⟩ := List.forall_mem_cons.mp hp
      obtain ⟨hq, hqs⟩ := List.forall_mem_cons.mp hq
      unfold TagsTold
      by_cases hsame : SameIdentifier p q
      · rw [if_pos hsame]
        exact ih hps hqs
      · rw [if_neg hsame, hp, hq]
        trivial

/-! ### What is read -/

theorem parseU64_of_isNumber {p : Str} (hp : isNumber p = true) (hne : p ≠ []) :
    Str.parseU64 p = if decimal p < 2 ^ 64 then some (UInt64.ofNat (decimal p)) else none := by
  have hplus : p.stripPrefix "+" = none := by
    refine Option.eq_none_iff_forall_not_mem.mpr fun rest hrest => ?_
    have hmem : '+' ∈ p := by
      rw [Str.stripPrefix_eq_some.mp hrest]
      exact List.mem_cons_self
    exact absurd (List.all_eq_true.mp hp '+' hmem) (by decide)
  rw [Str.parseU64, Str.parseUInt, hplus, Option.getD_none]
  have hempty : p.isEmpty = false := by simpa using hne
  unfold isNumber at hp
  simp only [hempty, hp, Bool.not_true, Bool.or_self, Bool.false_eq_true, if_false]
  unfold decimal
  split_ifs <;> rfl

theorem decimal_of_parseNumericComponent {s : Str} {n : UInt64} (h : parseNumericComponent s = some n) : decimal s = n.toNat := by
  unfold parseNumericComponent at h
  split_ifs at h with hcond
  simp only [Bool.or_eq_true, List.isEmpty_iff, Bool.not_eq_true', not_or, Bool.not_eq_false] at hcond
  rw [parseU64_of_isNumber hcond.2 hcond.1] at h
  split_ifs at h with hlt
  rw [← Option.some.inj h, UInt64.toNat_ofNat', Nat.mod_eq_of_lt hlt]

/-- What an identifier is read as. -/
def identOf (p : Str) : PreId := if fitsU64 p then .numeric (UInt64.ofNat (decimal p)) else .alpha p

theorem parsePreIdentifier_eq {p : Str} {x : PreId} (h : parsePreIdentifier p = some x) : x = identOf p := by
  unfold parsePreIdentifier at h
  split_ifs at h with hbad hdigits
  · have hne : p ≠ [] := fun hnil => hbad (by simp [hnil])
    rw [parseU64_of_isNumber hdigits hne] at h
    unfold identOf fitsU64
    rw [isNumber, hdigits, Bool.true_and]
    split_ifs at h with hlt
    · rw [← Option.some.inj h, if_pos (decide_eq_true hlt)]
    · rw [← Option.some.inj h, if_neg (by rw [decide_eq_false hlt]; exact Bool.false_ne_true)]
  · rw [← Option.some.inj h, identOf, fitsU64, isNumber]
    simp [hdigits]

theorem mapM_parsePreIdentifier {parts : List Str} {pre : List PreId} (h : parts.mapM parsePreIdentifier = some pre) :
    pre = parts.map identOf := by
  induction parts generalizing pre with
  | nil =>
    rw [List.mapM_nil] at h
    cases h
    rfl
  | cons part parts ih =>
    rw [List.mapM_cons] at h
    obtain ⟨x, hx, h⟩ := Option.bind_eq_some_iff.mp h
    obtain ⟨xs, hxs, h⟩ := Option.bind_eq_some_iff.mp h
    cases h
    rw [parsePreIdentifier_eq hx, ih hxs, List.map_cons]

/-- The identifiers of a tag, as a version holds them. -/
def tagOf (ids : Option (List Str)) : List PreId := (ids.getD []).map identOf

/-- **What a version says of its text**: the numbers of the release, and the identifiers of the tag. -/
theorem parseVersion_parts {text : Str} {v : Version} (h : parseVersion text = some v) :
    releaseNumbers text = [v.major.toNat, v.minor.toNat, v.patch.toNat] ∧ v.pre = tagOf (tagIdentifiers text) ∧
      ∀ ids, tagIdentifiers text = some ids → ids ≠ [] := by
  rw [parseVersion_eq] at h
  obtain ⟨major, minor, patch, hsplit, hmajor, hminor, hpatch, hpre, -⟩ := readVersion_eq_some.mp h
  refine ⟨?_, ?_, ?_⟩
  · rw [releaseNumbers, bareText, hsplit, List.map_cons, List.map_cons, List.map_cons, List.map_nil,
      decimal_of_parseNumericComponent hmajor, decimal_of_parseNumericComponent hminor, decimal_of_parseNumericComponent hpatch]
  · rw [tagIdentifiers, bareText]
    cases htag : (cutOnce (cutOnce ((text.trim.stripPrefix "v").getD text.trim) '+').1 '-').2 with
    | none =>
      rw [htag] at hpre
      exact (Option.some.inj hpre).symm
    | some tag =>
      rw [htag, readPre, parsePreIdentifiers] at hpre
      split_ifs at hpre
      exact mapM_parsePreIdentifier hpre
  · intro ids hids
    obtain ⟨tag, -, rfl⟩ := Option.map_eq_some_iff.mp hids
    exact List.splitOn_ne_nil _ _

/-! ### The order of versions -/

/-- Two tags of versions. -/
def preOrder (p q : List PreId) : Ordering := (cmp p.isEmpty q.isEmpty).then (p.compareLex cmp q)

theorem cmp_eq_cmp (v w : Version) : v.cmp w = cmp v.precedenceKey w.precedenceKey := rfl

theorem cmp_eq (v w : Version) :
    v.cmp w = ([v.major.toNat, v.minor.toNat, v.patch.toNat].compareLex cmp [w.major.toNat, w.minor.toNat, w.patch.toNat]).then
      (preOrder v.pre w.pre) := by
  rw [cmp_eq_cmp, Version.precedenceKey, Version.precedenceKey]
  rw [cmp_toLex, cmp_toLex, cmp_toLex, cmp_toLex, List.compareLex_cons_cons, List.compareLex_cons_cons, List.compareLex_cons_cons,
    List.compareLex_nil_nil, preOrder, Ordering.then_eq, Ordering.then_assoc, Ordering.then_assoc]
  exact congrArg (fun o => Ordering.then _ (Ordering.then _ (Ordering.then _ (Ordering.then _ o)))) (cmp_list v.pre w.pre)

/-- An identifier that fits is below those that do not, and ordered by its value. -/
theorem cmp_identOf (p q : Str) :
    cmp (identOf p) (identOf q) =
      if fitsU64 p then if fitsU64 q then cmp (decimal p) (decimal q) else .lt
      else if fitsU64 q then .gt else p.compareLex cmp q := by
  have hnat : ∀ {s : Str}, fitsU64 s = true → (UInt64.ofNat (decimal s)).toNat = decimal s := by
    intro s hs
    rw [fitsU64, Bool.and_eq_true, decide_eq_true_eq] at hs
    rw [UInt64.toNat_ofNat', Nat.mod_eq_of_lt hs.2]
  have hlift : ∀ x y : PreId, cmp x y = cmp x.toSum y.toSum := fun x y => rfl
  unfold identOf
  split_ifs with hp hq hq
  · rw [hlift, PreId.toSum, PreId.toSum, hnat hp, hnat hq]
    unfold cmp cmpUsing
    simp only [Sum.Lex.inl_lt_inl_iff]
  · rw [cmp_eq_lt_iff, PreId.lt_def]
    exact Sum.Lex.inl_lt_inr _ _
  · rw [cmp_eq_gt_iff, PreId.lt_def]
    exact Sum.Lex.inl_lt_inr _ _
  · rw [hlift, PreId.toSum, PreId.toSum, ← cmp_list]
    unfold cmp cmpUsing
    simp only [Sum.Lex.inr_lt_inr_iff]
    split_ifs <;> rfl

/-! ### Where tags are told apart -/

theorem identOf_eq_iff {p q : Str} : identOf p = identOf q ↔ SameIdentifier p q := by
  rw [← cmp_eq_eq_iff, cmp_identOf, SameIdentifier]
  cases hp : fitsU64 p <;> cases hq : fitsU64 q
  · simp [compareLex_eq_eq]
  · simp only [Bool.false_eq_true, if_false, if_true, reduceCtorEq, false_and, or_false, false_iff]
    rintro rfl
    rw [hp] at hq
    cases hq
  · simp only [Bool.false_eq_true, if_false, if_true, reduceCtorEq, false_and, and_false, or_false, false_iff]
    rintro rfl
    rw [hp] at hq
    cases hq
  · simp only [if_true, cmp_eq_eq_iff, true_and]
    exact ⟨Or.inr, fun h => h.elim (congrArg decimal) id⟩

/-- A number fits or is too large. -/
theorem isLarge_eq (p : Str) : isLarge p = (isNumber p && !fitsU64 p) := by
  unfold isLarge fitsU64
  cases isNumber p with
  | false => rfl
  | true =>
    rw [Bool.true_and, Bool.true_and, Bool.true_and, ← decide_not, decide_eq_decide, not_lt]

theorem identifierOrder_of_same {p q : Str} (h : SameIdentifier p q) : identifierOrder p q = .eq := by
  unfold identifierOrder
  rcases h with rfl | ⟨hp, hq, hval⟩
  · cases isNumber p
    · exact compareLex_eq_eq.mpr rfl
    · exact cmp_self_eq_eq _
  · rw [fitsU64, Bool.and_eq_true] at hp hq
    rw [hp.1, hq.1, hval]
    exact cmp_self_eq_eq _

theorem then_eq_left {o o' : Ordering} (h : o ≠ .eq) : o.then o' = o := by
  cases o with
  | lt => rfl
  | eq => exact absurd rfl h
  | gt => rfl

/-- The two orders on tags agree exactly where the tags are told apart rightly. The induction goes along the identifiers
that are the same. -/
theorem compareLex_identOf_iff (ps qs : List Str) :
    (ps.map identOf).compareLex cmp (qs.map identOf) = identifiersOrder ps qs ↔ TagsTold ps qs := by
  induction ps generalizing qs with
  | nil => cases qs <;> simp [identifiersOrder, TagsTold, List.compareLex]
  | cons p ps ih =>
    cases qs with
    | nil => simp [identifiersOrder, TagsTold, List.compareLex]
    | cons q qs =>
      rw [List.map_cons, List.map_cons, List.compareLex_cons_cons, identifiersOrder, List.compareLex_cons_cons, TagsTold]
      split_ifs with hsame
      · rw [identifierOrder_of_same hsame, identOf_eq_iff.mpr hsame, cmp_self_eq_eq, Ordering.eq_then, Ordering.eq_then]
        exact ih qs
      · -- the first difference decides what the code says; what semver says is a matter of cases
        have hne : cmp (identOf p) (identOf q) ≠ .eq := fun heq => hsame (identOf_eq_iff.mp ((cmp_eq_eq_iff _ _).mp heq))
        rw [then_eq_left hne]
        rw [cmp_identOf] at hne ⊢
        rw [isLarge_eq, isLarge_eq, identifierOrder]
        have hnumber : ∀ {s : Str}, fitsU64 s = true → isNumber s = true := fun hs => ((Bool.and_eq_true _ _).mp hs).1
        have hbound : ∀ {s : Str}, fitsU64 s = true → decimal s < 2 ^ 64 := fun hs => of_decide_eq_true ((Bool.and_eq_true _ _).mp hs).2
        have hlarge : ∀ {s : Str}, isNumber s = true → fitsU64 s = false → 2 ^ 64 ≤ decimal s := by
          intro s hs hfit
          rw [fitsU64, hs, Bool.true_and, decide_eq_false_iff_not, not_lt] at hfit
          exact hfit
        cases hp : fitsU64 p <;> cases hq : fitsU64 q
        · rw [hp, hq] at hne
          simp only [Bool.false_eq_true, if_false] at hne
          cases hnp : isNumber p <;> cases hnq : isNumber q
          · simp [then_eq_left hne]
          · simp [compareLex_eq_gt]
          · simp [compareLex_eq_lt]
          · simp [identifiersOrder]
        · rw [hnumber hq]
          cases hnp : isNumber p
          · simp
          · have := (cmp_eq_gt_iff _ _).mpr ((hbound hq).trans_le (hlarge hnp hp))
            simp [this]
        · rw [hnumber hp]
          cases hnq : isNumber q
          · simp
          · have := (cmp_eq_lt_iff _ _).mpr ((hbound hp).trans_le (hlarge hnq hq))
            simp [this]
        · rw [hnumber hp, hnumber hq]
          rw [hp, hq] at hne
          simp only [if_true] at hne
          simp [then_eq_left hne]

/-! ### The order of the code -/

/-- A tag that is missing is no identifiers. -/
theorem preOrder_tagOf_iff {a b : Option (List Str)} (ha : ∀ ids, a = some ids → ids ≠ []) (hb : ∀ ids, b = some ids → ids ≠ []) :
    preOrder (tagOf a) (tagOf b) = tagOrder a b ↔ ∀ ps qs, a = some ps → b = some qs → TagsTold ps qs := by
  have hempty : ∀ {ids : List Str}, ids ≠ [] → (ids.map identOf).isEmpty = false := by simp
  cases a with
  | none =>
    cases b with
    | none => exact iff_of_true rfl (fun _ _ h => by cases h)
    | some qs =>
      rw [preOrder, tagOf, tagOf, Option.getD_none, Option.getD_some, List.map_nil, hempty (hb qs rfl)]
      exact iff_of_true rfl (fun _ _ h => by cases h)
  | some ps =>
    cases b with
    | none =>
      rw [preOrder, tagOf, tagOf, Option.getD_none, Option.getD_some, List.map_nil, hempty (ha ps rfl)]
      exact iff_of_true rfl (fun _ _ _ h => by cases h)
    | some qs =>
      rw [preOrder, tagOf, tagOf, Option.getD_some, Option.getD_some, hempty (ha ps rfl), hempty (hb qs rfl), cmp_self_eq_eq,
        Ordering.eq_then, tagOrder, compareLex_identOf_iff]
      constructor
      · rintro h _ _ ⟨⟩ ⟨⟩
        exact h
      · intro h
        exact h ps qs rfl rfl

/-- **The order of two parsed versions is the precedence of their texts exactly where no large number is misplaced.** -/
theorem cmp_eq_precedence_iff {a b : Str} {v w : Version} (ha : parseVersion a = some v) (hb : parseVersion b = some w) :
    v.cmp w = precedence a b ↔ Told a b := by
  obtain ⟨hrelease, hpre, hne⟩ := parseVersion_parts ha
  obtain ⟨hrelease', hpre', hne'⟩ := parseVersion_parts hb
  rw [cmp_eq, ← hrelease, ← hrelease', precedence, Told]
  by_cases hsame : releaseNumbers a = releaseNumbers b
  · rw [compareLex_eq_eq.mpr hsame, Ordering.eq_then, Ordering.eq_then, hpre, hpre', preOrder_tagOf_iff hne hne']
    exact ⟨fun h _ => h, fun h => h hsame⟩
  · have hdiffer : (releaseNumbers a).compareLex cmp (releaseNumbers b) ≠ .eq := fun h => hsame (compareLex_eq_eq.mp h)
    rw [then_eq_left hdiffer, then_eq_left hdiffer]
    exact iff_of_true rfl fun h => absurd h hsame

theorem cmp_eq_precedence_rc :
    (Version.mk 1 0 0 [.alpha "rc", .numeric 2] []).cmp ⟨1, 0, 0, [.alpha "rc", .numeric 10], "b"⟩ =
        precedence "1.0.0-rc.2" "v1.0.0-rc.10+b" ↔
      Told "1.0.0-rc.2" "v1.0.0-rc.10+b" :=
  cmp_eq_precedence_iff (by decide) (by decide)

/-- Of two numbers that no `u64` holds, the order of the versions puts the larger one first. -/
theorem cmp_of_large_numbers :
    parseVersion "1.0.0-99999999999999999999" = some ⟨1, 0, 0, [.alpha "99999999999999999999"], []⟩ ∧
      parseVersion "1.0.0-100000000000000000000" = some ⟨1, 0, 0, [.alpha "100000000000000000000"], []⟩ ∧
      (Version.mk 1 0 0 [.alpha "99999999999999999999"] []).cmp ⟨1, 0, 0, [.alpha "100000000000000000000"], []⟩ = .gt ∧
      precedence "1.0.0-99999999999999999999" "1.0.0-100000000000000000000" = .lt := by
  refine ⟨?_, ?_, ?_, ?_⟩ <;> decide

end Milpa.Solver
