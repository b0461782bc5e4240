import Milpa.Solver.ParseVersion

/-!
# The text of a version

`parse_version` reads what `Display` writes, for the versions that it can give: their
pre-release identifiers and build strings are those of its grammar (`Version.Readable`).
-/

namespace Milpa

open Solver

/-- A pre-release identifier that can be read: one of digits alone is a number, unless it is too large for `u64`. -/
def PreId.Readable : PreId → Prop
  | .numeric _ => True
  | .alpha a => a ≠ [] ∧ a.all isIdentChar = true ∧ (a.all Char.isDigit = true → a.parseU64 = none)

/-- A version that can be read. -/
structure Version.Readable (v : Version) : Prop where
  pre : ∀ p ∈ v.pre, p.Readable
  build : v.build ≠ [] → isValidDottedIdents v.build = true

namespace Solver

/-! ### The parts of a version -/

/-- What is before the first occurrence of a character, and what is after it. -/
def cutOnce (s : Str) (c : Char) : Str × Option Str :=
  match s.splitOnce c with
  | some (r, b) => (r, some b)
  | none => (s, none)

/-- The pre-release tag of a version. -/
def readPre : Option Str → Option (List PreId)
  | some p => parsePreIdentifiers p
  | none => some []

/-- The build string of a version. -/
def readBuild : Option Str → Option Str
  | some b => if isValidDottedIdents b then some b else none
  | none => some []

/-- The three components, the tag and the build string. -/
def readVersion (core : Str) (pre build : Option Str) : Option Version :=
  match core.split '.' with
  | [major, minor, patch] =>
    (parseNumericComponent major).bind fun major => (parseNumericComponent minor).bind fun minor =>
      (parseNumericComponent patch).bind fun patch => (readPre pre).bind fun pre => (readBuild build).map fun build =>
        ⟨major, minor, patch, pre, build⟩
  | _ => none

theorem parseVersion_eq (text : Str) :
    parseVersion text =
      let s := (text.trim.stripPrefix "v").getD text.trim
      readVersion (cutOnce (cutOnce s '+').1 '-').1 (cutOnce (cutOnce s '+').1 '-').2 (cutOnce s '+').2 := by
  unfold parseVersion
  dsimp only
  generalize (text.trim.stripPrefix "v").getD text.trim = s
  have htail : ∀ (build : Option Str) (f : Str → Version),
      (match build with
        | some b => if isValidDottedIdents b = true then (do let b ← some b; pure (f b)) else (do let b ← none; pure (f b))
        | none => (do let b ← some []; pure (f b))) = (readBuild build).map f := by
    intro build f
    cases build with
    | none => rfl
    | some b =>
      dsimp only [readBuild]
      split_ifs <;> rfl
  have hpre : ∀ (pre build : Option Str) (f : List PreId → Str → Version),
      (match pre with
        | some p => do
          let pre ← parsePreIdentifiers p
          match build with
            | some b => if isValidDottedIdents b = true then (do let b ← some b; pure (f pre b)) else (do let b ← none; pure (f pre b))
            | none => (do let b ← some []; pure (f pre b))
        | none => do
          let pre ← some []
          match build with
            | some b => if isValidDottedIdents b = true then (do let b ← some b; pure (f pre b)) else (do let b ← none; pure (f pre b))
            | none => (do let b ← some []; pure (f pre b))) =
        (readPre pre).bind fun pre => (readBuild build).map (f pre) := by
    intro pre build f
    cases pre with
    | none => exact htail build (f [])
    | some p => exact Option.bind_congr fun pre _ => htail build (f pre)
  unfold readVersion
  show (match (cutOnce (cutOnce s '+').1 '-').1.split '.' with
    | [major, minor, patch] => _
    | _ => none) = _
  split
  · rename_i major minor patch hsplit
    refine Option.bind_congr fun a _ => Option.bind_congr fun b _ => Option.bind_congr fun c _ => ?_
    exact hpre (cutOnce (cutOnce s '+').1 '-').2 (cutOnce s '+').2 (Version.mk a b c)
  · rfl

/-- How a version is read. -/
theorem readVersion_eq_some {core : Str} {pre build : Option Str} {v : Version} :
    readVersion core pre build = some v ↔
      ∃ major minor patch, core.split '.' = [major, minor, patch] ∧ parseNumericComponent major = some v.major ∧
        parseNumericComponent minor = some v.minor ∧ parseNumericComponent patch = some v.patch ∧
        readPre pre = some v.pre ∧ readBuild build = some v.build := by
  unfold readVersion
  split
  · rename_i major minor patch hsplit
    simp only [Option.bind_eq_some_iff, Option.map_eq_some_iff, hsplit, List.cons.injEq, and_true]
    constructor
    · rintro ⟨a, ha, b, hb, c, hc, p, hp, d, hd, rfl⟩
      exact ⟨major, minor, patch, ⟨rfl, rfl, rfl⟩, ha, hb, hc, hp, hd⟩
    · rintro ⟨_, _, _, ⟨rfl, rfl, rfl⟩, ha, hb, hc, hp, hd⟩
      exact ⟨_, ha, _, hb, _, hc, _, hp, _, hd, rfl⟩
  · rename_i hne
    simp only [reduceCtorEq, false_iff, not_exists, not_and]
    exact fun a b c h => absurd h (hne a b c)

/-! ### What is read can be read -/

theorem readable_parsePreIdentifier {part : Str} {p : PreId} (h : parsePreIdentifier part = some p) : p.Readable := by
  unfold parsePreIdentifier at h
  split_ifs at h with hbad hdigits
  · split at h
    · cases h
      trivial
    · rename_i hparse
      cases h
      simp only [Bool.or_eq_true, List.isEmpty_iff, Bool.not_eq_true', not_or, Bool.not_eq_false] at hbad
      exact ⟨hbad.1, hbad.2, fun _ => hparse⟩
  · cases h
    simp only [Bool.or_eq_true, List.isEmpty_iff, Bool.not_eq_true', not_or, Bool.not_eq_false] at hbad
    exact ⟨hbad.1, hbad.2, fun hall => absurd hall hdigits⟩

theorem readable_mapM {parts : List Str} {pre : List PreId} (h : parts.mapM parsePreIdentifier = some pre) :
    ∀ p ∈ pre, p.Readable := by
  induction parts generalizing pre with
  | nil =>
    rw [List.mapM_nil] at h
    cases h
    exact fun p hp => absurd hp List.not_mem_nil
  | cons part parts ih =>
    rw [List.mapM_cons] at h
    obtain ⟨p, hp, h⟩ := Option.bind_eq_some_iff.mp h
    obtain ⟨ps, hps, h⟩ := Option.bind_eq_some_iff.mp h
    cases h
    exact List.forall_mem_cons.mpr ⟨readable_parsePreIdentifier hp, ih hps⟩

/-- **What is read can be read.** -/
theorem readable_parseVersion {text : Str} {v : Version} (h : parseVersion text = some v) : v.Readable := by
  rw [parseVersion_eq] at h
  obtain ⟨-, -, -, -, -, -, -, hpre, hbuild⟩ := readVersion_eq_some.mp h
  constructor
  · generalize (cutOnce (cutOnce _ '+').1 '-').2 = pre at hpre
    cases pre with
    | none =>
      rw [← Option.some.inj hpre]
      exact fun p hp => absurd hp List.not_mem_nil
    | some text =>
      unfold readPre parsePreIdentifiers at hpre
      dsimp only at hpre
      split_ifs at hpre
      exact readable_mapM hpre
  · intro hne
    generalize (cutOnce _ '+').2 = build at hbuild
    cases build with
    | none => exact absurd (Option.some.inj hbuild).symm hne
    | some text =>
      unfold readBuild at hbuild
      dsimp only at hbuild
      split_ifs at hbuild with hvalid
      rwa [← Option.some.inj hbuild]

/-! ### What is written -/

/-- A character of a version's text. -/
def isVersionChar (c : Char) : Bool := isIdentChar c || c == '.' || c == '+'

theorem isIdentChar_of_isDigit {c : Char} (h : c.isDigit = true) : isIdentChar c = true := by
  simp [isIdentChar, Char.isAlphanum, h]

theorem all_isIdentChar_display {p : PreId} (h : p.Readable) : ∀ c ∈ p.display, isIdentChar c = true := by
  cases p with
  | numeric n => exact fun c hc => isIdentChar_of_isDigit (Str.isDigit_of_mem_ofNat hc)
  | alpha a => exact List.all_eq_true.mp h.2.1

theorem display_ne_nil {p : PreId} (h : p.Readable) : p.display ≠ [] := by
  cases p with
  | numeric n => exact Str.ofNat_ne_nil _
  | alpha a => exact h.1

/-- A number is read as it was written. -/
theorem parseNumericComponent_ofNat (n : UInt64) : parseNumericComponent (Str.ofNat n.toNat) = some n := by
  have hdigits : (Str.ofNat n.toNat).all Char.isDigit = true := List.all_eq_true.mpr fun c hc => Str.isDigit_of_mem_ofNat hc
  have hne : (Str.ofNat n.toNat).isEmpty = false := by simpa using Str.ofNat_ne_nil n.toNat
  unfold parseNumericComponent Str.parseU64
  rw [hne, hdigits, Str.parseUInt_ofNat n.toNat_lt]
  simp

theorem parsePreIdentifier_display {p : PreId} (h : p.Readable) : parsePreIdentifier p.display = some p := by
  have hne : p.display.isEmpty = false := by simpa using display_ne_nil h
  have hall : p.display.all isIdentChar = true := List.all_eq_true.mpr (all_isIdentChar_display h)
  unfold parsePreIdentifier
  rw [hne, hall, if_neg (by decide)]
  cases p with
  | numeric n =>
    have hparse := parseNumericComponent_ofNat n
    unfold parseNumericComponent at hparse
    have hdigits : (Str.ofNat n.toNat).all Char.isDigit = true := List.all_eq_true.mpr fun c hc => Str.isDigit_of_mem_ofNat hc
    rw [show (PreId.numeric n).display.isEmpty = (Str.ofNat n.toNat).isEmpty from rfl] at hne
    rw [hne, hdigits, if_neg (by decide)] at hparse
    show (if (Str.ofNat n.toNat).all Char.isDigit = true then _ else _) = _
    rw [if_pos hdigits, show (PreId.numeric n).display = Str.ofNat n.toNat from rfl, hparse]
  | alpha a =>
    rw [show (PreId.alpha a).display = a from rfl]
    split_ifs with hdigits
    · rw [h.2.2 hdigits]
    · rfl

theorem cutOnce_of_not_mem {s : Str} {c : Char} (h : c ∉ s) : cutOnce s c = (s, none) := by
  unfold cutOnce
  rw [Str.splitOnce_eq_none.mpr h]

theorem cutOnce_append {a b : Str} {c : Char} (h : c ∉ a) : cutOnce (a ++ c :: b) c = (a, some b) := by
  unfold cutOnce
  rw [Str.splitOnce_eq_some.mpr ⟨rfl, h⟩]

theorem not_mem_of_all_isIdentChar {s : Str} {c : Char} (h : ∀ d ∈ s, isIdentChar d = true) (hc : isIdentChar c = false) : c ∉ s :=
  fun hmem => by
    have hident := h c hmem
    rw [hc] at hident
    cases hident

/-- A tag is read as it was written. -/
theorem parsePreIdentifiers_intercalate {pre : List PreId} (hne : pre ≠ []) (h : ∀ p ∈ pre, p.Readable) :
    parsePreIdentifiers (List.intercalate ['.'] (pre.map PreId.display)) = some pre := by
  have hdot : ∀ part ∈ pre.map PreId.display, '.' ∉ part := by
    intro part hpart
    obtain ⟨p, hp, rfl⟩ := List.mem_map.mp hpart
    exact not_mem_of_all_isIdentChar (all_isIdentChar_display (h p hp)) (by decide)
  have hmap : ∀ l : List PreId, (∀ p ∈ l, p.Readable) → (l.map PreId.display).mapM parsePreIdentifier = some l := by
    intro l
    induction l with
    | nil => exact fun _ => rfl
    | cons p l ih =>
      intro hl
      obtain ⟨hp, hl⟩ := List.forall_mem_cons.mp hl
      rw [List.map_cons, List.mapM_cons, parsePreIdentifier_display hp, ih hl]
      rfl
  unfold parsePreIdentifiers Str.split
  rw [List.splitOn_intercalate '.' hdot (by simpa using hne), hmap pre h, if_neg]
  obtain ⟨p, l, rfl⟩ := List.exists_cons_of_ne_nil hne
  have hp := display_ne_nil (h p List.mem_cons_self)
  cases l with
  | nil => simpa [List.intercalate] using hp
  | cons q l => simp [List.intercalate_cons_cons, hp]

/-- The tag of a version's text, with the hyphen before it. -/
def preText (pre : List PreId) : Str := if pre.isEmpty then [] else '-' :: List.intercalate ['.'] (pre.map PreId.display)

/-- The build string of a version's text, with the plus sign before it. -/
def buildText (build : Str) : Str := if build.isEmpty then [] else '+' :: build

/-- The three components of a version's text. -/
def coreText (v : Version) : Str :=
  Str.ofNat v.major.toNat ++ ['.'] ++ Str.ofNat v.minor.toNat ++ ['.'] ++ Str.ofNat v.patch.toNat

theorem display_eq (v : Version) : v.display = coreText v ++ preText v.pre ++ buildText v.build := rfl

theorem mem_coreText {v : Version} {c : Char} (h : c ∈ coreText v) : c.isDigit = true ∨ c = '.' := by
  simp only [coreText, List.mem_append, List.mem_singleton] at h
  rcases h with (((h | h) | h) | h) | h
  · exact Or.inl (Str.isDigit_of_mem_ofNat h)
  · exact Or.inr h
  · exact Or.inl (Str.isDigit_of_mem_ofNat h)
  · exact Or.inr h
  · exact Or.inl (Str.isDigit_of_mem_ofNat h)

theorem mem_preText {pre : List PreId} (hpre : ∀ p ∈ pre, p.Readable) {c : Char} (h : c ∈ preText pre) :
    isIdentChar c = true ∨ c = '.' := by
  unfold preText at h
  split_ifs at h
  · cases h
  · rcases List.mem_cons.mp h with rfl | h
    · exact Or.inl (by decide)
    · rcases Str.mem_of_mem_intercalate h with hdot | ⟨part, hpart, hc⟩
      · exact Or.inr (List.mem_singleton.mp hdot)
      · obtain ⟨p, hp, rfl⟩ := List.mem_map.mp hpart
        exact Or.inl (all_isIdentChar_display (hpre p hp) c hc)

theorem mem_of_isValidDottedIdents {s : Str} (h : isValidDottedIdents s = true) {c : Char} (hc : c ∈ s) :
    isIdentChar c = true ∨ c = '.' := by
  simp only [isValidDottedIdents, Bool.and_eq_true, List.all_eq_true] at h
  have hjoin : ['.'].intercalate (s.splitOn '.') = s := List.intercalate_splitOn '.'
  rw [← hjoin] at hc
  rcases Str.mem_of_mem_intercalate hc with hdot | ⟨part, hpart, hcpart⟩
  · exact Or.inr (List.mem_singleton.mp hdot)
  · exact Or.inl ((h.2 part hpart).2 c hcpart)

/-- The characters of a version's text. -/
theorem isVersionChar_of_mem_display {v : Version} (h : v.Readable) : ∀ c ∈ v.display, isVersionChar c = true := by
  intro c hc
  have hident : ∀ {c : Char}, isIdentChar c = true ∨ c = '.' → isVersionChar c = true := by
    rintro c (hc | rfl)
    · simp [isVersionChar, hc]
    · decide
  rw [display_eq] at hc
  rcases List.mem_append.mp hc with hc | hc
  · rcases List.mem_append.mp hc with hc | hc
    · exact hident ((mem_coreText hc).imp_left isIdentChar_of_isDigit)
    · exact hident (mem_preText h.pre hc)
  · unfold buildText at hc
    split_ifs at hc with hbuild
    · cases hc
    · rcases List.mem_cons.mp hc with rfl | hc
      · decide
      · exact hident (mem_of_isValidDottedIdents (h.build (by simpa using hbuild)) hc)

theorem toNat_of_isVersionChar {c : Char} (h : isVersionChar c = true) : 43 ≤ c.toNat ∧ c.toNat ≤ 122 := by
  simp only [isVersionChar, isIdentChar, Bool.or_eq_true, beq_iff_eq, Str.isAlphanum_iff] at h
  rcases h with ((h | rfl) | rfl) | rfl
  · omega
  · decide
  · decide
  · decide

theorem not_isWhitespace_of_isVersionChar {c : Char} (h : isVersionChar c = true) : Str.isWhitespace c = false := by
  obtain ⟨hlo, hhi⟩ := toNat_of_isVersionChar h
  exact Str.not_isWhitespace_of_toNat (by omega) (by omega)

/-- **A version is read as it was written.** -/
theorem parseVersion_display {v : Version} (h : v.Readable) : parseVersion v.display = some v := by
  have htrim : v.display.trim = v.display :=
    Str.trim_eq_self fun c hc => not_isWhitespace_of_isVersionChar (isVersionChar_of_mem_display h c hc)
  have hcore : ∀ {c : Char}, c.isDigit = false → c ≠ '.' → c ∉ coreText v := by
    intro c hdigit hdot hc
    rcases mem_coreText hc with hc | hc
    · rw [hdigit] at hc
      cases hc
    · exact hdot hc
  have hv : v.display.stripPrefix "v" = none := by
    refine Option.eq_none_iff_forall_not_mem.mpr fun rest hrest => ?_
    have hdisplay := Str.stripPrefix_eq_some.mp hrest
    obtain ⟨d, ds, hd⟩ := List.exists_cons_of_ne_nil (Str.ofNat_ne_nil v.major.toNat)
    have hdigit : d.isDigit = true := Str.isDigit_of_mem_ofNat (n := v.major.toNat) (by rw [hd]; exact List.mem_cons_self)
    rw [display_eq, coreText, hd] at hdisplay
    obtain ⟨rfl, -⟩ := List.cons.inj hdisplay
    exact absurd hdigit (by decide)
  have hplus : '+' ∉ coreText v ++ preText v.pre := by
    intro hc
    rcases List.mem_append.mp hc with hc | hc
    · exact hcore (by decide) (by decide) hc
    · rcases mem_preText h.pre hc with hc | hc
      · exact absurd hc (by decide)
      · exact absurd hc (by decide)
  have hbuild : ∃ build, cutOnce v.display '+' = (coreText v ++ preText v.pre, build) ∧ readBuild build = some v.build := by
    rw [display_eq, buildText]
    split_ifs with hempty
    · rw [List.append_nil, cutOnce_of_not_mem hplus]
      exact ⟨none, rfl, by rw [List.isEmpty_iff.mp hempty]; rfl⟩
    · rw [cutOnce_append hplus]
      refine ⟨some v.build, rfl, ?_⟩
      unfold readBuild
      dsimp only
      rw [if_pos (h.build (by simpa using hempty))]
  have hpre : ∃ pre, cutOnce (coreText v ++ preText v.pre) '-' = (coreText v, pre) ∧ readPre pre = some v.pre := by
    have hminus : '-' ∉ coreText v := hcore (by decide) (by decide)
    unfold preText
    split_ifs with hempty
    · rw [List.append_nil, cutOnce_of_not_mem hminus]
      exact ⟨none, rfl, by rw [List.isEmpty_iff.mp hempty]; rfl⟩
    · rw [cutOnce_append hminus]
      exact ⟨some _, rfl, parsePreIdentifiers_intercalate (by simpa using hempty) h.pre⟩
  obtain ⟨build, hbuild, hreadBuild⟩ := hbuild
  obtain ⟨pre, hpre, hreadPre⟩ := hpre
  have hsplit : (coreText v).split '.' =
      [Str.ofNat v.major.toNat, Str.ofNat v.minor.toNat, Str.ofNat v.patch.toNat] := by
    have hintercalate : coreText v =
        List.intercalate ['.'] [Str.ofNat v.major.toNat, Str.ofNat v.minor.toNat, Str.ofNat v.patch.toNat] := by
      simp [coreText, List.intercalate]
    rw [hintercalate, Str.split, List.splitOn_intercalate '.' ?_ (by simp)]
    intro part hpart hdot
    obtain ⟨n, rfl⟩ : ∃ n, part = Str.ofNat n := by
      simp only [List.mem_cons, List.not_mem_nil, or_false] at hpart
      rcases hpart with rfl | rfl | rfl
      · exact ⟨_, rfl⟩
      · exact ⟨_, rfl⟩
      · exact ⟨_, rfl⟩
    exact absurd (Str.isDigit_of_mem_ofNat hdot) (by decide)
  rw [parseVersion_eq]
  dsimp only
  rw [htrim, hv, Option.getD_none, hbuild, hpre]
  exact readVersion_eq_some.mpr ⟨_, _, _, hsplit, parseNumericComponent_ofNat _, parseNumericComponent_ofNat _,
    parseNumericComponent_ofNat _, hreadPre, hreadBuild⟩

end Solver

end Milpa
