import Milpa.Nimble.Statements

/-!
# Where the scan begins anew

The scan takes a line for the continuation of a `requires` statement when every line from
this statement on, up to it, ends with a comma, and so does the reading of statements, which
also goes on over lines with nothing on them. So the scan begins anew wherever a statement
begins (`reaches_scan_of_statement`).
-/

namespace Milpa.Nimble

/-! ### White space at the ends -/

variable {s t rest tail : Str}

theorem trimEnd_stripComment (line : Str) : (stripComment line).trimEnd = stripComment line :=
  List.rdropWhile_idempotent _ _

/-- The end of a text without white space at its end has none either. -/
theorem trimEnd_of_suffix (hs : s.trimEnd = s) (h : t <:+ s) : t.trimEnd = t := by
  rw [Str.trimEnd, List.rdropWhile_eq_self_iff] at hs ⊢
  intro hne
  obtain ⟨a, rfl⟩ := h
  have hlast := hs (by simp [hne])
  rwa [List.getLast_append_of_ne_nil _ hne] at hlast

theorem trim_eq (s : Str) : s.trim = s.trimStart.trimEnd := rfl

theorem suffix_trimStart (s : Str) : s.trimStart <:+ s := List.dropWhile_suffix _

theorem trim_eq_trimStart (hs : s.trimEnd = s) : s.trim = s.trimStart := by
  rw [trim_eq, trimEnd_of_suffix hs (suffix_trimStart s)]

theorem trimEnd_trim (s : Str) : s.trim.trimEnd = s.trim := List.rdropWhile_idempotent _ _

theorem trimStart_trim (s : Str) : s.trim.trimStart = s.trim :=
  Str.trimStart_of_head fun _ hc => Str.not_isWhitespace_head_trim hc

/-! ### Keywords -/

/-- What follows `requires`, where there is no white space at the end of the line. -/
theorem matchRequires_eq_some (hs : s.trimEnd = s) (h : matchRequires s = some rest) :
    rest.trim = rest ∧ rest ≠ [] ∧ rest <:+ s.trim ∧ ∃ after, s.trimStart = "requires".toList ++ after ∧ after.startsWithWhitespace = true := by
  unfold matchRequires at h
  obtain ⟨after, hafter, h⟩ := Option.bind_eq_some_iff.mp h
  split_ifs at h with hblank
  obtain rfl := Option.some.inj h
  have hstart := Str.stripPrefix_eq_some.mp hafter
  have hsuffix : after <:+ s := (List.suffix_append _ _).trans (hstart ▸ suffix_trimStart s)
  have htrim : after.trimEnd = after := trimEnd_of_suffix hs hsuffix
  have hrest : after.trimStart <:+ after := suffix_trimStart after
  refine ⟨?_, ?_, ?_, after, hstart, hblank⟩
  · rw [trim_eq, Str.trimStart_of_head (Str.head_trimStart after), trimEnd_of_suffix htrim hrest]
  · intro hnil
    have hall : ∀ c ∈ after, Str.isWhitespace c = true := List.dropWhile_eq_nil_iff.mp hnil
    have hnone : after.trimEnd = [] := List.rdropWhile_eq_nil_iff.mpr hall
    rw [htrim] at hnone
    rw [hnone] at hblank
    cases hblank
  · rw [trim_eq_trimStart hs, hstart]
    exact hrest.trans (List.suffix_append _ _)

/-- A text begins with one of the words. -/
def BeginsWith (words : List Str) (s : Str) : Prop := ∃ w ∈ words, w <+: s.trimStart

/-- A text without white space around it that is the end of another. -/
structure Tail (tail s : Str) : Prop where
  trimEnd : tail.trimEnd = tail
  trimStart : tail.trimStart = tail
  suffix : tail <:+ s

theorem tail_trim (hs : s.trimEnd = s) (h : t <:+ s) : Tail t.trim s :=
  ⟨trimEnd_trim t, trimStart_trim t, trim_eq_trimStart (trimEnd_of_suffix hs h) ▸ (suffix_trimStart t).trans h⟩

theorem matchHeader_eq_some {keyword : Str} {header : Header} (hs : s.trimEnd = s) (h : matchHeader keyword s = some header) :
    keyword <+: s.trimStart ∧ Tail header.tail s := by
  unfold matchHeader at h
  obtain ⟨after, hafter, h⟩ := Option.bind_eq_some_iff.mp h
  split_ifs at h with hblank
  obtain ⟨⟨cond, tail⟩, hsplit, h⟩ := Option.bind_eq_some_iff.mp h
  obtain rfl := Option.some.inj h
  have hstart := Str.stripPrefix_eq_some.mp hafter
  have hafter : after <:+ s := (List.suffix_append _ _).trans (hstart ▸ suffix_trimStart s)
  have hcolon : tail <:+ after.trimStart := by
    rw [(Str.splitOnce_eq_some.mp hsplit).1]
    exact (List.suffix_cons _ _).trans (List.suffix_append _ _)
  exact ⟨⟨after, hstart.symm⟩, tail_trim hs ((hcolon.trans (suffix_trimStart after)).trans hafter)⟩

theorem headerTail_eq_some (hs : s.trimEnd = s) (h : headerTail s = some tail) :
    BeginsWith ["when", "elif", "else"] s ∧ Tail tail s := by
  unfold headerTail at h
  split at h
  · rename_i header hheader
    obtain rfl := Option.some.inj h
    obtain ⟨hpre, htail⟩ := matchHeader_eq_some hs hheader
    exact ⟨⟨_, by simp, hpre⟩, htail⟩
  split at h
  · rename_i header hheader
    obtain rfl := Option.some.inj h
    obtain ⟨hpre, htail⟩ := matchHeader_eq_some hs hheader
    exact ⟨⟨_, by simp, hpre⟩, htail⟩
  · unfold matchElseHeader at h
    obtain ⟨after, hafter, h⟩ := Option.bind_eq_some_iff.mp h
    obtain ⟨after', hafter', h⟩ := Option.bind_eq_some_iff.mp h
    obtain rfl := Option.some.inj h
    have hstart := Str.stripPrefix_eq_some.mp hafter
    have hcolon : after' <:+ after := by
      refine List.IsSuffix.trans ?_ (suffix_trimStart after)
      rw [Str.stripPrefix_eq_some.mp hafter']
      exact List.suffix_append _ _
    exact ⟨⟨_, by simp, after, hstart.symm⟩,
      tail_trim hs ((hcolon.trans (List.suffix_append _ _)).trans (hstart ▸ suffix_trimStart s))⟩

theorem matchAssignment_eq_some {keyword value : Str} (h : matchAssignment keyword s = some value) : BeginsWith [keyword] s := by
  unfold matchAssignment at h
  obtain ⟨after, hafter, -⟩ := Option.bind_eq_some_iff.mp h
  exact ⟨keyword, by simp, after, (Str.stripPrefix_eq_some.mp hafter).symm⟩

theorem beginsWith_of_matchRequires (h : matchRequires s = some rest) : BeginsWith ["requires"] s := by
  unfold matchRequires at h
  obtain ⟨after, hafter, -⟩ := Option.bind_eq_some_iff.mp h
  exact ⟨_, by simp, after, (Str.stripPrefix_eq_some.mp hafter).symm⟩

/-- A text does not begin with words of different first letters. -/
theorem not_beginsWith {words others : List Str} (hfirst : ∀ w ∈ words, ∀ v ∈ others, w.head? ≠ v.head? ∧ w ≠ [] ∧ v ≠ [])
    (h : BeginsWith words s) : ¬ BeginsWith others s := by
  rintro ⟨v, hv, b, hb⟩
  obtain ⟨w, hw, a, ha⟩ := h
  obtain ⟨hne, hw', hv'⟩ := hfirst w hw v hv
  cases w with
  | nil => exact hw' rfl
  | cons x w =>
    cases v with
    | nil => exact hv' rfl
    | cons y v =>
      have heq : x :: (w ++ a) = y :: (v ++ b) := ha.trans hb.symm
      exact hne (congrArg some (List.cons.inj heq).1)

theorem headerTail_of_matchRequires (hs : s.trimEnd = s) (h : matchRequires s = some rest) : headerTail s = none := by
  cases htail : headerTail s with
  | none => rfl
  | some tail =>
    exact absurd (headerTail_eq_some hs htail).1 (not_beginsWith (by decide) (beginsWith_of_matchRequires h))

theorem matchRequires_of_headerTail (hs : s.trimEnd = s) (h : headerTail s = some tail) : matchRequires s = none := by
  cases hreq : matchRequires s with
  | none => rfl
  | some rest => rw [headerTail_of_matchRequires hs hreq] at h; cases h

theorem matchSrcDir_of_beginsWith (h : BeginsWith ["requires", "when", "elif", "else"] s) : matchSrcDir s = none ∧ matchVersion s = none := by
  constructor
  · cases hdir : matchSrcDir s with
    | none => rfl
    | some dir => exact absurd (matchAssignment_eq_some hdir) (not_beginsWith (by decide) h)
  · cases hversion : matchVersion s with
    | none => rfl
    | some raw => exact absurd (matchAssignment_eq_some hversion) (not_beginsWith (by decide) h)

/-! ### Statements on a line -/

section

variable {n headers : ℕ} {first : Str}

theorem statementText_of_matchRequires (hs : s.trimEnd = s) (h : matchRequires s = some rest) :
    statementText n s = some (0, rest.trim) := by
  cases n with
  | zero => rw [statementText, h]; rfl
  | succ n => rw [statementText, headerTail_of_matchRequires hs h, h]; rfl

theorem matchRequires_of_statementText (h : statementText n s = some (0, first)) :
    ∃ rest, matchRequires s = some rest ∧ first = rest.trim := by
  have hmap : (matchRequires s).map (fun rest => (0, rest.trim)) = some (0, first) := by
    cases n with
    | zero => exact h
    | succ n =>
      rw [statementText] at h
      split at h
      · obtain ⟨p, -, hp⟩ := Option.map_eq_some_iff.mp h
        cases hp
      · exact h
  obtain ⟨rest, hrest, hp⟩ := Option.map_eq_some_iff.mp hmap
  exact ⟨rest, hrest, (congrArg Prod.snd hp).symm⟩

theorem headerTail_of_statementText (h : statementText n s = some (headers + 1, first)) :
    ∃ m tail, headerTail s = some tail ∧ statementText m tail = some (headers, first) := by
  cases n with
  | zero =>
    obtain ⟨rest, -, hp⟩ := Option.map_eq_some_iff.mp h
    cases hp
  | succ n =>
    rw [statementText] at h
    split at h
    · rename_i tail htail
      obtain ⟨p, hp, heq⟩ := Option.map_eq_some_iff.mp h
      obtain ⟨hheaders, hfirst⟩ := Prod.mk.inj heq
      exact ⟨n, tail, htail, by rw [hp, ← hfirst, ← Nat.succ.inj hheaders]⟩
    · obtain ⟨rest, -, hp⟩ := Option.map_eq_some_iff.mp h
      cases hp

theorem statementText_of_headerTail (hs : s.trimEnd = s) (h : headerTail s = some tail) (hreq : matchRequires tail = some rest) :
    statementText s.length s = some (1, rest.trim) := by
  obtain ⟨⟨w, hw, a, ha⟩, htail⟩ := headerTail_eq_some hs h
  have hpos : s.length ≠ 0 := by
    intro hzero
    obtain rfl := List.length_eq_zero_iff.mp hzero
    have hnil : w = [] := (List.append_eq_nil_iff.mp ha).1
    revert hw
    rw [hnil]
    decide
  obtain ⟨n, hn⟩ := Nat.exists_eq_succ_of_ne_zero hpos
  rw [hn, statementText, h]
  dsimp only
  rw [statementText_of_matchRequires htail.trimEnd hreq]
  rfl

/-- What follows `requires` on a line is an end of it. -/
theorem suffix_of_statementText (hs : s.trimEnd = s) (h : statementText n s = some (headers, first)) :
    first.trim = first ∧ first ≠ [] ∧ first <:+ s := by
  induction headers generalizing n s with
  | zero =>
    obtain ⟨rest, hreq, rfl⟩ := matchRequires_of_statementText h
    obtain ⟨htrim, hne, hsuffix, -⟩ := matchRequires_eq_some hs hreq
    rw [htrim]
    exact ⟨htrim, hne, hsuffix.trans (trim_eq_trimStart hs ▸ suffix_trimStart s)⟩
  | succ headers ih =>
    obtain ⟨m, tail, htail, h⟩ := headerTail_of_statementText h
    obtain ⟨-, htail⟩ := headerTail_eq_some hs htail
    obtain ⟨htrim, hne, hsuffix⟩ := ih htail.trimEnd h
    exact ⟨htrim, hne, hsuffix.trans htail.suffix⟩

end

/-! ### Where a statement goes on -/

/-- The line ends with a comma. -/
def endsWithComma (line : Str × ℕ) : Bool := Str.endsWithChar (lineText line) ','

/-- A statement goes on over the line: it ends with a comma, or nothing is on it. -/
def carriesOn (line : Str × ℕ) : Bool := isBlank line || endsWithComma line

theorem endsWithChar_append_cons (s : Str) (c : Char) (t : Str) {d : Char} :
    Str.endsWithChar (s ++ c :: t) d = Str.endsWithChar (c :: t) d := by
  rw [Str.endsWithChar, Str.endsWithChar, List.getLast?_append_cons]

/-- An end of a text ends as the text does. -/
theorem endsWithChar_of_suffix (h : t <:+ s) (hne : t ≠ []) {d : Char} : Str.endsWithChar s d = Str.endsWithChar t d := by
  obtain ⟨a, rfl⟩ := h
  obtain ⟨c, t, rfl⟩ := List.exists_cons_of_ne_nil hne
  exact endsWithChar_append_cons a c t

theorem endsWithChar_blank_cons (s t : Str) : Str.endsWithChar (s ++ ' ' :: t) ',' = Str.endsWithChar t ',' := by
  rw [endsWithChar_append_cons]
  cases t with
  | nil => rfl
  | cons c t => exact endsWithChar_of_suffix (List.suffix_cons _ _) (by simp)

/-- **The scan goes over lines that end with a comma**, and over the line after them. -/
theorem gather_snd (tail : Str) (below : Region) :
    (gather tail below).2 = if tail.endsWithChar ',' then (below.dropWhile endsWithComma).drop 1 else below := by
  induction below generalizing tail with
  | nil => simp [gather]
  | cons line below ih =>
    rw [gather]
    by_cases hcomma : tail.endsWithChar ',' = true
    · rw [if_pos hcomma, if_pos hcomma, ih, endsWithChar_blank_cons]
      by_cases hline : endsWithComma line = true
      · rw [List.dropWhile_cons_of_pos hline]
        exact if_pos hline
      · rw [List.dropWhile_cons_of_neg hline]
        exact if_neg hline
    · rw [if_neg hcomma, if_neg hcomma]

/-- A statement goes over lines with nothing on them as well. -/
theorem goOn_snd (last : Str) (below : Region) :
    (goOn last below).2 = if last.endsWithChar ',' then (below.dropWhile carriesOn).drop 1 else below := by
  induction below generalizing last with
  | nil => simp [goOn]
  | cons line below ih =>
    rw [goOn]
    by_cases hcomma : last.endsWithChar ',' = true
    · rw [if_pos hcomma, if_pos hcomma]
      dsimp only
      rw [ih]
      by_cases hblank : (lineText line).isEmpty = true
      · have hcarries : carriesOn line = true := Bool.or_eq_true_iff.mpr (.inl hblank)
        rw [if_pos hblank, if_pos hcomma, List.dropWhile_cons_of_pos hcarries]
      · have hcarries : carriesOn line = endsWithComma line := by
          rw [carriesOn, show isBlank line = false from Bool.eq_false_iff.mpr hblank, Bool.false_or]
        rw [if_neg hblank]
        by_cases hline : endsWithComma line = true
        · rw [List.dropWhile_cons_of_pos (hcarries.trans hline)]
          exact if_pos hline
        · rw [List.dropWhile_cons_of_neg (hcarries ▸ hline)]
          exact if_neg hline
    · rw [if_neg hcomma, if_neg hcomma]

/-- A `requires` line that ends with a comma. -/
def beginsRequires (line : Str × ℕ) : Bool := (matchRequires (stripComment line.1)).isSome && endsWithComma line

/-- A line with a statement that ends with a comma. -/
def beginsStatement (line : Str × ℕ) : Bool :=
  (statementText (stripComment line.1).length (stripComment line.1)).any fun p => p.2.endsWithChar ','

/-- The specifications that the scan finds at a line. -/
def specStep (line : Str × ℕ) (below : Region) : List (Str × ℕ) × Region :=
  (specsWithLines (scanStep line below).1, (scanStep line below).2)

theorem scanStep_of_matchRequires {line : Str × ℕ} {below : Region} (h : matchRequires (stripComment line.1) = some rest) :
    scanStep line below = ((extractQuoted (gather rest.trim below).1).map (Found.spec · line.2), (gather rest.trim below).2) := by
  have hbegins : BeginsWith ["requires", "when", "elif", "else"] (stripComment line.1) := by
    obtain ⟨w, hw, hpre⟩ := beginsWith_of_matchRequires h
    exact ⟨w, by simp only [List.mem_singleton] at hw; simp [hw], hpre⟩
  obtain ⟨hdir, hversion⟩ := matchSrcDir_of_beginsWith hbegins
  rw [scanStep, hdir, hversion, h]

theorem scanStep_snd_of_none {line : Str × ℕ} {below : Region} (h : matchRequires (stripComment line.1) = none) :
    (scanStep line below).2 = below := by
  rw [scanStep]
  dsimp only
  split
  · rfl
  split
  · rfl
  rw [h]

theorem endsWithComma_of_statementText {line : Str × ℕ} {n headers : ℕ} {first : Str}
    (h : statementText n (stripComment line.1) = some (headers, first)) : endsWithComma line = first.endsWithChar ',' := by
  have hs := trimEnd_stripComment line.1
  obtain ⟨-, hne, hsuffix⟩ := suffix_of_statementText hs h
  have hstart : (stripComment line.1).trimStart ≠ [] := by
    intro hnil
    have hend : (stripComment line.1).trimEnd = [] := List.rdropWhile_eq_nil_iff.mpr (List.dropWhile_eq_nil_iff.mp hnil)
    rw [← hs, hend, List.suffix_nil] at hsuffix
    exact hne hsuffix
  rw [endsWithComma, lineText, trim_eq_trimStart hs, ← endsWithChar_of_suffix (suffix_trimStart _) hstart]
  exact endsWithChar_of_suffix hsuffix hne

theorem takes_specStep : Consume.Takes specStep beginsRequires endsWithComma := by
  intro line below
  cases hreq : matchRequires (stripComment line.1) with
  | none =>
    rw [specStep, beginsRequires, hreq, if_neg (by simp)]
    exact scanStep_snd_of_none hreq
  | some rest =>
    have hcomma := endsWithComma_of_statementText (statementText_of_matchRequires (n := 0) (trimEnd_stripComment line.1) hreq)
    rw [specStep, beginsRequires, hreq, Option.isSome_some, Bool.true_and, hcomma, scanStep_of_matchRequires hreq]
    exact gather_snd _ _

theorem takes_statementStep : Consume.Takes statementStep beginsStatement carriesOn := by
  intro line below
  rw [statementStep, beginsStatement]
  cases h : statementText (stripComment line.1).length (stripComment line.1) with
  | none => rfl
  | some p =>
    rw [Option.any_some]
    exact goOn_snd _ _

theorem carriesOn_of_beginsStatement {line : Str × ℕ} (h : beginsStatement line = true) : carriesOn line = true := by
  obtain ⟨⟨headers, first⟩, htext, hcomma⟩ := (Option.any_eq_true _ _).mp h
  rw [carriesOn, endsWithComma_of_statementText htext, hcomma, Bool.or_true]

theorem beginsStatement_of_beginsRequires {line : Str × ℕ} (h : beginsRequires line = true) : beginsStatement line = true := by
  obtain ⟨hreq, hcomma⟩ := (Bool.and_eq_true _ _).mp h
  obtain ⟨rest, hreq⟩ := Option.isSome_iff_exists.mp hreq
  have htext := statementText_of_matchRequires (n := (stripComment line.1).length) (trimEnd_stripComment line.1) hreq
  rw [endsWithComma_of_statementText htext] at hcomma
  rw [beginsStatement, htext]
  exact hcomma

open Consume in
/-- **The scan begins anew wherever a statement begins.** -/
theorem reaches_scan_of_statement {before below : Region} {line : Str × ℕ}
    (h : Reaches statementStep (before ++ line :: below) (line :: below)) :
    Reaches specStep (before ++ line :: below) (line :: below) := by
  rw [reaches_iff takes_statementStep fun _ => carriesOn_of_beginsStatement] at h
  rw [reaches_iff takes_specStep fun _ hbegins => ((Bool.and_eq_true _ _).mp hbegins).2]
  intro p y q hbefore hbegins
  obtain ⟨w, hw, hcarries⟩ := h p y q hbefore (beginsStatement_of_beginsRequires hbegins)
  exact ⟨w, hw, (Bool.or_eq_false_iff.mp hcarries).2⟩

end Milpa.Nimble
