import Milpa.Nimble.ChainLines
import Milpa.Nimble.ConditionReading
import Milpa.Nimble.ScanReaches

/-!
# What the scan finds of the statements

The scan finds each specification of a documented statement once and in order, if the
statement stands behind at most one header, on one line if behind a header, and no blank
line and no comment is inside it; otherwise it loses some (`never_under_includes_iff`).
-/

namespace Milpa.Nimble

/-! ### Quoted strings -/

/-- The text holds the quoted strings, and no string goes on behind it. -/
def Quotes (s : Str) (specs : List Str) : Prop := ∀ rest, extractQuoted (s ++ rest) = specs ++ extractQuoted rest

theorem Quotes.append {s t : Str} {a b : List Str} (hs : Quotes s a) (ht : Quotes t b) : Quotes (s ++ t) (a ++ b) := fun rest => by
  rw [List.append_assoc, hs, ht, List.append_assoc]

theorem Quotes.extract {s : Str} {a : List Str} (h : Quotes s a) : extractQuoted s = a := by
  have heq := h []
  rwa [List.append_nil, show extractQuoted [] = [] from rfl, List.append_nil] at heq

theorem quotes_of_not_mem {s : Str} (h : '"' ∉ s) : Quotes s [] := by
  intro rest
  induction s with
  | nil => rfl
  | cons c s ih =>
    rw [List.mem_cons, not_or] at h
    rw [List.cons_append, extractQuoted, extractQuotedLoop, if_neg fun hc => h.1 hc.symm]
    exact ih h.2

theorem quotes_quoted {spec : Str} (h : '"' ∉ spec) : Quotes ('"' :: (spec ++ ['"'])) [spec] := by
  have key : ∀ (content spec rest : Str), '"' ∉ spec →
      extractQuotedLoop (some content) (spec ++ '"' :: rest) = (content.reverse ++ spec) :: extractQuotedLoop none rest := by
    intro content spec
    induction spec generalizing content with
    | nil => intro rest _; simp [extractQuotedLoop]
    | cons c spec ih =>
      intro rest hspec
      rw [List.mem_cons, not_or] at hspec
      rw [List.cons_append, extractQuotedLoop, if_neg fun hc => hspec.1 hc.symm, ih _ _ hspec.2]
      simp
  intro rest
  rw [List.cons_append, List.append_assoc, extractQuoted, extractQuotedLoop, if_pos rfl]
  exact key [] spec rest h

theorem quotes_isComma {s : Str} (h : IsComma s) : Quotes s [] := by
  obtain ⟨a, b, rfl, hblank⟩ := h
  refine quotes_of_not_mem fun hmem => ?_
  have hquote : Str.isWhitespace '"' = false := by decide
  rcases List.mem_append.mp hmem with hmem | hmem
  · rw [hblank _ (List.mem_append_left _ hmem)] at hquote
    cases hquote
  · rcases List.mem_cons.mp hmem with hmem | hmem
    · cases hmem
    · rw [hblank _ (List.mem_append_right _ hmem)] at hquote
      cases hquote

/-- **A list of quoted strings holds them.** -/
theorem Listed.quotes {s : Str} {specs : List Str} (h : Listed s specs) : Quotes s specs := by
  induction h with
  | one hspec => exact quotes_quoted hspec
  | @trailing spec sep hspec hsep =>
    have heq : '"' :: (spec ++ '"' :: sep) = '"' :: (spec ++ ['"']) ++ sep := by simp
    rw [heq]
    exact (quotes_quoted hspec).append (quotes_isComma hsep)
  | @more spec sep s specs hspec hsep _ ih =>
    have heq : '"' :: (spec ++ '"' :: (sep ++ s)) = '"' :: (spec ++ ['"']) ++ (sep ++ s) := by simp
    rw [heq]
    exact (quotes_quoted hspec).append ((quotes_isComma hsep).append ih)

theorem Listed.ne_nil {s : Str} {specs : List Str} (h : Listed s specs) : specs ≠ [] := by
  cases h <;> simp

theorem ne_nil_of_listed {parts : List Str} {lists : List (List Str)} (h : List.Forall₂ Listed parts lists) :
    ∀ l ∈ lists, l ≠ [] := by
  induction h with
  | nil => simp
  | cons hp _ ih =>
    intro l hl
    rcases List.mem_cons.mp hl with rfl | hl
    · exact hp.ne_nil
    · exact ih l hl

/-! ### The text that is read of a statement -/

/-- The parts of a statement that are read: up to a line with nothing on it, or of its first line only, or none. -/
def Statement.scanned (st : Statement) : List Str :=
  match st.headers with
  | 0 => st.first :: st.further.takeWhile fun s => !s.isEmpty
  | 1 => [st.first]
  | _ => []

/-- Parts, joined as the scan joins them: nothing comes after a part that is empty. -/
def joined : Str → List Str → Str
  | s, [] => s
  | s, p :: ps => if p.isEmpty then s ++ [' '] else joined (s ++ ' ' :: p) ps

/-- The scan reads a statement as far as no line of it has nothing on it. -/
theorem gather_fst {tail last : Str} (h : tail.endsWithChar ',' = last.endsWithChar ',') (below : Region) :
    (gather tail below).1 = joined tail (goOn last below).1 := by
  induction below generalizing tail last with
  | nil => rfl
  | cons line below ih =>
    rw [gather, goOn, h]
    by_cases hcomma : last.endsWithChar ',' = true
    · rw [if_pos hcomma, if_pos hcomma]
      dsimp only
      rw [joined]
      by_cases hblank : (lineText line).isEmpty = true
      · rw [if_pos hblank]
        have hnil : (stripComment line.1).trim = [] := List.isEmpty_iff.mp hblank
        rw [hnil]
        cases below with
        | nil => rfl
        | cons line' below =>
          rw [gather, if_neg]
          rw [endsWithChar_blank_cons]
          decide
      · rw [if_neg hblank, if_neg hblank]
        exact ih (endsWithChar_blank_cons _ _)
    · rw [if_neg hcomma, if_neg hcomma]
      rfl

/-- The quoted strings of parts that are joined. -/
theorem quotes_joined {s : Str} {specs : List Str} (hs : Quotes s specs) {parts : List Str} {lists : List (List Str)}
    (h : List.Forall₂ Listed (parts.filter fun p => !p.isEmpty) lists) :
    extractQuoted (joined s parts) = specs ++ (lists.take (parts.takeWhile fun p => !p.isEmpty).length).flatten := by
  induction parts generalizing s specs lists with
  | nil => simpa [joined] using hs.extract
  | cons p parts ih =>
    rw [joined]
    by_cases hempty : p.isEmpty = true
    · have hblank : Quotes [' '] [] := quotes_of_not_mem (by decide)
      rw [if_pos hempty, (hs.append hblank).extract, List.takeWhile_cons_of_neg (by simp [hempty])]
      simp
    · rw [List.filter_cons_of_pos (by simp [hempty])] at h
      obtain ⟨a, lists, hp, hrest, rfl⟩ := List.forall₂_cons_left_iff.mp h
      have hblank : Quotes (' ' :: p) a := (quotes_of_not_mem (s := [' ']) (by decide)).append hp.quotes
      rw [if_neg hempty, ih (hs.append hblank) hrest, List.takeWhile_cons_of_pos (by simp [hempty])]
      simp

/-! ### What the scan finds at a line -/

/-- The text with the specifications that the scan finds at a line. -/
def readText (line : Str × ℕ) (below : Region) : Str :=
  match matchRequires (stripComment line.1) with
  | some rest => (gather rest.trim below).1
  | none => ((headerTail (stripComment line.1)).bind matchRequires).getD []

theorem specsWithLines_map (specs : List Str) (line : ℕ) :
    specsWithLines (specs.map (Found.spec · line)) = specs.map fun spec => (spec, line) := by
  simp [specsWithLines, List.filterMap_map]

/-- A tail that begins with `requires` has the keyword. -/
theorem tailHasRequires_of_matchRequires {tail rest : Str} (htrim : tail.trimEnd = tail) (hstart : tail.trimStart = tail)
    (h : matchRequires tail = some rest) : tailHasRequires tail = true := by
  obtain ⟨-, -, -, after, htail, hblank⟩ := matchRequires_eq_some htrim h
  have hword : after.head?.any isWordChar = false := by
    cases after with
    | nil => cases hblank
    | cons c after =>
      have hc : Str.isWhitespace c = true := hblank
      obtain ⟨hword, -⟩ := not_wordChar_of_isWhitespace hc
      exact hword
  rw [hstart] at htail
  have hprefix : Str.stripPrefix ('r' :: ("equires".toList ++ after)) "requires" = some after := Str.stripPrefix_eq_some.mpr rfl
  rw [htail, show "requires".toList ++ after = 'r' :: ("equires".toList ++ after) from rfl, tailHasRequires, tailHasRequiresLoop, hprefix]
  simp [hword]

theorem extractColonFormRequires_getD {s : Str} (hs : s.trimEnd = s) :
    (extractColonFormRequires s).getD [] = extractQuoted (((headerTail s).bind matchRequires).getD []) := by
  unfold extractColonFormRequires
  cases htail : headerTail s with
  | none => rfl
  | some tail =>
    obtain ⟨-, htrim⟩ := headerTail_eq_some hs htail
    cases hreq : matchRequires tail with
    | none => simp [hreq, extractQuoted, extractQuotedLoop]
    | some rest =>
      obtain ⟨hrest, -, -, after, hafter, -⟩ := matchRequires_eq_some htrim.trimEnd hreq
      have hne : tail.isEmpty = false := by
        rw [htrim.trimStart] at hafter
        rw [hafter]
        rfl
      have hhas := tailHasRequires_of_matchRequires htrim.trimEnd htrim.trimStart hreq
      simp only [Option.bind_eq_bind, Option.bind_some, hne, hhas, hreq, hrest, Option.getD_some, Bool.not_true, Bool.or_false,
        Bool.false_eq_true, if_false]
      cases hquoted : extractQuoted rest <;> simp

/-- **What the scan finds at a line at which it begins anew.** -/
theorem specStep_fst (line : Str × ℕ) (below : Region) :
    (specStep line below).1 = (extractQuoted (readText line below)).map fun spec => (spec, line.2) := by
  have hs := trimEnd_stripComment line.1
  have hnil : extractQuoted [] = [] := rfl
  rw [specStep, readText]
  dsimp only
  cases hreq : matchRequires (stripComment line.1) with
  | some rest => rw [scanStep_of_matchRequires hreq, specsWithLines_map]
  | none =>
    have hassign : ∀ keyword value,
        (∀ w ∈ [keyword], ∀ v ∈ (["when", "elif", "else"] : List Str), w.head? ≠ v.head? ∧ w ≠ [] ∧ v ≠ []) →
        matchAssignment keyword (stripComment line.1) = some value → headerTail (stripComment line.1) = none := by
      intro keyword value hfirst hvalue
      cases htail : headerTail (stripComment line.1) with
      | none => rfl
      | some tail => exact absurd (headerTail_eq_some hs htail).1 (not_beginsWith hfirst (matchAssignment_eq_some hvalue))
    rw [scanStep]
    dsimp only
    split
    · rename_i dir hdir
      rw [hassign "srcDir" dir (by decide) hdir]
      rfl
    split
    · rename_i raw hraw
      rw [hassign "version" raw (by decide) hraw]
      rfl
    · rw [hreq]
      dsimp only
      rw [specsWithLines_map, extractColonFormRequires_getD hs]

/-- The text that is read of a statement, by its headers and what follows `requires`. -/
def readBehind : ℕ → Str → Region → Str
  | 0, first, below => (gather first below).1
  | 1, first, _ => first
  | _, _, _ => []

theorem readText_of_statementText {line : Str × ℕ} {below : Region} {n headers : ℕ} {first : Str}
    (h : statementText n (stripComment line.1) = some (headers, first)) : readText line below = readBehind headers first below := by
  have hs := trimEnd_stripComment line.1
  match headers, h with
  | 0, h =>
    obtain ⟨rest, hreq, rfl⟩ := matchRequires_of_statementText h
    rw [readText, hreq]
    rfl
  | 1, h =>
    obtain ⟨m, tail, htail, h⟩ := headerTail_of_statementText h
    obtain ⟨rest, hreq, rfl⟩ := matchRequires_of_statementText h
    have hrest := (matchRequires_eq_some (headerTail_eq_some hs htail).2.trimEnd hreq).1
    rw [readText, matchRequires_of_headerTail hs htail, htail]
    simp [hreq, hrest, readBehind]
  | headers + 2, h =>
    obtain ⟨m, tail, htail, h⟩ := headerTail_of_statementText h
    obtain ⟨m, tail', htail', -⟩ := headerTail_of_statementText h
    rw [readText, matchRequires_of_headerTail hs htail, htail]
    simp [matchRequires_of_headerTail (headerTail_eq_some hs htail).2.trimEnd htail', readBehind]

/-! ### Documented statements -/

theorem parts_eq {st : Statement} (h : st.first ≠ []) : st.parts = st.first :: st.further.filter fun s => !s.isEmpty :=
  List.filter_cons_of_pos (by simpa using h)

/-- What the scan finds of a statement in a documented form. -/
theorem extractQuoted_readText {line : Str × ℕ} {below : Region} {n : ℕ} {st : Statement}
    (h : statementText n (stripComment line.1) = some (st.headers, st.first)) (hfurther : st.further = (goOn st.first below).1)
    {lists : List (List Str)} (hlists : List.Forall₂ Listed st.parts lists) :
    extractQuoted (readText line below) = (lists.take st.scanned.length).flatten := by
  rw [parts_eq (suffix_of_statementText (trimEnd_stripComment line.1) h).2.1] at hlists
  obtain ⟨a, lists, ha, hrest, rfl⟩ := List.forall₂_cons_left_iff.mp hlists
  rw [readText_of_statementText h, Statement.scanned]
  match st.headers with
  | 0 =>
    rw [readBehind, gather_fst rfl, ← hfurther, quotes_joined ha.quotes hrest]
    rfl
  | 1 =>
    rw [readBehind, ha.quotes.extract]
    simp
  | headers + 2 => rfl

/-- A statement goes on behind a comma only. -/
theorem endsWithChar_of_goOn {last : Str} {below : Region} {p q : List Str} {s : Str} (h : (goOn last below).1 = p ++ s :: q)
    (hp : ∀ t ∈ p, t ≠ []) : ∀ t ∈ (last :: p).getLast?, Str.endsWithChar t ',' = true := by
  induction p generalizing last below with
  | nil =>
    intro t ht
    obtain rfl : last = t := Option.some.inj ht
    cases below with
    | nil => cases h
    | cons line below =>
      by_contra hcomma
      rw [goOn, if_neg hcomma] at h
      cases h
  | cons u p ih =>
    intro t ht
    rw [List.getLast?_cons_cons] at ht
    cases below with
    | nil => cases h
    | cons line below =>
      by_cases hcomma : last.endsWithChar ',' = true
      · rw [goOn, if_pos hcomma] at h
        obtain ⟨rfl, hrest⟩ := List.cons.inj h
        rw [if_neg (by simpa using hp _ List.mem_cons_self)] at hrest
        exact ih hrest (fun v hv => hp v (List.mem_cons_of_mem _ hv)) t ht
      · rw [goOn, if_neg hcomma] at h
        cases h

theorem take_flatten_eq_iff {α : Type*} {lists : List (List α)} (h : ∀ l ∈ lists, l ≠ []) {n : ℕ} :
    (lists.take n).flatten = lists.flatten ↔ lists.length ≤ n := by
  constructor
  · intro heq
    have hsplit : (lists.take n).flatten ++ (lists.drop n).flatten = (lists.take n).flatten := by
      rw [← List.flatten_append, List.take_append_drop, heq]
    have hnil := List.flatten_eq_nil_iff.mp (List.append_right_eq_self.mp hsplit)
    by_contra hlt
    obtain ⟨l, hl⟩ := List.exists_mem_of_ne_nil (lists.drop n) (by simpa [List.drop_eq_nil_iff] using hlt)
    exact h l (List.mem_of_mem_drop hl) (hnil l hl)
  · intro hle
    rw [List.take_of_length_le hle]

/-- A part stands behind each line of a statement that is not the last. -/
theorem exists_part_behind {st : Statement} {below : Region} (hfurther : st.further = (goOn st.first below).1) (hfirst : st.first ≠ [])
    (hclosed : ∀ s ∈ st.parts.getLast?, Str.endsWithChar s ',' = false) {p q : List Str} {s : Str} (h : st.further = p ++ s :: q)
    (hp : ∀ t ∈ p, t ≠ []) : (s :: q).filter (fun s => !s.isEmpty) ≠ [] := by
  intro hnone
  have hcomma := endsWithChar_of_goOn (hfurther ▸ h) hp
  have hself : p.filter (fun s => !s.isEmpty) = p := List.filter_eq_self.mpr fun t ht => by simpa using hp t ht
  rw [parts_eq hfirst, h, List.filter_append, hself, hnone, List.append_nil] at hclosed
  obtain ⟨t, ht⟩ : ∃ t, (st.first :: p).getLast? = some t := ⟨_, List.getLast?_eq_some_getLast (by simp)⟩
  have hfalse := hclosed t ht
  rw [hcomma t ht] at hfalse
  cases hfalse

/-- **All of a documented statement is read exactly if no header too many and no line with nothing on it stands in the way.** -/
theorem parts_length_le_iff {st : Statement} {below : Region} (hfurther : st.further = (goOn st.first below).1) (hfirst : st.first ≠ [])
    (hclosed : ∀ s ∈ st.parts.getLast?, Str.endsWithChar s ',' = false) : st.parts.length ≤ st.scanned.length ↔ st.Reached := by
  have hmore := fun {p q : List Str} {s : Str} => exists_part_behind hfurther hfirst hclosed (p := p) (q := q) (s := s)
  rw [parts_eq hfirst, List.length_cons, Statement.Reached, Statement.scanned]
  match hheaders : st.headers with
  | 0 =>
    simp only [List.length_cons, Nat.add_le_add_iff_right, true_and, Nat.zero_ne_one, false_and, or_false]
    constructor
    · intro hle hmem
      obtain ⟨p, s, q, hsplit, hp, hs⟩ := Consume.exists_split (fun s : Str => !s.isEmpty) fun hall => by simpa using hall [] hmem
      have hself : p.filter (fun s => !s.isEmpty) = p := List.filter_eq_self.mpr hp
      have hlen := List.length_pos_iff.mpr (hmore hsplit fun t ht => by simpa using hp t ht)
      rw [hsplit, List.filter_append, hself, List.takeWhile_append_of_pos hp, List.takeWhile_cons_of_neg (by simp [hs])] at hle
      simp only [List.length_append, List.append_nil] at hle
      omega
    · intro hmem
      have hall : ∀ t ∈ st.further, (!List.isEmpty t) = true := fun t ht => by
        simpa using fun hnil : t = [] => hmem (hnil ▸ ht)
      rw [List.filter_eq_self.mpr hall, List.takeWhile_eq_self_iff.mpr hall]
  | 1 =>
    simp only [List.length_cons, List.length_nil, Nat.one_ne_zero, false_and, true_and, false_or]
    constructor
    · intro hle
      cases hcons : st.further with
      | nil => rfl
      | cons s q =>
        have hlen := hmore (p := []) hcons (by simp)
        rw [hcons] at hle
        exact absurd (List.length_eq_zero_iff.mp (by omega)) hlen
    · intro hnil
      rw [hnil]
      rfl
  | headers + 2 => simp

/-- The specifications that the scan finds on a line. -/
def contributed (lines : List Str) (line : ℕ) : List Str :=
  ((specsWithLines (scan lines)).filter fun found => decide (found.2 = line)).map Prod.fst

theorem specsWithLines_scan (lines : List Str) : specsWithLines (scan lines) = Consume.run specStep lines.zipIdx := by
  have hs : Consume.Shrinks scanStep := fun line below => takes_specStep.shrinks line below
  exact Consume.filterMap_run hs _

theorem line_of_mem_specStep (line : Str × ℕ) (below : Region) : ∀ found ∈ (specStep line below).1, found.2 = line.2 := by
  intro found h
  rw [specStep_fst] at h
  obtain ⟨spec, -, rfl⟩ := List.mem_map.mp h
  rfl

theorem nodup_zipIdx (lines : List Str) : (lines.zipIdx.map Prod.snd).Nodup := by
  rw [List.zipIdx_map_snd]
  exact List.nodup_range'

open Consume in
/-- **What a documented statement contributes.** -/
theorem contributed_eq_iff {lines : List Str} {st : Statement} {specs : List Str} (hst : st ∈ statements lines.zipIdx)
    (hdoc : st.Documented specs) : contributed lines st.line = specs ↔ st.Reached := by
  obtain ⟨line, below, hreach, hmem⟩ := (mem_run takes_statementStep.shrinks).mp hst
  obtain ⟨before, hbefore⟩ := hreach.isSuffix takes_statementStep.shrinks
  rw [statementStep] at hmem
  cases htext : statementText (stripComment line.1).length (stripComment line.1) with
  | none => simp [htext] at hmem
  | some p =>
    obtain ⟨headers, first⟩ := p
    rw [htext] at hmem
    obtain rfl := List.mem_singleton.mp hmem
    obtain ⟨⟨lists, hlists, rfl⟩, hfirst, hclosed⟩ := hdoc
    have hscan : Reaches specStep lines.zipIdx (line :: below) := by
      rw [← hbefore] at hreach ⊢
      exact reaches_scan_of_statement hreach
    have hfilter := filter_run takes_specStep.shrinks Prod.snd Prod.snd line_of_mem_specStep (nodup_zipIdx lines) hscan
    have hfst : (Prod.fst ∘ fun spec : Str => (spec, line.2)) = id := rfl
    rw [contributed, specsWithLines_scan, hfilter, specStep_fst, List.map_map, hfst, List.map_id,
      extractQuoted_readText htext rfl hlists, take_flatten_eq_iff (ne_nil_of_listed hlists), ← hlists.length_eq]
    exact parts_length_le_iff rfl hfirst hclosed

/-- The scan finds specifications in the order of the lines. -/
theorem pairwise_specsWithLines (lines : List Str) : (specsWithLines (scan lines)).Pairwise fun a b => a.2 ≤ b.2 := by
  rw [specsWithLines_scan]
  refine Consume.pairwise_run takes_specStep.shrinks Prod.snd Prod.snd line_of_mem_specStep ?_
  rw [List.zipIdx_map_snd]
  exact List.pairwise_lt_range'

/-! ### Lines with a requirement -/

/-- A `requires` line among those before goes on to the line: it and each line behind it ends with a comma. -/
def Continued (before : Region) : Prop := ∃ p y q, before = p ++ y :: q ∧ beginsRequires y = true ∧ ∀ w ∈ q, endsWithComma w = true

/-- The line with this number is not the continuation of a `requires` line, and two quotes stand in what is read of it. -/
def Yields (region : Region) (line : ℕ) : Prop :=
  ∃ before text below, region = before ++ (text, line) :: below ∧ ¬ Continued before ∧ 2 ≤ (readText (text, line) below).count '"'

open Consume in
theorem reaches_scan_iff {before below : Region} {line : Str × ℕ} :
    Reaches specStep (before ++ line :: below) (line :: below) ↔ ¬ Continued before := by
  rw [reaches_iff takes_specStep fun _ hbegins => ((Bool.and_eq_true _ _).mp hbegins).2, Continued]
  push Not
  simp only [ne_eq, Bool.not_eq_true]

theorem extractQuoted_ne_nil_iff (s : Str) : extractQuoted s ≠ [] ↔ 2 ≤ s.count '"' := by
  have key : ∀ s : Str, (extractQuotedLoop none s ≠ [] ↔ 2 ≤ s.count '"') ∧
      ∀ content, extractQuotedLoop (some content) s ≠ [] ↔ 1 ≤ s.count '"' := by
    intro s
    induction s with
    | nil => simp [extractQuotedLoop]
    | cons c s ih =>
      by_cases hc : c = '"'
      · subst hc
        refine ⟨?_, fun content => ?_⟩
        · rw [extractQuotedLoop, if_pos rfl, ih.2, List.count_cons_self]
          omega
        · rw [extractQuotedLoop, if_pos rfl, List.count_cons_self]
          simp
      · refine ⟨?_, fun content => ?_⟩
        · rw [extractQuotedLoop, if_neg hc, ih.1, List.count_cons_of_ne hc]
        · rw [extractQuotedLoop, if_neg hc, ih.2, List.count_cons_of_ne hc]
  exact (key s).1

/-- **The lines on which the scan finds a requirement.** -/
theorem exists_spec_iff (lines : List Str) (line : ℕ) :
    (∃ spec, (spec, line) ∈ specsWithLines (scan lines)) ↔ Yields lines.zipIdx line := by
  rw [specsWithLines_scan]
  constructor
  · rintro ⟨spec, h⟩
    obtain ⟨⟨text, n⟩, below, hreach, hmem⟩ := (Consume.mem_run takes_specStep.shrinks).mp h
    obtain rfl : line = n := line_of_mem_specStep _ _ _ hmem
    obtain ⟨before, hbefore⟩ := hreach.isSuffix takes_specStep.shrinks
    rw [← hbefore] at hreach ⊢
    rw [specStep_fst] at hmem
    obtain ⟨found, hfound, -⟩ := List.mem_map.mp hmem
    exact ⟨before, text, below, rfl, reaches_scan_iff.mp hreach, (extractQuoted_ne_nil_iff _).mp (List.ne_nil_of_mem hfound)⟩
  · rintro ⟨before, text, below, hregion, hnot, hquotes⟩
    obtain ⟨spec, hspec⟩ := List.exists_mem_of_ne_nil _ ((extractQuoted_ne_nil_iff _).mpr hquotes)
    refine ⟨spec, (Consume.mem_run takes_specStep.shrinks).mpr ⟨(text, line), below, ?_, ?_⟩⟩
    · rw [hregion]
      exact reaches_scan_iff.mpr hnot
    · rw [specStep_fst]
      exact List.mem_map_of_mem hspec

/-! ### The result -/

/-- The predicates of a requirement. -/
def Requirement.predicates (r : Requirement) : List Predicate :=
  match r.requirement with
  | .url _ _ preds => preds
  | .named _ _ preds => preds

theorem parseSpec_spec (spec : Str) (preds : List Predicate) : (parseSpec spec preds).spec = spec := by
  unfold parseSpec
  split_ifs
  · split <;> rfl
  all_goals rfl

theorem parseSpec_predicates (spec : Str) (preds : List Predicate) : (parseSpec spec preds).predicates = preds := by
  unfold parseSpec
  split_ifs
  · split <;> rfl
  all_goals rfl

/-- What the scan never loses. -/
structure NeverUnderIncludes (text : Str) : Prop where
  /-- The requirements of the result are what was found on the lines, in their order. -/
  ordered : (parseNimble text).requires.map Requirement.spec = (specsWithLines (scan (Str.lines text))).map Prod.fst ∧
    (specsWithLines (scan (Str.lines text))).Pairwise fun a b => a.2 ≤ b.2
  /-- A documented statement contributes each of its specifications once and in order. -/
  contributes : ∀ st ∈ statements (Str.lines text).zipIdx, ∀ specs, st.Documented specs →
    contributed (Str.lines text) st.line = specs
  /-- A line that is recorded as a `requires` line has a requirement. -/
  recorded : ∀ branch ∈ parseWhenBranches (Str.lines text), ∀ line ∈ branch.requireLines,
    ∃ spec, (spec, line) ∈ specsWithLines (scan (Str.lines text))
  /-- A requirement outside the chains has no predicates. -/
  outside : ∀ found ∈ specsWithLines (scan (Str.lines text)), found.2 ∉ chainLines (Str.lines text).zipIdx →
    (parseSpec found.1 (predicatesAt (parseWhenBranches (Str.lines text)) found.2)).predicates = []

/-- **Nothing is lost exactly if each documented statement stands behind no header, with something on each of its lines, or behind
one header on one line; and each line that is recorded is not the continuation of a `requires` line, and has two quotes in what
is read of it.** -/
theorem never_under_includes_iff (text : Str) :
    NeverUnderIncludes text ↔
      (∀ st ∈ statements (Str.lines text).zipIdx, (∃ specs, st.Documented specs) → st.Reached) ∧
        ∀ branch ∈ parseWhenBranches (Str.lines text), ∀ line ∈ branch.requireLines, Yields (Str.lines text).zipIdx line := by
  constructor
  · intro h
    refine ⟨fun st hst hdoc => ?_, fun branch hbranch line hline => ?_⟩
    · obtain ⟨specs, hdoc⟩ := hdoc
      exact (contributed_eq_iff hst hdoc).mp (h.contributes st hst specs hdoc)
    · exact (exists_spec_iff _ line).mp (h.recorded branch hbranch line hline)
  · rintro ⟨hreached, hyields⟩
    refine ⟨⟨?_, pairwise_specsWithLines _⟩, fun st hst specs hdoc => ?_, fun branch hbranch line hline => ?_,
      fun found _ houtside => ?_⟩
    · rw [parseNimble, List.map_map]
      exact List.map_congr_left fun found _ => parseSpec_spec _ _
    · exact (contributed_eq_iff hst hdoc).mpr (hreached st hst ⟨specs, hdoc⟩)
    · exact (exists_spec_iff _ line).mpr (hyields branch hbranch line hline)
    · rw [parseSpec_predicates]
      exact predicatesAt_of_not_mem houtside

/-- Headers one behind another on a line. -/
def nestedHeaders : Str := "when defined(linux): when defined(amd64): requires \"x\"".toList

/-- A comment inside a statement. -/
def interrupted : Str := "requires \"a\",\n# and\n  \"b\"".toList

/-- **A statement behind two headers is lost, and what comes behind a comment inside a statement.** -/
theorem specs_lost : ¬ NeverUnderIncludes nestedHeaders ∧ ¬ NeverUnderIncludes interrupted := by
  constructor
  · intro h
    have hrecorded := h.recorded ⟨some [predicate "platform" "linux"], [0]⟩ (by decide) 0 (by simp)
    have hnone : specsWithLines (scan (Str.lines nestedHeaders)) = [] := by decide
    rw [hnone] at hrecorded
    obtain ⟨spec, hspec⟩ := hrecorded
    cases hspec
  · intro h
    have hst : (⟨0, 0, "\"a\",".toList, [[], "\"b\"".toList]⟩ : Statement) ∈ statements (Str.lines interrupted).zipIdx := by decide
    have ha : Listed "\"a\",".toList ["a".toList] :=
      @Listed.trailing "a".toList ",".toList (by decide) ⟨[], [], rfl, by simp⟩
    have hb : Listed "\"b\"".toList ["b".toList] := @Listed.one "b".toList (by decide)
    have hdoc : (⟨0, 0, "\"a\",".toList, [[], "\"b\"".toList]⟩ : Statement).Documented ["a".toList, "b".toList] :=
      ⟨⟨[["a".toList], ["b".toList]], .cons ha (.cons hb .nil), rfl⟩, by decide, by decide⟩
    have hcontributes := h.contributes _ hst _ hdoc
    have hfound : contributed (Str.lines interrupted) 0 = ["a".toList] := by decide
    exact absurd (hfound.symm.trans hcontributes) (by decide)

end Milpa.Nimble
