import Milpa.Types.Text

/-!
# Options in a text

A text that is read line by line as options: a quoted one, `key"argument"`, and a bare
one, `key` and its argument. Blanks separate the options of a line, outside quotation
marks, and `#` begins a comment. What is read has no character that ends an argument
(`quotable_of_mem_read`, `plain_of_mem_read`), and an option whose argument has none is
read as it was written.
-/

namespace Milpa.OptionText

/-- What is read: an option of one of the two kinds, or something else. -/
inductive Opt where
  | quoted (argument : Str)
  | bare (argument : Str)
  | other (word : Str)
  deriving DecidableEq, Repr

/-- The character ends a line. -/
def isLineEnd (c : Char) : Bool := c == '\n' || c == '\r'

/-- Where a reader stands in a line. -/
inductive Mode where
  | bare
  | quoted
  | comment

/-- A word that has begun. -/
def flush (word : Str) : List Str := if word.isEmpty then [] else [word]

/-- The words of a text, after the beginning of one of them. -/
def words : Mode → Str → Str → List Str
  | _, word, [] => flush word
  | mode, word, c :: text =>
    if isLineEnd c then flush word ++ words .bare [] text
    else
      match mode with
      | .comment => words .comment [] text
      | .quoted => words (if c = '"' then .bare else .quoted) (word ++ [c]) text
      | .bare =>
        if c = '#' then flush word ++ words .comment [] text
        else if c.isWhitespace then flush word ++ words .bare [] text
        else words (if c = '"' then .quoted else .bare) (word ++ [c]) text

/-- The option that a word is, by what a quoted and a bare option begin with. -/
def classify (quotedKey bareKey word : Str) : Opt :=
  let quoted := (word.drop (quotedKey.length + 1)).dropLast
  let bare := word.drop bareKey.length
  if word = quotedKey ++ '"' :: (quoted ++ ['"']) ∧ '"' ∉ quoted then .quoted quoted
  else if word = bareKey ++ bare ∧ '"' ∉ bare then .bare bare
  else .other word

/-- The options of a text. -/
def read (quotedKey bareKey text : Str) : List Opt := (words .bare [] text).map (classify quotedKey bareKey)

/-- The character neither ends a bare argument nor begins a quoted one. -/
def IsPlain (c : Char) : Prop := isLineEnd c = false ∧ c.isWhitespace = false ∧ c ≠ '#' ∧ c ≠ '"'

instance (c : Char) : Decidable (IsPlain c) := inferInstanceAs (Decidable (_ ∧ _))

/-- An argument between quotation marks that nothing ends. -/
def Quotable (argument : Str) : Prop := ∀ c ∈ argument, isLineEnd c = false ∧ c ≠ '"'

instance (argument : Str) : Decidable (Quotable argument) := List.decidableBAll _ argument

/-- A bare argument that nothing ends. -/
def Plain (argument : Str) : Prop := ∀ c ∈ argument, IsPlain c

instance (argument : Str) : Decidable (Plain argument) := List.decidableBAll _ argument

variable {quotedKey bareKey : Str}

@[simp] theorem quotable_nil : Quotable [] := nofun

theorem quotable_append {s t : Str} : Quotable (s ++ t) ↔ Quotable s ∧ Quotable t := List.forall_mem_append

theorem quotable_cons {c : Char} {s : Str} : Quotable (c :: s) ↔ (isLineEnd c = false ∧ c ≠ '"') ∧ Quotable s := List.forall_mem_cons

theorem Quotable.not_mem {s : Str} (h : Quotable s) : '"' ∉ s := fun hmem => (h _ hmem).2 rfl

theorem Plain.not_mem {s : Str} (h : Plain s) : '"' ∉ s := fun hmem => (h _ hmem).2.2.2 rfl

/-! ### One line after the other -/

theorem words_cons (mode : Mode) (word text : Str) (c : Char) :
    words mode word (c :: text) =
      if isLineEnd c then flush word ++ words .bare [] text
      else
        match mode with
        | .comment => words .comment [] text
        | .quoted => words (if c = '"' then .bare else .quoted) (word ++ [c]) text
        | .bare =>
          if c = '#' then flush word ++ words .comment [] text
          else if c.isWhitespace then flush word ++ words .bare [] text
          else words (if c = '"' then .quoted else .bare) (word ++ [c]) text := by
  cases mode <;> rfl

/-- What follows the end of a line is read on its own. -/
theorem words_append_lineEnd {mode : Mode} {word s t : Str} :
    words mode word (s ++ '\n' :: t) = words mode word s ++ words .bare [] t := by
  induction s generalizing mode word with
  | nil => simp [words, isLineEnd]
  | cons c s ih =>
    rw [List.cons_append, words_cons, words_cons]
    by_cases hend : isLineEnd c = true
    · rw [if_pos hend, if_pos hend, ih, List.append_assoc]
    · rw [if_neg hend, if_neg hend]
      cases mode with
      | comment => exact ih
      | quoted => exact ih
      | bare =>
        dsimp only
        split_ifs
        · rw [ih, List.append_assoc]
        · rw [ih, List.append_assoc]
        · exact ih
        · exact ih

theorem read_append_lineEnd (s t : Str) :
    read quotedKey bareKey (s ++ '\n' :: t) = read quotedKey bareKey s ++ read quotedKey bareKey t := by
  rw [read, words_append_lineEnd, List.map_append]
  rfl

/-- The options of lines. -/
theorem read_lines (lines : List Str) : read quotedKey bareKey (['\n'].intercalate lines) = lines.flatMap (read quotedKey bareKey) := by
  induction lines with
  | nil => rfl
  | cons line lines ih =>
    cases lines with
    | nil => simp [List.intercalate]
    | cons next lines =>
      rw [List.intercalate_cons_cons, List.append_assoc, List.singleton_append, read_append_lineEnd, ih]
      rfl

/-! ### What is read as it was written -/

theorem words_plain {s t word : Str} (h : Plain s) : words .bare word (s ++ t) = words .bare (word ++ s) t := by
  induction s generalizing word with
  | nil => simp
  | cons c s ih =>
    obtain ⟨⟨hline, hblank, hcomment, hquote⟩, hs⟩ := List.forall_mem_cons.mp h
    rw [List.cons_append, words_cons, if_neg (by simp [hline])]
    dsimp only
    rw [if_neg hcomment, if_neg (by simp [hblank]), if_neg hquote, ih hs, List.append_assoc, List.singleton_append]

theorem words_quotable {s t word : Str} (h : Quotable s) : words .quoted word (s ++ t) = words .quoted (word ++ s) t := by
  induction s generalizing word with
  | nil => simp
  | cons c s ih =>
    obtain ⟨⟨hline, hquote⟩, hs⟩ := List.forall_mem_cons.mp h
    rw [List.cons_append, words_cons, if_neg (by simp [hline])]
    dsimp only
    rw [if_neg hquote, ih hs, List.append_assoc, List.singleton_append]

/-- A bare option. -/
theorem read_bare {argument : Str} (hkey : Plain bareKey) (hsome : bareKey ≠ []) (h : Plain argument) :
    read quotedKey bareKey (bareKey ++ argument) = [.bare argument] := by
  have hplain : Plain (bareKey ++ argument) := List.forall_mem_append.mpr ⟨hkey, h⟩
  have hwords : words .bare [] (bareKey ++ argument) = [bareKey ++ argument] := by
    rw [← List.append_nil (bareKey ++ argument), words_plain hplain]
    simp [words, flush, hsome]
  have hquote : ¬ bareKey ++ argument = quotedKey ++ '"' :: (((bareKey ++ argument).drop (quotedKey.length + 1)).dropLast ++ ['"']) := by
    intro heq
    apply hplain.not_mem
    rw [heq]
    simp
  rw [read, hwords, List.map_singleton, classify]
  rw [if_neg fun hand => hquote hand.1, List.drop_left, if_pos ⟨rfl, h.not_mem⟩]

/-- A quoted option. -/
theorem read_quoted {argument : Str} (hkey : Plain quotedKey) (h : Quotable argument) :
    read quotedKey bareKey (quotedKey ++ '"' :: (argument ++ ['"'])) = [.quoted argument] := by
  have hwords : words .bare [] (quotedKey ++ '"' :: (argument ++ ['"'])) = [quotedKey ++ '"' :: (argument ++ ['"'])] := by
    rw [words_plain hkey, words_cons, if_neg (by decide)]
    dsimp only
    rw [if_neg (by decide), if_neg (by decide), if_pos rfl, words_quotable h]
    simp [words, flush, isLineEnd]
  have hdrop : ((quotedKey ++ '"' :: (argument ++ ['"'])).drop (quotedKey.length + 1)).dropLast = argument := by
    rw [List.drop_append, List.drop_of_length_le (by omega), show quotedKey.length + 1 - quotedKey.length = 1 by omega]
    simp
  rw [read, hwords, List.map_singleton, classify]
  rw [hdrop, if_pos ⟨rfl, h.not_mem⟩]

/-! ### What can be read -/

/-- A word that is being read: no line ends in it, and nothing that ends a word unless there is a quotation mark. -/
structure Begun (mode : Mode) (word : Str) : Prop where
  line : ∀ c ∈ word, isLineEnd c = false
  plain : '"' ∉ word → Plain word
  mark : mode = .quoted → '"' ∈ word

theorem begun_nil : Begun .bare [] := ⟨nofun, fun _ => nofun, nofun⟩

theorem Begun.push {mode mode' : Mode} {word : Str} {c : Char} (h : Begun mode word) (hline : isLineEnd c = false)
    (hplain : mode ≠ .quoted → c ≠ '"' → IsPlain c) (hmark : mode' = .quoted → '"' ∈ word ++ [c]) : Begun mode' (word ++ [c]) where
  line := fun d hd => by
    rcases List.mem_append.mp hd with hd | hd
    · exact h.line d hd
    · rwa [List.mem_singleton.mp hd]
  plain := fun hnone d hd => by
    have hword : '"' ∉ word := fun hmem => hnone (List.mem_append_left _ hmem)
    rcases List.mem_append.mp hd with hd | hd
    · exact h.plain hword d hd
    · rw [List.mem_singleton.mp hd]
      exact hplain (fun hmode => hword (h.mark hmode)) fun heq => hnone (by simp [heq])
  mark := hmark

theorem begun_of_mem_flush {mode : Mode} {word w : Str} (hbegun : Begun mode word) (h : w ∈ flush word) : Begun .bare w := by
  rw [flush] at h
  split_ifs at h
  · cases h
  · rw [List.mem_singleton.mp h]
    exact ⟨hbegun.line, hbegun.plain, nofun⟩

theorem begun_of_mem_words {mode : Mode} {word text w : Str} (hbegun : Begun mode word) (h : w ∈ words mode word text) :
    Begun .bare w := by
  induction text generalizing mode word with
  | nil => exact begun_of_mem_flush hbegun h
  | cons c text ih =>
    rw [words_cons] at h
    by_cases hend : isLineEnd c = true
    · rw [if_pos hend] at h
      exact (List.mem_append.mp h).elim (begun_of_mem_flush hbegun) (ih begun_nil)
    · rw [if_neg hend] at h
      rw [Bool.not_eq_true] at hend
      cases mode with
      | comment => exact ih (⟨nofun, fun _ => nofun, nofun⟩ : Begun .comment []) h
      | quoted =>
        have hmark : '"' ∈ word ++ [c] := List.mem_append_left _ (hbegun.mark rfl)
        exact ih (hbegun.push hend (fun hne => absurd rfl hne) fun _ => hmark) h
      | bare =>
        dsimp only at h
        by_cases hcomment : c = '#'
        · rw [if_pos hcomment] at h
          exact (List.mem_append.mp h).elim (begun_of_mem_flush hbegun) (ih (⟨nofun, fun _ => nofun, nofun⟩ : Begun .comment []))
        rw [if_neg hcomment] at h
        by_cases hblank : c.isWhitespace = true
        · rw [if_pos hblank] at h
          exact (List.mem_append.mp h).elim (begun_of_mem_flush hbegun) (ih begun_nil)
        rw [if_neg hblank] at h
        by_cases hquote : c = '"'
        · rw [if_pos hquote] at h
          exact ih (hbegun.push hend (fun _ hne => absurd hquote hne) fun _ => by simp [hquote]) h
        · rw [if_neg hquote] at h
          rw [Bool.not_eq_true] at hblank
          have hpush : Begun .bare (word ++ [c]) := hbegun.push hend (fun _ hne => ⟨hend, hblank, hcomment, hne⟩) nofun
          exact ih hpush h

/-- Nothing ends a quoted argument that is read. -/
theorem quotable_of_mem_read {text argument : Str} (h : .quoted argument ∈ read quotedKey bareKey text) : Quotable argument := by
  obtain ⟨w, hw, hclass⟩ := List.mem_map.mp h
  have hbegun := begun_of_mem_words begun_nil hw
  unfold classify at hclass
  dsimp only at hclass
  split_ifs at hclass with hquoted
  cases hclass
  intro c hc
  refine ⟨hbegun.line c ?_, fun heq => hquoted.2 (heq ▸ hc)⟩
  rw [hquoted.1]
  simp [hc]

/-- Nothing ends a bare argument that is read. -/
theorem plain_of_mem_read {text argument : Str} (hkey : '"' ∉ bareKey) (h : .bare argument ∈ read quotedKey bareKey text) :
    Plain argument := by
  obtain ⟨w, hw, hclass⟩ := List.mem_map.mp h
  have hbegun := begun_of_mem_words begun_nil hw
  unfold classify at hclass
  dsimp only at hclass
  split_ifs at hclass with hquoted hbare
  cases hclass
  have hnone : '"' ∉ w := by
    rw [hbare.1, List.mem_append]
    exact not_or.mpr ⟨hkey, hbare.2⟩
  intro c hc
  refine hbegun.plain hnone c ?_
  rw [hbare.1]
  exact List.mem_append_right _ hc

end Milpa.OptionText
