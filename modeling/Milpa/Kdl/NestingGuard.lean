import Milpa.Kdl.Lexical
import Milpa.Kdl.Depth

/-!
# What the nesting guard bounds

`kdl_brace_depth` and `kdl_block_comment_depth` count marks wherever they stand, and a mark
that closes something in a string closes something for the count. So the counts bound how
deep a text nests as long as no string and no comment closes more braces than it has opened
(`blockDepth_le`), and no star stands in code right before a comment (`commentDepth_le`);
they do not bound it for every text.
-/

namespace Milpa.Nesting

open Kdl

/-! ### The counts -/

/-- The marks of comments, as `kdl_block_comment_depth` reads them. -/
def commentMarks : Str → List Bracket
  | '/' :: '*' :: s => .opening :: commentMarks s
  | '*' :: '/' :: s => .closing :: commentMarks s
  | _ :: s => commentMarks s
  | [] => []

theorem max_opened (c : Count) : c.opened.max = max c.max (c.depth + 1) := by
  simp only [Count.opened]
  split_ifs <;> omega

/-- A count over marks is the depth of its brackets. -/
theorem max_opening {c : Count} (h : c.depth ≤ c.max) {l : List Bracket} {n : ℕ}
    (ih : c.opened.depth ≤ c.opened.max → n = max c.opened.max (Bracket.depthFrom c.opened.depth l)) :
    n = max c.max (Bracket.depthFrom c.depth (.opening :: l)) := by
  have hle := Bracket.le_depthFrom (c.depth + 1) l
  rw [ih (by rw [max_opened]; exact le_max_right _ _), max_opened, Bracket.depthFrom]
  simp only [Count.opened, Bracket.after]
  omega

theorem max_closing {c : Count} (h : c.depth ≤ c.max) {l : List Bracket} {n : ℕ}
    (ih : c.closed.depth ≤ c.closed.max → n = max c.closed.max (Bracket.depthFrom c.closed.depth l)) :
    n = max c.max (Bracket.depthFrom c.depth (.closing :: l)) := by
  rw [ih ((Nat.sub_le _ _).trans h), Bracket.depthFrom]
  simp only [Count.closed, Bracket.after]
  omega

theorem max_braces (c : Count) (s : Str) (h : c.depth ≤ c.max) :
    (braces c s).max = max c.max (Bracket.depthFrom c.depth (braceMarks s)) := by
  fun_induction braces c s with
  | case1 c => exact (max_eq_left h).symm
  | case2 c s ih =>
    rw [braceMarks_opening]
    exact max_opening h ih
  | case3 c s ih =>
    rw [braceMarks_closing]
    exact max_closing h ih
  | case4 c x s hopen hclose ih =>
    rw [braceMarks_other (fun h => hopen h) (fun h => hclose h)]
    exact ih h

theorem max_comments (c : Count) (s : Str) (h : c.depth ≤ c.max) :
    (comments c s).max = max c.max (Bracket.depthFrom c.depth (commentMarks s)) := by
  fun_induction comments c s with
  | case1 c s ih =>
    rw [commentMarks]
    exact max_opening h ih
  | case2 c s ih =>
    rw [commentMarks]
    exact max_closing h ih
  | case3 c x s hopen hclose ih =>
    rw [commentMarks.eq_3 x s hopen hclose]
    exact ih h
  | case4 c => exact (max_eq_left h).symm

theorem kdlBraceDepth_eq (text : Str) : kdlBraceDepth text = Bracket.depth (braceMarks text) := by
  rw [kdlBraceDepth, max_braces ⟨0, 0⟩ text le_rfl]
  exact max_eq_right (Nat.zero_le _)

theorem kdlBlockCommentDepth_eq (text : Str) : kdlBlockCommentDepth text = Bracket.depth (commentMarks text) := by
  rw [kdlBlockCommentDepth, max_comments ⟨0, 0⟩ text le_rfl]
  exact max_eq_right (Nat.zero_le _)

/-! ### Braces -/

/-- No string and no comment has closed more braces than it has opened, at any of its characters. -/
def ClosesOwn : ℕ → Place → Str → Prop
  | _, _, [] => True
  | k, p, c :: s =>
    if p.isCode then ClosesOwn 0 (p.next c s) s
    else if c = '{' then ClosesOwn (k + 1) (p.next c s) s
    else if c = '}' then 0 < k ∧ ClosesOwn (k - 1) (p.next c s) s
    else ClosesOwn k (p.next c s) s

theorem depthFrom_mono {m n a b : ℕ} (h : m ≤ n) (hab : a ≤ b) : max m a ≤ max n b := max_le_max h hab

/-- The count is ahead of the nesting by at least the braces that the string or comment has open. -/
theorem depthFrom_codeFrom_le {k m n : ℕ} {p : Place} {s : Str} (h : ClosesOwn k p s) (hle : m + k ≤ n) :
    Bracket.depthFrom m (braceMarks (codeFrom p s)) ≤ Bracket.depthFrom n (braceMarks s) := by
  induction s generalizing k m n p with
  | nil =>
    simp only [codeFrom, braceMarks_nil, Bracket.depthFrom]
    omega
  | cons c s ih =>
    rw [ClosesOwn] at h
    rw [codeFrom]
    by_cases hopen : c = '{'
    · subst hopen
      by_cases hcode : p.isCode = true
      · rw [if_pos hcode] at h ⊢
        exact depthFrom_mono (by omega) (ih h (by simp only [Bracket.after]; omega))
      · rw [if_neg hcode, if_pos rfl] at h
        rw [if_neg hcode]
        exact (ih h (by simp only [Bracket.after]; omega)).trans (Bracket.depthFrom_after_le .opening n (braceMarks s))
    by_cases hclose : c = '}'
    · subst hclose
      by_cases hcode : p.isCode = true
      · rw [if_pos hcode] at h ⊢
        exact depthFrom_mono (by omega) (ih h (by simp only [Bracket.after]; omega))
      · rw [if_neg hcode, if_neg hopen, if_pos rfl] at h
        rw [if_neg hcode]
        exact (ih h.2 (by simp only [Bracket.after]; omega)).trans (Bracket.depthFrom_after_le .closing n (braceMarks s))
    rw [braceMarks_other hopen hclose]
    split_ifs at h ⊢ with hcode
    · rw [braceMarks_other hopen hclose]
      exact ih h (by omega)
    · exact ih h hle

/-- **The count of braces bounds the nesting of blocks** when no string and no comment closes braces that it has not opened. -/
theorem blockDepth_le {text : Str} (h : ClosesOwn 0 .start text) : blockDepth text ≤ kdlBraceDepth text := by
  rw [kdlBraceDepth_eq]
  exact depthFrom_codeFrom_le h le_rfl

/-- **The count of braces bounds the nesting of blocks exactly when the braces of a stretch, read everywhere, exceed as far.** -/
theorem blockDepth_le_iff {text : Str} :
    blockDepth text ≤ kdlBraceDepth text ↔ ∃ l, l <:+: braceMarks text ∧ (blockDepth text : ℤ) ≤ Bracket.excess l := by
  rw [kdlBraceDepth_eq, Bracket.le_depth_iff]

/-! ### Comments -/

/-- No star stands in code right before the beginning of a comment. -/
def Apart : Place → Str → Prop
  | _, [] => True
  | p, c :: s => (p.isCode = true → c = '*' → ¬ ['/', '*'] <+: s) ∧ Apart (p.next c s) s

/-- The marks that are left, where the first character may be the second one of a mark. -/
def marksFrom (second : Bool) (s : Str) : List Bracket := commentMarks (if second then s.drop 1 else s)

/-- The two characters are a mark. -/
def mark (c : Char) (s : Str) : Option Bracket :=
  if c = '/' ∧ s.head? = some '*' then some .opening
  else if c = '*' ∧ s.head? = some '/' then some .closing
  else none

theorem marksFrom_cons (c : Char) (s : Str) : marksFrom false (c :: s) = (mark c s).toList ++ marksFrom (mark c s).isSome s := by
  unfold mark
  split_ifs with hopen hclose
  · obtain ⟨rfl, hhead⟩ := hopen
    obtain ⟨t, rfl⟩ := List.head?_eq_some_iff.mp hhead
    rfl
  · obtain ⟨rfl, hhead⟩ := hclose
    obtain ⟨t, rfl⟩ := List.head?_eq_some_iff.mp hhead
    rfl
  · refine commentMarks.eq_3 c s (fun t hc hs => hopen ⟨hc, by rw [hs]; rfl⟩) fun t hc hs => hclose ⟨hc, by rw [hs]; rfl⟩

/-- The place of the count, which has read `n` marks as open and may stand at the second character of a mark, agrees with a place
in the text. -/
structure Agrees (p : Place) (n : ℕ) (second : Bool) (s : Str) : Prop where
  comments_le : p.context.comments ≤ n
  head : second = true → ∃ c ∈ s.head?, c = '/' ∨ c = '*'
  code : p.context = .code → (p.pending = 0 → second = true → ¬ ['/', '*'] <+: s) ∧ ∀ c ∈ s.take p.pending, c ≠ '*'
  comment : ∀ d, p.context = .blockComment d → p.pending = 0 ∧ second = false ∨ p.pending = 1 ∧ second = true

/-- What the count has read as open behind a character, and whether the next one is the second of a mark. -/
def move (n : ℕ) (second : Bool) (c : Char) (s : Str) : ℕ × Bool :=
  if second then (n, false)
  else
    match mark c s with
    | some b => (b.after n, true)
    | none => (n, false)

theorem depthFrom_move_le (n : ℕ) (second : Bool) (c : Char) (s : Str) :
    Bracket.depthFrom (move n second c s).1 (marksFrom (move n second c s).2 s) ≤ Bracket.depthFrom n (marksFrom second (c :: s)) := by
  cases second with
  | true => exact le_rfl
  | false =>
    rw [marksFrom_cons, move, if_neg (by simp)]
    cases mark c s with
    | none => exact le_rfl
    | some b => exact Bracket.depthFrom_after_le b n _

theorem of_move {n : ℕ} {second : Bool} {c : Char} {s : Str} (h : (move n second c s).2 = true) :
    c = '/' ∧ s.head? = some '*' ∨ c = '*' ∧ s.head? = some '/' := by
  cases second with
  | true => cases h
  | false =>
    rw [move, if_neg (by simp), mark] at h
    split_ifs at h with hopen hclose
    · exact .inl hopen
    · exact .inr hclose

theorem head_of_move {n : ℕ} {second : Bool} {c : Char} {s : Str} (h : (move n second c s).2 = true) :
    ∃ d ∈ s.head?, d = '/' ∨ d = '*' := by
  rcases of_move h with ⟨-, h⟩ | ⟨-, h⟩
  · exact ⟨'*', h, .inr rfl⟩
  · exact ⟨'/', h, .inl rfl⟩

section

variable {p : Place} {n : ℕ} {second : Bool} {c : Char} {s : Str}

/-- A place that is not in a comment nor in code. -/
theorem agrees_of_other (hcode : p.context ≠ .code) (hcomment : ∀ d, p.context ≠ .blockComment d)
    (hhead : second = true → ∃ c ∈ s.head?, c = '/' ∨ c = '*') : Agrees p n second s where
  comments_le := by
    cases hctx : p.context with
    | blockComment d => exact absurd hctx (hcomment d)
    | _ => exact Nat.zero_le n
  head := hhead
  code h := absurd h hcode
  comment d h := absurd h (hcomment d)

/-- A place in code. -/
theorem agrees_of_code {pending : ℕ} (hhead : second = true → ∃ c ∈ s.head?, c = '/' ∨ c = '*')
    (hmark : pending = 0 → second = true → ¬ ['/', '*'] <+: s) (hpending : ∀ c ∈ s.take pending, c ≠ '*') :
    Agrees ⟨.code, pending⟩ n second s where
  comments_le := Nat.zero_le n
  head := hhead
  code _ := ⟨hmark, hpending⟩
  comment _ h := by cases h

/-- A place in code behind a character that begins no mark. -/
theorem agrees_of_code_plain {pending : ℕ} (hslash : c ≠ '/') (hstar : c ≠ '*') (hpending : ∀ d ∈ s.take pending, d ≠ '*') :
    Agrees ⟨.code, pending⟩ (move n second c s).1 (move n second c s).2 s := by
  refine agrees_of_code head_of_move (fun _ hmove => ?_) hpending
  rcases of_move hmove with ⟨rfl, -⟩ | ⟨rfl, -⟩
  · exact absurd rfl hslash
  · exact absurd rfl hstar

theorem take_of_isPrefixOf_cons {a : Char} {l : Str} (h : List.isPrefixOf (a :: l) (c :: s) = true) : c = a ∧ s.take l.length = l := by
  obtain ⟨rfl, t, rfl⟩ := List.cons_prefix_cons.mp (List.isPrefixOf_iff_prefix.mp h)
  exact ⟨rfl, List.take_left⟩

theorem agrees_hash (h : c = '#') (rest : Str) (hrest : rest = s) :
    Agrees (.hash rest) (move n second c s).1 (move n second c s).2 s := by
  subst hrest
  rw [Place.hash]
  split_ifs
  · exact agrees_of_other nofun nofun head_of_move
  · exact agrees_of_other nofun nofun head_of_move
  · exact agrees_of_code_plain (by simp [h]) (by simp [h]) (by simp)

/-- Behind a character in code. -/
theorem agrees_code (h : Agrees ⟨.code, 0⟩ n second (c :: s)) (hapart : c = '*' → ¬ ['/', '*'] <+: s) :
    Agrees (Context.next c s .code) (move n second c s).1 (move n second c s).2 s := by
  rw [Context.next]
  split_ifs with hline hblock hquote hquotes hhash
  · exact agrees_of_other (by simp) (by simp) head_of_move
  · -- the count stands at the first character of the mark
    obtain ⟨rfl, hhead⟩ := hblock
    obtain ⟨t, rfl⟩ := List.head?_eq_some_iff.mp hhead
    have hsecond : second = false := by
      by_contra hsecond
      exact (h.code rfl).1 rfl (by simpa using hsecond) (List.prefix_append ['/', '*'] t)
    subst hsecond
    exact ⟨by simp [move, mark, Bracket.after, Context.comments], head_of_move, by simp, fun _ _ => .inr ⟨rfl, by simp [move, mark]⟩⟩
  · exact agrees_of_other (by simp) (by simp) head_of_move
  · exact agrees_of_other (by simp) (by simp) head_of_move
  · exact agrees_hash hhash s rfl
  · refine agrees_of_code head_of_move (fun _ hmove => ?_) (by simp)
    rcases of_move hmove with ⟨hc, hhead⟩ | ⟨hc, -⟩
    · exact absurd ⟨hc, hhead⟩ hblock
    · exact hapart hc

/-- Behind a character of a block comment. -/
theorem agrees_comment {d : ℕ} (h : Agrees ⟨.blockComment d, 0⟩ n second (c :: s)) :
    Agrees (Context.next c s (.blockComment d)) (move n second c s).1 (move n second c s).2 s := by
  have hle : d ≤ n := h.comments_le
  have hsecond : second = false := by
    rcases h.comment d rfl with ⟨-, h⟩ | ⟨h, -⟩
    · exact h
    · cases h
  subst hsecond
  rw [Context.next]
  split_ifs with hopen hclose hlast
  · have hmark : mark c s = some .opening := if_pos hopen
    refine ⟨?_, head_of_move, by simp, fun _ _ => .inr ⟨rfl, by simp [move, hmark]⟩⟩
    simpa [move, hmark, Bracket.after, Context.comments] using hle
  · refine agrees_of_code head_of_move (by simp) fun x hx => ?_
    obtain ⟨t, rfl⟩ := List.head?_eq_some_iff.mp hclose.2
    obtain rfl : x = '/' := by simpa using hx
    decide
  · have hmark : mark c s = some .closing := by rw [mark, if_neg hopen, if_pos hclose]
    refine ⟨?_, head_of_move, by simp, fun _ _ => .inr ⟨rfl, by simp [move, hmark]⟩⟩
    simp only [move, hmark, Bracket.after, Context.comments]
    exact Nat.sub_le_sub_right hle 1
  · have hmark : mark c s = none := by rw [mark, if_neg hopen, if_neg hclose]
    exact ⟨by simpa [move, hmark, Context.comments] using hle, head_of_move, by simp, fun _ _ => .inl ⟨rfl, by simp [move, hmark]⟩⟩

/-- Behind a character of a string or of a comment that ends with its line. -/
theorem agrees_string {x : Context} (hcode : x ≠ .code) (hcomment : ∀ d, x ≠ .blockComment d) :
    Agrees (Context.next c s x) (move n second c s).1 (move n second c s).2 s := by
  cases x with
  | code => exact absurd rfl hcode
  | blockComment d => exact absurd rfl (hcomment d)
  | lineComment =>
    rw [Context.next]
    split_ifs with hend
    · refine agrees_of_code_plain ?_ ?_ (by simp) <;> rintro rfl <;> revert hend <;> decide
    · exact agrees_of_other nofun nofun head_of_move
  | quoted =>
    rw [Context.next]
    split_ifs with hescape hend
    · exact agrees_of_other nofun nofun head_of_move
    · exact agrees_of_code_plain (by simp [hend]) (by simp [hend]) (by simp)
    · exact agrees_of_other nofun nofun head_of_move
  | multiline =>
    rw [Context.next]
    split_ifs with hescape hend
    · exact agrees_of_other nofun nofun head_of_move
    · obtain ⟨rfl, htake⟩ := take_of_isPrefixOf_cons hend
      refine agrees_of_code_plain (by decide) (by decide) fun y hy => ?_
      have htake : s.take 2 = ['"', '"'] := htake
      rw [htake] at hy
      revert hy
      simp +contextual
    · exact agrees_of_other nofun nofun head_of_move
  | raw hashes =>
    rw [Context.next]
    split_ifs with hend
    · obtain ⟨rfl, htake⟩ := take_of_isPrefixOf_cons hend
      refine agrees_of_code_plain (by decide) (by decide) fun y hy => ?_
      rw [List.length_replicate] at htake
      rw [htake] at hy
      rw [(List.mem_replicate.mp hy).2]
      decide
    · exact agrees_of_other nofun nofun head_of_move
  | rawMultiline hashes =>
    rw [Context.next]
    split_ifs with hend
    · obtain ⟨rfl, htake⟩ := take_of_isPrefixOf_cons (l := '"' :: '"' :: List.replicate hashes '#') hend
      refine agrees_of_code_plain (by decide) (by decide) fun y hy => ?_
      simp only [List.length_cons, List.length_replicate] at htake
      rw [htake] at hy
      simp only [List.mem_cons, List.mem_replicate] at hy
      rcases hy with rfl | rfl | ⟨-, rfl⟩ <;> decide
    · exact agrees_of_other nofun nofun head_of_move

/-- **The count agrees with the text, character by character.** -/
theorem agrees_next (h : Agrees p n second (c :: s)) (hapart : p.isCode = true → c = '*' → ¬ ['/', '*'] <+: s) :
    Agrees (p.next c s) (move n second c s).1 (move n second c s).2 s := by
  obtain ⟨x, _ | pending⟩ := p
  · by_cases hcode : x = .code
    · subst hcode
      exact agrees_code h (hapart rfl)
    · by_cases hcomment : ∀ d, x ≠ .blockComment d
      · exact agrees_string hcode hcomment
      · push Not at hcomment
        obtain ⟨d, rfl⟩ := hcomment
        exact agrees_comment h
  · show Agrees ⟨x, pending⟩ _ _ s
    by_cases hcode : x = .code
    · subst hcode
      have hpending := (h.code rfl).2
      refine agrees_of_code head_of_move (fun _ hmove => ?_) fun y hy => hpending y (by simp [hy])
      rcases of_move hmove with ⟨-, hhead⟩ | ⟨rfl, -⟩
      · obtain ⟨t, rfl⟩ := List.head?_eq_some_iff.mp hhead
        simp
      · exact absurd rfl (hpending _ (by simp))
    · by_cases hcomment : ∀ d, x ≠ .blockComment d
      · exact agrees_of_other hcode hcomment head_of_move
      · push Not at hcomment
        obtain ⟨d, rfl⟩ := hcomment
        obtain ⟨hpending, rfl⟩ : pending = 0 ∧ second = true := by
          rcases h.comment d rfl with ⟨h, -⟩ | ⟨h, hsecond⟩
          · cases h
          · exact ⟨by simpa using h, hsecond⟩
        exact ⟨h.comments_le, head_of_move, nofun, fun _ _ => .inl ⟨hpending, rfl⟩⟩

theorem commentDepthFrom_le (h : Agrees p n second s) (hapart : Apart p s) :
    commentDepthFrom p s ≤ Bracket.depthFrom n (marksFrom second s) := by
  induction s generalizing p n second with
  | nil => exact Nat.zero_le _
  | cons c s ih =>
    rw [commentDepthFrom]
    exact max_le (h.comments_le.trans (Bracket.le_depthFrom n _))
      ((ih (agrees_next h hapart.1) hapart.2).trans (depthFrom_move_le n second c s))

end

/-- **The count of comments bounds their nesting** when no star stands in code right before a comment. -/
theorem commentDepth_le {text : Str} (h : Apart .start text) : commentDepth text ≤ kdlBlockCommentDepth text := by
  have hstart : Agrees .start 0 false text := agrees_of_code (by simp) (by simp) (by simp)
  rw [kdlBlockCommentDepth_eq]
  exact commentDepthFrom_le hstart h

/-- The count of comments bounds their nesting exactly when the marks of a stretch, as the count reads them, exceed as far. -/
theorem commentDepth_le_iff {text : Str} :
    commentDepth text ≤ kdlBlockCommentDepth text ↔ ∃ l, l <:+: commentMarks text ∧ (commentDepth text : ℤ) ≤ Bracket.excess l := by
  rw [kdlBlockCommentDepth_eq, Bracket.le_depth_iff]

/-! ### The guard -/

/-- **The counts bound the nesting of a text exactly when stretches of its marks exceed as far.** They do when no string and no
comment closes braces that it has not opened, and no star stands in code right before a comment; and then a text that passes
the guard nests no deeper than it may. -/
theorem nesting_guard_sound_iff (text : Str) :
    (blockDepth text ≤ kdlBraceDepth text ∧ commentDepth text ≤ kdlBlockCommentDepth text ↔
      (∃ l, l <:+: braceMarks text ∧ (blockDepth text : ℤ) ≤ Bracket.excess l) ∧
        ∃ l, l <:+: commentMarks text ∧ (commentDepth text : ℤ) ≤ Bracket.excess l) ∧
    (ClosesOwn 0 .start text → blockDepth text ≤ kdlBraceDepth text) ∧
    (Apart .start text → commentDepth text ≤ kdlBlockCommentDepth text) ∧
    (ClosesOwn 0 .start text → Apart .start text → Shallow text →
      blockDepth text ≤ kdlMaxNestingDepth ∧ commentDepth text ≤ kdlMaxNestingDepth) :=
  ⟨and_congr blockDepth_le_iff commentDepth_le_iff, blockDepth_le, commentDepth_le,
    fun hown hapart hshallow => ⟨(blockDepth_le hown).trans hshallow.1, (commentDepth_le hapart).trans hshallow.2⟩⟩

/-! ### Texts that the guard lets pass -/

/-- Blocks inside one another, each behind a string with a closing brace. -/
def deepBlocks : ℕ → Str
  | 0 => []
  | n + 1 => 'a' :: ' ' :: '"' :: '}' :: '"' :: ' ' :: '{' :: (deepBlocks n ++ ['}'])

theorem deepBlocks_append (n : ℕ) (t : Str) :
    deepBlocks (n + 1) ++ t = 'a' :: ' ' :: '"' :: '}' :: '"' :: ' ' :: '{' :: (deepBlocks n ++ '}' :: t) := by
  simp [deepBlocks]

theorem le_blockDepth_deepBlocks (n : ℕ) : n ≤ blockDepth (deepBlocks n) := by
  have key : ∀ (n : ℕ) (t : Str), ∃ l, braceMarks (codeFrom .start (deepBlocks n ++ t)) = List.replicate n .opening ++ l := by
    intro n
    induction n with
    | zero => exact fun t => ⟨_, rfl⟩
    | succ n ih =>
      intro t
      obtain ⟨l, hl⟩ := ih ('}' :: t)
      rw [deepBlocks_append]
      exact ⟨l, congrArg (Bracket.opening :: ·) hl⟩
  have hexcess : ∀ n : ℕ, Bracket.excess (List.replicate n .opening) = n := by
    intro n
    induction n with
    | zero => rfl
    | succ n ih => simp [List.replicate_succ, Bracket.excess, ih]
  obtain ⟨l, hl⟩ := key n []
  rw [List.append_nil] at hl
  exact Bracket.le_depth_iff.mpr ⟨_, hl ▸ (List.prefix_append _ l).isInfix, (hexcess n).ge⟩

theorem kdlBraceDepth_deepBlocks_le (n : ℕ) : kdlBraceDepth (deepBlocks n) ≤ 1 := by
  have key : ∀ (n : ℕ) (t : Str), (∀ r ≤ 1, Bracket.depthFrom r (braceMarks t) ≤ 1) →
      ∀ r ≤ 1, Bracket.depthFrom r (braceMarks (deepBlocks n ++ t)) ≤ 1 := by
    intro n
    induction n with
    | zero => exact fun t ht => ht
    | succ n ih =>
      intro t ht r hr
      have hclosed : ∀ r ≤ 1, Bracket.depthFrom r (braceMarks ('}' :: t)) ≤ 1 := fun r hr =>
        max_le hr (ht (r - 1) ((Nat.sub_le _ _).trans hr))
      rw [deepBlocks_append]
      refine max_le hr (max_le ((Nat.sub_le _ _).trans hr) (ih _ hclosed _ ?_))
      simp only [Bracket.after]
      omega
  rw [kdlBraceDepth_eq]
  have h := key n [] (fun r hr => hr) 0 (Nat.zero_le _)
  rwa [List.append_nil] at h

/-- **Blocks as deep as one likes pass the guard**, which counts them as one; and a star before comments inside one another takes
the slash of each. -/
theorem guard_passes_deep_blocks :
    (Shallow (deepBlocks 33) ∧ kdlBraceDepth (deepBlocks 33) < blockDepth (deepBlocks 33) ∧
      kdlMaxNestingDepth < blockDepth (deepBlocks 33)) ∧
    kdlBlockCommentDepth "a*/*/*b*/*/".toList < commentDepth "a*/*/*b*/*/".toList := by
  have hdepth := le_blockDepth_deepBlocks 33
  have hcount := kdlBraceDepth_deepBlocks_le 33
  have hmax : kdlMaxNestingDepth = 32 := rfl
  have hcomments : kdlBlockCommentDepth (deepBlocks 33) = 0 := by decide
  exact ⟨⟨⟨by omega, by omega⟩, by omega, by omega⟩, by decide⟩

end Milpa.Nesting
