import Milpa.Types.Text

/-!
# Configuration files of git

The format that `git config` reads: sections, and settings in them. The reader goes over
the text one character at a time, as git does: several items may stand on one line, and a
value may be quoted, escaped and continued on the next line. What stands on a line by
itself, without any of these, is read as it is written (`run_header`, `run_setting`).
-/

namespace Milpa.GitConfig

/-- A setting, in the section that was open; a name without `=` has no value. -/
structure Setting where
  stem : Str
  key : Str
  value : Option Str
  deriving DecidableEq

/-- Where the reader is. -/
inductive Phase where
  | between
  | comment
  /-- After `[`. -/
  | header (stem : Str)
  /-- Before the quote of a subsection. -/
  | gap (stem : Str)
  | quoted (stem : Str)
  | quotedEscape (stem : Str)
  /-- Before `]`. -/
  | close (stem : Str)
  | key (name : Str)
  /-- Before `=`. -/
  | assign (name : Str)
  /-- In a value: what is kept of it, and the blanks after that, which are kept if something follows. -/
  | value (name text blanks : Str) (quote : Bool)
  | valueEscape (name text : Str) (quote : Bool)
  | valueComment (name text : Str)
  | failed
  deriving DecidableEq

/-- The open section, the place in it, and the settings so far. -/
structure Reader where
  stem : Str
  phase : Phase
  settings : List Setting

/-- `isspace`. -/
def isSpace (c : Char) : Bool := c == ' ' || c == '\t' || c == '\n' || c == '\r'

/-- `iskeychar`. -/
def isKeyChar (c : Char) : Bool := c.isAlphanum || c == '-'

namespace Reader

/-- The reader, elsewhere. -/
def at_ (r : Reader) (phase : Phase) : Reader := { r with phase := phase }

/-- A section is open. -/
def enter (r : Reader) (stem : Str) : Reader := ⟨stem, .between, r.settings⟩

/-- A setting was read. -/
def emit (r : Reader) (name : Str) (value : Option Str) : Reader := ⟨r.stem, .between, r.settings ++ [⟨r.stem, name, value⟩]⟩

/-- A character after the name of a setting. -/
def afterName (r : Reader) (name : Str) (c : Char) : Reader :=
  if c = '\n' then r.emit name none
  else if c = ' ' ∨ c = '\t' then r.at_ (.assign name)
  else if c = '=' then r.at_ (.value name [] [] false)
  else r.at_ .failed

/-- A character of a value. -/
def inValue (r : Reader) (name text blanks : Str) (quote : Bool) (c : Char) : Reader :=
  if c = '\n' then (if quote then r.at_ .failed else r.emit name (some text))
  else if isSpace c && !quote then r.at_ (.value name text (if text = [] then [] else blanks ++ [c]) quote)
  else if (c = ';' ∨ c = '#') ∧ quote = false then r.at_ (.valueComment name text)
  else if c = '\\' then r.at_ (.valueEscape name (text ++ blanks) quote)
  else if c = '"' then r.at_ (.value name (text ++ blanks) [] (!quote))
  else r.at_ (.value name (text ++ blanks ++ [c]) [] quote)

/-- A character after a backslash in a value; the end of the line is dropped. -/
def afterEscape (r : Reader) (name text : Str) (quote : Bool) (c : Char) : Reader :=
  if c = '\n' then r.at_ (.value name text [] quote)
  else if c = 't' then r.at_ (.value name (text ++ ['\t']) [] quote)
  else if c = 'b' then r.at_ (.value name (text ++ [Char.ofNat 8]) [] quote)
  else if c = 'n' then r.at_ (.value name (text ++ ['\n']) [] quote)
  else if c = '\\' ∨ c = '"' then r.at_ (.value name (text ++ [c]) [] quote)
  else r.at_ .failed

/-- One character. -/
def step (r : Reader) (c : Char) : Reader :=
  match r.phase with
  | .between =>
    if isSpace c then r
    else if c = '#' ∨ c = ';' then r.at_ .comment
    else if c = '[' then r.at_ (.header [])
    else if c.isAlpha then r.at_ (.key [c.toLower])
    else r.at_ .failed
  | .comment => if c = '\n' then r.at_ .between else r
  | .header stem =>
    if c = ']' then (if stem = [] then r.at_ .failed else r.enter stem)
    else if c = '\n' then r.at_ .failed
    else if isSpace c then r.at_ (.gap stem)
    else if isKeyChar c ∨ c = '.' then r.at_ (.header (stem ++ [c.toLower]))
    else r.at_ .failed
  | .gap stem =>
    if c = '\n' then r.at_ .failed
    else if isSpace c then r
    else if c = '"' then r.at_ (.quoted (stem ++ ['.']))
    else r.at_ .failed
  | .quoted stem =>
    if c = '\n' then r.at_ .failed
    else if c = '"' then r.at_ (.close stem)
    else if c = '\\' then r.at_ (.quotedEscape stem)
    else r.at_ (.quoted (stem ++ [c]))
  | .quotedEscape stem => if c = '\n' then r.at_ .failed else r.at_ (.quoted (stem ++ [c]))
  | .close stem => if c = ']' then r.enter stem else r.at_ .failed
  | .key name => if isKeyChar c then r.at_ (.key (name ++ [c.toLower])) else r.afterName name c
  | .assign name => r.afterName name c
  | .value name text blanks quote => r.inValue name text blanks quote c
  | .valueEscape name text quote => r.afterEscape name text quote c
  | .valueComment name text => if c = '\n' then r.emit name (some text) else r
  | .failed => r

/-- A text. -/
def run (r : Reader) (text : Str) : Reader := text.foldl step r

end Reader

/-- A line may end as on DOS. -/
def unixEnds : Str → Str
  | '\r' :: '\n' :: rest => '\n' :: unixEnds rest
  | c :: rest => c :: unixEnds rest
  | [] => []

/-- Without a byte order mark. -/
def withoutBom (text : Str) : Str := (Str.stripPrefix text [Char.ofNat 0xFEFF]).getD text

/-- The settings of a file, or none where git reports an error; the end of the file ends what is open, as a line end does. -/
def read (text : Str) : Option (List Setting) :=
  let r := Reader.run ⟨[], .between, []⟩ (unixEnds (withoutBom text) ++ "\n\n".toList)
  if r.phase = .between then some r.settings else none

/-- The value of a setting: the last one that it was given. -/
def lastValue (settings : List Setting) (stem key : Str) : Option Str :=
  settings.foldl (fun value s => if s.stem = stem ∧ s.key = key then s.value else value) none

/-! ### What is written plainly -/

variable {r : Reader} {s name text word key : Str}

/-- Spaces and tabs. -/
def Blank (s : Str) : Prop := ∀ c ∈ s, c = ' ' ∨ c = '\t'

namespace Reader

@[simp] theorem at_phase (r : Reader) (p : Phase) : (r.at_ p).phase = p := rfl

theorem at_self {r : Reader} {p : Phase} (h : r.phase = p) : r.at_ p = r := by
  cases h
  rfl

@[simp] theorem at_at (r : Reader) (p q : Phase) : (r.at_ p).at_ q = r.at_ q := rfl

@[simp] theorem at_emit (r : Reader) (p : Phase) (name : Str) (value : Option Str) : (r.at_ p).emit name value = r.emit name value := rfl

@[simp] theorem at_enter (r : Reader) (p : Phase) (stem : Str) : (r.at_ p).enter stem = r.enter stem := rfl

@[simp] theorem run_nil (r : Reader) : r.run [] = r := rfl

@[simp] theorem run_cons (r : Reader) (c : Char) (s : Str) : r.run (c :: s) = (r.step c).run s := rfl

@[simp] theorem run_append (r : Reader) (s s' : Str) : r.run (s ++ s') = (r.run s).run s' := List.foldl_append

/-- A phase that the characters of a text leave as it is. -/
theorem run_stay {p : Phase} (h : ∀ c ∈ s, (r.at_ p).step c = r.at_ p) : (r.at_ p).run s = r.at_ p := by
  induction s with
  | nil => rfl
  | cons c s ih =>
    obtain ⟨hc, hs⟩ := List.forall_mem_cons.mp h
    rw [run_cons, hc, ih hs]

/-- A phase that collects the characters of a text. -/
theorem run_collect {p : Str → Phase} {f : Char → Char} (h : ∀ c ∈ s, ∀ t, (r.at_ (p t)).step c = r.at_ (p (t ++ [f c]))) (t : Str) :
    (r.at_ (p t)).run s = r.at_ (p (t ++ s.map f)) := by
  induction s generalizing t with
  | nil => simp
  | cons c s ih =>
    obtain ⟨hc, hs⟩ := List.forall_mem_cons.mp h
    rw [run_cons, hc, ih hs, List.append_assoc]
    rfl

end Reader

theorem Blank.isSpace (h : Blank s) : ∀ c ∈ s, GitConfig.isSpace c = true := by
  intro c hc
  rcases h c hc with rfl | rfl <;> rfl

theorem Blank.ne_newline (h : Blank s) : ∀ c ∈ s, c ≠ '\n' := by
  intro c hc
  rcases h c hc with rfl | rfl <;> decide

/-- Blanks between items. -/
theorem run_blank (h : Blank s) : (r.at_ .between).run s = r.at_ .between :=
  Reader.run_stay fun c hc => if_pos (h.isSpace c hc)

/-- A comment, to the end of its line. -/
theorem run_comment {mark : Char} (hmark : mark = '#' ∨ mark = ';') (htext : '\n' ∉ text) :
    (r.at_ .between).run (mark :: (text ++ ['\n'])) = r.at_ .between := by
  have hstep : (r.at_ .between).step mark = r.at_ .comment := by rcases hmark with rfl | rfl <;> rfl
  have hrun : (r.at_ .comment).run text = r.at_ .comment :=
    Reader.run_stay fun c hc => if_neg (ne_of_mem_of_not_mem hc htext)
  rw [Reader.run_cons, hstep, Reader.run_append, hrun]
  rfl

/-! ### A header -/

theorem ne_of_isKeyChar {c d : Char} (hc : isKeyChar c = true) (hd : isKeyChar d = false) : c ≠ d := by
  rintro rfl
  rw [hc] at hd
  cases hd

theorem isSpace_of_isKeyChar {c : Char} (hc : isKeyChar c = true) : isSpace c = false := by
  simp only [isSpace, Bool.or_eq_false_iff, beq_eq_false_iff_ne]
  exact ⟨⟨⟨ne_of_isKeyChar hc (by decide), ne_of_isKeyChar hc (by decide)⟩, ne_of_isKeyChar hc (by decide)⟩,
    ne_of_isKeyChar hc (by decide)⟩

/-- The name of a section, in lower case. -/
theorem run_word (hword : ∀ c ∈ word, isKeyChar c = true) (stem : Str) :
    (r.at_ (.header stem)).run word = r.at_ (.header (stem ++ word.map Char.toLower)) := by
  refine Reader.run_collect (fun c hc t => ?_) stem
  have hkey := hword c hc
  simp only [Reader.step, Reader.at_phase, Reader.at_at]
  rw [if_neg (ne_of_isKeyChar hkey (by decide)), if_neg (ne_of_isKeyChar hkey (by decide)),
    if_neg (by rw [isSpace_of_isKeyChar hkey]; decide), if_pos (.inl hkey)]

/-- The name of a subsection, as it is written. -/
theorem run_quoted (hname : ∀ c ∈ name, c ≠ '\n' ∧ c ≠ '"' ∧ c ≠ '\\') (stem : Str) :
    (r.at_ (.quoted stem)).run name = r.at_ (.quoted (stem ++ name)) := by
  have h := Reader.run_collect (r := r) (s := name) (p := Phase.quoted) (f := id) (fun c hc t => ?_) stem
  · rwa [List.map_id] at h
  · obtain ⟨hline, hquote, hescape⟩ := hname c hc
    simp only [Reader.step, Reader.at_phase, Reader.at_at]
    rw [if_neg hline, if_neg hquote, if_neg hescape]
    rfl

/-- The header of a subsection. -/
theorem run_header (hword : ∀ c ∈ word, isKeyChar c = true) {gap : Str} (hgap : Blank gap)
    (hname : ∀ c ∈ name, c ≠ '\n' ∧ c ≠ '"' ∧ c ≠ '\\') :
    (r.at_ .between).run ('[' :: (word ++ ' ' :: (gap ++ '"' :: (name ++ ['"', ']'])))) =
      r.enter (word.map Char.toLower ++ '.' :: name) := by
  have hgaps : ∀ stem, (r.at_ (.gap stem)).run gap = r.at_ (.gap stem) := fun stem =>
    Reader.run_stay fun c hc => by
      simp only [Reader.step, Reader.at_phase]
      rw [if_neg (hgap.ne_newline c hc), if_pos (hgap.isSpace c hc)]
  have hopen : (r.at_ .between).step '[' = r.at_ (.header []) := rfl
  have hspace : ∀ stem, (r.at_ (.header stem)).step ' ' = r.at_ (.gap stem) := fun _ => rfl
  have hquote : ∀ stem, (r.at_ (.gap stem)).step '"' = r.at_ (.quoted (stem ++ ['.'])) := fun _ => rfl
  have hclose : ∀ stem, (r.at_ (.quoted stem)).run ['"', ']'] = r.enter stem := fun _ => rfl
  rw [Reader.run_cons, hopen, Reader.run_append, run_word hword, Reader.run_cons, hspace, Reader.run_append, hgaps,
    Reader.run_cons, hquote, Reader.run_append, run_quoted hname, hclose]
  simp

/-! ### A setting -/

/-- The name of a setting. -/
inductive PlainKey : Str → Prop where
  | intro {c : Char} {s : Str} (hc : c.isAlpha = true) (hs : ∀ d ∈ s, isKeyChar d = true) : PlainKey (c :: s)

theorem isKeyChar_of_isAlpha {c : Char} (hc : c.isAlpha = true) : isKeyChar c = true := by
  rw [isKeyChar, Char.isAlphanum, hc]
  rfl

theorem PlainKey.isKeyChar (h : PlainKey key) : ∀ c ∈ key, GitConfig.isKeyChar c = true := by
  cases h with
  | intro hc hs => exact List.forall_mem_cons.mpr ⟨isKeyChar_of_isAlpha hc, hs⟩

theorem run_key (h : PlainKey key) : (r.at_ .between).run key = r.at_ (.key (key.map Char.toLower)) := by
  cases h with
  | @intro c s hc hs =>
    have hkey := isKeyChar_of_isAlpha hc
    have hfirst : (r.at_ .between).step c = r.at_ (.key [c.toLower]) := by
      simp only [Reader.step, Reader.at_phase, Reader.at_at]
      rw [if_neg (by rw [isSpace_of_isKeyChar hkey]; decide),
        if_neg (not_or.mpr ⟨ne_of_isKeyChar hkey (by decide), ne_of_isKeyChar hkey (by decide)⟩),
        if_neg (ne_of_isKeyChar hkey (by decide)), if_pos hc]
    rw [Reader.run_cons, hfirst]
    refine Reader.run_collect (fun d hd t => ?_) [c.toLower]
    simp only [Reader.step, Reader.at_phase, Reader.at_at]
    rw [if_pos (hs d hd)]

/-- What ends the name of a setting, after blanks. -/
theorem run_afterName {gap : Str} (hgap : Blank gap) {c : Char} (hc : isKeyChar c = false) :
    (r.at_ (.key name)).run (gap ++ [c]) = r.afterName name c := by
  have hassign : ∀ s, Blank s → (r.at_ (.assign name)).run s = r.at_ (.assign name) := fun s hs =>
    Reader.run_stay fun d hd => by rcases hs d hd with rfl | rfl <;> rfl
  cases gap with
  | nil =>
    rw [List.nil_append, Reader.run_cons, Reader.run_nil, Reader.step]
    simp only [Reader.at_phase, hc]
    rfl
  | cons d gap =>
    obtain ⟨hd, hblank⟩ := List.forall_mem_cons.mp hgap
    have hstep : (r.at_ (.key name)).step d = r.at_ (.assign name) := by rcases hd with rfl | rfl <;> rfl
    rw [List.cons_append, Reader.run_cons, hstep, Reader.run_append, hassign gap hblank]
    rfl

/-- A character of a value that stands for itself. -/
def Unmarked (c : Char) : Prop := c ≠ '\n' ∧ c ≠ '"' ∧ c ≠ '\\' ∧ c ≠ '#' ∧ c ≠ ';'

instance (c : Char) : Decidable (Unmarked c) :=
  inferInstanceAs (Decidable (c ≠ '\n' ∧ c ≠ '"' ∧ c ≠ '\\' ∧ c ≠ '#' ∧ c ≠ ';'))

theorem inValue_unmarked {c : Char} (h : Unmarked c) (text blanks : Str) :
    (r.at_ (.value name text blanks false)).step c =
      if isSpace c then r.at_ (.value name text (if text = [] then [] else blanks ++ [c]) false)
      else r.at_ (.value name (text ++ blanks ++ [c]) [] false) := by
  obtain ⟨hline, hquote, hescape, hhash, hsemicolon⟩ := h
  simp only [Reader.step, Reader.at_phase, Reader.inValue, Reader.at_at]
  rw [if_neg hline]
  cases isSpace c with
  | true => rfl
  | false =>
    rw [if_neg (by decide), if_neg (by tauto), if_neg hescape, if_neg hquote]
    rfl

/-- Up to a character that is no space, what was kept aside is kept. -/
theorem run_value_text (hs : ∀ c ∈ s, Unmarked c) {d : Char} (hd : Unmarked d) (hspace : isSpace d = false) {text : Str}
    (htext : text ≠ []) (blanks : Str) :
    (r.at_ (.value name text blanks false)).run (s ++ [d]) = r.at_ (.value name (text ++ blanks ++ s ++ [d]) [] false) := by
  induction s generalizing text blanks with
  | nil =>
    rw [List.nil_append, Reader.run_cons, inValue_unmarked hd, hspace, List.append_nil]
    rfl
  | cons c s ih =>
    obtain ⟨hc, hs⟩ := List.forall_mem_cons.mp hs
    rw [List.cons_append, Reader.run_cons, inValue_unmarked hc]
    cases isSpace c with
    | true =>
      rw [if_pos rfl, if_neg htext, ih hs htext]
      simp
    | false =>
      rw [if_neg Bool.false_ne_true, ih hs (by simp)]
      simp

/-- A value that stands for itself. -/
structure PlainValue (s : Str) : Prop where
  unmarked : ∀ c ∈ s, Unmarked c
  head : ∀ c ∈ s.head?, isSpace c = false
  last : ∀ c ∈ s.getLast?, isSpace c = false

/-- A value without spaces. -/
theorem plainValue_of_all (h : s.all (fun c => decide (Unmarked c ∧ isSpace c = false)) = true) : PlainValue s := by
  have hall : ∀ c ∈ s, Unmarked c ∧ isSpace c = false := fun c hc => of_decide_eq_true (List.all_eq_true.mp h c hc)
  exact ⟨fun c hc => (hall c hc).1, fun c hc => (hall c (List.mem_of_head? hc)).2, fun c hc => (hall c (List.mem_of_getLast? hc)).2⟩

theorem run_value (h : PlainValue s) : (r.at_ (.value name [] [] false)).run s = r.at_ (.value name s [] false) := by
  cases s with
  | nil => rfl
  | cons c s =>
    obtain ⟨hc, hs⟩ := List.forall_mem_cons.mp h.unmarked
    have hfirst : (r.at_ (.value name [] [] false)).step c = r.at_ (.value name [c] [] false) := by
      rw [inValue_unmarked hc, h.head c rfl]
      rfl
    rw [Reader.run_cons, hfirst]
    rcases List.eq_nil_or_concat s with rfl | ⟨s, d, rfl⟩
    · rfl
    · rw [List.concat_eq_append] at hs h ⊢
      obtain ⟨hs, hd⟩ := List.forall_mem_append.mp hs
      have hlast : isSpace d = false := h.last d (by rw [Option.mem_def, ← List.cons_append, List.getLast?_concat])
      rw [run_value_text hs (hd d (List.mem_singleton_self d)) hlast (List.cons_ne_nil c [])]
      simp

/-- Blanks before a value are dropped. -/
theorem run_value_before (h : Blank s) : (r.at_ (.value name [] [] false)).run s = r.at_ (.value name [] [] false) :=
  Reader.run_stay fun c hc => by rcases h c hc with rfl | rfl <;> rfl

/-- Blanks after a value are dropped. -/
theorem run_value_after (h : Blank s) (blanks : Str) :
    (r.at_ (.value name text blanks false)).run (s ++ ['\n']) = r.emit name (some text) := by
  induction s generalizing blanks with
  | nil => rfl
  | cons c s ih =>
    obtain ⟨hc, hs⟩ := List.forall_mem_cons.mp h
    have hstep : (r.at_ (.value name text blanks false)).step c =
        r.at_ (.value name text (if text = [] then [] else blanks ++ [c]) false) := by
      rcases hc with rfl | rfl <;> rfl
    rw [List.cons_append, Reader.run_cons, hstep]
    exact ih hs _

/-- A setting. -/
theorem run_setting (hkey : PlainKey key) {gap before value after : Str} (hgap : Blank gap) (hbefore : Blank before)
    (hvalue : PlainValue value) (hafter : Blank after) :
    (r.at_ .between).run (key ++ (gap ++ ['=']) ++ before ++ value ++ (after ++ ['\n'])) =
      r.emit (key.map Char.toLower) (some value) := by
  have hassign : ∀ name, r.afterName name '=' = r.at_ (.value name [] [] false) := fun _ => rfl
  have htext : key ++ (gap ++ ['=']) ++ before ++ value ++ (after ++ ['\n']) =
      key ++ ((gap ++ ['=']) ++ (before ++ (value ++ (after ++ ['\n'])))) := by simp
  rw [htext, Reader.run_append, run_key hkey, Reader.run_append, run_afterName hgap (by decide), hassign, Reader.run_append,
    run_value_before hbefore, Reader.run_append, run_value hvalue, run_value_after hafter]

/-- A name by itself. -/
theorem run_flag (hkey : PlainKey key) {gap : Str} (hgap : Blank gap) :
    (r.at_ .between).run (key ++ (gap ++ ['\n'])) = r.emit (key.map Char.toLower) none := by
  rw [Reader.run_append, run_key hkey, run_afterName hgap (by decide)]
  rfl

end Milpa.GitConfig
