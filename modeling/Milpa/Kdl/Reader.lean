import Milpa.Kdl.Document

/-!
# A reader of plain KDL texts

A parser for the texts that are laid out plainly, line by line: a line opens a block,
closes one, is a node of its own or is empty. It shows that `Conforms` can be met, by a
parser that runs.
-/

namespace Milpa.Kdl

/-! ### Lines -/

/-- What a line is. -/
inductive Line where
  | skip
  | close
  | leaf (name : Str) (entries : List KdlEntry)
  | opening (name : Str) (entries : List KdlEntry)

/-- A quoted string or a natural number, and what follows it. -/
def readValue (s : Str) : Option (KdlValue × Str) :=
  match s with
  | '"' :: s => (scanBody s).bind fun p => (decodeBody p.1).map fun t => (.string t, p.2)
  | s =>
    if s.takeWhile Char.isDigit = [] then none
    else some (.integer (Nat.ofDigitChars 10 (s.takeWhile Char.isDigit) 0), s.dropWhile Char.isDigit)

/-- A value with the annotation that may precede it. -/
def readTyped (name : Option Str) (s : Str) : Option (KdlEntry × Str) :=
  match s with
  | '(' :: s =>
    match s.dropWhile isIdentChar with
    | ')' :: t => (readValue t).map fun p => (⟨some (s.takeWhile isIdentChar), name, p.1⟩, p.2)
    | _ => none
  | s => (readValue s).map fun p => (⟨none, name, p.1⟩, p.2)

/-- An entry, and what follows it. -/
def readEntry (s : Str) : Option (KdlEntry × Str) :=
  match s with
  | [] => none
  | c :: _ =>
    if c.isAlpha then
      match s.dropWhile isIdentChar with
      | '=' :: t => readTyped (some (s.takeWhile isIdentChar)) t
      | _ => none
    else readTyped none s

/-- The entries of a line, and whether the line opens a block. -/
def readEntries : ℕ → Str → Option (List KdlEntry × Bool)
  | _, [] => some ([], false)
  | _, [' ', '{'] => some ([], true)
  | 0, _ => none
  | fuel + 1, c :: s =>
    if c = ' ' then (readEntry s).bind fun p => (readEntries fuel p.2).map fun q => (p.1 :: q.1, q.2) else none

/-- A line. -/
def readLine (line : Str) : Option Line :=
  match line.dropWhile (· == ' ') with
  | [] => some .skip
  | '/' :: '/' :: _ => some .skip
  | ['}'] => some .close
  | s =>
    (readEntries s.length (s.dropWhile isIdentChar)).map fun p =>
      if p.2 then .opening (s.takeWhile isIdentChar) p.1 else .leaf (s.takeWhile isIdentChar) p.1

/-! ### The tree -/

/-- The nodes read in the innermost open block, last first, and the blocks that are open around it. -/
structure Reading where
  nodes : List KdlNode
  outer : List (Str × List KdlEntry × List KdlNode)

/-- One line. -/
def Reading.line (r : Reading) (line : Str) : Option Reading :=
  (readLine line).bind fun
    | .skip => some r
    | .leaf name entries => some { r with nodes := .mk name entries [] :: r.nodes }
    | .opening name entries => some ⟨[], (name, entries, r.nodes) :: r.outer⟩
    | .close =>
      match r.outer with
      | [] => none
      | (name, entries, nodes) :: outer => some ⟨.mk name entries r.nodes.reverse :: nodes, outer⟩

/-- A text. -/
def read (text : Str) : Except Str (List KdlNode) :=
  match (text.split '\n').foldlM Reading.line ⟨[], []⟩ with
  | some ⟨nodes, []⟩ => .ok nodes.reverse
  | _ => .error []

example : (read "a \"x\"\nb k=(t)\"y\" \x7b\n    c 12\n\x7d\n").map (·.map KdlNode.name) = .ok [['a'], ['b']] := by
  decide

/-! ### Values and entries -/

theorem isIdentChar_of_isAlpha {c : Char} (h : c.isAlpha = true) : isIdentChar c = true := by
  simp [isIdentChar, Char.isAlphanum, h]

/-- Text that a number or an identifier ends before. -/
def Ends (s : Str) : Prop := ∀ c ∈ s.head?, isIdentChar c = false

theorem not_isDigit_of_ends {s : Str} (h : Ends s) : ∀ c ∈ s.head?, c.isDigit = false := by
  intro c hc
  have := h c hc
  simp only [isIdentChar, Char.isAlphanum, Bool.or_eq_false_iff] at this
  exact this.1.1.2

theorem takeWhile_append_of_head {p : Char → Bool} {s t : Str} (hs : ∀ c ∈ s, p c = true)
    (ht : ∀ c ∈ t.head?, p c = false) : (s ++ t).takeWhile p = s ∧ (s ++ t).dropWhile p = t := by
  rw [List.takeWhile_append_of_pos hs, List.dropWhile_append_of_pos hs]
  cases t with
  | nil => simp
  | cons c t => simp [ht c rfl]

theorem readValue_text {v : KdlValue} (hv : v.Written) {rest : Str} (hrest : Ends rest) :
    readValue (v.text ++ rest) = v.decode.map (·, rest) := by
  cases v with
  | string body =>
    have : KdlValue.text (.string body) ++ rest = '"' :: (body ++ '"' :: rest) := by simp [KdlValue.text]
    rw [this, readValue, scanBody_of_lexes hv.1]
    simp only [Option.bind_some, KdlValue.decode, Option.map_map]
    rfl
  | integer n =>
    obtain ⟨k, rfl⟩ := Int.eq_ofNat_of_zero_le hv
    have hdigits : ∀ c ∈ Str.ofNat k, c.isDigit = true := fun c hc => Str.isDigit_of_mem_ofNat hc
    obtain ⟨htake, hdrop⟩ := takeWhile_append_of_head hdigits (not_isDigit_of_ends hrest)
    have hquote : ∀ s, Str.ofNat k ++ rest ≠ '"' :: s := by
      intro s hs
      cases hk : Str.ofNat k with
      | nil => exact Str.ofNat_ne_nil k hk
      | cons c t =>
        rw [hk, List.cons_append, List.cons.injEq] at hs
        have := hdigits c (by simp [hk])
        rw [hs.1] at this
        exact absurd this (by decide)
    have hvalue : Nat.ofDigitChars 10 (Str.ofNat k) 0 = k := Nat.ofDigitChars_ten_toDigits
    simp only [KdlValue.text, KdlValue.decode, Option.map_some]
    rw [Int.toNat_natCast, readValue.eq_def]
    split
    · next s hs => exact absurd hs (hquote s)
    · rw [htake, hdrop, if_neg (Str.ofNat_ne_nil k), hvalue]
  | float => exact hv.elim
  | bool b => exact hv.elim
  | null => exact hv.elim

theorem IsBare.head {s : Str} (h : IsBare s) : ∃ c t, s = c :: t ∧ c.isAlpha = true := by
  obtain ⟨⟨c, hc, halpha⟩, -⟩ := h
  cases s with
  | nil => simp at hc
  | cons d t =>
    simp only [List.head?_cons, Option.mem_def, Option.some.injEq] at hc
    exact ⟨d, t, rfl, hc ▸ halpha⟩

theorem head_value_text {v : KdlValue} (hv : v.Written) (rest : Str) :
    ∃ c t, v.text ++ rest = c :: t ∧ c ≠ '(' ∧ c ≠ '{' ∧ c.isAlpha = false := by
  cases v with
  | string body => exact ⟨'"', body ++ ['"'] ++ rest, by simp [KdlValue.text], by decide, by decide, by decide⟩
  | integer n =>
    cases hk : Str.ofNat n.toNat with
    | nil => exact absurd hk (Str.ofNat_ne_nil _)
    | cons c t =>
      have hc : c.isDigit = true := Str.isDigit_of_mem_ofNat (n := n.toNat) (by simp [hk])
      refine ⟨c, t ++ rest, by simp [KdlValue.text, hk], ?_, ?_, ?_⟩
      · rintro rfl
        exact absurd hc (by decide)
      · rintro rfl
        exact absurd hc (by decide)
      · have hdigit := Str.isDigit_iff.mp hc
        rw [← Bool.not_eq_true, Str.isAlpha_iff]
        omega
  | float => exact hv.elim
  | bool b => exact hv.elim
  | null => exact hv.elim

theorem readTyped_text {ty name : Option Str} {v : KdlValue} (hty : ∀ t ∈ ty, IsBare t) (hv : v.Written) {rest : Str}
    (hrest : Ends rest) :
    readTyped name (tyText ty ++ (v.text ++ rest)) = v.decode.map fun w => (⟨ty, name, w⟩, rest) := by
  cases ty with
  | some t =>
    have hbare := hty t rfl
    have hclose : ∀ c ∈ (')' :: (v.text ++ rest)).head?, isIdentChar c = false := by
      intro c hc
      obtain rfl : ')' = c := by simpa using hc
      decide
    obtain ⟨htake, hdrop⟩ := takeWhile_append_of_head hbare.2.1 hclose
    have : '(' :: (t ++ [')']) ++ (v.text ++ rest) = '(' :: (t ++ ')' :: (v.text ++ rest)) := by simp
    simp only [tyText, this, readTyped, htake, hdrop, readValue_text hv hrest, Option.map_map]
    rfl
  | none =>
    obtain ⟨c, t, hct, hne, -⟩ := head_value_text hv rest
    simp only [tyText, List.nil_append]
    rw [readTyped.eq_def]
    split
    · next s hs =>
      rw [hct, List.cons.injEq] at hs
      exact absurd hs.1 hne
    · rw [readValue_text hv hrest, Option.map_map]
      rfl

theorem readEntry_text {e : KdlEntry} (he : e.Written) {rest : Str} (hrest : Ends rest) :
    readEntry (e.text ++ rest) = e.decode.map (·, rest) := by
  obtain ⟨ty, name, v⟩ := e
  cases name with
  | some n =>
    obtain ⟨c, t, rfl, halpha⟩ := (he.name n rfl).head
    have heq : ∀ d ∈ ('=' :: (tyText ty ++ (v.text ++ rest))).head?, isIdentChar d = false := by
      intro d hd
      obtain rfl : '=' = d := by simpa using hd
      decide
    obtain ⟨htake, hdrop⟩ := takeWhile_append_of_head (he.name (c :: t) rfl).2.1 heq
    have htext : KdlEntry.text ⟨ty, some (c :: t), v⟩ ++ rest = (c :: t) ++ '=' :: (tyText ty ++ (v.text ++ rest)) := by
      simp [KdlEntry.text, keyText]
    rw [htext, readEntry.eq_def]
    rw [List.cons_append] at htake hdrop ⊢
    simp only [halpha, if_true, htake, hdrop, readTyped_text he.ty he.value hrest, KdlEntry.decode, Option.map_map]
    rfl
  | none =>
    have htext : KdlEntry.text ⟨ty, none, v⟩ ++ rest = tyText ty ++ (v.text ++ rest) := by
      simp [KdlEntry.text, keyText]
    have hhead : ∃ c t, tyText ty ++ (v.text ++ rest) = c :: t ∧ c.isAlpha = false := by
      cases ty with
      | some t => exact ⟨'(', t ++ [')'] ++ (v.text ++ rest), rfl, by decide⟩
      | none =>
        obtain ⟨c, t, hct, -, -, halpha⟩ := head_value_text he.value rest
        exact ⟨c, t, by simpa [tyText] using hct, halpha⟩
    obtain ⟨c, t, hct, halpha⟩ := hhead
    have htyped := @readTyped_text _ none _ he.ty he.value _ hrest
    rw [htext, hct, readEntry]
    rw [hct] at htyped
    simp only [halpha, Bool.false_eq_true, if_false, htyped, KdlEntry.decode, Option.map_map]
    rfl

/-! ### Lines of a node -/

theorem head_entry_text {e : KdlEntry} (he : e.Written) : ∃ c t, e.text = c :: t ∧ c ≠ '{' := by
  obtain ⟨ty, name, v⟩ := e
  cases name with
  | some n =>
    obtain ⟨c, t, rfl, halpha⟩ := (he.name n rfl).head
    refine ⟨c, t ++ '=' :: (tyText ty ++ v.text), by simp [KdlEntry.text, keyText], ?_⟩
    rintro rfl
    exact absurd halpha (by decide)
  | none =>
    cases ty with
    | some t => exact ⟨'(', t ++ [')'] ++ v.text, by simp [KdlEntry.text, keyText, tyText], by decide⟩
    | none =>
      obtain ⟨c, t, hct, -, hne, -⟩ := head_value_text he.value []
      exact ⟨c, t, by simpa [KdlEntry.text, keyText, tyText] using hct, hne⟩

/-- The end of a line: nothing, or the brace that opens a block. -/
def lineEnd (opens : Bool) : Str := if opens then [' ', '{'] else []

theorem ends_entriesText {entries : List KdlEntry} {opens : Bool} : Ends (entriesText entries ++ lineEnd opens) := by
  intro c hc
  have : c = ' ' := by
    cases entries with
    | nil =>
      cases opens with
      | false => simp [entriesText, lineEnd] at hc
      | true => simpa [entriesText, lineEnd, eq_comm] using hc
    | cons e es => simpa [entriesText, eq_comm] using hc
  subst this
  decide

theorem readEntries_text {entries : List KdlEntry} (he : ∀ e ∈ entries, e.Written) (opens : Bool) {fuel : ℕ}
    (hfuel : entries.length ≤ fuel) :
    readEntries fuel (entriesText entries ++ lineEnd opens) = (decodeEntries entries).map (·, opens) := by
  induction entries generalizing fuel with
  | nil => cases opens <;> simp [entriesText, lineEnd, readEntries, decodeEntries]
  | cons e es ih =>
    obtain ⟨fuel, rfl⟩ : ∃ n, fuel = n + 1 := ⟨fuel - 1, by simp at hfuel; omega⟩
    obtain ⟨hwe, hwes⟩ := List.forall_mem_cons.mp he
    obtain ⟨c, t, hct, hne⟩ := head_entry_text hwe
    have htext : entriesText (e :: es) ++ lineEnd opens = ' ' :: (e.text ++ (entriesText es ++ lineEnd opens)) := by
      simp [entriesText]
    have hrec : readEntries (fuel + 1) (' ' :: (e.text ++ (entriesText es ++ lineEnd opens))) =
        (readEntry (e.text ++ (entriesText es ++ lineEnd opens))).bind fun p =>
          (readEntries fuel p.2).map fun q => (p.1 :: q.1, q.2) := by
      rw [readEntries.eq_def, hct]
      split
      · next h => simp at h
      · next h => simp_all
      · exfalso
        omega
      · next h =>
        rw [List.cons.injEq] at h
        obtain ⟨rfl, rfl⟩ := h
        simp_all
    rw [htext, hrec, readEntry_text hwe ends_entriesText]
    cases hd : e.decode with
    | none => simp [decodeEntries, hd]
    | some e' =>
      have hrest := ih hwes (show es.length ≤ fuel by simpa using hfuel)
      simp only [Option.map_some, Option.bind_some, hrest, decodeEntries, hd, Option.map_map]
      rfl

theorem dropWhile_indent (depth : ℕ) {s : Str} (h : ∀ c ∈ s.head?, c ≠ ' ') :
    (indent depth ++ s).dropWhile (· == ' ') = s := by
  refine (takeWhile_append_of_head (fun c hc => ?_) fun c hc => ?_).2
  · simpa using List.eq_of_mem_replicate hc
  · simpa using h c hc

/-- The first line of a node, or its only one. -/
theorem readLine_head {name : Str} {entries : List KdlEntry} (hname : IsBare name) (he : ∀ e ∈ entries, e.Written)
    (depth : ℕ) (opens : Bool) :
    readLine (indent depth ++ (name ++ (entriesText entries ++ lineEnd opens))) =
      (decodeEntries entries).map fun es => if opens then .opening name es else .leaf name es := by
  obtain ⟨c, t, rfl, halpha⟩ := hname.head
  have hdrop : (indent depth ++ (c :: t ++ (entriesText entries ++ lineEnd opens))).dropWhile (· == ' ') =
      c :: t ++ (entriesText entries ++ lineEnd opens) := by
    apply dropWhile_indent
    intro d hd
    obtain rfl : c = d := by simpa using hd
    rintro rfl
    exact absurd halpha (by decide)
  obtain ⟨htake, hrest⟩ := takeWhile_append_of_head hname.2.1 (@ends_entriesText entries opens)
  have hfuel : entries.length ≤ (c :: t ++ (entriesText entries ++ lineEnd opens)).length := by
    have : entries.length ≤ (entriesText entries).length := by
      clear htake hrest hdrop he
      induction entries with
      | nil => simp
      | cons e es ih => simp [entriesText] at ih ⊢; omega
    simp only [List.length_append]
    omega
  have hread := readEntries_text he opens hfuel
  rw [readLine, hdrop]
  split
  · next h => simp at h
  · next h =>
    rw [List.cons_append, List.cons.injEq] at h
    exact absurd (h.1 ▸ halpha) (by decide)
  · next h =>
    rw [List.cons_append, List.cons.injEq] at h
    exact absurd (h.1 ▸ halpha) (by decide)
  · rw [hrest, htake, hread, Option.map_map]
    rfl

theorem readLine_close (depth : ℕ) : readLine (indent depth ++ ['}']) = some .close := by
  rw [readLine, dropWhile_indent depth (by simp)]
  rfl

/-! ### Documents -/

mutual

/-- The lines of a node are read as the node. -/
theorem foldlM_lines (n : KdlNode) (hn : n.Written) (depth : ℕ) (nodes : List KdlNode)
    (outer : List (Str × List KdlEntry × List KdlNode)) :
    (n.lines depth).foldlM Reading.line ⟨nodes, outer⟩ = n.decode.map fun n' => ⟨n' :: nodes, outer⟩ := by
  match n, hn with
  | .mk name entries children, .mk hname hentries hchildren =>
    cases children with
    | nil =>
      have hline := readLine_head hname hentries depth false
      rw [lineEnd, if_neg (by decide), List.append_nil] at hline
      rw [KdlNode.lines, List.foldlM_cons, Reading.line, hline]
      cases hd : decodeEntries entries with
      | none => simp [KdlNode.decode, hd]
      | some es => simp [KdlNode.decode, hd, decodeNodes]
    | cons c cs =>
      have hline := readLine_head hname hentries depth true
      rw [lineEnd, if_pos rfl] at hline
      rw [KdlNode.lines, List.foldlM_cons, Reading.line, hline]
      cases hd : decodeEntries entries with
      | none => simp [KdlNode.decode, hd]
      | some es =>
        have hc := foldlM_lines c (hchildren c List.mem_cons_self) (depth + 1) [] ((name, es, nodes) :: outer)
        have hcs := fun c' => foldlM_nodesLines cs (fun c' hc' => hchildren c' (List.mem_cons_of_mem _ hc')) (depth + 1)
          [c'] ((name, es, nodes) :: outer)
        simp only [Option.map_some, if_true, Option.bind_some, List.foldlM_append, Option.bind_eq_bind, hc,
          KdlNode.decode, hd, decodeNodes]
        cases hdc : c.decode with
        | none => simp
        | some c' =>
          simp only [Option.map_some, Option.bind_some, hcs c']
          cases hdcs : decodeNodes cs with
          | none => simp
          | some cs' => simp [List.foldlM_cons, Reading.line, readLine_close]

theorem foldlM_nodesLines (ns : List KdlNode) (hns : ∀ n ∈ ns, n.Written) (depth : ℕ) (nodes : List KdlNode)
    (outer : List (Str × List KdlEntry × List KdlNode)) :
    (nodesLines depth ns).foldlM Reading.line ⟨nodes, outer⟩ =
      (decodeNodes ns).map fun ns' => ⟨ns'.reverse ++ nodes, outer⟩ := by
  match ns, hns with
  | [], _ => rfl
  | n :: ns, hns =>
    obtain ⟨hn, hns⟩ := List.forall_mem_cons.mp hns
    rw [nodesLines, List.foldlM_append, foldlM_lines n hn depth nodes outer]
    cases hd : n.decode with
    | none => simp [decodeNodes, hd]
    | some n' =>
      have hrest := foldlM_nodesLines ns hns depth (n' :: nodes) outer
      simp only [Option.map_some, Option.bind_eq_bind, Option.bind_some, hrest, decodeNodes, hd, Option.map_map]
      cases decodeNodes ns <;> simp

end

theorem not_newline_of_isIdentChar {c : Char} (h : isIdentChar c = true) : c ≠ '\n' := by
  rintro rfl
  exact absurd h (by decide)

theorem not_newline_entry {e : KdlEntry} (he : e.Written) : '\n' ∉ e.text := by
  obtain ⟨ty, name, v⟩ := e
  have hbare : ∀ {s : Str}, IsBare s → '\n' ∉ s := fun hs hc => not_newline_of_isIdentChar (hs.2.1 _ hc) rfl
  have hkey : '\n' ∉ keyText name := by
    cases name with
    | none => simp [keyText]
    | some n => simpa [keyText] using hbare (he.name n rfl)
  have hty : '\n' ∉ tyText ty := by
    cases ty with
    | none => simp [tyText]
    | some t => simpa [tyText] using hbare (he.ty t rfl)
  have hvalue : '\n' ∉ v.text := by
    have hv := he.value
    cases v with
    | string body => simpa [KdlValue.text] using hv.2
    | integer n =>
      intro hc
      exact absurd (Str.isDigit_of_mem_ofNat (n := n.toNat) hc) (by decide)
    | float => exact hv.elim
    | bool b => exact hv.elim
    | null => exact hv.elim
  simp only [KdlEntry.text, List.mem_append, not_or]
  exact ⟨hkey, hty, hvalue⟩

theorem not_newline_head {name : Str} {entries : List KdlEntry} (hname : IsBare name) (he : ∀ e ∈ entries, e.Written)
    (depth : ℕ) (opens : Bool) : '\n' ∉ indent depth ++ (name ++ (entriesText entries ++ lineEnd opens)) := by
  simp only [List.mem_append, not_or]
  refine ⟨?_, ?_, ?_, ?_⟩
  · intro hc
    exact absurd (List.eq_of_mem_replicate hc) (by decide)
  · exact fun hc => not_newline_of_isIdentChar (hname.2.1 _ hc) rfl
  · simp only [entriesText, List.mem_flatMap, List.mem_cons, not_exists, not_and, not_or]
    exact fun e hmem => ⟨by decide, not_newline_entry (he e hmem)⟩
  · cases opens <;> decide

mutual

theorem not_newline_lines (n : KdlNode) (hn : n.Written) (depth : ℕ) : ∀ l ∈ n.lines depth, '\n' ∉ l := by
  match n, hn with
  | .mk name entries children, .mk hname hentries hchildren =>
    cases children with
    | nil =>
      rw [KdlNode.lines]
      simpa [lineEnd] using not_newline_head hname hentries depth false
    | cons c cs =>
      rw [KdlNode.lines]
      simp only [List.forall_mem_cons, List.forall_mem_append]
      refine ⟨not_newline_head hname hentries depth true, not_newline_lines c (hchildren c List.mem_cons_self) _,
        not_newline_nodesLines cs (fun c' hc' => hchildren c' (List.mem_cons_of_mem _ hc')) _, ?_, by simp⟩
      simp only [List.mem_append, not_or]
      exact ⟨fun hc => absurd (List.eq_of_mem_replicate hc) (by decide), by decide⟩

theorem not_newline_nodesLines (ns : List KdlNode) (hns : ∀ n ∈ ns, n.Written) (depth : ℕ) :
    ∀ l ∈ nodesLines depth ns, '\n' ∉ l := by
  match ns, hns with
  | [], _ => simp [nodesLines]
  | n :: ns, hns =>
    obtain ⟨hn, hns⟩ := List.forall_mem_cons.mp hns
    rw [nodesLines, List.forall_mem_append]
    exact ⟨not_newline_lines n hn depth, not_newline_nodesLines ns hns depth⟩

end

theorem LaidOut.not_newline {lines : List Str} {raw : List KdlNode} (h : LaidOut lines raw) : ∀ l ∈ lines, '\n' ∉ l := by
  induction h with
  | nil => simp
  | blank h ih => exact List.forall_mem_cons.mpr ⟨by simp, ih⟩
  | comment hc h ih =>
    refine List.forall_mem_cons.mpr ⟨?_, ih⟩
    simp only [List.mem_cons, not_or]
    exact ⟨by decide, by decide, fun hmem => absurd (hc _ hmem) (by decide)⟩
  | node hn h ih => exact List.forall_mem_append.mpr ⟨not_newline_lines _ hn 0, ih⟩

theorem LaidOut.foldlM_line {lines : List Str} {raw : List KdlNode} (h : LaidOut lines raw) (nodes : List KdlNode) :
    lines.foldlM Reading.line ⟨nodes, []⟩ = (decodeNodes raw).map fun ns => ⟨ns.reverse ++ nodes, []⟩ := by
  induction h generalizing nodes with
  | nil => rfl
  | blank h ih => simpa [List.foldlM_cons, Reading.line, readLine] using ih nodes
  | comment hc h ih => simpa [List.foldlM_cons, Reading.line, readLine] using ih nodes
  | node hn h ih =>
    next ls ns n =>
    rw [List.foldlM_append, foldlM_lines n hn 0 nodes []]
    cases hd : n.decode with
    | none => simp [decodeNodes, hd]
    | some n' =>
      simp only [Option.map_some, Option.bind_eq_bind, Option.bind_some, ih, decodeNodes, hd, Option.map_map]
      cases decodeNodes ns <;> simp

/-- **The reader reads plain texts as KDL 2.0 says.** -/
theorem conforms_read : Conforms read := by
  constructor
  intro lines raw h
  have hfold : ((joinLines lines).split '\n').foldlM Reading.line ⟨[], []⟩ =
      (decodeNodes raw).map fun ns => ⟨ns.reverse, []⟩ := by
    cases hl : lines with
    | nil =>
      have hnil := h.foldlM_line []
      rw [hl] at hnil
      simpa [joinLines, Str.split, Reading.line, readLine] using hnil
    | cons l ls =>
      rw [joinLines, Str.split, List.splitOn_intercalate _ (hl ▸ h.not_newline) (by simp), ← hl]
      simpa using h.foldlM_line []
  rw [read, hfold]
  cases decodeNodes raw with
  | none => rfl
  | some ns =>
    simp only [Option.map_some, List.reverse_reverse]
    rfl

end Milpa.Kdl
