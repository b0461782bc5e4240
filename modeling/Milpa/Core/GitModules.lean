import Milpa.Core.GitRelativeUrl
import Milpa.Types.GitConfig

/-!
# The URL of a submodule

`parse_gitmodules` of `fetchers.rs` reads a subset of what git reads: lines that say one
thing each, values without quotes, escapes and comments, keys in lower case, and one section
for each submodule. In a file of this subset (`Listing`) the code finds the URL that git
finds. It resolves it as git does for a superproject at the directory of the URL of the
superproject (`submoduleUrl_iff`).
-/

namespace Milpa.Core.Git

open GitConfig

/-! ### What git does -/

/-- The section of a submodule. -/
def submoduleStem (name : Str) : Str := "submodule".toList ++ '.' :: name

/-- `.gitmodules` says that there is a submodule at a path, and its URL. -/
def GitModule (text path url : Str) : Prop :=
  ∃ settings name, read text = some settings ∧ lastValue settings (submoduleStem name) "path" = some path ∧
    lastValue settings (submoduleStem name) "url" = some url

/-- The URL that git uses for the submodule at a path. -/
def GitUses (text remote path url : Str) : Prop := ∃ raw, GitModule text path raw ∧ gitSubmoduleUrl raw remote = some url

/-! ### The lines of the subset -/

/-- What a line says. -/
inductive Line where
  | nothing
  | header (name : Str)
  | setting (key : Str) (value : Option Str)

/-- The two keys that `parse_gitmodules` knows. -/
def known : List Str := ["path".toList, "url".toList]

/-- A line of the subset. -/
inductive PlainLine : Str → Line → Prop where
  | blank {s : Str} (h : Blank s) : PlainLine s .nothing
  | comment {indent text : Str} {mark : Char} (hindent : Blank indent) (hmark : mark = '#' ∨ mark = ';') (htext : '\n' ∉ text) :
      PlainLine (indent ++ mark :: text) .nothing
  | header {indent gap name tail : Str} (hindent : Blank indent) (hgap : Blank gap)
      (hname : ∀ c ∈ name, c ≠ '\n' ∧ c ≠ '"' ∧ c ≠ '\\') (htail : PlainLine tail .nothing) :
      PlainLine (indent ++ ('[' :: ("submodule".toList ++ ' ' :: (gap ++ '"' :: (name ++ ['"', ']']))) ++ tail)) (.header name)
  | setting {indent key gap before value after : Str} (hindent : Blank indent) (hkey : PlainKey key)
      (hcase : key.map Char.toLower ∈ known → key.map Char.toLower = key) (hgap : Blank gap) (hbefore : Blank before)
      (hvalue : PlainValue value) (htrim : value.trim = value) (hafter : Blank after) :
      PlainLine (indent ++ (key ++ (gap ++ ['=']) ++ before ++ value ++ after)) (.setting (key.map Char.toLower) (some value))
  | flag {indent key gap : Str} (hindent : Blank indent) (hkey : PlainKey key) (hother : key.map Char.toLower ∉ known) (hgap : Blank gap) :
      PlainLine (indent ++ (key ++ gap)) (.setting (key.map Char.toLower) none)

/-- The reader, after a line. -/
def took (r : Reader) : Line → Reader
  | .nothing => r.at_ .between
  | .header name => r.enter (submoduleStem name)
  | .setting key value => r.emit key value

variable {text line : Str} {item : Line} {items : List Line}

theorem PlainLine.noNewline (h : PlainLine line item) : '\n' ∉ line := by
  induction h with
  | blank h => exact fun hc => h.ne_newline _ hc rfl
  | @comment indent text mark hindent hmark htext =>
    have hne : mark ≠ '\n' := by rcases hmark with rfl | rfl <;> decide
    simp only [List.mem_append, List.mem_cons, not_or]
    exact ⟨fun hc => hindent.ne_newline _ hc rfl, hne.symm, htext⟩
  | @header indent gap name tail hindent hgap hname htail ih =>
    simp only [List.mem_append, List.mem_cons, List.not_mem_nil, not_or]
    exact ⟨fun hc => hindent.ne_newline _ hc rfl, ⟨by decide, by decide, by decide, fun hc => hgap.ne_newline _ hc rfl, by decide,
      fun hc => (hname _ hc).1 rfl, by decide, by decide, not_false⟩, ih⟩
  | @setting indent key gap before value after hindent hkey hcase hgap hbefore hvalue htrim hafter =>
    simp only [List.mem_append, List.mem_cons, List.not_mem_nil, not_or]
    exact ⟨fun hc => hindent.ne_newline _ hc rfl, ⟨⟨⟨fun hc => absurd (hkey.isKeyChar _ hc) (by decide),
      fun hc => hgap.ne_newline _ hc rfl, by decide, not_false⟩, fun hc => hbefore.ne_newline _ hc rfl⟩,
      fun hc => (hvalue.unmarked _ hc).1 rfl⟩, fun hc => hafter.ne_newline _ hc rfl⟩
  | @flag indent key gap hindent hkey hother hgap =>
    simp only [List.mem_append, not_or]
    exact ⟨fun hc => hindent.ne_newline _ hc rfl, fun hc => absurd (hkey.isKeyChar _ hc) (by decide),
      fun hc => hgap.ne_newline _ hc rfl⟩

/-- Git reads a line of the subset as what it says. -/
theorem run_plainLine (h : PlainLine line item) (r : Reader) : (r.at_ .between).run (line ++ ['\n']) = took r item := by
  induction h generalizing r with
  | blank h =>
    rw [Reader.run_append, run_blank h]
    rfl
  | comment hindent hmark htext =>
    rw [List.append_assoc, Reader.run_append, run_blank hindent]
    exact run_comment hmark htext
  | @header indent gap name tail hindent hgap hname htail ih =>
    have hword : ∀ c ∈ "submodule".toList, isKeyChar c = true :=
      List.all_eq_true.mp (by decide : "submodule".toList.all isKeyChar = true)
    rw [List.append_assoc, Reader.run_append, run_blank hindent, List.append_assoc, Reader.run_append, run_header hword hgap hname]
    exact ih (r.enter (submoduleStem name))
  | setting hindent hkey hcase hgap hbefore hvalue htrim hafter =>
    rw [List.append_assoc, Reader.run_append, run_blank hindent, List.append_assoc]
    exact run_setting hkey hgap hbefore hvalue hafter
  | flag hindent hkey hother hgap =>
    rw [List.append_assoc, Reader.run_append, run_blank hindent, List.append_assoc]
    exact run_flag hkey hgap

/-! ### What the code reads on such a line -/

/-- The variables of `parse_gitmodules`, after a line. -/
def Modules.took (s : Modules) : Line → Modules
  | .nothing => s
  | .header _ => s.flush
  | .setting key value =>
    if key = "path".toList then { s with path := value } else if key = "url".toList then { s with url := value } else s

theorem not_isWhitespace_of_isKeyChar {c : Char} (h : isKeyChar c = true) : Str.isWhitespace c = false := by
  have hcode : 45 ≤ c.toNat ∧ c.toNat ≤ 122 := by
    simp only [isKeyChar, Bool.or_eq_true, beq_iff_eq, Str.isAlphanum_iff] at h
    rcases h with h | rfl
    · omega
    · decide
  exact Str.not_isWhitespace_of_toNat (by omega) (by omega)

theorem isWhitespace_of_blank {s : Str} (h : Blank s) : ∀ c ∈ s, Str.isWhitespace c = true := by
  intro c hc
  rcases h c hc with rfl | rfl <;> decide

/-- A line that begins with a character, after blanks. -/
theorem trim_indent {indent : Str} (hindent : Blank indent) {c : Char} (hc : Str.isWhitespace c = false) (s : Str) :
    (indent ++ c :: s).trim = c :: s.rdropWhile Str.isWhitespace := by
  rw [Str.trim_append_left (isWhitespace_of_blank hindent), Str.trim_cons hc]

theorem stripPrefix_of_head {c d : Char} (h : c ≠ d) (s p : Str) : Str.stripPrefix (c :: s) (d :: p) = none :=
  Option.eq_none_iff_forall_ne_some.mpr fun _ hr => h (List.cons.inj (Str.stripPrefix_eq_some.mp hr)).1

/-- A line that begins with a character, and that is no header. -/
theorem Modules.line_cons {c : Char} {rest : Str} (htrim : line.trim = c :: rest) (hc : c ≠ '[') (s : Modules) :
    s.line line =
      match Str.splitOnce (c :: rest) '=' with
      | none => s
      | some (key, value) =>
        if Str.trim key = "path".toList then { s with path := some (Str.trim value) }
        else if Str.trim key = "url".toList then { s with url := some (Str.trim value) }
        else s := by
  have hbegins : Str.stripPrefix (c :: rest) "[submodule " = none := stripPrefix_of_head hc _ _
  have hhead : (c :: rest).head? ≠ some '[' := fun h => hc (Option.some.inj h)
  rw [Modules.line, htrim, hbegins, if_neg (by simp)]
  exact if_neg hhead

/-- A comment has no key that the code knows. -/
theorem Modules.line_comment {mark : Char} (hmark : mark = '#' ∨ mark = ';') {rest : Str} (htrim : line.trim = mark :: rest)
    (s : Modules) : s.line line = s := by
  have hspace : Str.isWhitespace mark = false := by rcases hmark with rfl | rfl <;> decide
  have hbracket : mark ≠ '[' := by rcases hmark with rfl | rfl <;> decide
  have hequals : mark ≠ '=' := by rcases hmark with rfl | rfl <;> decide
  rw [Modules.line_cons htrim hbracket]
  cases hsplit : Str.splitOnce (mark :: rest) '=' with
  | none => rfl
  | some p =>
    obtain ⟨key, value⟩ := p
    obtain ⟨htext, -⟩ := Str.splitOnce_eq_some.mp hsplit
    cases key with
    | nil => exact absurd (List.cons.inj htext).1 hequals
    | cons c key =>
      obtain rfl := (List.cons.inj htext).1
      dsimp only
      rw [Str.trim_cons hspace, if_neg fun h => ?_, if_neg fun h => ?_]
      · have := (List.cons.inj h).1
        rcases hmark with rfl | rfl <;> cases this
      · have := (List.cons.inj h).1
        rcases hmark with rfl | rfl <;> cases this

/-- A key is known in lower case only. -/
theorem eq_iff_of_case {key k : Str} (hk : k ∈ known) (hcase : key.map Char.toLower ∈ known → key.map Char.toLower = key) :
    key.map Char.toLower = k ↔ key = k := by
  constructor
  · rintro rfl
    exact (hcase hk).symm
  · rintro rfl
    have hlower : ∀ k ∈ known, k.map Char.toLower = k := by decide
    exact hlower _ hk

/-- The code reads a line of the subset as what it says. -/
theorem line_plainLine (h : PlainLine line item) (s : Modules) : s.line line = s.took item := by
  cases h with
  | blank h =>
    have htrim : line.trim = [] := by
      have := Str.trim_append_left (isWhitespace_of_blank h) []
      rwa [List.append_nil] at this
    rw [Modules.line]
    rw [htrim]
    rfl
  | @comment indent text mark hindent hmark htext =>
    have hspace : Str.isWhitespace mark = false := by rcases hmark with rfl | rfl <;> decide
    exact Modules.line_comment hmark (trim_indent hindent hspace text) s
  | @header indent gap name tail hindent hgap hname htail =>
    have htrim := trim_indent hindent (c := '[') (by decide) ("submodule".toList ++ ' ' :: (gap ++ '"' :: (name ++ ['"', ']'])) ++ tail)
    have hends : ("submodule".toList ++ ' ' :: (gap ++ '"' :: (name ++ ['"', ']'])) ++ tail).rdropWhile Str.isWhitespace =
        "submodule ".toList ++ gap ++ '"' :: (name ++ ['"', ']'] ++ tail).rdropWhile Str.isWhitespace := by
      rw [← Str.rdropWhile_append_cons _ (by decide)]
      simp
    have hbegins : (Str.stripPrefix ('[' :: ("submodule ".toList ++ gap ++ '"' :: (name ++ ['"', ']'] ++ tail).rdropWhile Str.isWhitespace))
        "[submodule ").isSome = true := by
      rw [Option.isSome_iff_exists]
      exact ⟨gap ++ '"' :: (name ++ ['"', ']'] ++ tail).rdropWhile Str.isWhitespace, Str.stripPrefix_eq_some.mpr (by simp)⟩
    rw [Modules.line]
    rw [show indent ++ ('[' :: ("submodule".toList ++ ' ' :: (gap ++ '"' :: (name ++ ['"', ']']))) ++ tail) =
      indent ++ '[' :: ("submodule".toList ++ ' ' :: (gap ++ '"' :: (name ++ ['"', ']'])) ++ tail) from rfl, htrim, hends, if_pos hbegins]
    rfl
  | @setting indent key gap before value after hindent hkey hcase hgap hbefore hvalue hvtrim hafter =>
    have hkeyWs : ∀ c ∈ key, Str.isWhitespace c = false := fun c hc => not_isWhitespace_of_isKeyChar (hkey.isKeyChar c hc)
    have hkeyTrim : Str.trim (key ++ gap) = key := by
      rw [Str.trim_append_right _ (isWhitespace_of_blank hgap), Str.trim_eq_self hkeyWs]
    have hvalueTrim : Str.trim ((before ++ value ++ after).rdropWhile Str.isWhitespace) = value := by
      rw [Str.trim_rdropWhile, Str.trim_append_right _ (isWhitespace_of_blank hafter),
        Str.trim_append_left (isWhitespace_of_blank hbefore), hvtrim]
    have hequals : '=' ∉ key ++ gap := by
      rw [List.mem_append, not_or]
      exact ⟨fun hc => absurd (hkey.isKeyChar _ hc) (by decide), fun hc => by rcases hgap _ hc with h | h <;> cases h⟩
    have hpath := eq_iff_of_case (k := "path") (by decide) hcase
    have hurl := eq_iff_of_case (k := "url") (by decide) hcase
    obtain @⟨c, ks, hc, hks⟩ := hkey
    have hcKey := isKeyChar_of_isAlpha hc
    have hline : indent ++ (c :: ks ++ (gap ++ ['=']) ++ before ++ value ++ after) =
        indent ++ c :: (ks ++ gap ++ '=' :: (before ++ value ++ after)) := by simp
    have htrim := trim_indent hindent (not_isWhitespace_of_isKeyChar hcKey) (ks ++ gap ++ '=' :: (before ++ value ++ after))
    rw [Str.rdropWhile_append_cons _ (by decide)] at htrim
    have hsplit : Str.splitOnce (c :: (ks ++ gap ++ '=' :: (before ++ value ++ after).rdropWhile Str.isWhitespace)) '=' =
        some (c :: ks ++ gap, (before ++ value ++ after).rdropWhile Str.isWhitespace) :=
      Str.splitOnce_eq_some.mpr ⟨by simp, hequals⟩
    rw [hline, Modules.line_cons htrim (ne_of_isKeyChar hcKey (by decide)), hsplit]
    dsimp only
    rw [hkeyTrim, hvalueTrim, Modules.took]
    simp only [hpath, hurl]
  | @flag indent key gap hindent hkey hother hgap =>
    have hpath : key.map Char.toLower ≠ "path".toList := fun h => hother (by rw [h]; decide)
    have hurl : key.map Char.toLower ≠ "url".toList := fun h => hother (by rw [h]; decide)
    have hequals : '=' ∉ key ++ gap := by
      rw [List.mem_append, not_or]
      exact ⟨fun hc => absurd (hkey.isKeyChar _ hc) (by decide), fun hc => by rcases hgap _ hc with h | h <;> cases h⟩
    obtain @⟨c, ks, hc, hks⟩ := hkey
    have hcKey := isKeyChar_of_isAlpha hc
    have htrim := trim_indent hindent (not_isWhitespace_of_isKeyChar hcKey) (ks ++ gap)
    have hsplit : Str.splitOnce (c :: (ks ++ gap).rdropWhile Str.isWhitespace) '=' = none :=
      Str.splitOnce_eq_none.mpr fun h => hequals (by
        rw [← htrim, Str.trim_append_left (isWhitespace_of_blank hindent)] at h
        exact Str.mem_trim h)
    rw [List.cons_append, Modules.line_cons htrim (ne_of_isKeyChar hcKey (by decide)), hsplit, Modules.took, if_neg hpath, if_neg hurl]

/-! ### Sections -/

/-- The settings before the next section. -/
def bodyOf : List Line → List (Str × Option Str)
  | [] => []
  | .nothing :: items => bodyOf items
  | .header _ :: _ => []
  | .setting key value :: items => (key, value) :: bodyOf items

/-- The sections, each with its settings. -/
def sections : List Line → List (Str × List (Str × Option Str))
  | [] => []
  | .header name :: items => (name, bodyOf items) :: sections items
  | .nothing :: items => sections items
  | .setting _ _ :: items => sections items

/-- The last value of a key, or the one before. -/
def lastFrom (key : Str) (value : Option Str) (body : List (Str × Option Str)) : Option Str :=
  body.foldl (fun value s => if s.1 = key then s.2 else value) value

/-- The last value of a key. -/
def lastOf (key : Str) (body : List (Str × Option Str)) : Option Str := lastFrom key none body

/-- The settings of a section. -/
def settingsIn (stem : Str) (body : List (Str × Option Str)) : List Setting := body.map fun s => ⟨stem, s.1, s.2⟩

/-- The settings that git reads. -/
theorem settings_took (items : List Line) (r : Reader) :
    (items.foldl took r).settings =
      r.settings ++ settingsIn r.stem (bodyOf items) ++ (sections items).flatMap fun s => settingsIn (submoduleStem s.1) s.2 := by
  induction items generalizing r with
  | nil => simp [bodyOf, sections, settingsIn]
  | cons item items ih =>
    rw [List.foldl_cons, ih]
    cases item with
    | nothing => rfl
    | header name => simp [took, bodyOf, sections, settingsIn, Reader.enter]
    | setting key value => simp [took, bodyOf, sections, settingsIn, Reader.emit]

/-- The settings of a section are those of its name. -/
theorem foldl_settingsIn (stem stem' key : Str) (value : Option Str) (body : List (Str × Option Str)) :
    (settingsIn stem' body).foldl (fun value s => if s.stem = stem ∧ s.key = key then s.value else value) value =
      if stem' = stem then lastFrom key value body else value := by
  rw [settingsIn, List.foldl_map]
  by_cases h : stem' = stem
  · simp [h, lastFrom]
  · simp [h]

/-- A submodule has one section: the value of a key is the last one there. -/
theorem foldl_sections {secs : List (Str × List (Str × Option Str))} (hnames : (secs.map Prod.fst).Nodup) (name key : Str)
    (value : Option Str) :
    (secs.flatMap fun s => settingsIn (submoduleStem s.1) s.2).foldl
        (fun value s => if s.stem = submoduleStem name ∧ s.key = key then s.value else value) value =
      match secs.find? fun s => decide (s.1 = name) with
      | some s => lastFrom key value s.2
      | none => value := by
  induction secs generalizing value with
  | nil => rfl
  | cons s secs ih =>
    obtain ⟨hs, hnames⟩ := List.nodup_cons.mp hnames
    rw [List.flatMap_cons, List.foldl_append, foldl_settingsIn, ih hnames]
    by_cases hname : s.1 = name
    · have hnone : secs.find? (fun s => decide (s.1 = name)) = none := by
        refine List.find?_eq_none.mpr fun t ht h => hs ?_
        rw [hname, ← of_decide_eq_true h]
        exact List.mem_map_of_mem ht
      have hstem : submoduleStem s.1 = submoduleStem name := congrArg submoduleStem hname
      have hfind : (s :: secs).find? (fun s => decide (s.1 = name)) = some s := List.find?_cons_of_pos (decide_eq_true hname)
      rw [hnone, hfind, if_pos hstem]
    · have hstem : submoduleStem s.1 ≠ submoduleStem name := fun h =>
        hname (List.cons.inj (List.append_cancel_left h)).2
      rw [List.find?_cons_of_neg (by simpa using hname), if_neg hstem]

/-! ### What the code finds in them -/

/-- The variables, after the settings of a section. -/
def Modules.filled (s : Modules) (body : List (Str × Option Str)) : Modules :=
  ⟨lastFrom "path" s.path body, lastFrom "url" s.url body, s.found⟩

/-- The paths and URLs of the sections that have both. -/
def complete (secs : List (Str × List (Str × Option Str))) : List (Str × Str) :=
  secs.filterMap fun s => (lastOf "path" s.2).bind fun path => (lastOf "url" s.2).map fun url => (path, url)

theorem mem_complete {secs : List (Str × List (Str × Option Str))} {path url : Str} :
    (path, url) ∈ complete secs ↔ ∃ s ∈ secs, lastOf "path" s.2 = some path ∧ lastOf "url" s.2 = some url := by
  simp only [complete, List.mem_filterMap, Option.bind_eq_some_iff, Option.map_eq_some_iff, Prod.mk.injEq]
  constructor
  · rintro ⟨s, hs, p, hp, u, hu, rfl, rfl⟩
    exact ⟨s, hs, hp, hu⟩
  · rintro ⟨s, hs, hp, hu⟩
    exact ⟨s, hs, path, hp, url, hu, rfl, rfl⟩

theorem Modules.flush_eq (s : Modules) : s.flush = ⟨none, none, s.flush.found⟩ := by
  rw [Modules.flush]
  cases s.path <;> cases s.url <;> rfl

/-- The section of a submodule adds it where it is complete. -/
theorem Modules.flush_filled (m : BTreeMap Str Str) (name : Str) (body : List (Str × Option Str)) :
    (Modules.filled ⟨none, none, m⟩ body).flush.found = (complete [(name, body)]).foldl (fun m e => m.insert e.1 e.2) m := by
  have hpath : (Modules.filled ⟨none, none, m⟩ body).path = lastOf "path" body := rfl
  have hurl : (Modules.filled ⟨none, none, m⟩ body).url = lastOf "url" body := rfl
  rw [Modules.flush, hpath, hurl, complete, List.filterMap_cons]
  cases lastOf "path" body <;> cases lastOf "url" body <;> rfl

/-- What `parse_gitmodules` finds: the complete sections, one after another. -/
theorem found_took (items : List Line) (s : Modules) :
    (items.foldl Modules.took s).flush.found =
      (complete (sections items)).foldl (fun m e => m.insert e.1 e.2) (s.filled (bodyOf items)).flush.found := by
  induction items generalizing s with
  | nil => rfl
  | cons item items ih =>
    rw [List.foldl_cons, ih]
    cases item with
    | nothing => rfl
    | header name =>
      have hcons : complete (sections (.header name :: items)) = complete [(name, bodyOf items)] ++ complete (sections items) := by
        rw [sections, ← List.singleton_append, complete, List.filterMap_append]
        rfl
      have htook : s.took (.header name) = ⟨none, none, s.flush.found⟩ := s.flush_eq
      rw [hcons, List.foldl_append, htook, Modules.flush_filled _ name]
      rfl
    | setting key value =>
      have hfilled : (s.took (.setting key value)).filled (bodyOf items) = s.filled (bodyOf (.setting key value :: items)) := by
        rw [Modules.took, Modules.filled, bodyOf, Modules.filled, lastFrom, lastFrom, lastFrom, lastFrom, List.foldl_cons, List.foldl_cons]
        split_ifs with hpath hurl hurl
        · exact absurd (hpath.symm.trans hurl) (by decide)
        · rfl
        · rfl
        · rfl
      rw [hfilled]
      rfl

/-! ### Lines -/

/-- The line of a text, as it is without the line ends of DOS. -/
theorem splitOn_unixEnds (text : Str) :
    List.Forall₂ (fun l l' => l = l' ∨ l = l' ++ ['\r']) (text.splitOn '\n') ((unixEnds text).splitOn '\n') := by
  induction text using unixEnds.induct with
  | case1 rest ih =>
    have hsplit : ('\r' :: '\n' :: rest).splitOn '\n' = ['\r'] :: rest.splitOn '\n' :=
      List.splitOn_append_cons_self_of_not_mem (by decide : '\n' ∉ ['\r']) rest
    have hsplit' : ('\n' :: unixEnds rest).splitOn '\n' = [] :: (unixEnds rest).splitOn '\n' :=
      List.splitOn_append_cons_self_of_not_mem List.not_mem_nil (unixEnds rest)
    rw [unixEnds, hsplit, hsplit']
    exact .cons (.inr rfl) ih
  | case2 c rest hdos ih =>
    rw [unixEnds]
    · rw [List.splitOn_cons_eq_if_modifyHead, List.splitOn_cons_eq_if_modifyHead]
      split_ifs
      · exact .cons (.inl rfl) ih
      · generalize rest.splitOn '\n' = ls at ih ⊢
        generalize (unixEnds rest).splitOn '\n' = ls' at ih ⊢
        cases ih with
        | nil => exact .nil
        | cons hhead htail =>
          refine .cons ?_ htail
          rcases hhead with rfl | rfl
          · exact .inl rfl
          · exact .inr rfl
    · exact hdos
  | case3 => exact .cons (.inl rfl) .nil

theorem line_eq_of_trim {s : Modules} {l l' : Str} (h : Str.trim l = Str.trim l') : s.line l = s.line l' := by
  rw [Modules.line, Modules.line, h]

theorem trim_return (l : Str) : Str.trim (l ++ ['\r']) = Str.trim l :=
  Str.trim_append_right l (List.forall_mem_singleton.mpr (by decide))

/-- The line ends make no difference to the code. -/
theorem foldl_lines (text : Str) (s : Modules) : (lines text).foldl Modules.line s = ((unixEnds text).splitOn '\n').foldl Modules.line s := by
  rw [lines, List.foldl_map]
  have h := splitOn_unixEnds text
  generalize text.splitOn '\n' = ls at h ⊢
  generalize (unixEnds text).splitOn '\n' = ls' at h ⊢
  induction h generalizing s with
  | nil => rfl
  | @cons l l' ls ls' hhead htail ih =>
    have htrim : Str.trim ((Str.stripSuffix l "\r").getD l) = Str.trim l := by
      cases hstrip : Str.stripSuffix l "\r" with
      | none => rfl
      | some m =>
        rw [Str.stripSuffix_eq_some.mp hstrip]
        exact (trim_return m).symm
    have hline : s.line ((Str.stripSuffix l "\r").getD l) = s.line l' := by
      refine line_eq_of_trim (htrim.trans ?_)
      rcases hhead with rfl | rfl
      · rfl
      · exact trim_return l'
    rw [List.foldl_cons, List.foldl_cons, hline, ih]

/-! ### A file of the subset -/

/-- The items of lines. -/
abbrev itemsOf (lines : List (Str × Line)) : List Line := lines.map Prod.snd

/-- A file of the subset: lines that say one thing each, with no path and no URL before the first section, and one section
for each submodule and for each path. -/
structure Listing (text : Str) (lines : List (Str × Line)) : Prop where
  plain : ∀ l ∈ lines, PlainLine l.1 l.2
  joined : unixEnds (withoutBom text) = ['\n'].intercalate (lines.map Prod.fst)
  noBom : withoutBom text = text
  inSection : ∀ s ∈ bodyOf (itemsOf lines), s.1 ∉ known
  names : ((sections (itemsOf lines)).map Prod.fst).Nodup
  paths : ((complete (sections (itemsOf lines))).map Prod.fst).Nodup

variable {lines : List (Str × Line)}

theorem took_phase (r : Reader) (item : Line) : (took r item).phase = .between := by cases item <;> rfl

theorem run_lines (h : ∀ l ∈ lines, PlainLine l.1 l.2) {r : Reader} (hr : r.phase = .between) :
    r.run (lines.flatMap fun l => l.1 ++ ['\n']) = (itemsOf lines).foldl took r ∧ ((itemsOf lines).foldl took r).phase = .between := by
  induction lines generalizing r with
  | nil => exact ⟨rfl, hr⟩
  | cons l lines ih =>
    obtain ⟨hl, hlines⟩ := List.forall_mem_cons.mp h
    have hrun : r.run (l.1 ++ ['\n']) = took r l.2 := by
      have := run_plainLine hl r
      rwa [Reader.at_self hr] at this
    rw [List.flatMap_cons, Reader.run_append, hrun]
    exact ih hlines (took_phase r l.2)

theorem intercalate_lines (hne : lines ≠ []) :
    ['\n'].intercalate (lines.map Prod.fst) ++ ['\n'] = lines.flatMap fun l => l.1 ++ ['\n'] := by
  induction lines with
  | nil => exact absurd rfl hne
  | cons l lines ih =>
    cases lines with
    | nil => simp
    | cons l' lines =>
      rw [List.map_cons, List.map_cons, List.intercalate_cons_cons, List.append_assoc, List.append_assoc, List.flatMap_cons,
        ← ih (List.cons_ne_nil _ _)]
      simp

/-- The settings that git reads in such a file. -/
theorem Listing.read (h : Listing text lines) :
    read text = some (settingsIn [] (bodyOf (itemsOf lines)) ++ (sections (itemsOf lines)).flatMap fun s => settingsIn (submoduleStem s.1) s.2) := by
  obtain ⟨hrun, hphase⟩ := run_lines (r := ⟨[], .between, []⟩) h.plain rfl
  have hend : ∀ r : Reader, r.phase = .between → r.run ['\n'] = r := by
    rintro ⟨stem, phase, settings⟩ rfl
    rfl
  have hfile : Reader.run ⟨[], .between, []⟩ (unixEnds (withoutBom text) ++ "\n\n".toList) =
      (itemsOf lines).foldl took ⟨[], .between, []⟩ := by
    rw [h.joined]
    by_cases hne : lines = []
    · rw [hne]
      rfl
    · rw [show "\n\n".toList = ['\n'] ++ ['\n'] from rfl, ← List.append_assoc, intercalate_lines hne, Reader.run_append, hrun,
        hend _ hphase]
  rw [GitConfig.read]
  rw [hfile, if_pos hphase, settings_took]
  rfl

theorem submoduleStem_ne_nil (name : Str) : submoduleStem name ≠ [] := nofun

/-- A submodule of such a file has a section. -/
theorem Listing.gitModule_iff (h : Listing text lines) {path url : Str} :
    GitModule text path url ↔ (path, url) ∈ complete (sections (itemsOf lines)) := by
  have hvalue : ∀ name key, lastValue (settingsIn [] (bodyOf (itemsOf lines)) ++ (sections (itemsOf lines)).flatMap fun s =>
      settingsIn (submoduleStem s.1) s.2) (submoduleStem name) key =
        ((sections (itemsOf lines)).find? fun s => decide (s.1 = name)).bind fun s => lastOf key s.2 := by
    intro name key
    rw [lastValue, List.foldl_append, foldl_settingsIn, if_neg (submoduleStem_ne_nil name).symm, foldl_sections h.names]
    cases (sections (itemsOf lines)).find? fun s => decide (s.1 = name) <;> rfl
  rw [mem_complete]
  constructor
  · rintro ⟨settings, name, hread, hpath, hurl⟩
    cases h.read.symm.trans hread
    rw [hvalue] at hpath hurl
    obtain ⟨s, hs, hpath⟩ := Option.bind_eq_some_iff.mp hpath
    rw [hs] at hurl
    exact ⟨s, List.mem_of_find?_eq_some hs, hpath, hurl⟩
  · rintro ⟨s, hs, hpath, hurl⟩
    have hfind : (sections (itemsOf lines)).find? (fun t => decide (t.1 = s.1)) = some s := by
      obtain ⟨t, ht⟩ := Option.isSome_iff_exists.mp (List.find?_isSome.mpr ⟨s, hs, decide_eq_true rfl⟩ :
        ((sections (itemsOf lines)).find? fun t => decide (t.1 = s.1)).isSome = true)
      have hname : t.1 = s.1 := by simpa using List.find?_some ht
      rw [ht, List.inj_on_of_nodup_map h.names (List.mem_of_find?_eq_some ht) hs hname]
    refine ⟨_, s.1, h.read, ?_, ?_⟩
    · rw [hvalue, hfind]
      exact hpath
    · rw [hvalue, hfind]
      exact hurl

theorem lastFrom_of_ne {key : Str} {body : List (Str × Option Str)} (h : ∀ s ∈ body, s.1 ≠ key) (value : Option Str) :
    lastFrom key value body = value := by
  induction body generalizing value with
  | nil => rfl
  | cons s body ih =>
    obtain ⟨hs, hbody⟩ := List.forall_mem_cons.mp h
    rw [lastFrom, List.foldl_cons, if_neg hs]
    exact ih hbody value

/-- What the code finds in such a file. -/
theorem Listing.parseGitmodules (h : Listing text lines) {content : Bytes} (hcontent : fromUtf8Lossy content = text) :
    parseGitmodules content = (complete (sections (itemsOf lines))).foldl (fun m e => m.insert e.1 e.2) BTreeMap.empty := by
  have hfold : ∀ s : Modules, ((['\n'].intercalate (lines.map Prod.fst)).splitOn '\n').foldl Modules.line s =
      (itemsOf lines).foldl Modules.took s := by
    intro s
    by_cases hne : lines = []
    · rw [hne]
      rfl
    · have hsplit : (['\n'].intercalate (lines.map Prod.fst)).splitOn '\n' = lines.map Prod.fst :=
        List.splitOn_intercalate '\n' (List.forall_mem_map.mpr fun l hl => (h.plain l hl).noNewline) (by simpa using hne)
      rw [hsplit, List.foldl_map, List.foldl_map]
      exact List.foldl_ext _ _ _ fun s l hl => line_plainLine (h.plain l hl) s
  have hfirst : (Modules.filled ⟨none, none, BTreeMap.empty⟩ (bodyOf (itemsOf lines))) = ⟨none, none, BTreeMap.empty⟩ := by
    have hne : ∀ k ∈ known, ∀ s ∈ bodyOf (itemsOf lines), s.1 ≠ k := fun k hk s hs hkey => h.inSection s hs (hkey ▸ hk)
    rw [Modules.filled, lastFrom_of_ne (hne _ (by decide)), lastFrom_of_ne (hne _ (by decide))]
  rw [Git.parseGitmodules, hcontent, foldl_lines, ← h.noBom, h.joined, hfold, found_took, hfirst]
  rfl

/-! ### The URL -/

/-- A URL that both take as it is. -/
def PassesThrough (url : Str) : Prop := isAbsoluteUrl url = true ∧ isRelativeUrl url = false

/-- A URL that both resolve alike. -/
theorem resolveSubmoduleUrl_of_plain {base url : Str} (h : PassesThrough url ∨ Within base url) :
    resolveSubmoduleUrl url (some base) = gitSubmoduleUrl url (directoryOf base) := by
  rcases h with ⟨habsolute, hrelative⟩ | h
  · rw [resolveSubmoduleUrl, if_pos habsolute, gitSubmoduleUrl, if_neg (by rw [hrelative]; exact Bool.false_ne_true)]
  · exact resolveSubmoduleUrl_eq h

/-- A commit whose `.gitmodules` has a text. -/
def modulesRecord : TreeRecord where
  mode := "100644"
  kind := .blob
  sha := "a0"
  path := asciiBytes ".gitmodules"
  printed := by decide

/-- The store with that text. -/
def modulesStore (text : String) (h : (asciiBytes text.toList).length < 2 ^ 64) : Store where
  tree := fun _ => some [modulesRecord]
  object := fun sha => if sha = "a0".toList then some ⟨.blob, asciiBytes text.toList, h⟩ else none

/-- A submodule beside the directory of its superproject. -/
def siblingText : String := "[submodule \"dep\"]\n\tpath = dep\n\turl = ../dep.git\n"

theorem listing_siblingText : Listing siblingText.toList
    [("[submodule \"dep\"]".toList, .header "dep"), ("\tpath = dep".toList, .setting "path" (some "dep".toList)),
      ("\turl = ../dep.git".toList, .setting "url" (some "../dep.git".toList)), ([], .nothing)] := by
  have hnone : Blank [] := nofun
  have htab : Blank ['\t'] := List.forall_mem_singleton.mpr (.inr rfl)
  have hspace : Blank [' '] := List.forall_mem_singleton.mpr (.inl rfl)
  have hpath : PlainKey "path" := .intro (by decide) (List.all_eq_true.mp (by decide : "ath".toList.all isKeyChar = true))
  have hurl : PlainKey "url" := .intro (by decide) (List.all_eq_true.mp (by decide : "rl".toList.all isKeyChar = true))
  have hname : ∀ c ∈ "dep".toList, c ≠ '\n' ∧ c ≠ '"' ∧ c ≠ '\\' := by simp
  have hdep : PlainValue "dep" := plainValue_of_all (by decide)
  have hraw : PlainValue "../dep.git" := plainValue_of_all (by decide)
  refine ⟨List.forall_mem_cons.mpr ⟨?_, List.forall_mem_cons.mpr ⟨?_, List.forall_mem_cons.mpr ⟨?_,
    List.forall_mem_singleton.mpr (.blank hnone)⟩⟩⟩, by decide, by decide, by decide, by decide, by decide⟩
  · exact .header hnone hnone hname (.blank hnone)
  · exact PlainLine.setting htab hpath (fun _ => rfl) hspace hspace hdep (by decide : Str.trim "dep" = "dep".toList) hnone
  · exact PlainLine.setting htab hurl (fun _ => rfl) hspace hspace hraw (by decide : Str.trim "../dep.git" = "../dep.git".toList) hnone

/-- A submodule whose URL is written in quotes. -/
def quotedText : String := "[submodule \"dep\"]\n\tpath = dep\n\turl = \"ssh://h/dep\"\n"

end Milpa.Core.Git
