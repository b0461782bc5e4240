import Mathlib.Data.List.ReduceOption
import Milpa.Core.ContentHash
import Milpa.Types.Text

/-!
# What `git` prints of an object store

The two commands that the enumeration of a commit runs, `ls-tree -r -z` and
`cat-file --batch`, print the records of a commit and the contents of its objects; the
code reads both outputs again, byte by byte. What is read is what the store has
(`parseLsTree_gitLsTree`, `readObjects_gitCatFile`). That `git` cannot be run is left out.
-/

namespace Milpa.Core.Git

/-! ### Texts -/

/-- `U+FFFD`. -/
def replacement : Char := Char.ofNat 0xFFFD

/-- A text that is being decoded: the bits of the character that has begun, and the ranges of the bytes that must follow. -/
structure Decoder where
  text : Str
  bits : ℕ
  expected : List (UInt8 × UInt8)

/-- One more character. -/
def Decoder.emit (d : Decoder) (c : Char) : Decoder := ⟨d.text ++ [c], 0, []⟩

/-- The first byte of a character. -/
def Decoder.begin (d : Decoder) (b : UInt8) : Decoder :=
  match utf8Step [] b with
  | some [] => d.emit (Char.ofNat b.toNat)
  | some expected => ⟨d.text, b.toNat % 2 ^ (6 - expected.length), expected⟩
  | none => d.emit replacement

/-- One byte; a character that it cannot go on is given up, and it begins another one. -/
def Decoder.step (d : Decoder) (b : UInt8) : Decoder :=
  if d.expected = [] then d.begin b
  else
    match utf8Step d.expected b with
    | some [] => d.emit (Char.ofNat (d.bits * 64 + b.toNat % 64))
    | some expected => ⟨d.text, d.bits * 64 + b.toNat % 64, expected⟩
    | none => (d.emit replacement).begin b

/-- `String::from_utf8_lossy`. -/
def fromUtf8Lossy (bytes : Bytes) : Str :=
  let d := bytes.foldl Decoder.step ⟨[], 0, []⟩
  if d.expected = [] then d.text else d.text ++ [replacement]

/-- The bytes of a text in ASCII. -/
def asciiBytes (s : Str) : Bytes := s.map fun c => UInt8.ofNat c.toNat

/-- `str::split_whitespace`. -/
def splitWhitespace (s : Str) : List Str := (s.splitOnP Str.isWhitespace).filter fun w => decide (w ≠ [])

/-- A word in ASCII, without spaces and controls. -/
def Token (s : Str) : Prop := s ≠ [] ∧ ∀ c ∈ s, 0x20 < c.toNat ∧ c.toNat < 0x7f

instance (s : Str) : Decidable (Token s) :=
  @instDecidableAnd _ _ (inferInstanceAs (Decidable (s ≠ []))) (List.decidableBAll _ s)

/-! ### Object stores -/

/-- The types of objects. -/
inductive ObjectKind where
  | blob
  | tree
  | commit
  | tag
  deriving DecidableEq, Repr

/-- A type, as it is printed. -/
def ObjectKind.text : ObjectKind → Str
  | blob => "blob"
  | tree => "tree"
  | commit => "commit"
  | tag => "tag"

/-- A record of the tree of a commit. -/
structure TreeRecord where
  mode : Str
  kind : ObjectKind
  sha : Str
  path : Bytes
  printed : Token mode ∧ Token sha ∧ 0 ∉ path
  deriving DecidableEq

/-- An object; its size fits in 64 bits. -/
structure GitObject where
  kind : ObjectKind
  content : Bytes
  small : content.length < 2 ^ 64
  deriving DecidableEq

/-- An object store: the records of a commit, in order, and the objects. -/
structure Store where
  tree : Str → Option (List TreeRecord)
  object : Str → Option GitObject

/-- The line feed. -/
def lf : UInt8 := 0x0a

/-- The tab. -/
def tab : UInt8 := 0x09

/-- Three words with spaces between them. -/
def header (a b c : Str) : Str := a ++ ' ' :: (b ++ ' ' :: c)

/-- What `git ls-tree` prints of a record, up to the `NUL`. -/
def TreeRecord.line (r : TreeRecord) : Bytes := asciiBytes (header r.mode r.kind.text r.sha) ++ tab :: r.path

/-- The output of `git ls-tree -r -z`; `none` where it fails. -/
def gitLsTree (store : Store) (commit : Str) : Option Bytes := (store.tree commit).map fun records => records.flatMap fun r => r.line ++ [0]

/-- What `git cat-file --batch` prints of an object. -/
def frame (sha : Str) (o : GitObject) : Bytes :=
  asciiBytes (header sha o.kind.text (Str.ofNat o.content.length)) ++ lf :: o.content ++ [lf]

/-- What `git cat-file --batch` prints for a name. -/
def catFile (store : Store) (sha : Str) : Bytes :=
  match store.object sha with
  | some o => frame sha o
  | none => asciiBytes (sha ++ " missing".toList) ++ [lf]

/-- The output of `git cat-file --batch`, for the names on its input. -/
def gitCatFile (store : Store) (shas : List Str) : Bytes := shas.flatMap (catFile store)

/-! ### Reading -/

/-- The errors of an enumeration and of the writing of what it gives. -/
inductive GitError where
  /-- `FETCH-GIT-FAILED`: `git ls-tree`. -/
  | lsTree (commit : Str)
  /-- `ID-NON-UTF8-RELPATH`. -/
  | nonUtf8Path (path : Bytes)
  /-- `FETCH-GIT-FAILED`: the output of `git cat-file` ends in a header. -/
  | truncatedHeader (sha : Str) (pos : ℕ)
  /-- `FETCH-GIT-FAILED`: a header is not a text. -/
  | nonUtf8Header (sha : Str)
  /-- `FETCH-GIT-FAILED`: there is no such object. -/
  | missing (sha : Str)
  /-- `FETCH-GIT-FAILED`: a header has too few words. -/
  | unexpectedHeader (header sha : Str)
  /-- `FETCH-GIT-FAILED`: a size is not a number. -/
  | unparseableSize (size sha : Str)
  /-- `FETCH-GIT-FAILED`: the output ends in a content. -/
  | truncatedData (sha : Str) (size pos length : ℕ)
  /-- `FETCH-GIT-FAILED`: a content was not read. -/
  | resultMissing (sha : Str) (path : Bytes)
  /-- `FETCH-GIT-SUBMODULE-FAILED`: `.gitmodules` has no URL for a path. -/
  | noModulesEntry (path : Bytes)
  /-- `FETCH-GIT-SUBMODULE-FAILED`: a relative URL without one to start from. -/
  | relativeUrl (url : Str) (path : Bytes)
  /-- `FETCH-GIT-SUBMODULE-FAILED`: too many levels. -/
  | tooDeep (path : Bytes) (url : Str)
  /-- `FETCH-GIT-SUBMODULE-FAILED`: a submodule is its own ancestor. -/
  | cycle (url sha : Str) (path : Bytes)
  /-- The error of the seam that fetches a submodule: its code and its message. -/
  | fetch (code message : Str)
  /-- `EXTRACT-ZIP-SLIP`. -/
  | zipSlip (relpath : Bytes)
  /-- `EXTRACT-SYMLINK-ESCAPE`: a target that is not a text. -/
  | nonUtf8Target (relpath : Bytes)
  /-- `EXTRACT-SYMLINK-ESCAPE`. -/
  | symlinkEscape (relpath target : Bytes)
  /-- `FETCH-GIT-LFS-POINTER`. -/
  | lfsPointer (relpath : Bytes)
  /-- `FETCH-GIT-FAILED`: a target with a `NUL`. -/
  | nulTarget (relpath : Bytes)
  /-- `FETCH-GIT-FAILED`, of the system. -/
  | io (relpath : Bytes) (e : Posix.Errno)
  deriving DecidableEq

/-- What is before the first occurrence of a byte, and what is after it. -/
def splitAtByte (b : UInt8) (bytes : Bytes) : Option (Bytes × Bytes) :=
  match bytes.span fun c => c ≠ b with
  | (front, _ :: back) => some (front, back)
  | (_, []) => none

/-- An entry as `git ls-tree` prints it. -/
structure LsEntry where
  mode : Str
  kind : Str
  sha : Str
  path : Bytes
  deriving DecidableEq, Repr

/-- One record of the output; `none` where it is passed over. -/
def parseRecord (record : Bytes) : Except GitError (Option LsEntry) :=
  match splitAtByte tab record with
  | none => .ok none
  | some (header, path) =>
    if isUtf8 header = false then .ok none
    else if isUtf8 path = false then .error (.nonUtf8Path path)
    else
      match splitWhitespace (fromUtf8Lossy header) with
      | mode :: kind :: sha :: _ => .ok (some ⟨mode, kind, sha, path⟩)
      | _ => .ok none

/-- The records of the output of `git ls-tree`. -/
def parseLsTree (out : Bytes) : Except GitError (List LsEntry) := do
  let parsed ← ((out.splitOn 0).filter fun record => decide (record ≠ [])).mapM parseRecord
  return parsed.reduceOption

/-- The content after a header, and what follows it. -/
def readContent (total : ℕ) (sha size : Str) (rest : Bytes) : Except GitError (Bytes × Bytes) :=
  match Str.parseUInt 64 size with
  | none => .error (.unparseableSize size sha)
  | some n =>
    if rest.length < n then .error (.truncatedData sha n (total - rest.length) total)
    else
      let after := rest.drop n
      .ok (rest.take n, if after.head? = some lf then after.tail else after)

/-- One object of the output of `git cat-file`, of which `rest` is left. -/
def readObject (total : ℕ) (sha : Str) (rest : Bytes) : Except GitError (Bytes × Bytes) :=
  match splitAtByte lf rest with
  | none => .error (.truncatedHeader sha (total - rest.length))
  | some (header, rest) =>
    if isUtf8 header = false then .error (.nonUtf8Header sha)
    else
      match splitWhitespace (fromUtf8Lossy header) with
      | _ :: word :: words =>
        if word = "missing".toList then .error (.missing sha)
        else
          match words with
          | size :: _ => readContent total sha size rest
          | [] => .error (.unexpectedHeader (fromUtf8Lossy header) sha)
      | _ => .error (.unexpectedHeader (fromUtf8Lossy header) sha)

/-- The contents that the output of `git cat-file` has for the names. -/
def readObjects (total : ℕ) : List Str → Bytes → BTreeMap Str Bytes → Except GitError (BTreeMap Str Bytes)
  | [], _, contents => .ok contents
  | sha :: shas, rest, contents => do
    let (content, rest) ← readObject total sha rest
    readObjects total shas rest (contents.insert sha content)

/-! ### Texts in ASCII -/

/-- All characters of a text are in ASCII. -/
def Ascii (s : Str) : Prop := ∀ c ∈ s, c.toNat < 0x80

theorem Token.ascii {s : Str} (h : Token s) : Ascii s := fun c hc => by
  have := (h.2 c hc).2
  omega

theorem Ascii.append {s t : Str} (hs : Ascii s) (ht : Ascii t) : Ascii (s ++ t) := by
  intro c hc
  rcases List.mem_append.mp hc with hc | hc
  · exact hs c hc
  · exact ht c hc

theorem Ascii.cons {c : Char} {s : Str} (hc : c.toNat < 0x80) (hs : Ascii s) : Ascii (c :: s) := List.forall_mem_cons.mpr ⟨hc, hs⟩

theorem toNat_ascii {c : Char} (h : c.toNat < 0x80) : (UInt8.ofNat c.toNat).toNat = c.toNat := by
  rw [UInt8.toNat_ofNat']
  exact Nat.mod_eq_of_lt (by omega)

theorem utf8Step_ascii {c : Char} (h : c.toNat < 0x80) : utf8Step [] (UInt8.ofNat c.toNat) = some [] := by
  have hlt : UInt8.ofNat c.toNat < 0x80 := by
    rw [UInt8.lt_iff_toNat_lt, toNat_ascii h]
    exact h
  rw [utf8Step.eq_def]
  exact if_pos hlt

theorem isUtf8_asciiBytes {s : Str} (h : Ascii s) : isUtf8 (asciiBytes s) = true := by
  have hfold : (asciiBytes s).foldlM utf8Step [] = some [] := by
    induction s with
    | nil => rfl
    | cons c s ih =>
      obtain ⟨hc, hs⟩ := List.forall_mem_cons.mp h
      have hcons : asciiBytes (c :: s) = UInt8.ofNat c.toNat :: asciiBytes s := rfl
      rw [hcons, List.foldlM_cons, utf8Step_ascii hc]
      exact ih hs
  rw [isUtf8, hfold]
  rfl

/-- Each byte of a text in ASCII is a character. -/
theorem foldl_step_asciiBytes {s : Str} (h : Ascii s) (text : Str) :
    (asciiBytes s).foldl Decoder.step ⟨text, 0, []⟩ = ⟨text ++ s, 0, []⟩ := by
  induction s generalizing text with
  | nil => simp [asciiBytes]
  | cons c s ih =>
    obtain ⟨hc, hs⟩ := List.forall_mem_cons.mp h
    have hcons : asciiBytes (c :: s) = UInt8.ofNat c.toNat :: asciiBytes s := rfl
    have hstep : Decoder.step ⟨text, 0, []⟩ (UInt8.ofNat c.toNat) = ⟨text ++ [c], 0, []⟩ := by
      rw [Decoder.step, if_pos rfl, Decoder.begin, utf8Step_ascii hc]
      dsimp only
      rw [toNat_ascii hc, Char.ofNat_toNat]
      rfl
    rw [hcons, List.foldl_cons, hstep, ih hs, List.append_assoc]
    rfl

theorem fromUtf8Lossy_asciiBytes {s : Str} (h : Ascii s) : fromUtf8Lossy (asciiBytes s) = s := by
  rw [fromUtf8Lossy, foldl_step_asciiBytes h]
  rfl

theorem notMem_asciiBytes {s : Str} {b : UInt8} (h : ∀ c ∈ s, c.toNat < 0x80 ∧ c.toNat ≠ b.toNat) : b ∉ asciiBytes s := by
  intro hb
  obtain ⟨c, hc, rfl⟩ := List.mem_map.mp hb
  obtain ⟨hlt, hne⟩ := h c hc
  exact hne (toNat_ascii hlt).symm

/-! ### Words -/

theorem Token.isWhitespace {s : Str} (h : Token s) : ∀ c ∈ s, Str.isWhitespace c = false := by
  intro c hc
  obtain ⟨hlo, hhi⟩ := h.2 c hc
  exact Str.not_isWhitespace_of_toNat hlo hhi

theorem splitWhitespace_cons {w : Str} (h : Token w) (rest : Str) : splitWhitespace (w ++ ' ' :: rest) = w :: splitWhitespace rest := by
  rw [splitWhitespace, List.splitOnP_append_cons_of_forall_mem h.isWhitespace _ (by decide)]
  exact List.filter_cons_of_pos (decide_eq_true h.1)

theorem splitWhitespace_token {w : Str} (h : Token w) : splitWhitespace w = [w] := by
  rw [splitWhitespace, List.splitOnP_eq_singleton h.isWhitespace]
  exact List.filter_cons_of_pos (decide_eq_true h.1)

theorem token_text (kind : ObjectKind) : Token kind.text := by cases kind <;> decide

theorem token_ofNat (n : ℕ) : Token (Str.ofNat n) := by
  refine ⟨Str.ofNat_ne_nil n, fun c hc => ?_⟩
  have hdigit := Str.isDigit_iff.mp (Str.isDigit_of_mem_ofNat hc)
  omega

section Header

variable {a b c : Str} (ha : Token a) (hb : Token b) (hc : Token c)

include ha hb hc

theorem header_range : ∀ x ∈ header a b c, 0x20 ≤ x.toNat ∧ x.toNat < 0x7f := by
  have htoken : ∀ s, Token s → ∀ x ∈ s, 0x20 ≤ x.toNat ∧ x.toNat < 0x7f := fun s hs x hx => ⟨(hs.2 x hx).1.le, (hs.2 x hx).2⟩
  intro x hx
  simp only [header, List.mem_append, List.mem_cons] at hx
  rcases hx with hx | rfl | hx | rfl | hx
  · exact htoken a ha x hx
  · decide
  · exact htoken b hb x hx
  · decide
  · exact htoken c hc x hx

theorem ascii_header : Ascii (header a b c) := fun x hx => by
  have := header_range ha hb hc x hx
  omega

/-- A header has no control bytes. -/
theorem notMem_header {y : UInt8} (hy : y.toNat < 0x20) : y ∉ asciiBytes (header a b c) :=
  notMem_asciiBytes fun x hx => by
    have := header_range ha hb hc x hx
    omega

theorem splitWhitespace_header : splitWhitespace (header a b c) = [a, b, c] := by
  rw [header, splitWhitespace_cons ha, splitWhitespace_cons hb, splitWhitespace_token hc]

end Header

theorem splitAtByte_append {b : UInt8} {front : Bytes} (h : b ∉ front) (back : Bytes) :
    splitAtByte b (front ++ b :: back) = some (front, back) := by
  have hspan : (front ++ b :: back).span (fun c => decide (c ≠ b)) = (front, b :: back) := by
    rw [List.span_eq_takeWhile_dropWhile]
    have hall : ∀ c ∈ front, decide (c ≠ b) = true := fun c hc => decide_eq_true fun heq => h (heq ▸ hc)
    rw [List.takeWhile_append_of_pos hall, List.dropWhile_append_of_pos hall]
    simp
  rw [splitAtByte, hspan]

/-! ### What is read of the records -/

/-- A record, as it is read. -/
def TreeRecord.entry (r : TreeRecord) : LsEntry := ⟨r.mode, r.kind.text, r.sha, r.path⟩

theorem TreeRecord.token_header (r : TreeRecord) : Token r.mode ∧ Token r.kind.text ∧ Token r.sha :=
  ⟨r.printed.1, token_text r.kind, r.printed.2.1⟩

/-- A record is read as it was printed, unless its path is not a text. -/
theorem parseRecord_line (r : TreeRecord) :
    parseRecord r.line = if isUtf8 r.path = false then .error (.nonUtf8Path r.path) else .ok (some r.entry) := by
  obtain ⟨hmode, hkind, hsha⟩ := r.token_header
  have hascii := ascii_header hmode hkind hsha
  rw [parseRecord, TreeRecord.line, splitAtByte_append (notMem_header hmode hkind hsha (by decide))]
  dsimp only
  rw [isUtf8_asciiBytes hascii, if_neg (by decide), fromUtf8Lossy_asciiBytes hascii, splitWhitespace_header hmode hkind hsha]
  rfl

/-- The lines end where their `NUL`s are. -/
theorem splitOn_lines (records : List TreeRecord) :
    (records.flatMap fun r => r.line ++ [0]).splitOn 0 = records.map TreeRecord.line ++ [[]] := by
  induction records with
  | nil => rfl
  | cons r records ih =>
    have hline : 0 ∉ r.line := by
      rw [TreeRecord.line, List.mem_append, List.mem_cons, not_or, not_or]
      obtain ⟨hmode, hkind, hsha⟩ := r.token_header
      exact ⟨notMem_header hmode hkind hsha (by decide), by decide, r.printed.2.2⟩
    rw [List.flatMap_cons, List.append_assoc, List.singleton_append, List.splitOn_append_cons_self_of_not_mem hline, ih]
    rfl

theorem TreeRecord.line_ne_nil (r : TreeRecord) : r.line ≠ [] := by
  rw [line]
  exact List.append_ne_nil_of_right_ne_nil _ (List.cons_ne_nil _ _)

/-- **The output of `ls-tree` is read as the records of the commit**, if their paths are texts, and not read otherwise. -/
theorem parseLsTree_gitLsTree {store : Store} {commit : Str} {records : List TreeRecord} (h : store.tree commit = some records) :
    ∃ out, gitLsTree store commit = some out ∧ ∀ es, parseLsTree out = .ok es ↔
      es = records.map TreeRecord.entry ∧ ∀ r ∈ records, isUtf8 r.path = true := by
  refine ⟨_, by rw [gitLsTree, h]; rfl, fun es => ?_⟩
  have hfilter : (((records.flatMap fun r => r.line ++ [0]).splitOn 0).filter fun record => decide (record ≠ [])) =
      records.map TreeRecord.line := by
    rw [splitOn_lines, List.filter_append, List.filter_eq_self.mpr]
    · simp
    · exact List.forall_mem_map.mpr fun r _ => decide_eq_true r.line_ne_nil
  have hparse : ∀ records : List TreeRecord, ∀ parsed, (records.map TreeRecord.line).mapM parseRecord = .ok parsed ↔
      parsed = records.map (fun r => some r.entry) ∧ ∀ r ∈ records, isUtf8 r.path = true := by
    intro records
    induction records with
    | nil =>
      intro parsed
      rw [List.map_nil, List.mapM_nil, Result.pure_eq_ok, eq_comm]
      simp
    | cons r records ih =>
      intro parsed
      rw [List.map_cons, List.mapM_cons, parseRecord_line]
      constructor
      · intro hp
        obtain ⟨e, he, hp⟩ := Result.bind_eq_ok.mp hp
        obtain ⟨rest, hrest, hp⟩ := Result.bind_eq_ok.mp hp
        obtain rfl := Result.pure_eq_ok.mp hp
        split_ifs at he with hutf8
        cases he
        obtain ⟨rfl, hall⟩ := (ih rest).mp hrest
        exact ⟨rfl, List.forall_mem_cons.mpr ⟨by simpa using hutf8, hall⟩⟩
      · rintro ⟨rfl, hall⟩
        obtain ⟨hr, hall⟩ := List.forall_mem_cons.mp hall
        rw [hr, if_neg (by decide), (ih _).mpr ⟨rfl, hall⟩]
        rfl
  rw [parseLsTree, hfilter]
  constructor
  · intro hes
    obtain ⟨parsed, hparsed, hes⟩ := Result.bind_eq_ok.mp hes
    obtain rfl := Result.pure_eq_ok.mp hes
    obtain ⟨rfl, hall⟩ := (hparse records parsed).mp hparsed
    refine ⟨?_, hall⟩
    simp [List.reduceOption, List.filterMap_map]
  · rintro ⟨rfl, hall⟩
    rw [(hparse records _).mpr ⟨rfl, hall⟩, Result.ok_bind]
    refine Result.pure_eq_ok.mpr ?_
    simp [List.reduceOption, List.filterMap_map]

/-! ### What is read of the objects -/

/-- A content is read up to the end that its header gives. -/
theorem readObject_frame {sha : Str} (hsha : Token sha) (o : GitObject) (total : ℕ) (rest : Bytes) :
    readObject total sha (frame sha o ++ rest) = .ok (o.content, rest) := by
  have hkind := token_text o.kind
  have hsize := token_ofNat o.content.length
  have hascii := ascii_header hsha hkind hsize
  have hsplit : frame sha o ++ rest = asciiBytes (header sha o.kind.text (Str.ofNat o.content.length)) ++ lf :: (o.content ++ lf :: rest) := by
    simp [frame]
  have hthere : o.kind.text ≠ "missing".toList := by cases o.kind <;> decide
  rw [readObject, hsplit, splitAtByte_append (notMem_header hsha hkind hsize (by decide))]
  dsimp only
  rw [isUtf8_asciiBytes hascii, if_neg (by decide), fromUtf8Lossy_asciiBytes hascii, splitWhitespace_header hsha hkind hsize]
  dsimp only
  rw [if_neg hthere, readContent, Str.parseUInt_ofNat o.small]
  dsimp only
  rw [if_neg (by simp), List.take_left, List.drop_left]
  rfl

/-- An object that is not there is missed. -/
theorem readObject_missing {sha : Str} (hsha : Token sha) (total : ℕ) (rest : Bytes) :
    readObject total sha (asciiBytes (sha ++ " missing".toList) ++ [lf] ++ rest) = .error (.missing sha) := by
  have hword : Token "missing".toList := by decide
  have hspace : sha ++ " missing".toList = sha ++ ' ' :: "missing".toList := rfl
  have hascii : Ascii (sha ++ ' ' :: "missing".toList) := hsha.ascii.append (Ascii.cons (by decide) hword.ascii)
  have hline : lf ∉ asciiBytes (sha ++ ' ' :: "missing".toList) := notMem_asciiBytes fun c hc => by
    refine ⟨hascii c hc, fun heq => ?_⟩
    have hlf : lf.toNat = 10 := rfl
    rcases List.mem_append.mp hc with hc | hc
    · have := (hsha.2 c hc).1
      omega
    · rcases List.mem_cons.mp hc with rfl | hc
      · cases heq
      · have := (hword.2 c hc).1
        omega
  rw [hspace, List.append_assoc, List.singleton_append, readObject, splitAtByte_append hline]
  dsimp only
  rw [isUtf8_asciiBytes hascii, if_neg (by decide), fromUtf8Lossy_asciiBytes hascii, splitWhitespace_cons hsha, splitWhitespace_token hword]
  dsimp only
  rw [if_pos rfl]

/-- What has been read is what the store has. -/
def ContentsOf (store : Store) (contents : BTreeMap Str Bytes) : Prop :=
  ∀ sha content, contents.get? sha = some content → (store.object sha).map GitObject.content = some content

/-- **The output of `cat-file` is read as the contents of the objects**, if they are all there. -/
theorem readObjects_gitCatFile {store : Store} {total : ℕ} {shas : List Str} (hshas : ∀ sha ∈ shas, Token sha)
    {contents contents' : BTreeMap Str Bytes} (hold : ContentsOf store contents)
    (h : readObjects total shas (gitCatFile store shas) contents = .ok contents') :
    ContentsOf store contents' ∧ (∀ sha ∈ shas, contents'.get? sha ≠ none) ∧ ∀ sha, contents.get? sha ≠ none → contents'.get? sha ≠ none := by
  induction shas generalizing contents with
  | nil =>
    cases h
    exact ⟨hold, nofun, fun sha h => h⟩
  | cons sha shas ih =>
    obtain ⟨hsha, hshas⟩ := List.forall_mem_cons.mp hshas
    have hout : gitCatFile store (sha :: shas) = catFile store sha ++ gitCatFile store shas := rfl
    rw [hout, catFile, readObjects] at h
    cases hobject : store.object sha with
    | none =>
      rw [hobject] at h
      dsimp only at h
      rw [readObject_missing hsha] at h
      cases h
    | some o =>
      rw [hobject] at h
      dsimp only at h
      rw [readObject_frame hsha] at h
      have hnew : ContentsOf store (contents.insert sha o.content) := by
        intro sha' content hget
        rw [BTreeMap.get?_insert] at hget
        split_ifs at hget with heq
        · rw [heq, hobject]
          exact hget
        · exact hold sha' content hget
      obtain ⟨hof, hall, hkeep⟩ := ih hshas hnew h
      have hself : contents'.get? sha ≠ none := hkeep sha (by rw [BTreeMap.get?_insert, if_pos rfl]; exact Option.some_ne_none _)
      refine ⟨hof, List.forall_mem_cons.mpr ⟨hself, hall⟩, fun sha' hget => hkeep sha' ?_⟩
      rw [BTreeMap.get?_insert]
      split_ifs
      · exact Option.some_ne_none _
      · exact hget

end Milpa.Core.Git
