import Milpa.Core.SafeExtract
import Milpa.Core.TreeHash
import Milpa.Types.Machine

/-!
# The tar reader

`TarEntries` of `safe_extract.rs`: the entries of an archive, read block by block from a
source of bytes, with the long names of GNU and the extended headers of PAX. Lengths and
offsets are machine words, and a sum or a range that is out of bounds stops the program:
`Stop.fault`. A source answers each read with at least one byte and at most as many as
were asked for, or fails; when its answers are used up it is at its end.
-/

namespace Milpa.Core.TarReader

open Machine Posix SafeExtract

/-! ### Sources -/

/-- The kinds of errors of a read that are told apart. -/
inductive IoError where
  /-- `ErrorKind::Interrupted`. -/
  | interrupted
  /-- `ErrorKind::UnexpectedEof`. -/
  | unexpectedEof
  /-- `DecompCapExceeded`. -/
  | capExceeded
  | other
  deriving DecidableEq, Repr

/-- What a source has for a read: bytes, at least one, or an error. -/
inductive Answer where
  | bytes (first : UInt8) (rest : Bytes)
  | failed (e : IoError)
  deriving DecidableEq, Repr

/-- The answers that a source has left. -/
structure Source where
  answers : List Answer
  deriving DecidableEq, Repr

/-- An answer, if there are bytes for it. -/
def answerOf : Bytes → List Answer
  | [] => []
  | b :: rest => [.bytes b rest]

/-- `Read::read` into a buffer of a length: no bytes at the end, and what is too much is left. -/
def Source.read (length : ℕ) (src : Source) : Except IoError Bytes × Source :=
  match src.answers with
  | [] => (.ok [], src)
  | .failed e :: rest => (.error e, ⟨rest⟩)
  | .bytes b more :: rest => (.ok ((b :: more).take length), ⟨answerOf ((b :: more).drop length) ++ rest⟩)

/-- The weight of an answer. -/
def Answer.size : Answer → ℕ
  | bytes _ rest => rest.length + 1
  | failed _ => 1

/-- How much a source has left. -/
def Source.size (src : Source) : ℕ := (src.answers.map Answer.size).sum

/-! ### Errors -/

/-- A text: bytes that `str::from_utf8` accepts. -/
abbrev Text := { bytes : Bytes // isUtf8 bytes = true }

/-- The empty text. -/
def noText : Text := ⟨[], rfl⟩

/-- `str::from_utf8`. -/
def toText (bytes : Bytes) : Option Text := if h : isUtf8 bytes = true then some ⟨bytes, h⟩ else none

/-- What the reader fails with. -/
inductive TarError where
  /-- The cap of the decompressor. -/
  | capExceeded
  | readingHeader (e : IoError)
  | readingData (name : Text) (n : ℕ) (e : IoError)
  | skippingData (name : Text) (e : IoError)
  | draining (e : IoError)
  /-- The size that is declared is beyond the cap of an entry. -/
  | declaredSize (name : Text) (n cap : ℕ)
  /-- The data run past the end of the archive. -/
  | dataTruncated (name : Text) (n : ℕ)
  | skipTruncated (name : Text)
  | checksum (name : Text)
  | sizeField (name : Text)
  /-- A header whose name is empty or no text. -/
  | emptyName
  deriving DecidableEq

/-- The code of an error. -/
def TarError.code : TarError → Str
  | capExceeded | declaredSize _ _ _ | dataTruncated _ _ | skipTruncated _ | sizeField _ => "EXTRACT-SIZE-LIMIT".toList
  | readingHeader _ | readingData _ _ _ | skippingData _ _ | draining _ | checksum _ => "FETCH-EXTRACT-FAILED".toList
  | emptyName => "EXTRACT-ZIP-SLIP".toList

/-- `classify_stream_read_error`. -/
def classifyStreamReadError (e : IoError) (context : IoError → TarError) : TarError :=
  if e = .capExceeded then .capExceeded else context e

/-- Why the reader stops early. -/
inductive Stop where
  | fault (f : Fault)
  | error (e : TarError)
  deriving DecidableEq

/-- A computation on machine words, in the reader. -/
def machine {α : Type} (x : Except Fault α) : Except Stop α := x.mapError .fault

/-! ### Numbers -/

/-- A digit of a radix up to ten. -/
def digitValue (radix : ℕ) (b : UInt8) : Option ℕ :=
  if 0x30 ≤ b.toNat ∧ b.toNat < 0x30 + radix then some (b.toNat - 0x30) else none

/-- `from_str_radix` for unsigned words of 64 bits: a plus may be in front, and there is a digit. -/
def parseUnsigned (radix : ℕ) (s : Bytes) : Option ℕ :=
  let digits := if s.head? = some 0x2b then s.tail else s
  if digits = [] then none
  else (digits.foldlM (fun n b => (digitValue radix b).map (n * radix + ·)) 0).filter fun n => decide (n < 2 ^ 64)

/-- `octal`: blanks and zero bytes are dropped wherever they are. -/
def octal (field : Bytes) : Option ℕ :=
  let s := field.filter fun b => decide (b ≠ 0x20 ∧ b ≠ 0)
  if s = [] then some 0 else parseUnsigned 8 s

/-- What is before the first zero byte. -/
def untilNul (bytes : Bytes) : Bytes := bytes.takeWhile fun b => decide (b ≠ 0)

/-- `cstr`. -/
def cstr (field : Bytes) : Option Text := toText (untilNul field)

/-! ### Extended headers -/

/-- The names that extended headers have given: `path` and `linkpath`. -/
structure PaxNames where
  name : Option Text
  linkname : Option Text

/-- A key and its value, `=` between them. -/
def paxRecord (out : PaxNames) (kv : Bytes) : Except Fault PaxNames :=
  match kv.findIdx? fun b => decide (b = 0x3d) with
  | none => .ok out
  | some eq => do
    let key ← slice kv 0 eq
    let start ← add 64 eq 1
    let val ← slice kv start kv.length
    if key = ("path".toList.map fun c => UInt8.ofNat c.toNat) then
      return { out with name := (toText val).or out.name }
    else if key = ("linkpath".toList.map fun c => UInt8.ofNat c.toNat) then
      return { out with linkname := (toText val).or out.linkname }
    else return out

/-- The end of the key and its value in a record: the line feed at the end is left out. -/
def kvEnd (record : Bytes) : Except Fault ℕ :=
  if record.getLast? = some 0x0a then sub record.length 1 else .ok record.length

/-- A record that is in the data, from `pos` to `stop`; `space` is the blank behind its length. -/
def paxBody (data : Bytes) (pos space stop : ℕ) (out : PaxNames) : Except Fault PaxNames := do
  let record ← slice data pos stop
  let offset ← sub space pos
  let kvStart ← add 64 offset 1
  let kvEnd ← kvEnd record
  if kvEnd ≤ kvStart then return out
  else
    let kv ← slice record kvStart kvEnd
    paxRecord out kv

/-- The loop of `parse_pax_headers`. -/
def paxLoop (data : Bytes) : ℕ → ℕ → PaxNames → Except Fault PaxNames
  | 0, _, _ => .error .fuel
  | n + 1, pos, out =>
    if data.length ≤ pos then .ok out
    else do
      let rest ← slice data pos data.length
      match rest.findIdx? fun b => decide (b = 0x20) with
      | none => return out
      | some i =>
        let space ← add 64 pos i
        let lenStr ← slice data pos space
        match parseUnsigned 10 lenStr with
        | none => return out
        | some recordLen =>
          if recordLen = 0 then return out
          else
            let stop ← add 64 pos recordLen
            if data.length < stop then return out
            else
              let out ← paxBody data pos space stop out
              paxLoop data n stop out

/-- `parse_pax_headers`. -/
def parsePaxHeaders (data : Bytes) (out : PaxNames) : Except Fault PaxNames := paxLoop data (data.length + 1) 0 out

/-! ### Blocks -/

/-- `TarEntries`. -/
structure TarEntries where
  src : Source
  maxEntryBytes : ℕ
  /-- The long names of GNU. -/
  pendingName : Option Text
  pendingLinkname : Option Text
  pendingPax : PaxNames

/-- `TarEntries::new`. -/
def TarEntries.new (src : Source) (maxEntryBytes : ℕ) : TarEntries := ⟨src, maxEntryBytes, none, none, ⟨none, none⟩⟩

/-- The loop of `read_header`: what of the block has been filled. -/
def fillHeader : ℕ → Bytes → Source → Except Stop (Bytes × Source)
  | 0, _, _ => .error (.fault .fuel)
  | n + 1, header, src =>
    if header.length < 512 then
      match src.read (512 - header.length) with
      | (.ok [], src) => .ok (header, src)
      | (.ok bytes, src) => do
        let _ ← machine (add 64 header.length bytes.length)
        fillHeader n (header ++ bytes) src
      | (.error e, _) => .error (.error (classifyStreamReadError e .readingHeader))
    else .ok (header, src)

/-- `read_header`: a short block and a block of zeros end the archive. -/
def readHeader (src : Source) : Except Stop (Option Bytes × Source) := do
  let (header, src) ← fillHeader (src.size + 1) [] src
  if header.length < 512 then return (none, src)
  else if header.all fun b => decide (b = 0) then return (none, src)
  else return (some header, src)

/-- The loop of `Read::read_exact`: what has been read. -/
def readExactLoop (name : Text) (n : ℕ) : ℕ → Bytes → Source → Except Stop (Bytes × Source)
  | 0, _, _ => .error (.fault .fuel)
  | fuel + 1, buf, src =>
    if buf.length < n then
      match src.read (n - buf.length) with
      | (.ok [], _) => .error (.error (.dataTruncated name n))
      | (.ok bytes, src) => readExactLoop name n fuel (buf ++ bytes) src
      | (.error .interrupted, src) => readExactLoop name n fuel buf src
      | (.error .unexpectedEof, _) => .error (.error (.dataTruncated name n))
      | (.error e, _) => .error (.error (classifyStreamReadError e (.readingData name n)))
    else .ok (buf, src)

/-- `read_entry_data`: the cap is checked before a buffer is made. -/
def readEntryData (maxEntryBytes n : ℕ) (name : Text) (src : Source) : Except Stop (Bytes × Source) :=
  if maxEntryBytes < n then .error (.error (.declaredSize name n maxEntryBytes))
  else if 2 ^ 63 ≤ n then .error (.fault .capacity)
  else readExactLoop name n (src.size + 1) [] src

/-- The loop of `skip_exact`: how much is left to be skipped. -/
def skipLoop (name : Text) : ℕ → ℕ → Source → Except Stop Source
  | 0, _, _ => .error (.fault .fuel)
  | fuel + 1, n, src =>
    if 0 < n then
      match src.read (if 8192 ≤ n then 8192 else n) with
      | (.ok [], _) => .error (.error (.skipTruncated name))
      | (.ok bytes, src) => do
        let n ← machine (sub n bytes.length)
        skipLoop name fuel n src
      | (.error e, _) => .error (.error (classifyStreamReadError e (.skippingData name)))
    else .ok src

/-- `skip_exact`. -/
def skipExact (n : ℕ) (name : Text) (src : Source) : Except Stop Source := skipLoop name (src.size + 1) n src

/-- The loop of `drain_to_eof`. -/
def drainLoop : ℕ → Source → Except Stop Source
  | 0, _ => .error (.fault .fuel)
  | fuel + 1, src =>
    match src.read 8192 with
    | (.ok [], src) => .ok src
    | (.ok _, src) => drainLoop fuel src
    | (.error e, _) => .error (.error (classifyStreamReadError e .draining))

/-- `drain_to_eof`. -/
def drainToEof (src : Source) : Except Stop Source := drainLoop (src.size + 1) src

/-! ### Headers -/

/-- The bytes of a header that its checksum is taken over: the field of the checksum counts as blanks. -/
def checkedBytes (header : Bytes) : Bytes := header.take 148 ++ List.replicate 8 0x20 ++ header.drop 156

/-- A byte as `i8`. -/
def signedByte (b : UInt8) : ℤ := if b.toNat < 128 then b.toNat else b.toNat - 256

/-- `header_checksum_valid`. -/
def headerChecksumValid (header : Bytes) : Except Fault Bool := do
  let field ← slice header 148 156
  match octal field with
  | none => return false
  | some stored =>
    let unsignedSum ← sum 64 ((checkedBytes header).map UInt8.toNat)
    if stored = unsignedSum then return true
    else
      let signedSum ← sumSigned 64 ((checkedBytes header).map signedByte)
      return decide (stored = signedSum.natAbs)

/-- What `next` takes from a header before it looks at the kind of the entry. -/
structure Head where
  header : Bytes
  size : ℕ
  typeflag : UInt8
  rawName : Text
  padding : ℕ

/-- The first part of `next`: the next header, checked. -/
def readHead (src : Source) : Except Stop (Option Head × Source) := do
  let (header, src) ← readHeader src
  match header with
  | none => return (none, src)
  | some header =>
    let nameField ← machine (slice header 0 100)
    let rawName := (cstr nameField).getD noText
    let valid ← machine (headerChecksumValid header)
    if valid = false then throw (.error (.checksum rawName))
    else
      let sizeField ← machine (slice header 124 136)
      match octal sizeField with
      | none => throw (.error (.sizeField rawName))
      | some size =>
        let typeflag ← machine (index header 156)
        let padded ← machine (mul 64 ((size + 511) / 512) 512)
        let padding ← machine (sub padded size)
        return (some ⟨header, size, typeflag, rawName, padding⟩, src)

/-- The data of an entry whose data are a name or records, and the padding. -/
def readControl (maxEntryBytes : ℕ) (head : Head) (src : Source) : Except Stop (Bytes × Source) := do
  let (data, src) ← readEntryData maxEntryBytes head.size head.rawName src
  let src ← skipExact head.padding head.rawName src
  return (data, src)

/-- The name of an entry: PAX before GNU before the header, with its prefix. -/
def entryName (t : TarEntries) (head : Head) : Except Stop Text :=
  match t.pendingPax.name, t.pendingName with
  | some name, _ => .ok name
  | none, some name => .ok name
  | none, none => do
    let nameField ← machine (slice head.header 0 100)
    match cstr nameField with
    | none => throw (.error .emptyName)
    | some name =>
      if name.1 = [] then throw (.error .emptyName)
      else
        let prefixField ← machine (slice head.header 345 500)
        let dir := (cstr prefixField).getD noText
        if dir.1 = [] then return name
        else return ⟨dir.1 ++ ([slash] ++ name.1), isUtf8_append dir.2 (isUtf8_append rfl name.2)⟩

/-- The target of an entry that is a link. -/
def entryLinkname (t : TarEntries) (head : Head) : Except Stop Text :=
  match t.pendingPax.linkname, t.pendingLinkname with
  | some name, _ => .ok name
  | none, some name => .ok name
  | none, none => do
    let linkField ← machine (slice head.header 157 257)
    return (cstr linkField).getD noText

/-- `kind`. -/
def entryKind (typeflag : UInt8) : EntryKind :=
  if typeflag = 0x30 ∨ typeflag = 0 then .file
  else if typeflag = 0x35 then .dir
  else if typeflag = 0x32 then .symlink
  else if typeflag = 0x31 then .hardLink
  else .other

/-- The data of an entry: only those of a file are kept. -/
def entryData (maxEntryBytes : ℕ) (kind : EntryKind) (head : Head) (src : Source) : Except Stop (Bytes × Source) :=
  if kind = .file then readEntryData maxEntryBytes head.size head.rawName src
  else do
    let src ← skipExact head.size head.rawName src
    return ([], src)

/-- The last part of `next`: an entry. The names that were waiting are used up. -/
def readEntry (t : TarEntries) (head : Head) : Except Stop (TarEntry × TarEntries) := do
  let name ← entryName t head
  let linkname ← entryLinkname t head
  let kind := entryKind head.typeflag
  let modeField ← machine (slice head.header 100 108)
  let mode := (octal modeField).getD 0 % 2 ^ 32
  let (data, src) ← entryData t.maxEntryBytes kind head t.src
  let src ← skipExact head.padding head.rawName src
  return (⟨name.1, linkname.1, head.size, kind, mode, data, name.2, linkname.2⟩, ⟨src, t.maxEntryBytes, none, none, ⟨none, none⟩⟩)

/-! ### Iteration -/

/-- What a round of `next` comes to. -/
inductive Round where
  | again
  | done
  | entry (e : TarEntry)

/-- The names that a long name is kept among: `L` has the name, `K` the target of a link. -/
def isLongName (typeflag : UInt8) : Bool := decide (typeflag = 0x4c)

def isLongLink (typeflag : UInt8) : Bool := decide (typeflag = 0x4b)

/-- `x` and `X`. -/
def isPax (typeflag : UInt8) : Bool := decide (typeflag = 0x78 ∨ typeflag = 0x58)

/-- A round of `next`. -/
def round (t : TarEntries) : Except Stop (Round × TarEntries) := do
  let (head, src) ← readHead t.src
  match head with
  | none => return (.done, { t with src := src })
  | some head =>
    if isLongName head.typeflag then do
      let (data, src) ← readControl t.maxEntryBytes head src
      return (.again, { t with src := src, pendingName := (toText (untilNul data)).or t.pendingName })
    else if isLongLink head.typeflag then do
      let (data, src) ← readControl t.maxEntryBytes head src
      return (.again, { t with src := src, pendingLinkname := (toText (untilNul data)).or t.pendingLinkname })
    else if isPax head.typeflag then do
      let (data, src) ← readControl t.maxEntryBytes head src
      let names ← machine (parsePaxHeaders data t.pendingPax)
      return (.again, { t with src := src, pendingPax := names })
    else do
      let (entry, t) ← readEntry { t with src := src } head
      return (.entry entry, t)

/-- `TarEntries::next`. -/
def next : ℕ → TarEntries → Except Stop (Option TarEntry × TarEntries)
  | 0, _ => .error (.fault .fuel)
  | n + 1, t => do
    let (r, t) ← round t
    match r with
    | .again => next n t
    | .done => return (none, t)
    | .entry e => return (some e, t)

/-- The entries up to the end, and what is left of the source. -/
def entriesFrom : ℕ → TarEntries → Except Stop (List TarEntry × Source)
  | 0, _ => .error (.fault .fuel)
  | n + 1, t => do
    let (e, t) ← next (t.src.size + 1) t
    match e with
    | none => return ([], t.src)
    | some e =>
      let (es, src) ← entriesFrom n t
      return (e :: es, src)

/-- The iteration over an archive. -/
def entries (src : Source) (maxEntryBytes : ℕ) : Except Stop (List TarEntry × Source) :=
  entriesFrom (src.size + 1) (.new src maxEntryBytes)

end Milpa.Core.TarReader
