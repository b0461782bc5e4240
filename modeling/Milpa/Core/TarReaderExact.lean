import Mathlib.Logic.Relation
import Milpa.Core.TarReaderSafe

/-!
# When the tar reader gives a result

The reader stops without a result exactly when it comes to an extended header with a record
whose length does not fit into a word together with its offset (`entries_exact_iff`). A
round of the iteration takes a header from the source, so there are at most as many rounds
as the source has bytes.
-/

namespace Milpa.Core.TarReader

open Machine Relation Result SafeExtract

/-! ### Records -/

/-- The length that the record at an offset declares: the decimal number in front of the first blank. -/
def lengthAt (data : Bytes) (pos : ℕ) : Option ℕ :=
  ((data.drop pos).findIdx? fun b => decide (b = 0x20)).bind fun i => parseUnsigned 10 ((data.drop pos).take i)

/-- From the offset of a record to that of the next: the record is not empty, and in the data. -/
def NextRecord (data : Bytes) (pos pos' : ℕ) : Prop := ∃ n, lengthAt data pos = some n ∧ n ≠ 0 ∧ pos' = pos + n ∧ pos' ≤ data.length

/-- The lengths of the records from an offset on are in range: that of each record that is come to is a word, together with its
offset. -/
def InRangeFrom (data : Bytes) (pos : ℕ) : Prop :=
  ∀ pos', ReflTransGen (NextRecord data) pos pos' → ∀ n, lengthAt data pos' = some n → pos' + n < 2 ^ 64

/-- The lengths of all records are in range. -/
def InRange (data : Bytes) : Prop := InRangeFrom data 0

theorem inRangeFrom_none {data : Bytes} {pos : ℕ} (h : lengthAt data pos = none) : InRangeFrom data pos := by
  intro pos' hreach n hn
  rcases ReflTransGen.cases_head hreach with rfl | ⟨next, ⟨m, hm, -⟩, -⟩
  · rw [h] at hn
    cases hn
  · rw [h] at hm
    cases hm

theorem inRangeFrom_some {data : Bytes} {pos n : ℕ} (h : lengthAt data pos = some n) :
    InRangeFrom data pos ↔ pos + n < 2 ^ 64 ∧ (n ≠ 0 → pos + n ≤ data.length → InRangeFrom data (pos + n)) := by
  constructor
  · intro hrange
    exact ⟨hrange pos .refl n h, fun hne hin pos' hreach => hrange pos' (.head ⟨n, h, hne, rfl, hin⟩ hreach)⟩
  · rintro ⟨hhere, hrest⟩ pos' hreach m hm
    rcases ReflTransGen.cases_head hreach with rfl | ⟨next, ⟨n', hn', hne, rfl, hin⟩, hreach⟩
    · obtain rfl := Option.some.inj (h.symm.trans hm)
      exact hhere
    · obtain rfl := Option.some.inj (h.symm.trans hn')
      exact hrest hne hin pos' hreach m hm

theorem kvEnd_ok {record : Bytes} (hrecord : 0 < record.length) : ∃ last, kvEnd record = .ok last ∧ last ≤ record.length := by
  rw [kvEnd]
  split_ifs
  · exact ⟨_, sub_of_le hrecord, Nat.sub_le _ _⟩
  · exact ⟨_, rfl, le_rfl⟩

theorem paxRecord_ok {out : PaxNames} {kv : Bytes} (hkv : kv.length < 2 ^ 64) : ∃ out', paxRecord out kv = .ok out' := by
  rw [paxRecord]
  split
  · exact ⟨_, rfl⟩
  · rename_i eq hfind
    have heq : eq < kv.length := (List.findIdx?_eq_some_iff_findIdx_eq.mp hfind).1
    rw [slice_of_le (Nat.zero_le _) heq.le, ok_bind, add_of_lt (by omega), ok_bind, slice_of_le heq le_rfl, ok_bind]
    split_ifs
    · exact ⟨_, rfl⟩
    · exact ⟨_, rfl⟩
    · exact ⟨_, rfl⟩

/-- The body of a record that is in the data has a result. -/
theorem paxBody_ok {data : Bytes} {pos space stop : ℕ} {out : PaxNames} (hdata : data.length < 2 ^ 64) (hspace : pos ≤ space)
    (hin : space < data.length) (hpos : pos < stop) (hstop : stop ≤ data.length) : ∃ out', paxBody data pos space stop out = .ok out' := by
  have hlength : ((data.take stop).drop pos).length = stop - pos := by
    rw [List.length_drop, List.length_take]
    omega
  obtain ⟨last, hlast, hle⟩ := kvEnd_ok (by omega : 0 < ((data.take stop).drop pos).length)
  rw [paxBody, slice_of_le hpos.le hstop, ok_bind, sub_of_le hspace, ok_bind, add_of_lt (by omega), ok_bind, hlast, ok_bind]
  split_ifs with hempty
  · exact ⟨_, rfl⟩
  · rw [slice_of_le (by omega) hle, ok_bind]
    refine paxRecord_ok ?_
    rw [List.length_drop, List.length_take]
    omega

theorem lengthAt_end {data : Bytes} {pos : ℕ} (h : data.length ≤ pos) : lengthAt data pos = none := by
  rw [lengthAt, List.drop_eq_nil_of_le h]
  rfl

/-- The loop over the records has a result if their lengths are in range, and otherwise an overflow stops it. -/
theorem paxLoop_exact {data : Bytes} (hdata : data.length < 2 ^ 64) {fuel pos : ℕ} {out : PaxNames} (hpos : pos ≤ data.length)
    (hfuel : data.length < fuel + pos) :
    (InRangeFrom data pos → ∃ out', paxLoop data fuel pos out = .ok out') ∧
      (¬ InRangeFrom data pos → paxLoop data fuel pos out = .error .overflow) := by
  induction fuel generalizing pos out with
  | zero => omega
  | succ fuel ih =>
    rw [paxLoop]
    split_ifs with hlast
    · exact ⟨fun _ => ⟨out, rfl⟩, fun h => absurd (inRangeFrom_none (lengthAt_end hlast)) h⟩
    have hrest : (data.take data.length).drop pos = data.drop pos := by rw [List.take_length]
    rw [slice_of_le hpos le_rfl, ok_bind, hrest]
    cases hfind : (data.drop pos).findIdx? fun b => decide (b = 0x20) with
    | none =>
      have hnone : lengthAt data pos = none := by rw [lengthAt, hfind]; rfl
      exact ⟨fun _ => ⟨out, rfl⟩, fun h => absurd (inRangeFrom_none hnone) h⟩
    | some i =>
      have hi : i < (data.drop pos).length := (List.findIdx?_eq_some_iff_findIdx_eq.mp hfind).1
      rw [List.length_drop] at hi
      have hlength : lengthAt data pos = parseUnsigned 10 ((data.drop pos).take i) := by rw [lengthAt, hfind]; rfl
      have hstr : (data.take (pos + i)).drop pos = (data.drop pos).take i := by
        rw [List.drop_take, Nat.add_sub_cancel_left]
      dsimp only
      rw [add_of_lt (by omega), ok_bind, slice_of_le (by omega) (by omega), ok_bind, hstr, ← hlength]
      cases hn : lengthAt data pos with
      | none => exact ⟨fun _ => ⟨out, rfl⟩, fun h => absurd (inRangeFrom_none hn) h⟩
      | some n =>
        have hstep := inRangeFrom_some hn
        dsimp only
        split_ifs with hzero
        · refine ⟨fun _ => ⟨out, rfl⟩, fun h => absurd (hstep.mpr ⟨?_, fun hne => absurd hzero hne⟩) h⟩
          omega
        by_cases hword : pos + n < 2 ^ 64
        · rw [add_of_lt hword, ok_bind]
          split_ifs with hout
          · exact ⟨fun _ => ⟨out, rfl⟩, fun h => absurd (hstep.mpr ⟨hword, fun _ hin => absurd hin (by omega)⟩) h⟩
          · obtain ⟨out', hbody⟩ : ∃ out', paxBody data pos (pos + i) (pos + n) out = .ok out' :=
              paxBody_ok hdata (Nat.le_add_right pos i) (by omega) (by omega) (by omega)
            rw [hbody, ok_bind]
            have hagain : InRangeFrom data (pos + n) ↔ InRangeFrom data pos :=
              ⟨fun h => hstep.mpr ⟨hword, fun _ _ => h⟩, fun h => (hstep.mp h).2 hzero (by omega)⟩
            rw [← hagain]
            exact ih (by omega) (by omega)
        · rw [add_eq_error.mpr ⟨by omega, rfl⟩]
          exact ⟨fun h => absurd (hstep.mp h).1 hword, fun _ => rfl⟩

theorem parsePaxHeaders_exact {data : Bytes} (hdata : data.length < 2 ^ 64) (out : PaxNames) :
    (InRange data → ∃ out', parsePaxHeaders data out = .ok out') ∧
      (¬ InRange data → parsePaxHeaders data out = .error .overflow) :=
  paxLoop_exact hdata (Nat.zero_le _) (by omega)

/-! ### Rounds -/

/-- The iteration has come to an extended header with these data. -/
def PaxAt (t : TarEntries) (data : Bytes) : Prop :=
  ∃ head src src', readHead t.src = .ok (some head, src) ∧ isLongName head.typeflag = false ∧ isLongLink head.typeflag = false ∧
    isPax head.typeflag = true ∧ readControl t.maxEntryBytes head src = .ok (data, src')

/-- The records that the iteration has come to, if there are any, are in range. -/
def RoundInRange (t : TarEntries) : Prop := ∀ data, PaxAt t data → InRange data

/-- What a round that has a result leaves: less of the source, unless the archive is at its end. -/
def RoundSpec (t : TarEntries) (r : Round × TarEntries) : Prop :=
  r.2.src.size ≤ t.src.size ∧
    match r.1 with
    | .done => True
    | .again => r.2.src.size < t.src.size
    | .entry e => r.2.src.size < t.src.size ∧ (e.kind = .file → e.data.length = e.size)

theorem Total.with_eq {α : Type} {P : α → Prop} {x : Except Stop α} (h : Total x P) : Total x fun a => x = .ok a ∧ P a :=
  ⟨h.not_faults, fun a ha => ⟨ha, h.spec a ha⟩⟩

/-- A round whose records are in range has a result. -/
theorem round_total {t : TarEntries} (h : RoundInRange t) : Total (round t) (RoundSpec t) := by
  refine Total.bind (readHead_total t.src).with_eq fun ⟨head, src⟩ ⟨hread, hle, hsome⟩ => ?_
  dsimp only at hle hsome ⊢
  cases head with
  | none => exact .ok ⟨hle, trivial⟩
  | some head =>
    obtain ⟨hlength, hsmall, hlt⟩ := hsome head rfl
    have hcontrol : Total (readControl t.maxEntryBytes head src) fun r => r.1.length = head.size ∧ r.2.size ≤ src.size :=
      readControl_total hsmall
    dsimp only
    split_ifs with hname hlink hpax
    · refine Total.bind hcontrol fun ⟨data, src'⟩ ⟨_, hle'⟩ => ?_
      exact .ok ⟨le_trans hle' hle, lt_of_le_of_lt hle' hlt⟩
    · refine Total.bind hcontrol fun ⟨data, src'⟩ ⟨_, hle'⟩ => ?_
      exact .ok ⟨le_trans hle' hle, lt_of_le_of_lt hle' hlt⟩
    · refine Total.bind hcontrol.with_eq fun ⟨data, src'⟩ ⟨hdata, hsize, hle'⟩ => ?_
      have hat : PaxAt t data :=
        ⟨head, src, src', hread, Bool.eq_false_iff.mpr hname, Bool.eq_false_iff.mpr hlink, hpax, hdata⟩
      have hshort : data.length < 2 ^ 64 := by
        dsimp only at hsize
        omega
      obtain ⟨names, hnames⟩ := (parsePaxHeaders_exact hshort t.pendingPax).1 (h data hat)
      refine Total.bind (P := fun _ => True) (.machine hnames trivial) fun names _ => ?_
      exact .ok ⟨le_trans hle' hle, lt_of_le_of_lt hle' hlt⟩
    · refine Total.bind (readEntry_total hlength hsmall) fun ⟨e, t'⟩ ⟨hfile, hle', _⟩ => ?_
      exact .ok ⟨le_trans hle' hle, lt_of_le_of_lt hle' hlt, hfile⟩

/-- An overflow stops a round with a record that is not in range. -/
theorem round_overflow {t : TarEntries} (h : ¬ RoundInRange t) : round t = .error (.fault .overflow) := by
  unfold RoundInRange at h
  push Not at h
  obtain ⟨data, ⟨head, src, src', hread, hname, hlink, hpax, hdata⟩, hbad⟩ := h
  have hsmall := ((readHead_total t.src).spec _ hread).2 head rfl
  have hsize : data.length = head.size := ((readControl_total hsmall.2.1).spec _ hdata).1
  have hparse := (parsePaxHeaders_exact (show data.length < 2 ^ 64 by omega) t.pendingPax).2 hbad
  rw [round, hread, ok_bind]
  dsimp only
  rw [hname, hlink, if_neg Bool.false_ne_true, if_neg Bool.false_ne_true, if_pos hpax, hdata, ok_bind]
  dsimp only
  rw [hparse]
  rfl

/-- A round after which the iteration goes on. -/
def RoundStep (t t' : TarEntries) : Prop := round t = .ok (.again, t') ∨ ∃ e, round t = .ok (.entry e, t')

/-- The records of all extended headers that the iteration comes to are in range. -/
def AllInRange (t : TarEntries) : Prop := ∀ t', ReflTransGen RoundStep t t' → RoundInRange t'

theorem allInRange_iff {t : TarEntries} : AllInRange t ↔ RoundInRange t ∧ ∀ t', RoundStep t t' → AllInRange t' := by
  constructor
  · exact fun h => ⟨h t .refl, fun t' hstep t'' hreach => h t'' (.head hstep hreach)⟩
  · rintro ⟨hhere, hrest⟩ t' hreach
    rcases ReflTransGen.cases_head hreach with rfl | ⟨t₁, hstep, hreach⟩
    · exact hhere
    · exact hrest t₁ hstep t' hreach

/-! ### The iteration -/

/-- What `next` leaves: less of the source, where it has an entry. -/
def NextSpec (t : TarEntries) (r : Option TarEntry × TarEntries) : Prop :=
  ∀ e, r.1 = some e → r.2.src.size < t.src.size ∧ (e.kind = .file → e.data.length = e.size) ∧ AllInRange r.2

theorem next_total {fuel : ℕ} {t : TarEntries} (hfuel : t.src.size < fuel) (h : AllInRange t) : Total (next fuel t) (NextSpec t) := by
  induction fuel generalizing t with
  | zero => omega
  | succ fuel ih =>
    obtain ⟨hhere, hrest⟩ := allInRange_iff.mp h
    refine Total.bind (round_total hhere).with_eq fun ⟨r, t'⟩ ⟨hround, _, hr⟩ => ?_
    cases r with
    | again =>
      refine (ih (lt_of_lt_of_le hr (Nat.le_of_lt_succ hfuel)) (hrest t' (.inl hround))).mono fun p hp e he => ?_
      obtain ⟨hlt, hfile⟩ := hp e he
      exact ⟨hlt.trans hr, hfile⟩
    | done => exact .ok fun e he => nomatch he
    | entry e =>
      refine .ok fun e' he => ?_
      obtain rfl := Option.some.inj he
      exact ⟨hr.1, hr.2, hrest t' (.inr ⟨e, hround⟩)⟩

theorem next_overflow {fuel : ℕ} {t : TarEntries} (hfuel : t.src.size < fuel) (h : ¬ AllInRange t) :
    next fuel t = .error (.fault .overflow) ∨
      ∃ e t', next fuel t = .ok (some e, t') ∧ t'.src.size < t.src.size ∧ ¬ AllInRange t' := by
  induction fuel generalizing t with
  | zero => omega
  | succ fuel ih =>
    by_cases hhere : RoundInRange t
    · have hstep : ∃ t', RoundStep t t' ∧ ¬ AllInRange t' := by
        rw [allInRange_iff] at h
        push Not at h
        exact h hhere
      obtain ⟨t', hstep, hbad⟩ := hstep
      have hspec := (round_total hhere).spec
      rw [next]
      rcases hstep with hround | ⟨e, hround⟩
      · have hlt : t'.src.size < t.src.size := (hspec _ hround).2
        rw [hround, ok_bind]
        refine (ih (by omega) hbad).imp id fun ⟨e, t'', heq, hlt', hbad'⟩ => ⟨e, t'', heq, hlt'.trans hlt, hbad'⟩
      · rw [hround, ok_bind]
        exact .inr ⟨e, t', rfl, (hspec _ hround).2.1, hbad⟩
    · rw [next, round_overflow hhere]
      exact .inl rfl

/-- A round that has a result leaves what `RoundSpec` says: only an overflow can keep it from that. -/
theorem round_spec {t : TarEntries} {r : Round × TarEntries} (h : round t = .ok r) : RoundSpec t r := by
  by_cases hhere : RoundInRange t
  · exact (round_total hhere).spec r h
  · rw [round_overflow hhere] at h
    cases h

/-- A file that `next` gives has as many bytes as its header says. -/
theorem next_file {fuel : ℕ} {t t' : TarEntries} {e : TarEntry} (h : next fuel t = .ok (some e, t')) :
    e.kind = .file → e.data.length = e.size := by
  induction fuel generalizing t with
  | zero => cases h
  | succ fuel ih =>
    obtain ⟨⟨r, t₁⟩, hround, h⟩ := bind_eq_ok.mp h
    cases r with
    | again => exact ih h
    | done => cases h
    | entry e =>
      cases h
      exact (round_spec hround).2.2

/-- What the iteration gives: the data of a file are as long as its header says. -/
def EntriesSpec (r : List TarEntry × Source) : Prop := ∀ e ∈ r.1, e.kind = .file → e.data.length = e.size

theorem entriesFrom_total {fuel : ℕ} {t : TarEntries} (hfuel : t.src.size < fuel) (h : AllInRange t) :
    Total (entriesFrom fuel t) EntriesSpec := by
  induction fuel generalizing t with
  | zero => omega
  | succ fuel ih =>
    refine Total.bind (next_total (Nat.lt_succ_self _) h) fun ⟨e, t'⟩ hspec => ?_
    cases e with
    | none => exact .ok fun e he => absurd he List.not_mem_nil
    | some e =>
      obtain ⟨hlt, hfile, hrest⟩ := hspec e rfl
      refine Total.bind (ih (lt_of_lt_of_le hlt (Nat.le_of_lt_succ hfuel)) hrest) fun ⟨es, src⟩ hes => ?_
      refine .ok fun e' he => ?_
      rcases List.mem_cons.mp he with rfl | he
      · exact hfile
      · exact hes e' he

theorem entriesFrom_overflow {fuel : ℕ} {t : TarEntries} (hfuel : t.src.size < fuel) (h : ¬ AllInRange t) :
    entriesFrom fuel t = .error (.fault .overflow) := by
  induction fuel generalizing t with
  | zero => omega
  | succ fuel ih =>
    rw [entriesFrom]
    rcases next_overflow (Nat.lt_succ_self _) h with heq | ⟨e, t', heq, hlt, hbad⟩
    · rw [heq]
      rfl
    · rw [heq, ok_bind]
      dsimp only
      rw [ih (by omega) hbad]
      rfl

/-- **The reader gives a list of entries or an error with a code for a stream exactly when no record of an extended header that it
comes to has a length that is out of range; what stops it otherwise is an overflow.** -/
theorem entries_exact_iff (src : Source) (maxEntryBytes : ℕ) :
    (((∃ es src', entries src maxEntryBytes = .ok (es, src')) ∨ ∃ e, entries src maxEntryBytes = .error (.error e)) ↔
        AllInRange (.new src maxEntryBytes)) ∧
      ∀ f, entries src maxEntryBytes = .error (.fault f) → f = .overflow := by
  by_cases h : AllInRange (.new src maxEntryBytes)
  · have htotal := entriesFrom_total (t := .new src maxEntryBytes) (Nat.lt_succ_self _) h
    refine ⟨iff_of_true ?_ h, fun f hf => absurd ⟨f, hf⟩ htotal.not_faults⟩
    cases hrun : entries src maxEntryBytes with
    | ok r => exact .inl ⟨r.1, r.2, rfl⟩
    | error stop =>
      cases stop with
      | fault f => exact absurd ⟨f, hrun⟩ htotal.not_faults
      | error e => exact .inr ⟨e, rfl⟩
  · have hstop : entries src maxEntryBytes = .error (.fault .overflow) := entriesFrom_overflow (Nat.lt_succ_self _) h
    rw [hstop]
    refine ⟨iff_of_false ?_ h, fun f hf => ?_⟩
    · rintro (⟨es, src', heq⟩ | ⟨e, heq⟩)
      · cases heq
      · cases heq
    · cases hf
      rfl

/-! ### An archive that stops the reader -/

/-- The octal digits of a number, of a width. -/
def octalDigits : ℕ → ℕ → Bytes
  | 0, _ => []
  | width + 1, n => octalDigits width (n / 8) ++ [UInt8.ofNat (0x30 + n % 8)]

/-- A header with a name of one byte, a size and a kind, and its checksum. -/
def plainHeader (name typeflag : UInt8) (size : ℕ) : Bytes :=
  let before := name :: List.replicate 123 0 ++ octalDigits 11 size ++ List.replicate 13 0
  let after := typeflag :: List.replicate 355 0
  let total := ((before ++ List.replicate 8 0x20 ++ after).map UInt8.toNat).sum
  before ++ octalDigits 6 total ++ [0, 0x20] ++ after

/-- An extended header with a record of six bytes, and a record whose length is the largest word. -/
def overlongData : Bytes := "6 a=b\n18446744073709551615 x=y\n".toList.map fun c => UInt8.ofNat c.toNat

/-- A source that has all its bytes at once. -/
def sourceOf : Bytes → Source
  | [] => ⟨[]⟩
  | b :: rest => ⟨[.bytes b rest]⟩

/-- The archive: the header, its data and the padding. -/
def overlongArchive : Bytes := plainHeader 0x70 0x78 overlongData.length ++ overlongData ++ List.replicate (512 - overlongData.length) 0

/-- **The reader is stopped by an overflow.** -/
theorem overlong_overflow : entries (sourceOf overlongArchive) (2 ^ 28) = .error (.fault .overflow) := by
  decide +kernel

end Milpa.Core.TarReader
