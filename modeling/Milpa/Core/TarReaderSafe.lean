import Milpa.Core.TarReader

/-!
# What the tar reader does with any stream

Every loop of the reader takes something from its source in each round, so each of them
ends; every range is in the header, whose length is fixed, or in a record; and a length in
a header has at most twelve octal digits, so sums and products with it are small. The one
place where a word can overflow is the length of a record of an extended header, which is
decimal and may be as large as a word: it is added to an offset before it is compared with
the length of the data (`entries_exact_iff`).
-/

namespace Milpa.Core.TarReader

open Machine Result SafeExtract

/-! ### Faults -/

/-- A computation stops where the program would. -/
def Faults {α : Type} (x : Except Stop α) : Prop := ∃ f, x = .error (.fault f)

section Faults

variable {α β : Type}

@[simp] theorem not_faults_ok (a : α) : ¬ Faults (.ok a : Except Stop α) := by
  rintro ⟨f, h⟩
  cases h

@[simp] theorem not_faults_pure (a : α) : ¬ Faults (pure a : Except Stop α) := not_faults_ok a

@[simp] theorem not_faults_error (e : TarError) : ¬ Faults (.error (.error e) : Except Stop α) := by
  rintro ⟨f, h⟩
  cases h

@[simp] theorem not_faults_throw (e : TarError) : ¬ Faults (throw (.error e) : Except Stop α) := not_faults_error e

theorem faults_bind {x : Except Stop α} {f : α → Except Stop β} : Faults (x >>= f) ↔ Faults x ∨ ∃ a, x = .ok a ∧ Faults (f a) := by
  cases x with
  | error e => simp [Faults, bind, Except.bind]
  | ok a => simp [Faults, bind, Except.bind]

/-- The rule for a sequence: neither part stops. -/
theorem not_faults_bind {x : Except Stop α} {f : α → Except Stop β} (hx : ¬ Faults x) (hf : ∀ a, x = .ok a → ¬ Faults (f a)) :
    ¬ Faults (x >>= f) := by
  rw [faults_bind]
  rintro (h | ⟨a, ha, h⟩)
  · exact hx h
  · exact hf a ha h

/-- A computation on words that has a result. -/
theorem not_faults_machine {x : Except Fault α} {a : α} (h : x = .ok a) : ¬ Faults (machine x) := by
  rw [h]
  exact not_faults_ok a

theorem machine_eq_ok {x : Except Fault α} {a : α} : machine x = .ok a ↔ x = .ok a := mapError_eq_ok

theorem faults_machine {x : Except Fault α} : Faults (machine x) ↔ ∃ f, x = .error f := by
  cases x with
  | error f => simp [Faults, machine, Except.mapError]
  | ok a => simp [Faults, machine, Except.mapError]

end Faults

/-! ### Sources -/

theorem sum_size_answerOf (bytes : Bytes) : ((answerOf bytes).map Answer.size).sum = bytes.length := by
  cases bytes with
  | nil => rfl
  | cons b rest => simp [answerOf, Answer.size]

theorem size_mk (answers : List Answer) : (Source.mk answers).size = (answers.map Answer.size).sum := rfl

/-- What a read gives is taken from the source; nothing is given at the end only. -/
theorem read_ok {src src' : Source} {n : ℕ} {bytes : Bytes} (hn : 0 < n) (h : src.read n = (.ok bytes, src')) :
    bytes.length ≤ n ∧ src'.size + bytes.length = src.size ∧ (bytes = [] → src.answers = [] ∧ src' = src) := by
  obtain ⟨answers⟩ := src
  cases answers with
  | nil =>
    cases h
    exact ⟨Nat.zero_le _, rfl, fun _ => ⟨rfl, rfl⟩⟩
  | cons a rest =>
    cases a with
    | failed e => cases h
    | bytes b more =>
      cases h
      refine ⟨List.length_take_le _ _, ?_, fun hnil => ?_⟩
      · rw [size_mk, size_mk, List.map_append, List.sum_append, sum_size_answerOf, List.length_take, List.length_drop,
          List.map_cons, List.sum_cons, Answer.size, List.length_cons]
        omega
      · rcases List.take_eq_nil_iff.mp hnil with h | h
        · omega
        · cases h

/-- An error is taken from the source too. -/
theorem read_error {src src' : Source} {n : ℕ} {e : IoError} (h : src.read n = (.error e, src')) : src'.size + 1 = src.size := by
  obtain ⟨answers⟩ := src
  cases answers with
  | nil => cases h
  | cons a rest =>
    cases a with
    | bytes b more => cases h
    | failed e =>
      cases h
      rw [size_mk, size_mk, List.map_cons, List.sum_cons, Answer.size]
      omega

/-- What a computation gives, where it neither stops nor reports an error. -/
structure Total {α : Type} (x : Except Stop α) (P : α → Prop) : Prop where
  not_faults : ¬ Faults x
  spec : ∀ a, x = .ok a → P a

theorem Total.error {α : Type} {P : α → Prop} (e : TarError) : Total (.error (.error e)) P :=
  ⟨not_faults_error e, fun _ h => nomatch h⟩

theorem Total.ok {α : Type} {P : α → Prop} {a : α} (h : P a) : Total (.ok a) P :=
  ⟨not_faults_ok a, fun _ ha => Except.ok.inj ha ▸ h⟩

theorem Total.bind {α β : Type} {P : α → Prop} {Q : β → Prop} {x : Except Stop α} {f : α → Except Stop β} (hx : Total x P)
    (hf : ∀ a, P a → Total (f a) Q) : Total (x >>= f) Q := by
  refine ⟨not_faults_bind hx.not_faults fun a ha => (hf a (hx.spec a ha)).not_faults, fun b hb => ?_⟩
  obtain ⟨a, ha, hb⟩ := bind_eq_ok.mp hb
  exact (hf a (hx.spec a ha)).spec b hb

theorem Total.machine {α : Type} {P : α → Prop} {x : Except Fault α} {a : α} (h : x = .ok a) (ha : P a) : Total (machine x) P := by
  rw [h]
  exact .ok ha

theorem Total.mono {α : Type} {P Q : α → Prop} {x : Except Stop α} (h : Total x P) (hPQ : ∀ a, P a → Q a) : Total x Q :=
  ⟨h.not_faults, fun a ha => hPQ a (h.spec a ha)⟩

/-! ### The loops over the source -/

theorem fillHeader_total {fuel : ℕ} {header : Bytes} {src : Source} (hfuel : src.size < fuel) (hlength : header.length ≤ 512) :
    Total (fillHeader fuel header src) fun r => r.1.length ≤ 512 ∧ r.2.size + r.1.length = src.size + header.length := by
  induction fuel generalizing header src with
  | zero => omega
  | succ fuel ih =>
    rw [fillHeader]
    split_ifs with hshort
    · split
      · rename_i src' hread
        obtain ⟨-, hsize, -⟩ := read_ok (by omega) hread
        exact .ok ⟨hlength, by simpa using congrArg (· + header.length) hsize⟩
      · rename_i bytes src' hne hread
        obtain ⟨hle, hsize, -⟩ := read_ok (by omega) hread
        have hpos : 0 < bytes.length := List.length_pos_iff.mpr fun h => hne h
        refine Total.bind (P := fun _ => True) (.machine (add_of_lt (by omega)) trivial) fun _ _ => ?_
        have hsum : (header ++ bytes).length = header.length + bytes.length := List.length_append
        refine (ih (by omega) (by omega)).mono fun r hr => ⟨hr.1, by omega⟩
      · exact .error _
    · exact .ok ⟨hlength, rfl⟩

theorem readHeader_total (src : Source) :
    Total (readHeader src) fun r => r.2.size ≤ src.size ∧ ∀ header, r.1 = some header → header.length = 512 ∧ r.2.size + 512 = src.size := by
  refine Total.bind (fillHeader_total (Nat.lt_succ_self _) (Nat.zero_le _)) fun ⟨header, src'⟩ ⟨hle, hsize⟩ => ?_
  dsimp only at hle hsize ⊢
  rw [List.length_nil] at hsize
  split_ifs with hshort hzero
  · exact .ok ⟨by dsimp only; omega, nofun⟩
  · exact .ok ⟨by dsimp only; omega, nofun⟩
  · refine .ok ⟨by dsimp only; omega, fun header' heq => ?_⟩
    obtain rfl := Option.some.inj heq
    exact ⟨by omega, by dsimp only; omega⟩

theorem readExactLoop_total {name : Text} {n fuel : ℕ} {buf : Bytes} {src : Source} (hfuel : src.size < fuel) (hlength : buf.length ≤ n) :
    Total (readExactLoop name n fuel buf src) fun r => r.1.length = n ∧ r.2.size ≤ src.size := by
  induction fuel generalizing buf src with
  | zero => omega
  | succ fuel ih =>
    rw [readExactLoop]
    split_ifs with hshort
    · split
      · exact .error _
      · rename_i bytes src' hne hread
        obtain ⟨hle, hsize, -⟩ := read_ok (by omega) hread
        have hpos : 0 < bytes.length := List.length_pos_iff.mpr fun h => hne h
        have hsum : (buf ++ bytes).length = buf.length + bytes.length := List.length_append
        exact (ih (by omega) (by omega)).mono fun r hr => ⟨hr.1, by omega⟩
      · rename_i src' hread
        have := read_error hread
        exact (ih (by omega) hlength).mono fun r hr => ⟨hr.1, by omega⟩
      · exact .error _
      · exact .error _
    · exact .ok ⟨by dsimp only; omega, le_rfl⟩

theorem readEntryData_total {cap n : ℕ} {name : Text} {src : Source} (hn : n < 2 ^ 63) :
    Total (readEntryData cap n name src) fun r => r.1.length = n ∧ r.2.size ≤ src.size := by
  rw [readEntryData, if_neg (Nat.not_le.mpr hn)]
  split_ifs
  · exact .error _
  · exact readExactLoop_total (Nat.lt_succ_self _) (Nat.zero_le _)

theorem skipLoop_total {name : Text} {fuel n : ℕ} {src : Source} (hfuel : src.size < fuel) :
    Total (skipLoop name fuel n src) fun src' => src'.size ≤ src.size := by
  induction fuel generalizing n src with
  | zero => omega
  | succ fuel ih =>
    rw [skipLoop]
    split_ifs with hpos hlarge
    all_goals first
      | exact .ok le_rfl
      | split
        · exact .error _
        · rename_i bytes src' hne hread
          obtain ⟨hle, hsize, -⟩ := read_ok (by omega) hread
          have hne : 0 < bytes.length := List.length_pos_iff.mpr fun h => hne h
          refine Total.bind (P := fun _ => True) (.machine (sub_of_le (by omega)) trivial) fun _ _ => ?_
          exact (ih (by omega)).mono fun r hr => by omega
        · exact .error _

theorem skipExact_total (n : ℕ) (name : Text) (src : Source) : Total (skipExact n name src) fun src' => src'.size ≤ src.size :=
  skipLoop_total (Nat.lt_succ_self _)

theorem drainLoop_total {fuel : ℕ} {src : Source} (hfuel : src.size < fuel) : Total (drainLoop fuel src) fun src' => src'.answers = [] := by
  induction fuel generalizing src with
  | zero => omega
  | succ fuel ih =>
    rw [drainLoop]
    split
    · rename_i src' hread
      obtain ⟨-, -, hend⟩ := read_ok (by decide) hread
      obtain ⟨hnil, rfl⟩ := hend rfl
      exact .ok hnil
    · rename_i bytes src' hne hread
      obtain ⟨-, hsize, -⟩ := read_ok (by decide) hread
      have hpos : 0 < bytes.length := List.length_pos_iff.mpr fun h => hne h
      exact ih (by omega)
    · exact .error _

/-- The rest of a source is read to its end. -/
theorem drainToEof_total (src : Source) : Total (drainToEof src) fun src' => src'.answers = [] := drainLoop_total (Nat.lt_succ_self _)

/-! ### Numbers -/

theorem foldlM_digits_lt {radix : ℕ} {digits : Bytes} {n v : ℕ}
    (h : digits.foldlM (fun n b => (digitValue radix b).map (n * radix + ·)) n = some v) : v < (n + 1) * radix ^ digits.length := by
  induction digits generalizing n with
  | nil =>
    cases h
    simp
  | cons b digits ih =>
    rw [List.foldlM_cons] at h
    obtain ⟨m, hm, h⟩ := Option.bind_eq_some_iff.mp h
    obtain ⟨d, hd, rfl⟩ := Option.map_eq_some_iff.mp hm
    have hdigit : d < radix := by
      rw [digitValue] at hd
      split_ifs at hd with hrange
      cases hd
      omega
    calc v < (n * radix + d + 1) * radix ^ digits.length := ih h
      _ ≤ (n + 1) * radix * radix ^ digits.length := Nat.mul_le_mul_right _ (by rw [Nat.add_mul, Nat.one_mul]; omega)
      _ = (n + 1) * radix ^ (b :: digits).length := by rw [List.length_cons, Nat.pow_succ, Nat.mul_assoc, Nat.mul_comm radix]

theorem parseUnsigned_lt {radix v : ℕ} {s : Bytes} (hradix : 0 < radix) (h : parseUnsigned radix s = some v) : v < radix ^ s.length := by
  rw [parseUnsigned] at h
  split_ifs at h with hplus hnil hnil
  · have hlt := foldlM_digits_lt (Option.filter_eq_some_iff.mp h).1
    rw [Nat.zero_add, Nat.one_mul, List.length_tail] at hlt
    exact hlt.trans_le (Nat.pow_le_pow_right hradix (Nat.sub_le _ _))
  · have hlt := foldlM_digits_lt (Option.filter_eq_some_iff.mp h).1
    rwa [Nat.zero_add, Nat.one_mul] at hlt

theorem parseUnsigned_lt_word {radix v : ℕ} {s : Bytes} (h : parseUnsigned radix s = some v) : v < 2 ^ 64 := by
  rw [parseUnsigned] at h
  split_ifs at h
  all_goals exact of_decide_eq_true (Option.filter_eq_some_iff.mp h).2

theorem octal_lt {field : Bytes} {v : ℕ} (h : octal field = some v) : v < 8 ^ field.length := by
  rw [octal] at h
  split_ifs at h with hnil
  · cases h
    exact Nat.pow_pos (by decide)
  · exact (parseUnsigned_lt (by decide) h).trans_le (Nat.pow_le_pow_right (by decide) (List.length_filter_le _ _))

/-! ### Headers -/

theorem length_checkedBytes {header : Bytes} (h : header.length = 512) : (checkedBytes header).length = 512 := by
  simp [checkedBytes, h]

theorem sum_toNat_le (l : Bytes) : (l.map UInt8.toNat).sum ≤ l.length * 255 := by
  refine (List.sum_le_card_nsmul _ 255 fun n hn => ?_).trans_eq (by simp)
  obtain ⟨b, -, rfl⟩ := List.mem_map.mp hn
  exact Nat.le_of_lt_succ b.toNat_lt

theorem headerChecksumValid_ok {header : Bytes} (h : header.length = 512) : ∃ valid, headerChecksumValid header = .ok valid := by
  have hlength := length_checkedBytes h
  have hunsigned : ((checkedBytes header).map UInt8.toNat).sum < 2 ^ 64 := by
    have := sum_toNat_le (checkedBytes header)
    rw [hlength] at this
    omega
  have hsigned : sumSigned 64 ((checkedBytes header).map signedByte) = .ok (0 + ((checkedBytes header).map signedByte).sum) := by
    refine foldlM_addSigned_of_le (m := 256) (fun n hn => ?_) (by rw [List.length_map, hlength]; decide)
    obtain ⟨b, -, rfl⟩ := List.mem_map.mp hn
    have := b.toNat_lt
    rw [signedByte, abs_le]
    split_ifs
    · omega
    · omega
  rw [headerChecksumValid, slice_of_le (by decide) (by omega), ok_bind]
  split
  · exact ⟨_, rfl⟩
  · rw [sum_of_lt hunsigned, ok_bind, hsigned]
    split_ifs
    · exact ⟨_, rfl⟩
    · exact ⟨_, rfl⟩

theorem readHead_total (src : Source) :
    Total (readHead src) fun r => r.2.size ≤ src.size ∧
      ∀ head, r.1 = some head → head.header.length = 512 ∧ head.size < 2 ^ 36 ∧ r.2.size < src.size := by
  refine Total.bind (readHeader_total src) fun ⟨header, src'⟩ ⟨hle, hheader⟩ => ?_
  dsimp only at hle hheader ⊢
  cases header with
  | none => exact .ok ⟨hle, nofun⟩
  | some header =>
    obtain ⟨hlength, hsize⟩ := hheader header rfl
    obtain ⟨valid, hvalid⟩ := headerChecksumValid_ok hlength
    dsimp only
    refine Total.bind (P := fun _ => True) (.machine (slice_of_le (by decide) (by omega)) trivial) fun nameField _ => ?_
    refine Total.bind (P := fun _ => True) (.machine hvalid trivial) fun valid _ => ?_
    split_ifs
    · exact .error _
    refine Total.bind (P := fun field => field.length ≤ 12) (.machine (slice_of_le (by decide) (by omega)) ?_) fun field hfield => ?_
    · rw [List.length_drop, List.length_take]
      omega
    split
    · exact .error _
    · rename_i size hoctal
      have hsmall : size < 2 ^ 36 := (octal_lt hoctal).trans_le ((Nat.pow_le_pow_right (by decide) hfield).trans_eq (by decide))
      have hpadded : size ≤ (size + 511) / 512 * 512 := by omega
      refine Total.bind (P := fun _ => True) (.machine (index_of_lt (by omega)) trivial) fun typeflag _ => ?_
      refine Total.bind (P := fun padded => padded = (size + 511) / 512 * 512) (.machine (mul_of_lt (by omega)) rfl) fun padded hp => ?_
      refine Total.bind (P := fun _ => True) (.machine (sub_of_le (by omega)) trivial) fun padding _ => ?_
      refine .ok ⟨hle, fun head heq => ?_⟩
      obtain rfl := Option.some.inj heq
      exact ⟨hlength, hsmall, by dsimp only; omega⟩

theorem readControl_total {cap : ℕ} {head : Head} {src : Source} (hsmall : head.size < 2 ^ 36) :
    Total (readControl cap head src) fun r => r.1.length = head.size ∧ r.2.size ≤ src.size := by
  refine Total.bind (readEntryData_total (by omega)) fun ⟨data, src'⟩ ⟨hdata, hle⟩ => ?_
  refine Total.bind (skipExact_total _ _ _) fun src'' hle' => ?_
  exact .ok ⟨hdata, le_trans hle' hle⟩

theorem entryName_total {t : TarEntries} {head : Head} (hlength : head.header.length = 512) : Total (entryName t head) fun _ => True := by
  rw [entryName]
  split
  · exact .ok trivial
  · exact .ok trivial
  · refine Total.bind (P := fun _ => True) (.machine (slice_of_le (by decide) (by omega)) trivial) fun nameField _ => ?_
    split
    · exact .error _
    split_ifs
    · exact .error _
    refine Total.bind (P := fun _ => True) (.machine (slice_of_le (by decide) (by omega)) trivial) fun prefixField _ => ?_
    dsimp only
    split_ifs
    · exact .ok trivial
    · exact .ok trivial

theorem entryLinkname_total {t : TarEntries} {head : Head} (hlength : head.header.length = 512) :
    Total (entryLinkname t head) fun _ => True := by
  rw [entryLinkname]
  split
  · exact .ok trivial
  · exact .ok trivial
  · refine Total.bind (P := fun _ => True) (.machine (slice_of_le (by decide) (by omega)) trivial) fun linkField _ => ?_
    exact .ok trivial

theorem entryData_total {cap : ℕ} {kind : EntryKind} {head : Head} {src : Source} (hsmall : head.size < 2 ^ 36) :
    Total (entryData cap kind head src) fun r => (kind = .file → r.1.length = head.size) ∧ r.2.size ≤ src.size := by
  rw [entryData]
  split_ifs with hfile
  · exact (readEntryData_total (by omega)).mono fun r hr => ⟨fun _ => hr.1, hr.2⟩
  · refine Total.bind (skipExact_total _ _ _) fun src' hle => ?_
    exact .ok ⟨fun h => absurd h hfile, hle⟩

/-- A file that is read has as many bytes as its header says. -/
theorem readEntry_total {t : TarEntries} {head : Head} (hlength : head.header.length = 512) (hsmall : head.size < 2 ^ 36) :
    Total (readEntry t head) fun r => (r.1.kind = .file → r.1.data.length = r.1.size) ∧ r.2.src.size ≤ t.src.size ∧
      r.2.maxEntryBytes = t.maxEntryBytes := by
  refine Total.bind (entryName_total hlength) fun name _ => ?_
  refine Total.bind (entryLinkname_total hlength) fun linkname _ => ?_
  refine Total.bind (P := fun _ => True) (.machine (slice_of_le (by decide) (by omega)) trivial) fun modeField _ => ?_
  refine Total.bind (entryData_total hsmall) fun ⟨data, src'⟩ ⟨hdata, hle⟩ => ?_
  refine Total.bind (skipExact_total _ _ _) fun src'' hle' => ?_
  exact .ok ⟨hdata, le_trans hle' hle, rfl⟩

end Milpa.Core.TarReader
