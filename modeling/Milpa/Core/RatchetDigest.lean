import Milpa.Core.GateHistory
import Milpa.Core.IndexExtraction
import Milpa.Core.IndexTrust
import Milpa.Types.Delimited

/-!
# What the digest of the violations says

The digest hashes a line for each violation, with tabs between the fields. No text that the
parser accepts into an entry has a tab or a newline in it, so the lines say which violations
there are, and two states with one digest violate the baseline in the same way
(`canonicalDigest_exact`).
-/

namespace Milpa.Core

open Milpa.Kdl

/-! ### Text without tabs and newlines -/

/-- None of the characters that the digest separates by. -/
def Flat (s : Str) : Prop := '\t' ∉ s ∧ '\n' ∉ s

theorem flat_of_all {p : Char → Prop} {s : Str} (h : ∀ c ∈ s, p c) (htab : ¬ p '\t') (hnewline : ¬ p '\n') : Flat s :=
  ⟨fun hc => htab (h _ hc), fun hc => hnewline (h _ hc)⟩

theorem flat_nil : Flat [] := ⟨List.not_mem_nil, List.not_mem_nil⟩

theorem flat_append {s t : Str} (hs : Flat s) (ht : Flat t) : Flat (s ++ t) :=
  ⟨fun h => (List.mem_append.mp h).elim hs.1 ht.1, fun h => (List.mem_append.mp h).elim hs.2 ht.2⟩

theorem flat_intercalate {sep : Str} (hsep : Flat sep) {parts : List Str} (h : ∀ p ∈ parts, Flat p) :
    Flat (sep.intercalate parts) := by
  refine ⟨fun hc => ?_, fun hc => ?_⟩
  · rcases Str.mem_of_mem_intercalate hc with hc | ⟨p, hp, hc⟩
    · exact hsep.1 hc
    · exact (h p hp).1 hc
  · rcases Str.mem_of_mem_intercalate hc with hc | ⟨p, hp, hc⟩
    · exact hsep.2 hc
    · exact (h p hp).2 hc

theorem flat_getD {o : Option Str} (h : ∀ s ∈ o, Flat s) : Flat (o.getD []) := by
  cases o with
  | none => exact flat_nil
  | some s => exact h s rfl

theorem flat_of_validateNoControlChars {s field : Str} {r : Unit} (h : validateNoControlChars s field = .ok r) : Flat s := by
  have hall : ∀ c ∈ s, ¬ (c.toNat ≤ 0x1F ∨ c.toNat = 0x7F) := by
    simpa [hasControlChar, not_or] using rejectIf_eq_ok.mp h
  exact flat_of_all hall (by decide) (by decide)

theorem flat_of_isLowerHexOf {s : Str} {len : ℕ} (h : isLowerHexOf s len = true) : Flat s := by
  rw [isLowerHexOf, Bool.and_eq_true] at h
  exact flat_of_all (List.all_eq_true.mp h.2) (by decide) (by decide)

theorem flat_of_isSha256Pointer {s : Str} (h : isSha256Pointer s = true) : Flat s := by
  unfold isSha256Pointer at h
  cases hs : s.stripPrefix "sha256:" with
  | none =>
    rw [hs] at h
    exact absurd h (by simp)
  | some hex =>
    rw [hs] at h
    rw [Str.stripPrefix_eq_some.mp hs]
    exact flat_append ⟨by decide, by decide⟩ (flat_of_isLowerHexOf h)

theorem flat_of_validateOpt {check : Str → Except TngError Unit} (hcheck : ∀ s r, check s = .ok r → Flat s) {o : Option Str}
    {r : Unit} (h : validateOpt check o = .ok r) : ∀ s ∈ o, Flat s := by
  rintro s rfl
  exact hcheck s r h

theorem flat_ofNat (n : ℕ) : Flat (Str.ofNat n) :=
  flat_of_all (fun _ hc => Str.isDigit_of_mem_ofNat hc) (by decide) (by decide)

/-! ### Times -/

/-- The characters of a time that is read. -/
def isTimeChar (c : Char) : Bool := c.isDigit || decide (c ∈ ("-Tt :.,Zz+".toList : Str))

/-- Up to a position every character is one of a time. -/
def ReadTo (raw : Str) (n : ℕ) : Prop := ∀ i, i < n → ∀ c, raw[i]? = some c → isTimeChar c = true

theorem ReadTo.succ {raw : Str} {n : ℕ} (h : ReadTo raw n) {c : Char} (hc : raw[n]? = some c) (htime : isTimeChar c = true) :
    ReadTo raw (n + 1) := by
  intro i hi d hd
  rcases Nat.lt_succ_iff_lt_or_eq.mp hi with hi | rfl
  · exact h i hi d hd
  · obtain rfl := Option.some.inj (hc.symm.trans hd)
    exact htime

theorem ReadTo.digit {raw : Str} {n : ℕ} (h : ReadTo raw n) {k : ℤ} (hk : Timestamp.digitAt raw n = some k) :
    ReadTo raw (n + 1) := by
  obtain ⟨c, hc, -⟩ := Option.map_eq_some_iff.mp hk
  obtain ⟨hc, hdigit⟩ := Option.filter_eq_some_iff.mp hc
  exact h.succ hc (by rw [isTimeChar, hdigit, Bool.true_or])

theorem ReadTo.two {raw : Str} {n : ℕ} (h : ReadTo raw n) {k : ℤ} (hk : Timestamp.twoAt raw n = some k) :
    ReadTo raw (n + 2) := by
  obtain ⟨a, ha, hk⟩ := Option.bind_eq_some_iff.mp hk
  obtain ⟨b, hb, -⟩ := Option.bind_eq_some_iff.mp hk
  exact (h.digit ha).digit hb

theorem ReadTo.four {raw : Str} {n : ℕ} (h : ReadTo raw n) {k : ℤ} (hk : Timestamp.fourAt raw n = some k) :
    ReadTo raw (n + 4) := by
  obtain ⟨a, ha, hk⟩ := Option.bind_eq_some_iff.mp hk
  obtain ⟨b, hb, hk⟩ := Option.bind_eq_some_iff.mp hk
  obtain ⟨c, hc, hk⟩ := Option.bind_eq_some_iff.mp hk
  obtain ⟨d, hd, -⟩ := Option.bind_eq_some_iff.mp hk
  exact (((h.digit ha).digit hb).digit hc).digit hd

theorem ReadTo.fraction {raw : Str} (h : ReadTo raw 19) {nanos idx : ℕ}
    (hfrac : Timestamp.parseFraction raw = some (nanos, idx)) : ReadTo raw idx := by
  unfold Timestamp.parseFraction at hfrac
  dsimp only at hfrac
  split_ifs at hfrac with hpoint
  · obtain ⟨_, -, hidx⟩ := Option.map_eq_some_iff.mp hfrac
    obtain rfl := (Prod.mk.inj hidx).2
    have hpointed : ReadTo raw 20 := hpoint.elim (fun hc => h.succ hc (by decide)) fun hc => h.succ hc (by decide)
    intro i hi c hc
    rcases Nat.lt_or_ge i 20 with hlt | hge
    · exact hpointed i hlt c hc
    · -- a digit of the fraction
      have hmem : c ∈ (raw.drop 20).takeWhile Char.isDigit := by
        obtain ⟨j, rfl⟩ := Nat.exists_eq_add_of_le hge
        have hj : j < ((raw.drop 20).takeWhile Char.isDigit).length := by omega
        have hsplit : (raw.drop 20).takeWhile Char.isDigit ++ (raw.drop 20).dropWhile Char.isDigit = raw.drop 20 :=
          List.takeWhile_append_dropWhile
        rw [← List.getElem?_drop, ← hsplit, List.getElem?_append_left hj] at hc
        exact List.mem_of_getElem? hc
      rw [isTimeChar, List.mem_takeWhile_imp hmem, Bool.true_or]
  · obtain ⟨-, rfl⟩ := Prod.mk.inj (Option.some.inj hfrac)
    exact h

theorem ReadTo.offset {raw : Str} {idx idx' : ℕ} (h : ReadTo raw idx) {offset : ℤ}
    (hoffset : Timestamp.parseOffset raw idx = some (offset, idx')) : ReadTo raw idx' := by
  unfold Timestamp.parseOffset at hoffset
  split at hoffset
  · obtain ⟨-, rfl⟩ := Prod.mk.inj (Option.some.inj hoffset)
    exact h
  · next c hc =>
    by_cases hutc : c = 'Z' ∨ c = 'z'
    · rw [if_pos hutc] at hoffset
      obtain ⟨-, rfl⟩ := Prod.mk.inj (Option.some.inj hoffset)
      exact h.succ hc (by rcases hutc with rfl | rfl <;> decide)
    · rw [if_neg hutc] at hoffset
      by_cases hsign : c = '+' ∨ c = '-'
      · rw [if_pos hsign] at hoffset
        simp only [Option.bind_eq_bind, Option.bind_eq_some_iff, Option.pure_def, Option.some.injEq,
          Option.guard_eq_some', Prod.mk.injEq] at hoffset
        obtain ⟨oh, hoh, -, hcolon, om, hom, -, -, -, rfl⟩ := hoffset
        have hsigned := h.succ hc (by rcases hsign with rfl | rfl <;> decide)
        exact ((hsigned.two hoh).succ hcolon (by decide)).two hom
      · rw [if_neg hsign] at hoffset
        simp at hoffset

theorem flat_of_parseIso8601Timestamp {raw : Str} {ts : Timestamp} (h : Timestamp.parseIso8601Timestamp raw = some ts) :
    Flat raw := by
  simp only [Timestamp.parseIso8601Timestamp, Option.bind_eq_bind, Option.bind_eq_some_iff, Option.pure_def,
    Option.some.injEq, Option.guard_eq_some'] at h
  obtain ⟨-, -, year, hyear, -, hdash, month, hmonth, -, hdash', day, hday, -, ht, hour, hhour, -, hcolon, minute, hminute, -,
    hcolon', second, hsecond, -, -, ⟨nanos, idx⟩, hfrac, ⟨offset, idx'⟩, hoffset, -, hlen, -⟩ := h
  have hzero : ReadTo raw 0 := fun i hi => absurd hi (Nat.not_lt_zero i)
  have hdate := ((((hzero.four hyear).succ hdash (by decide)).two hmonth).succ hdash' (by decide)).two hday
  have htime : ReadTo raw 11 := by
    rcases ht with ht | ht | ht
    · exact hdate.succ ht (by decide)
    · exact hdate.succ ht (by decide)
    · exact hdate.succ ht (by decide)
  have hclock := (((htime.two hhour).succ hcolon (by decide)).two hminute).succ hcolon' (by decide)
  have hall := ((hclock.two hsecond).fraction hfrac).offset hoffset
  refine flat_of_all (p := fun c => isTimeChar c = true) (fun c hc => ?_) (by decide) (by decide)
  obtain ⟨i, hi⟩ := List.mem_iff_getElem?.mp hc
  have hlen : idx' = raw.length := hlen
  exact hall i (hlen ▸ (List.getElem?_eq_some_iff.mp hi).1) c hi

/-! ### Entries -/

/-- The texts of all fields of an entry are flat. -/
def FlatEntry (e : RatchetEntry) : Prop := ∀ f, Flat (e.get f).rawStr

@[simp] theorem rawStr_absent : RawField.absent.rawStr = [] := rfl

@[simp] theorem rawStr_withRaw (v : FieldValue) (raw : Str) : (RawField.withRaw v raw).rawStr = raw := rfl

theorem flat_new {v : FieldValue} {text : Str} (h : v.scalarText = some text) (hv : v.scalarText.isSome = true)
    (hflat : Flat text) : Flat (RawField.new v hv).rawStr := by
  have htext : (RawField.new v hv).rawStr = text := by simp [RawField.rawStr, RawField.new, h]
  exact htext ▸ hflat

theorem flat_new_int (i : ℤ) (hv : (FieldValue.int i).scalarText.isSome = true) : Flat (RawField.new (.int i) hv).rawStr := by
  refine flat_new rfl hv ?_
  split_ifs
  · exact flat_append (s := ['-']) ⟨by decide, by decide⟩ (flat_ofNat _)
  · exact flat_ofNat _

theorem flat_new_bool (b : Bool) (hv : (FieldValue.bool b).scalarText.isSome = true) : Flat (RawField.new (.bool b) hv).rawStr := by
  refine flat_new rfl hv ?_
  cases b <;> exact ⟨by decide, by decide⟩

theorem flatEntry_new : FlatEntry .new := fun _ => flat_nil

theorem FlatEntry.set {e : RatchetEntry} (h : FlatEntry e) (name : Str) {field : RawField} (hfield : Flat field.rawStr) :
    FlatEntry (e.set name field) := by
  intro f
  unfold RatchetEntry.set RatchetEntry.get
  dsimp only
  split_ifs
  · exact hfield
  · exact h f

theorem FlatEntry.setOpt {e : RatchetEntry} (h : FlatEntry e) (name : Str) {field : Option RawField}
    (hfield : ∀ f ∈ field, Flat f.rawStr) : FlatEntry (e.setOpt name field) := by
  cases field with
  | none => exact h
  | some field => exact h.set name (hfield field rfl)

theorem FlatEntry.lockstepRaw {e : RatchetEntry} (h : FlatEntry e) (group : List Str) : Flat (lockstepRaw e group) := by
  refine flat_intercalate ⟨by decide, by decide⟩ fun p hp => ?_
  obtain ⟨f, -, rfl⟩ := List.mem_map.mp hp
  exact h f

/-- What an attestation says is flat. -/
structure FlatAttestation (att : EntryAttestation) : Prop where
  canonical : Flat (attestationCanonicalRaw att)
  rekor : ∀ r ∈ att.rekor, Flat (rekorCanonicalRaw r)

/-- What the parser accepts for a version is flat, where the state of the index says it. -/
structure FlatVersion (iv : IndexVersion) : Prop where
  version : Flat iv.version
  «namespace» : Flat iv.namespace
  contentHash : Flat iv.contentHash
  publishedAt : iv.publishedAt ≠ none → Flat (iv.publishedAtRaw.getD [])
  depDecl : ∀ d ∈ iv.depDecl, Flat d
  provenances : ∀ p ∈ iv.provenances, Flat (provenanceRaw p)
  yankedReason : ∀ r ∈ iv.yankedReason, Flat r
  attestation : ∀ att ∈ iv.attestation, FlatAttestation att

theorem FlatVersion.flatEntry {iv : IndexVersion} (h : FlatVersion iv) : FlatEntry (versionEntry iv) := by
  unfold versionEntry
  dsimp only
  refine FlatEntry.setOpt (FlatEntry.setOpt (FlatEntry.setOpt (FlatEntry.set (FlatEntry.setOpt (FlatEntry.setOpt
    (FlatEntry.setOpt (FlatEntry.setOpt (FlatEntry.setOpt flatEntry_new _ ?hash) _ ?published) _ ?decl) _ ?schema) _
    ?provenances) _ ?yanked) _ ?reason) _ ?attestation) _ ?rekor
  case hash =>
    intro f hf
    split_ifs at hf
    · simp at hf
    · obtain rfl := Option.some.inj hf
      exact flat_new rfl _ h.contentHash
  case published =>
    intro f hf
    obtain ⟨ts, hts, rfl⟩ := Option.map_eq_some_iff.mp hf
    exact h.publishedAt (by rw [hts]; exact Option.some_ne_none ts)
  case decl =>
    intro f hf
    obtain ⟨d, hd, rfl⟩ := Option.map_eq_some_iff.mp hf
    exact flat_new rfl _ (h.depDecl d hd)
  case schema =>
    intro f hf
    obtain ⟨v, -, rfl⟩ := Option.map_eq_some_iff.mp hf
    exact flat_new_int v _
  case provenances =>
    intro f hf
    split_ifs at hf
    · simp at hf
    · obtain rfl := Option.some.inj hf
      refine flat_intercalate ⟨by decide, by decide⟩ fun raw hraw => ?_
      obtain ⟨p, hp, rfl⟩ := List.mem_map.mp (mem_sortByKey.mp hraw)
      exact h.provenances p hp
  case yanked => exact flat_new_bool iv.yanked _
  case reason =>
    intro f hf
    obtain ⟨r, hr, rfl⟩ := Option.map_eq_some_iff.mp hf
    exact flat_new rfl _ (h.yankedReason r hr)
  case attestation =>
    intro f hf
    obtain ⟨att, hatt, rfl⟩ := Option.map_eq_some_iff.mp hf
    exact (h.attestation att hatt).canonical
  case rekor =>
    intro f hf
    obtain ⟨r, hr, rfl⟩ := Option.map_eq_some_iff.mp hf
    obtain ⟨att, hatt, hr⟩ := Option.bind_eq_some_iff.mp hr
    exact (h.attestation att hatt).rekor r hr

/-! ### Parsing -/

theorem flat_of_parseRekorBlock {node : KdlNode} {rekor : Option RekorRef} (h : parseRekorBlock node = .ok rekor) :
    ∀ r ∈ rekor, Flat (rekorCanonicalRaw r) := by
  unfold parseRekorBlock at h
  split at h
  · obtain rfl := Except.ok.inj h
    nofun
  · obtain ⟨_, huuid, h⟩ := Result.bind_eq_ok.mp h
    obtain ⟨_, hindex, h⟩ := Result.bind_eq_ok.mp h
    obtain ⟨_, htime, h⟩ := Result.bind_eq_ok.mp h
    obtain rfl := Result.pure_eq_ok.mp h
    rintro r ⟨rfl⟩
    refine flat_intercalate ⟨by decide, by decide⟩ ?_
    simp only [List.forall_mem_cons, List.not_mem_nil, false_implies, implies_true, and_true]
    exact ⟨flat_of_validateNoControlChars huuid, flat_of_validateNoControlChars hindex, flat_of_validateNoControlChars htime⟩

theorem flat_of_parseBundlePin {node : KdlNode} {coordinate : Str} : ∀ pin ∈ (parseBundlePin node coordinate).1, Flat pin := by
  unfold parseBundlePin
  split
  · nofun
  · split_ifs with hhex
    · rintro pin ⟨rfl⟩
      exact flat_of_isLowerHexOf hhex
    · nofun

theorem flat_of_parseEntryAttestation {«namespace» pkgName ver : Str} {node : KdlNode} {attestation : Option EntryAttestation}
    {diagnostics : List Diagnostic}
    (h : parseEntryAttestation «namespace» pkgName ver node = .ok (attestation, diagnostics)) :
    ∀ att ∈ attestation, FlatAttestation att := by
  have hcanonical {kind signer : Str} {pin : Option Str} (hkind : Flat kind) (hsigner : Flat signer)
      (hpin : ∀ s ∈ pin, Flat s) : Flat (['\x1f'].intercalate [kind, signer, pin.getD []]) := by
    refine flat_intercalate ⟨by decide, by decide⟩ ?_
    simp only [List.forall_mem_cons, List.not_mem_nil, false_implies, implies_true, and_true]
    exact ⟨hkind, hsigner, flat_getD hpin⟩
  unfold parseEntryAttestation at h
  obtain ⟨rekor, hrekor, h⟩ := Result.bind_eq_ok.mp h
  dsimp only at h
  split at h
  · obtain ⟨rfl, -⟩ := Prod.mk.inj (Result.pure_eq_ok.mp h)
    simp
  · split_ifs at h
    · split at h
      · obtain ⟨_, hsigner, h⟩ := Result.bind_eq_ok.mp h
        obtain ⟨rfl, -⟩ := Prod.mk.inj (Result.pure_eq_ok.mp h)
        rintro att ⟨rfl⟩
        exact ⟨hcanonical ⟨by decide, by decide⟩ (flat_of_validateNoControlChars hsigner) flat_of_parseBundlePin,
          flat_of_parseRekorBlock hrekor⟩
      · obtain ⟨rfl, -⟩ := Prod.mk.inj (Result.pure_eq_ok.mp h)
        simp
    · obtain ⟨rfl, -⟩ := Prod.mk.inj (Result.pure_eq_ok.mp h)
      rintro att ⟨rfl⟩
      exact ⟨hcanonical ⟨by decide, by decide⟩ flat_nil flat_of_parseBundlePin, flat_of_parseRekorBlock hrekor⟩
    · obtain ⟨rfl, -⟩ := Prod.mk.inj (Result.pure_eq_ok.mp h)
      simp

theorem flat_of_parseIndexProvenance {child : KdlNode} {p : Provenance} (h : parseIndexProvenance child = .ok (some p)) :
    Flat (provenanceRaw p) := by
  unfold parseIndexProvenance at h
  split_ifs at h
  swap
  · simp at h
  split at h
  · split_ifs at h
    · obtain ⟨_, hurl, h⟩ := Result.bind_eq_ok.mp h
      obtain ⟨_, href, h⟩ := Result.bind_eq_ok.mp h
      obtain ⟨_, -, h⟩ := Result.bind_eq_ok.mp h
      obtain ⟨_, -, h⟩ := Result.bind_eq_ok.mp h
      obtain ⟨_, hcommit, h⟩ := Result.bind_eq_ok.mp h
      obtain rfl := Option.some.inj (Result.pure_eq_ok.mp h)
      have hcommit := flat_of_validateOpt (fun _ _ hsha => flat_of_isLowerHexOf (by simpa using rejectIf_eq_ok.mp hsha)) hcommit
      refine flat_intercalate ⟨by decide, by decide⟩ ?_
      simp only [List.forall_mem_cons, List.not_mem_nil, false_implies, implies_true, and_true]
      exact ⟨⟨by decide, by decide⟩, flat_of_validateNoControlChars hurl, flat_of_validateNoControlChars href, flat_getD hcommit⟩
    · obtain ⟨_, hregistry, h⟩ := Result.bind_eq_ok.mp h
      obtain ⟨_, hrepository, h⟩ := Result.bind_eq_ok.mp h
      obtain ⟨_, hsource, h⟩ := Result.bind_eq_ok.mp h
      obtain ⟨_, -, h⟩ := Result.bind_eq_ok.mp h
      obtain ⟨_, -, h⟩ := Result.bind_eq_ok.mp h
      obtain ⟨_, hdigest, h⟩ := Result.bind_eq_ok.mp h
      obtain rfl := Option.some.inj (Result.pure_eq_ok.mp h)
      have hsource := flat_of_validateOpt (fun _ _ => flat_of_validateNoControlChars) hsource
      have hdigest : Flat _ := flat_of_isSha256Pointer (by simpa using rejectIf_eq_ok.mp hdigest)
      refine flat_intercalate ⟨by decide, by decide⟩ ?_
      simp only [List.forall_mem_cons, List.not_mem_nil, false_implies, implies_true, and_true]
      exact ⟨⟨by decide, by decide⟩, flat_of_validateNoControlChars hregistry, flat_of_validateNoControlChars hrepository,
        hdigest, flat_getD hsource⟩
    · simp [pure, Except.pure] at h
  · simp at h

theorem flatVersion_of_parseVersionNode {«namespace» pkgName ver : Str} {node : KdlNode} {iv : IndexVersion}
    {diagnostics : List Diagnostic} (hnamespace : Flat «namespace») (hver : Flat ver)
    (h : parseVersionNode «namespace» pkgName ver node = .ok (iv, diagnostics)) : FlatVersion iv := by
  unfold parseVersionNode at h
  obtain ⟨_, hhash, h⟩ := Result.bind_eq_ok.mp h
  obtain ⟨_, hdecl, h⟩ := Result.bind_eq_ok.mp h
  obtain ⟨provenances, hprovenances, h⟩ := Result.bind_eq_ok.mp h
  obtain ⟨⟨attestation, diagnostics'⟩, hattestation, h⟩ := Result.bind_eq_ok.mp h
  obtain ⟨_, hreason, h⟩ := Result.bind_eq_ok.mp h
  obtain ⟨rfl, -⟩ := Prod.mk.inj (Result.pure_eq_ok.mp h)
  constructor
  case version => exact hver
  case «namespace» => exact hnamespace
  case contentHash => exact flat_of_validateNoControlChars hhash
  case publishedAt =>
    intro hne
    obtain ⟨ts, hts⟩ := Option.ne_none_iff_exists'.mp hne
    obtain ⟨raw, hraw, hread⟩ := Option.bind_eq_some_iff.mp hts
    exact flat_getD fun s hs => Option.some.inj (hraw.symm.trans hs) ▸ flat_of_parseIso8601Timestamp hread
  case depDecl =>
    exact flat_of_validateOpt (fun _ _ hpointer => flat_of_isSha256Pointer (by simpa using rejectIf_eq_ok.mp hpointer)) hdecl
  case provenances =>
    intro p hp
    obtain ⟨o, ho, hsome⟩ := List.mem_filterMap.mp hp
    obtain rfl : o = some p := hsome
    obtain ⟨child, -, hchild⟩ := Result.exists_of_mem_mapM hprovenances _ ho
    exact flat_of_parseIndexProvenance hchild
  case yankedReason => exact flat_of_validateOpt (fun _ _ => flat_of_validateNoControlChars) hreason
  case attestation => exact flat_of_parseEntryAttestation hattestation

theorem flat_of_versionChild {«namespace» name : Str} (hnamespace : Flat «namespace») {versions versions' : List IndexVersion}
    {child : KdlNode} (h : ∀ iv ∈ versions, FlatVersion iv)
    (hr : versionChild «namespace» name versions child = .ok versions') : ∀ iv ∈ versions', FlatVersion iv := by
  unfold versionChild at hr
  split_ifs at hr
  · split at hr
    · obtain rfl := Except.ok.inj hr
      exact h
    · obtain ⟨_, hver, hr⟩ := Result.bind_eq_ok.mp hr
      split_ifs at hr
      · obtain rfl := Result.pure_eq_ok.mp hr
        exact h
      · obtain ⟨⟨iv, diagnostics⟩, hiv, hr⟩ := Result.bind_eq_ok.mp hr
        obtain rfl := Result.pure_eq_ok.mp hr
        intro iv' hiv'
        rcases List.mem_append.mp hiv' with hiv' | hiv'
        · exact h iv' hiv'
        · rw [List.mem_singleton.mp hiv']
          exact flatVersion_of_parseVersionNode hnamespace (flat_of_validateNoControlChars hver) hiv
  · obtain rfl := Except.ok.inj hr
    exact h

/-- The name of a package and its versions are flat. -/
structure FlatPackage (pkg : Package) : Prop where
  name : Flat pkg.name
  versions : ∀ iv ∈ pkg.versions, FlatVersion iv

theorem flatPackage_of_indexOf {doc : List KdlNode} {index : Index} (h : indexOf doc = .ok index) :
    ∀ pkg ∈ index.packages, FlatPackage pkg := by
  obtain ⟨_, -, h⟩ := Result.bind_eq_ok.mp h
  obtain ⟨packages, hpackages, h⟩ := Result.bind_eq_ok.mp h
  obtain rfl := Result.pure_eq_ok.mp h
  refine Result.foldlM_invariant (P := fun packages => ∀ pkg ∈ packages, FlatPackage pkg) hpackages (by simp) ?_
  intro packages node packages' hinv hr
  unfold packageNode at hr
  split_ifs at hr
  · split at hr
    · obtain rfl := Except.ok.inj hr
      exact hinv
    · next name _ =>
      obtain ⟨_, -, hr⟩ := Result.bind_eq_ok.mp hr
      obtain ⟨_, hname, hr⟩ := Result.bind_eq_ok.mp hr
      obtain ⟨_, hnamespace, hr⟩ := Result.bind_eq_ok.mp hr
      obtain ⟨versions, hversions, hr⟩ := Result.bind_eq_ok.mp hr
      obtain rfl := Result.pure_eq_ok.mp hr
      intro pkg hpkg
      rcases List.mem_append.mp hpkg with hpkg | hpkg
      · exact hinv pkg hpkg
      · rw [List.mem_singleton.mp hpkg]
        refine ⟨flat_of_validateNoControlChars hname, fun iv hiv => ?_⟩
        have hflat : ∀ iv ∈ versions, FlatVersion iv := by
          refine Result.foldlM_invariant (P := fun vs => ∀ iv ∈ vs, FlatVersion iv) hversions (by simp) ?_
          exact fun vs child vs' => flat_of_versionChild (flat_of_validateNoControlChars hnamespace)
        exact hflat iv ((newestFirst_perm versions).mem_iff.mp hiv)
  · obtain rfl := Except.ok.inj hr
    exact hinv

/-! ### States -/

/-- The keys and the texts of a state are flat. -/
structure FlatState (s : IndexState) : Prop where
  keys : ∀ key e, s.get? key = some e → Flat key.namespace ∧ Flat key.name ∧ Flat key.version
  entries : ∀ key e, s.get? key = some e → FlatEntry e

section

variable {kdlParse : Str → Except Str (List KdlNode)} {text : Str}

theorem flat_of_rawRootString {field : Str} {value : Option Str} (h : rawRootString kdlParse text field = .ok value) :
    ∀ v ∈ value, Flat v := by
  obtain ⟨doc, -, h⟩ := Result.bind_eq_ok.mp h
  obtain ⟨_, hvalue, h⟩ := Result.bind_eq_ok.mp h
  obtain rfl := Result.pure_eq_ok.mp h
  exact flat_of_validateOpt (fun _ _ => flat_of_validateNoControlChars) hvalue

theorem flatEntry_rootFields (schemaVersion : Option ℤ) {attestationEpoch attestationEpochCommitment : Option Str}
    (hepoch : ∀ v ∈ attestationEpoch, Flat v) (hcommitment : ∀ v ∈ attestationEpochCommitment, Flat v) :
    FlatEntry (rootFields schemaVersion attestationEpoch attestationEpochCommitment) := by
  refine FlatEntry.setOpt (FlatEntry.setOpt (FlatEntry.setOpt flatEntry_new _ ?schema) _ ?epoch) _ ?commitment
  case schema =>
    intro f hf
    obtain ⟨v, -, rfl⟩ := Option.map_eq_some_iff.mp hf
    exact flat_new_int v _
  case epoch =>
    intro f hf
    obtain ⟨v, hv, rfl⟩ := Option.map_eq_some_iff.mp hf
    exact flat_new rfl _ (hepoch v hv)
  case commitment =>
    intro f hf
    obtain ⟨v, hv, rfl⟩ := Option.map_eq_some_iff.mp hf
    exact flat_new rfl _ (hcommitment v hv)

/-- **What the parser accepts is flat.** -/
theorem flatState_of_buildIndexState {index : Index} {s : IndexState} (h : buildIndexState kdlParse text = .ok (index, s)) :
    FlatState s := by
  obtain ⟨index', hparse, h⟩ := Result.bind_eq_ok.mp h
  obtain ⟨schemaVersion, -, h⟩ := Result.bind_eq_ok.mp h
  obtain ⟨epoch, hepoch, h⟩ := Result.bind_eq_ok.mp h
  obtain ⟨commitment, hcommitment, h⟩ := Result.bind_eq_ok.mp h
  obtain ⟨rfl, rfl⟩ := Prod.mk.inj (Result.pure_eq_ok.mp h)
  have hpackages : ∀ pkg ∈ index.packages, FlatPackage pkg := by
    unfold Index.parse at hparse
    split_ifs at hparse
    split at hparse
    · simp at hparse
    · exact flatPackage_of_indexOf hparse
  have hroot := flatEntry_rootFields schemaVersion (flat_of_rawRootString hepoch) (flat_of_rawRootString hcommitment)
  have hcases : ∀ key e, (indexStateFrom schemaVersion epoch commitment index).get? key = some e →
      (Flat key.namespace ∧ Flat key.name ∧ Flat key.version) ∧ FlatEntry e := by
    intro key e he
    rw [get?_indexStateFrom] at he
    cases hlast : lastVersion index key with
    | some last =>
      rw [hlast] at he
      obtain rfl := Option.some.inj he
      obtain ⟨pkg, hpkg, hmem, rfl⟩ := lastVersion_eq_some hlast
      have hversion := (hpackages pkg hpkg).versions last hmem
      exact ⟨⟨hversion.namespace, (hpackages pkg hpkg).name, hversion.version⟩, hversion.flatEntry⟩
    | none =>
      rw [hlast, Option.map_none, Option.none_or] at he
      split_ifs at he with hkey
      obtain rfl := Option.some.inj he
      subst hkey
      exact ⟨⟨flat_nil, flat_nil, flat_nil⟩, hroot⟩
  exact ⟨fun key e he => (hcases key e he).1, fun key e he => (hcases key e he).2⟩

theorem flatState_of_parseBaseline {s : IndexState} (h : parseBaseline kdlParse text = .ok s) : FlatState s := by
  unfold parseBaseline at h
  split at h
  · next hbuild =>
    obtain rfl := Except.ok.inj h
    exact flatState_of_buildIndexState hbuild
  · simp at h
  · simp at h

end

/-! ### Violations -/

/-- The entry under a key. -/
def entryAt (s : IndexState) (key : EntryKey) : RatchetEntry := (s.get? key).getD .new

/-- What a violation quotes from the baseline: the key and the field say which text that is. -/
def baselineText (b : IndexState) (key : EntryKey) (field : Str) : Str :=
  if field = [] then "present"
  else if field = "dep_decl".toList then lockstepRaw (entryAt b key) depDeclGroup
  else ((entryAt b key).get field).rawStr

theorem FlatState.entryAt {s : IndexState} (h : FlatState s) (key : EntryKey) : FlatEntry (entryAt s key) := by
  unfold Milpa.Core.entryAt
  cases he : s.get? key with
  | none => exact flatEntry_new
  | some e => exact h.entries key e he

/-- A violation of a baseline, with flat texts. -/
structure Stated (b : IndexState) (v : Violation) : Prop where
  baselineValue : v.baselineValue = baselineText b v.entryKey v.field
  entryKey : Flat v.entryKey.namespace ∧ Flat v.entryKey.name ∧ Flat v.entryKey.version
  field : Flat v.field
  candidateValue : Flat v.candidateValue

theorem mem_fieldViolation {key : EntryKey} {field b c : Str} {kind : Option ViolationKind} {v : Violation}
    (h : v ∈ fieldViolation key field kind b c) :
    v.entryKey = key ∧ v.field = field ∧ v.baselineValue = b ∧ v.candidateValue = c := by
  unfold fieldViolation at h
  split at h
  · simp at h
  · obtain rfl := List.mem_singleton.mp h
    exact ⟨rfl, rfl, rfl, rfl⟩

/-- The fields of the lattice have flat names, none of which is that of the group or empty. -/
theorem lattice_fields : ∀ e ∈ lattice, e.1 ≠ [] ∧ e.1 ≠ "dep_decl".toList ∧ '\t' ∉ e.1 ∧ '\n' ∉ e.1 := by decide

section

variable {b s : IndexState}

theorem stated_of_mem_dominatesEntry {key : EntryKey} (hs : FlatState s)
    (hkey : Flat key.namespace ∧ Flat key.name ∧ Flat key.version) {v : Violation}
    (h : v ∈ dominatesEntry key (entryAt b key) (entryAt s key)) : Stated b v := by
  rcases List.mem_append.mp h with h | h
  · obtain ⟨hentry, hfield, hbaseline, hcandidate⟩ := mem_fieldViolation h
    constructor
    case baselineValue =>
      rw [hbaseline, hentry, hfield]
      rfl
    case entryKey => exact hentry ▸ hkey
    case field => exact hfield ▸ ⟨by decide, by decide⟩
    case candidateValue => exact hcandidate ▸ (hs.entryAt key).lockstepRaw depDeclGroup
  · obtain ⟨⟨field, kind⟩, hmem, h⟩ := List.mem_flatMap.mp h
    obtain ⟨hne, hgroup, htab, hnewline⟩ := lattice_fields _ hmem
    obtain ⟨hentry, hfield, hbaseline, hcandidate⟩ := mem_fieldViolation h
    constructor
    case baselineValue => rw [hbaseline, hentry, hfield, baselineText, if_neg hne, if_neg hgroup]
    case entryKey => exact hentry ▸ hkey
    case field => exact hfield ▸ ⟨htab, hnewline⟩
    case candidateValue => exact hcandidate ▸ hs.entryAt key field

theorem stated_of_mem_checkEntry (hb : FlatState b) (hs : FlatState s) {key : EntryKey} {bEntry : RatchetEntry}
    (hentry : b.get? key = some bEntry) {v : Violation} (h : v ∈ (checkEntry s key bEntry).1) : Stated b v := by
  have hkey := hb.keys key bEntry hentry
  unfold checkEntry at h
  split_ifs at h
  · simp at h
  · cases hc : s.get? key with
    | none =>
      rw [hc] at h
      obtain rfl := List.mem_singleton.mp h
      exact ⟨rfl, hkey, flat_nil, flat_nil⟩
    | some cEntry =>
      rw [hc] at h
      refine stated_of_mem_dominatesEntry hs hkey ?_
      rw [entryAt, entryAt, hentry, hc]
      exact h

theorem stated_of_mem_check (hb : FlatState b) (hs : FlatState s) : ∀ v ∈ (check b s).violations, Stated b v := by
  intro v hv
  rcases List.mem_append.mp (mem_sortByKey.mp hv) with hv | hv
  · exact stated_of_mem_dominatesEntry hs ⟨flat_nil, flat_nil, flat_nil⟩ hv
  · obtain ⟨outcome, houtcome, hv⟩ := List.mem_flatMap.mp hv
    obtain ⟨⟨key, bEntry⟩, hmem, rfl⟩ := List.mem_map.mp houtcome
    exact stated_of_mem_checkEntry hb hs (BTreeMap.mem_entries.mp hmem) hv

/-! ### Keys of violations -/

theorem nodup_fieldViolation (key : EntryKey) (field b c : Str) (kind : Option ViolationKind) :
    ((fieldViolation key field kind b c).map Violation.field).Nodup := by
  unfold fieldViolation
  split
  · exact List.nodup_nil
  · exact List.nodup_singleton _

theorem key_of_mem_dominatesEntry {key : EntryKey} {bEntry cEntry : RatchetEntry} {v : Violation}
    (h : v ∈ dominatesEntry key bEntry cEntry) : v.entryKey = key := by
  rcases List.mem_append.mp h with h | h
  · exact (mem_fieldViolation h).1
  · obtain ⟨e, -, h⟩ := List.mem_flatMap.mp h
    exact (mem_fieldViolation h).1

theorem nodup_dominatesEntry (key : EntryKey) (bEntry cEntry : RatchetEntry) :
    ((dominatesEntry key bEntry cEntry).map Violation.field).Nodup := by
  have hpairwise : lattice.Pairwise fun e e' => e.1 ≠ e'.1 := by decide
  unfold dominatesEntry
  rw [List.map_append, List.nodup_append]
  refine ⟨nodup_fieldViolation _ _ _ _ _, ?_, ?_⟩
  · rw [List.map_flatMap, List.nodup_flatMap]
    refine ⟨fun e _ => nodup_fieldViolation _ _ _ _ _, hpairwise.imp fun {e e'} hne => ?_⟩
    intro f hf hf'
    obtain ⟨v, hv, rfl⟩ := List.mem_map.mp hf
    obtain ⟨v', hv', hfield⟩ := List.mem_map.mp hf'
    exact hne ((mem_fieldViolation hv).2.1.symm.trans (hfield.symm.trans (mem_fieldViolation hv').2.1))
  · intro f hf f' hf' heq
    obtain ⟨v, hv, rfl⟩ := List.mem_map.mp hf
    obtain ⟨v', hv', rfl⟩ := List.mem_map.mp hf'
    obtain ⟨e, he, hv'⟩ := List.mem_flatMap.mp hv'
    exact (lattice_fields e he).2.1 ((mem_fieldViolation hv').2.1.symm.trans (heq.symm.trans (mem_fieldViolation hv).2.1))

theorem key_of_mem_checkEntry {key : EntryKey} {bEntry : RatchetEntry} {v : Violation} (h : v ∈ (checkEntry s key bEntry).1) :
    v.entryKey = key ∧ key ≠ .root := by
  unfold checkEntry at h
  split_ifs at h with hroot
  · simp at h
  · refine ⟨?_, fun hkey => hroot (EntryKey.isRoot_iff.mpr hkey)⟩
    split at h
    · rw [List.mem_singleton.mp h]
      rfl
    · exact key_of_mem_dominatesEntry h

theorem nodup_checkEntry (key : EntryKey) (bEntry : RatchetEntry) :
    ((checkEntry s key bEntry).1.map Violation.field).Nodup := by
  unfold checkEntry
  split_ifs
  · exact List.nodup_nil
  · split
    · exact List.nodup_singleton _
    · exact nodup_dominatesEntry _ _ _

/-- The key and the field of a violation. -/
def place (v : Violation) : EntryKey × Str := (v.entryKey, v.field)

theorem nodup_place_of_nodup_field {l : List Violation} (h : (l.map Violation.field).Nodup) : (l.map place).Nodup := by
  refine List.Nodup.of_map Prod.snd ?_
  rw [List.map_map]
  exact h

/-- **No two violations are of one field of one entry.** -/
theorem nodup_place : ((check b s).violations.map place).Nodup := by
  refine (((sortByKey_perm sortKey _).map place).nodup_iff).mpr ?_
  rw [List.map_append, List.nodup_append, List.flatMap_map, List.map_flatMap, List.nodup_flatMap]
  refine ⟨nodup_place_of_nodup_field (nodup_dominatesEntry _ _ _), ⟨?_, ?_⟩, ?_⟩
  · exact fun e _ => nodup_place_of_nodup_field (nodup_checkEntry e.1 e.2)
  · refine b.sorted.imp fun {e e'} hlt p hp hp' => ?_
    obtain ⟨v, hv, rfl⟩ := List.mem_map.mp hp
    obtain ⟨v', hv', hplace⟩ := List.mem_map.mp hp'
    have hkey : v'.entryKey = v.entryKey := congrArg Prod.fst hplace
    rw [(key_of_mem_checkEntry hv).1, (key_of_mem_checkEntry hv').1] at hkey
    exact hlt.ne hkey.symm
  · intro p hp p' hp' heq
    obtain ⟨v, hv, rfl⟩ := List.mem_map.mp hp
    obtain ⟨e, -, hp'⟩ := List.mem_flatMap.mp hp'
    obtain ⟨v', hv', rfl⟩ := List.mem_map.mp hp'
    obtain ⟨hkey, hne⟩ := key_of_mem_checkEntry hv'
    have hroot : v.entryKey = v'.entryKey := congrArg Prod.fst heq
    rw [key_of_mem_dominatesEntry hv, hkey] at hroot
    exact hne hroot.symm

theorem nodup_sortKey : ((check b s).violations.map sortKey).Nodup := by
  refine List.Nodup.of_map (fun k => ofLex (ofLex k).2) ?_
  rw [List.map_map]
  exact nodup_place

/-! ### The digest -/

/-- The fields of the line of a violation. -/
def digestFields (v : Violation) : List Str :=
  [v.cls.slug, v.entryKey.namespace, v.entryKey.name, v.entryKey.version, v.field, v.kind.text, v.candidateValue]

theorem digestLine_eq (v : Violation) : digestLine v = ['\t'].intercalate (digestFields v) ++ ['\n'] := rfl

/-- What `canonical_digest` hashes. -/
def digestText (violations : List Violation) : Str := (sortByKey sortKey violations).flatMap digestLine

theorem canonicalDigest_eq (sha256Hex : Str → Str) (violations : List Violation) :
    canonicalDigest sha256Hex violations = sha256Hex (digestText violations) := rfl

theorem flat_slug (c : ViolationClass) : Flat c.slug := by cases c <;> exact ⟨by decide, by decide⟩

theorem flat_text (k : ViolationKind) : Flat k.text := by cases k <;> exact ⟨by decide, by decide⟩

theorem slug_injective : Function.Injective ViolationClass.slug := by
  intro c c' h
  cases c <;> cases c' <;> first | rfl | exact absurd h (by decide)

theorem text_injective : Function.Injective ViolationKind.text := by
  intro k k' h
  cases k <;> cases k' <;> first | rfl | exact absurd h (by decide)

theorem Stated.flat {v : Violation} (h : Stated b v) : ∀ f ∈ digestFields v, Flat f := by
  obtain ⟨hnamespace, hname, hversion⟩ := h.entryKey
  simp only [digestFields, List.forall_mem_cons, List.not_mem_nil, false_implies, implies_true, and_true]
  exact ⟨flat_slug v.cls, hnamespace, hname, hversion, h.field, flat_text v.kind, h.candidateValue⟩

/-- The line says which violation of the baseline it is. -/
theorem Stated.eq_of_digestLine_eq {v v' : Violation} (h : Stated b v) (h' : Stated b v')
    (heq : ['\t'].intercalate (digestFields v) = ['\t'].intercalate (digestFields v')) : v = v' := by
  have hfields : digestFields v = digestFields v' :=
    Delimited.intercalate_inj (fun f hf => (h.flat f hf).1) (fun f hf => (h'.flat f hf).1) (by simp [digestFields])
      (by simp [digestFields]) heq
  have hbaseline := h.baselineValue
  have hbaseline' := h'.baselineValue
  obtain ⟨cls, ⟨«namespace», name, version⟩, field, kind, baselineValue, candidateValue⟩ := v
  obtain ⟨cls', ⟨namespace', name', version'⟩, field', kind', baselineValue', candidateValue'⟩ := v'
  simp only [digestFields, List.cons.injEq, and_true] at hfields
  obtain ⟨hcls, rfl, rfl, rfl, rfl, hkind, rfl⟩ := hfields
  obtain rfl := slug_injective hcls
  obtain rfl := text_injective hkind
  obtain rfl : baselineValue = baselineValue' := hbaseline.trans hbaseline'.symm
  rfl

/-- The text that is hashed says which violations there are. -/
theorem eq_of_digestLines_eq {l l' : List Violation} (h : ∀ v ∈ l, Stated b v) (h' : ∀ v ∈ l', Stated b v)
    (heq : l.flatMap digestLine = l'.flatMap digestLine) : l = l' := by
  have hnewline {v : Violation} (hv : Stated b v) : '\n' ∉ ['\t'].intercalate (digestFields v) := by
    intro hc
    rcases Str.mem_of_mem_intercalate hc with hc | ⟨f, hf, hc⟩
    · exact absurd hc (by decide)
    · exact (hv.flat f hf).2 hc
  have hlines := Delimited.flatMap_line_inj '\n' (fun v hv => hnewline (h v hv)) (fun v hv => hnewline (h' v hv)) heq
  exact Delimited.eq_of_map_eq (fun v hv v' hv' => (h v hv).eq_of_digestLine_eq (h' v' hv')) hlines

end

/-! ### The gate -/

section

variable {kdlParse : Str → Except Str (List KdlNode)} {sha256Hex : Str → Str}

/-- What the gate reports: the violations of the check, with their digest, as recurring just where it is the one reported. -/
theorem warnMessage_of_evaluateGate {policy : TrustPolicy} {candidate baseline url : Str} {existingMeta : BaselineMeta} {nowUnix : ℤ}
    {decision : GateDecision} {message : ViolationMessage}
    (h : evaluateGate kdlParse sha256Hex policy candidate (some baseline) existingMeta nowUnix url = .ok decision)
    (hmessage : decision.warnMessage = some message) :
    ∃ index s b, buildIndexState kdlParse candidate = .ok (index, s) ∧ parseBaseline kdlParse baseline = .ok b ∧
      message.violations = (check b s).violations ∧
      (message.recurring = true ↔ existingMeta.reportedDigest = some (canonicalDigest sha256Hex message.violations)) := by
  unfold evaluateGate at h
  split at h
  · simp at h
  · next index s hbuild =>
    by_cases hoff : policy = .off
    · rw [if_pos hoff] at h
      obtain rfl := Except.ok.inj h
      simp at hmessage
    · rw [if_neg hoff] at h
      obtain ⟨b, hb, h⟩ := Result.bind_eq_ok.mp h
      dsimp only at h
      by_cases hclean : (check b s).clean = true
      · rw [if_pos hclean] at h
        obtain rfl := Result.pure_eq_ok.mp h
        simp at hmessage
      · rw [if_neg hclean] at h
        rcases Result.ok_ite h with h | h
        · exact absurd h Result.throw_ne_ok
        · obtain rfl := Result.pure_eq_ok.mp h
          obtain rfl := Option.some.inj hmessage
          exact ⟨index, s, b, hbuild, hb, rfl, decide_eq_true_iff⟩

/-- **The digest of the violations of a baseline is exact.** It does not depend on the order of the list; candidates with
one digest violate the baseline in the same way, as long as SHA-256 does not give one digest for their two texts; and what
is reported as recurring under `warn` are the violations whose digest was reported. -/
theorem canonicalDigest_exact {baseline text text' : Str} {b s s' : IndexState} {index index' : Index}
    (hb : parseBaseline kdlParse baseline = .ok b) (hs : buildIndexState kdlParse text = .ok (index, s))
    (hs' : buildIndexState kdlParse text' = .ok (index', s'))
    (hsha : sha256Hex (digestText (check b s).violations) = sha256Hex (digestText (check b s').violations) →
      digestText (check b s).violations = digestText (check b s').violations) :
    (∀ l, l.Perm (check b s).violations → canonicalDigest sha256Hex l = canonicalDigest sha256Hex (check b s).violations) ∧
      (canonicalDigest sha256Hex (check b s).violations = canonicalDigest sha256Hex (check b s').violations →
        (check b s).violations.Perm (check b s').violations) ∧
      ∀ existingMeta nowUnix url decision message,
        existingMeta.reportedDigest = some (canonicalDigest sha256Hex (check b s).violations) →
        evaluateGate kdlParse sha256Hex .warn text' (some baseline) existingMeta nowUnix url = .ok decision →
        decision.warnMessage = some message → message.recurring = true → message.violations.Perm (check b s).violations := by
  have hinjective : canonicalDigest sha256Hex (check b s).violations = canonicalDigest sha256Hex (check b s').violations →
      (check b s).violations = (check b s').violations := by
    intro hdigest
    have htext := hsha hdigest
    rw [digestText, digestText, check, check, sortByKey_sortByKey, sortByKey_sortByKey] at htext
    have hflat := flatState_of_parseBaseline hb
    exact eq_of_digestLines_eq (stated_of_mem_check hflat (flatState_of_buildIndexState hs))
      (stated_of_mem_check hflat (flatState_of_buildIndexState hs')) htext
  refine ⟨fun l hl => ?_, fun hdigest => hinjective hdigest ▸ List.Perm.refl _, ?_⟩
  · have hnodup : ((check b s).violations.map sortKey).Nodup := nodup_sortKey
    have hsort := sortByKey_eq_of_mem_iff (((hl.map sortKey).nodup_iff).mpr hnodup) hnodup fun v => hl.mem_iff
    rw [canonicalDigest, canonicalDigest, hsort]
  · intro existingMeta nowUnix url decision message hreported hgate hmessage hrecurring
    obtain ⟨index'', s'', b', hbuild, hb', hviolations, hiff⟩ := warnMessage_of_evaluateGate hgate hmessage
    obtain rfl : b' = b := Except.ok.inj (hb'.symm.trans hb)
    obtain ⟨rfl, rfl⟩ := Prod.mk.inj (Except.ok.inj (hbuild.symm.trans hs'))
    have hdigest := Option.some.inj (hreported.symm.trans (hiff.mp hrecurring))
    rw [hviolations] at hdigest ⊢
    exact hinjective hdigest ▸ List.Perm.refl _

end

/-- The index of `nextText` with another content hash. -/
def changedText : Str :=
  "package \"a\" \x7b\nnamespace \"n\"\nversion \"1.0.0\" \x7b\ncontent_hash \"x\"\n\x7d\n\x7d"

/-- The same, with a second package. -/
def changedMoreText : Str := changedText ++ ("\npackage \"b\"" : Str)

/-- The line of the violation. -/
def changedLine : Str := "TNG-ENTRY-MUTATED\tn\ta\t1.0.0\tcontent_hash\tfrozen-changed\tx\n"

/-- SHA-256 of a text, in hexadecimal. -/
def sha256Text (text : Str) : Str := hexLower (sha256 (utf8 text))

/-- Both changed indexes violate the index of before in one way. -/
theorem canonicalDigest_exact_changed :
    ∃ b s s', parseBaseline read nextText = .ok b ∧ (buildIndexState read changedText).map Prod.snd = .ok s ∧
      (buildIndexState read changedMoreText).map Prod.snd = .ok s' ∧ (check b s).violations ≠ [] ∧
      (check b s).violations.Perm (check b s').violations := by
  have hline : ((parseBaseline read nextText).toOption.bind fun b => (buildIndexState read changedText).toOption.map fun p =>
      digestText (check b p.2).violations) = some changedLine := by decide
  have hline' : ((parseBaseline read nextText).toOption.bind fun b => (buildIndexState read changedMoreText).toOption.map fun p =>
      digestText (check b p.2).violations) = some changedLine := by decide
  obtain ⟨b, hb, hline⟩ := Option.bind_eq_some_iff.mp hline
  obtain ⟨⟨index, s⟩, hs, htext⟩ := Option.map_eq_some_iff.mp hline
  rw [hb, Option.bind_some] at hline'
  obtain ⟨⟨index', s'⟩, hs', htext'⟩ := Option.map_eq_some_iff.mp hline'
  dsimp only at htext htext'
  have hb := Result.toOption_eq_some.mp hb
  have hs := Result.toOption_eq_some.mp hs
  have hs' := Result.toOption_eq_some.mp hs'
  have hsha : sha256Text (digestText (check b s).violations) = sha256Text (digestText (check b s').violations) →
      digestText (check b s).violations = digestText (check b s').violations := fun _ => htext.trans htext'.symm
  refine ⟨b, s, s', hb, by rw [hs]; rfl, by rw [hs']; rfl, fun hnil => ?_, (canonicalDigest_exact hb hs hs' hsha).2.1 ?_⟩
  · rw [hnil] at htext
    exact absurd htext (by decide)
  · rw [canonicalDigest_eq, canonicalDigest_eq, htext, htext']

end Milpa.Core
