import Milpa.Core.GitUrl

/-!
# Normalizing a Git URL twice

`normalize_git_url` is run again on what it wrote, when a lockfile is read back. The
second run finds the same scheme, authority and path. It changes the URL in two cases
only: the end it takes off is one that the first run uncovered (`LooseEnd`), or the
first run dropped a port and left another one at the end of the host (`PortStable`).
-/

namespace Milpa.Core

open Milpa.Str

theorem inert_colon : Inert ':' := ⟨(0, 0x40), by decide, by decide, by decide, by decide⟩

theorem inert_slash : Inert '/' := ⟨(0, 0x40), by decide, by decide, by decide, by decide⟩

theorem inert_question : Inert '?' := ⟨(0, 0x40), by decide, by decide, by decide, by decide⟩

theorem inert_at : Inert '@' := ⟨(0, 0x40), by decide, by decide, by decide, by decide⟩

theorem inert_bracket : Inert '[' := ⟨(0x5B, 0x60), by decide, by decide, by decide, by decide⟩

theorem inert_closing : Inert ']' := ⟨(0x5B, 0x60), by decide, by decide, by decide, by decide⟩

theorem inert_of_isDigit {c : Char} (h : c.isDigit = true) : Inert c := by
  have h9 : c.toNat ≤ 57 := (isDigit_iff.mp h).2
  refine ⟨(0, 0x40), by decide, Nat.zero_le _, by omega, ?_⟩
  rintro rfl
  exact absurd h9 (by decide)

/-! ### The end of a URL -/

/-- The end of a string that `stripEnds` takes off: white space, a `/` or `.git`. -/
def LooseEnd (s : Str) : Prop :=
  (∃ c ∈ s.getLast?, isWhitespace c = true ∨ c = '/') ∨ ".git".toList <:+ s

instance (s : Str) : Decidable (LooseEnd s) :=
  decidable_of_iff (s.getLast?.any (fun c => isWhitespace c || c == '/') = true ∨ ".git".toList <:+ s)
    (by cases h : s.getLast? <;> simp [LooseEnd, h])

theorem getD_stripSuffix_isPrefix (s p : Str) : (s.stripSuffix p).getD s <+: s := by
  cases hs : s.stripSuffix p with
  | none => exact List.prefix_refl s
  | some r => exact ⟨p, (stripSuffix_eq_some.mp hs).symm⟩

theorem getD_stripSuffix_eq_self {s p : Str} (hp : p ≠ []) : (s.stripSuffix p).getD s = s ↔ ¬ p <:+ s := by
  cases hs : s.stripSuffix p with
  | none =>
    simp only [Option.getD_none, true_iff]
    rintro ⟨r, hr⟩
    rw [stripSuffix_eq_some.mpr hr.symm] at hs
    exact absurd hs (by simp)
  | some r =>
    have hrs := stripSuffix_eq_some.mp hs
    simp only [Option.getD_some]
    constructor
    · intro h
      rw [← h] at hrs
      exact absurd (List.self_eq_append_right.mp hrs) hp
    · intro h
      exact absurd ⟨r, hrs.symm⟩ h

theorem trim_isPrefix {s : Str} (h : ∀ c ∈ s.head?, isWhitespace c = false) : s.trim <+: s := by
  rw [trim_eq_rdropWhile h]
  exact List.rdropWhile_prefix _ _

theorem trim_eq_self {s : Str} (h : ∀ c ∈ s.head?, isWhitespace c = false) :
    s.trim = s ↔ ∀ c ∈ s.getLast?, isWhitespace c = false := by
  rw [trim_eq_rdropWhile h, List.rdropWhile_eq_self_iff]
  constructor
  · intro hl c hc
    obtain ⟨hne, rfl⟩ := List.mem_getLast?_eq_getLast hc
    simpa using hl hne
  · intro hl hne
    simpa using hl _ (List.getLast_mem_getLast? hne)

theorem stripEnds_isPrefix {s : Str} (h : ∀ c ∈ s.head?, isWhitespace c = false) : stripEnds s <+: s :=
  ((getD_stripSuffix_isPrefix _ _).trans (getD_stripSuffix_isPrefix _ _)).trans (trim_isPrefix h)

/-- Where no white space begins the string, its end is taken off just when it is loose. -/
theorem stripEnds_eq_self {s : Str} (h : ∀ c ∈ s.head?, isWhitespace c = false) : stripEnds s = s ↔ ¬ LooseEnd s := by
  constructor
  · intro hs hloose
    -- each step shortens the string or keeps it, so that none shortens it
    have h1 : s <+: s.trim := by
      have : stripEnds s <+: s.trim := (getD_stripSuffix_isPrefix _ _).trans (getD_stripSuffix_isPrefix _ _)
      rwa [hs] at this
    have htrim : s.trim = s := (trim_isPrefix h).eq_of_length_le h1.length_le
    have hgit : (((s.stripSuffix "/").getD s).stripSuffix ".git").getD ((s.stripSuffix "/").getD s) = s := by
      rwa [stripEnds, htrim] at hs
    have h2 : s <+: (s.stripSuffix "/").getD s := by
      have := getD_stripSuffix_isPrefix ((s.stripSuffix "/").getD s) ".git"
      rwa [hgit] at this
    have hslash : (s.stripSuffix "/").getD s = s := (getD_stripSuffix_isPrefix _ _).eq_of_length_le h2.length_le
    rw [hslash] at hgit
    rcases hloose with ⟨c, hc, hw | rfl⟩ | hend
    · simp [(trim_eq_self h).mp htrim c hc] at hw
    · refine (getD_stripSuffix_eq_self (by decide)).mp hslash ?_
      obtain ⟨r, hr⟩ := List.getLast?_eq_some_iff.mp hc
      exact ⟨r, hr.symm⟩
    · exact (getD_stripSuffix_eq_self (by decide)).mp hgit hend
  · intro hloose
    have htrim : s.trim = s := (trim_eq_self h).mpr fun c hc => by
      by_contra hw
      exact hloose (Or.inl ⟨c, hc, Or.inl (by simpa using hw)⟩)
    have hslash : (s.stripSuffix "/").getD s = s := by
      apply (getD_stripSuffix_eq_self (by decide)).mpr
      rintro ⟨r, rfl⟩
      exact hloose (Or.inl ⟨'/', by simp, Or.inr rfl⟩)
    have hgit : (s.stripSuffix ".git").getD s = s :=
      (getD_stripSuffix_eq_self (by decide)).mpr fun hs => hloose (Or.inr hs)
    rw [stripEnds, htrim, hslash, hgit]

/-- What precedes the last `/` does not make an end loose. -/
theorem looseEnd_append_slash {x h : Str} : LooseEnd (x ++ '/' :: h) ↔ LooseEnd ('/' :: h) := by
  have hlast : (x ++ '/' :: h).getLast? = ('/' :: h).getLast? :=
    List.getLast?_append_of_ne_nil x (by simp)
  have hgit : ".git".toList <:+ x ++ '/' :: h ↔ ".git".toList <:+ '/' :: h := by
    constructor
    · intro hs
      rcases List.suffix_or_suffix_of_suffix hs (List.suffix_append x ('/' :: h)) with hs | hs
      · exact hs
      · exact absurd (hs.subset List.mem_cons_self) (by decide)
    · intro hs
      exact hs.trans (List.suffix_append x _)
  rw [LooseEnd, LooseEnd, hlast, hgit]

/-- A number at the end is not loose. -/
theorem not_looseEnd_ofNat (x : Str) (n : ℕ) : ¬ LooseEnd (x ++ Str.ofNat n) := by
  obtain ⟨d, c, hd⟩ : ∃ d c, Str.ofNat n = d ++ [c] := by
    rcases List.eq_nil_or_concat (Str.ofNat n) with h | ⟨d, c, h⟩
    · exact absurd h (ofNat_ne_nil n)
    · exact ⟨d, c, by simpa using h⟩
  have hc : c.isDigit = true := isDigit_of_mem_ofNat (n := n) (by rw [hd]; simp)
  rintro (⟨e, he, hw | rfl⟩ | ⟨r, hr⟩)
  · rw [hd, ← List.append_assoc, List.getLast?_append] at he
    simp only [List.getLast?_singleton, Option.some_or, Option.mem_def, Option.some.injEq] at he
    subst he
    obtain ⟨h0, h9⟩ := isDigit_iff.mp hc
    rw [not_isWhitespace_of_toNat (by omega) (by omega)] at hw
    cases hw
  · rw [hd, ← List.append_assoc, List.getLast?_append] at he
    simp only [List.getLast?_singleton, Option.some_or, Option.mem_def, Option.some.injEq] at he
    subst he
    exact absurd hc (by decide)
  · have hlast := congrArg List.getLast? hr
    rw [hd, ← List.append_assoc, List.getLast?_append, List.getLast?_append] at hlast
    simp only [List.getLast?_singleton, Option.some_or] at hlast
    have : c = 't' := by
      have ht : (".git".toList).getLast? = some 't' := rfl
      rw [ht] at hlast
      simpa using hlast.symm
    subst this
    exact absurd hc (by decide)

/-! ### The parts of a URL -/

theorem schemeEnd : "://".toList = [':', '/', '/'] := rfl

/-- `://` is found where it was written, after a scheme that has none. -/
theorem splitOnceStr_append {x y : Str} (hx : x.splitOnceStr "://" = none) :
    Str.splitOnceStr (x ++ (("://" : Str) ++ y)) "://" = some (x, y) := by
  rw [splitOnceStr_eq_none] at hx
  cases hs : Str.splitOnceStr (x ++ (("://" : Str) ++ y)) "://" with
  | none => exact absurd rfl (splitOnceStr_eq_none.mp hs x y)
  | some p =>
    obtain ⟨a, b⟩ := p
    obtain ⟨hab, hfirst⟩ := splitOnceStr_eq_some hs
    have hle : a.length ≤ x.length := hfirst x y rfl
    -- an earlier occurrence is in `x`, since no end of `://` is a beginning of it
    have hge : x.length ≤ a.length := by
      by_contra hlt
      rcases List.append_eq_append_iff.mp hab with ⟨m, rfl, -⟩ | ⟨m, rfl, hm⟩
      · simp at hlt
      · rw [schemeEnd] at hm
        match m, hm with
        | [], _ => simp at hlt
        | [c1], hm => simp at hm
        | [c1, c2], hm => simp at hm
        | c1 :: c2 :: c3 :: m, hm =>
          simp only [List.cons_append, List.nil_append, List.cons.injEq] at hm
          obtain ⟨rfl, rfl, rfl, -⟩ := hm
          exact hx a m rfl
    obtain ⟨rfl, h⟩ := List.append_inj hab (le_antisymm hge hle)
    rw [List.append_cancel_left h]

/-- What precedes the first `://` has none. -/
theorem splitOnceStr_fst {s a b : Str} (h : s.splitOnceStr "://" = some (a, b)) : a.splitOnceStr "://" = none := by
  obtain ⟨rfl, hfirst⟩ := splitOnceStr_eq_some h
  rw [splitOnceStr_eq_none]
  rintro u v rfl
  have := hfirst u (v ++ (("://" : Str) ++ b)) (by simp)
  simp only [List.length_append, schemeEnd, List.length_cons] at this
  omega

/-- Lowering does not make a `://`. -/
theorem splitOnceStr_toLowercase {s : Str} (h : s.splitOnceStr "://" = none) :
    s.toLowercase.splitOnceStr "://" = none := by
  rw [splitOnceStr_eq_none] at h ⊢
  intro u v huv
  obtain ⟨s₁, s₂, rfl, -, h2⟩ := inert_colon.split_lowerIn (v := '/' :: '/' :: v) huv
  obtain ⟨t₁, s₃, rfl, ht1, h3⟩ := inert_slash.split_lowerIn (u := []) h2.symm
  obtain ⟨t₂, s₄, rfl, ht2, -⟩ := inert_slash.split_lowerIn (u := []) h3.symm
  rw [lowerIn_eq_nil.mp ht1.symm, lowerIn_eq_nil.mp ht2.symm] at h
  exact h s₁ s₄ rfl

theorem head_pathOf {rest : Str} : ∀ c ∈ (pathOf rest).head?, c = '/' := by
  intro c hc
  have := List.head?_dropWhile_not (· ≠ '/') (rest.takeWhile (· ≠ '?'))
  rw [← pathOf, Option.mem_def.mp hc] at this
  simpa using this

theorem not_mem_pathOf {rest : Str} : '?' ∉ pathOf rest := by
  intro h
  simpa using List.mem_takeWhile_imp ((List.dropWhile_sublist _).subset h)

theorem not_slash_mem_authorityOf {rest : Str} : '/' ∉ authorityOf rest := by
  intro h
  simpa using List.mem_takeWhile_imp h

theorem not_question_mem_authorityOf {rest : Str} : '?' ∉ authorityOf rest := by
  intro h
  simpa using List.mem_takeWhile_imp ((List.takeWhile_prefix _).subset h)

theorem dropUserinfo_eq_self {authority : Str} (h : '@' ∉ authority) : dropUserinfo authority = authority := by
  rw [dropUserinfo, rsplitOnce_eq_none.mpr h]

theorem not_mem_dropUserinfo {authority : Str} : '@' ∉ dropUserinfo authority := by
  unfold dropUserinfo
  split
  · next a b hs => exact (rsplitOnce_eq_some.mp hs).2
  · next hs => exact rsplitOnce_eq_none.mp hs

/-- An authority and a path that are written one after the other are read back. -/
theorem authorityOf_append {authority path : Str} (hslash : '/' ∉ authority) (hquery : '?' ∉ authority)
    (hpath : ∀ c ∈ path.head?, c = '/') (hpathq : '?' ∉ path) :
    authorityOf (authority ++ path) = authority ∧ pathOf (authority ++ path) = path := by
  have hall : (authority ++ path).takeWhile (· ≠ '?') = authority ++ path := by
    rw [List.takeWhile_eq_self_iff]
    intro c hc
    rcases List.mem_append.mp hc with hc | hc
    · simpa using fun h : c = '?' => hquery (h ▸ hc)
    · simpa using fun h : c = '?' => hpathq (h ▸ hc)
  have hfront : ∀ c ∈ authority, decide (c ≠ '/') = true := fun c hc => by
    simpa using fun h : c = '/' => hslash (h ▸ hc)
  rw [authorityOf, pathOf, hall, List.takeWhile_append_of_pos hfront, List.dropWhile_append_of_pos hfront]
  cases path with
  | nil => simp
  | cons c path =>
    obtain rfl := hpath c rfl
    simp

/-- What is written is read as it was written; of the authority, the port is looked at again. -/
theorem normalizeStripped_written {scheme authority path : Str} (hlow : ∀ c ∈ scheme, Lowered c)
    (hscheme : scheme.splitOnceStr "://" = none) (hslash : '/' ∉ authority) (hquery : '?' ∉ authority)
    (hat : '@' ∉ authority) (hpath : ∀ c ∈ path.head?, c = '/') (hpathq : '?' ∉ path) :
    normalizeStripped (scheme ++ (("://" : Str) ++ (authority ++ path))) =
      scheme ++ (("://" : Str) ++ (netloc (gitDefaultPort scheme) authority ++ path)) := by
  obtain ⟨ha, hp⟩ := authorityOf_append hslash hquery hpath hpathq
  rw [normalizeStripped, splitOnceStr_append hscheme]
  dsimp only
  rw [ha, hp, dropUserinfo_eq_self hat, toLowercase_of_lowered hlow]

/-! ### The port -/

/-- An authority that has no `:`, or ends with a port that is not dropped and is written as a number is displayed. -/
def PortWritten (defaultPort : Option ℕ) (hostAndPort : Str) : Prop :=
  ∀ q ∈ hostAndPort.rsplitOnce ':', (keptPort defaultPort (some q.2)).map Str.ofNat = some q.2

instance (defaultPort : Option ℕ) (hostAndPort : Str) : Decidable (PortWritten defaultPort hostAndPort) :=
  inferInstanceAs (Decidable (∀ q ∈ hostAndPort.rsplitOnce ':', _))

/-- Where a port is dropped, what is left of the authority does not end with another one that is not written. -/
def PortStable (defaultPort : Option ℕ) (hostAndPort : Str) : Prop :=
  hostAndPort.head? ≠ some '[' → ∀ q ∈ hostAndPort.rsplitOnce ':', keptPort defaultPort (some q.2) = none →
    PortWritten defaultPort q.1.toLowercase

instance (defaultPort : Option ℕ) (hostAndPort : Str) : Decidable (PortStable defaultPort hostAndPort) :=
  inferInstanceAs (Decidable (_ → ∀ q ∈ hostAndPort.rsplitOnce ':', _))

theorem keptPort_ofNat {defaultPort : Option ℕ} {p : ℕ} (hp : p < 2 ^ 16) (hne : some p ≠ defaultPort) :
    keptPort defaultPort (some (Str.ofNat p)) = some p := by
  simp [keptPort, parseUInt_ofNat hp, hne]

theorem keptPort_eq_some {defaultPort : Option ℕ} {port : Option Str} {p : ℕ} (h : keptPort defaultPort port = some p) :
    p < 2 ^ 16 ∧ some p ≠ defaultPort ∧ ∃ t, port = some t ∧ parseUInt 16 t = some p := by
  simp only [keptPort, Option.filter_eq_some_iff, Option.bind_eq_some_iff, decide_eq_true_eq] at h
  obtain ⟨⟨t, ht, hp⟩, hne⟩ := h
  refine ⟨?_, hne, t, ht, hp⟩
  unfold parseUInt at hp
  dsimp only at hp
  split_ifs at hp with h1 h2
  simpa [← Option.some.inj hp] using h2

theorem splitHostPort_rsplit {h : Str} (hb : h.head? ≠ some '[') :
    splitHostPort h = match h.rsplitOnce ':' with
      | some (host, port) => (host, some port)
      | none => (h, none) := by
  unfold splitHostPort
  split
  · simp at hb
  · rfl

/-- A host in brackets is read back, with the port that follows it. -/
theorem splitHostPort_bracket {addr after : Str} (h : ']' ∉ addr) :
    splitHostPort ('[' :: addr ++ ']' :: after) = ('[' :: addr ++ [']'], after.stripPrefix ":") := by
  have : Str.splitOnce (addr ++ ']' :: after) ']' = some (addr, after) := splitOnce_eq_some.mpr ⟨rfl, h⟩
  rw [List.cons_append, splitHostPort, this]

theorem netloc_kept {defaultPort : Option ℕ} {h host : Str} {port : Option Str} {p : ℕ}
    (hs : splitHostPort h = (host, port)) (hp : keptPort defaultPort port = some p) :
    netloc defaultPort h = host.toLowercase ++ ':' :: Str.ofNat p := by
  simp only [netloc, hs, hp]

theorem netloc_dropped {defaultPort : Option ℕ} {h host : Str} {port : Option Str}
    (hs : splitHostPort h = (host, port)) (hp : keptPort defaultPort port = none) :
    netloc defaultPort h = host.toLowercase := by
  simp only [netloc, hs, hp]

/-- An authority in lower case is written as it is just when its port is. -/
theorem netloc_eq_self_iff {defaultPort : Option ℕ} {h : Str} (hlow : ∀ c ∈ h, Lowered c) (hb : h.head? ≠ some '[') :
    netloc defaultPort h = h ↔ PortWritten defaultPort h := by
  have hsplit := splitHostPort_rsplit hb
  cases hr : h.rsplitOnce ':' with
  | none =>
    rw [hr] at hsplit
    rw [netloc_dropped hsplit rfl]
    refine ⟨fun _ q hs => ?_, fun _ => toLowercase_of_lowered hlow⟩
    rw [hr] at hs
    exact absurd hs (by simp)
  | some q =>
    obtain ⟨host, port⟩ := q
    rw [hr] at hsplit
    have hw := (rsplitOnce_eq_some.mp hr).1
    have hhost : host.toLowercase = host := toLowercase_of_lowered fun c hc => hlow c (hw ▸ List.mem_append_left _ hc)
    constructor
    · intro heq q hs
      rw [hr] at hs
      cases hs
      cases hk : keptPort defaultPort (some port) with
      | none =>
        rw [netloc_dropped hsplit hk, hhost, hw] at heq
        simp at heq
      | some p =>
        rw [netloc_kept hsplit hk, hhost, hw] at heq
        simp only [List.append_cancel_left_eq, List.cons.injEq, true_and] at heq
        rw [Option.map_some, heq]
    · intro hwritten
      obtain ⟨p, hp, hport⟩ := Option.map_eq_some_iff.mp (hwritten (host, port) hr)
      rw [netloc_kept hsplit hp, hhost, hport, hw]

/-- After a bracket, everything is found again. -/
theorem netloc_netloc_bracket (defaultPort : Option ℕ) (rest : Str) :
    netloc defaultPort (netloc defaultPort ('[' :: rest)) = netloc defaultPort ('[' :: rest) := by
  cases hr : Str.splitOnce rest ']' with
  | none =>
    have hclose := splitOnce_eq_none.mp hr
    have hs : splitHostPort ('[' :: rest) = ('[' :: rest, none) := by rw [splitHostPort, hr]
    have hlow : Str.toLowercase ('[' :: rest) = '[' :: lowerIn ['['] rest [] := by
      have := lowerIn_append [] ['['] rest []
      rwa [lowerIn_inert inert_bracket] at this
    have hs' : splitHostPort ('[' :: lowerIn ['['] rest []) = ('[' :: lowerIn ['['] rest [], none) := by
      rw [splitHostPort, splitOnce_eq_none.mpr (fun h => hclose (inert_closing.mem_lowerIn.mp h))]
    rw [netloc_dropped hs rfl, hlow, netloc_dropped hs' rfl, ← hlow]
    exact toLowercase_of_lowered (lowered_toLowercase _)
  | some p =>
    obtain ⟨addr, after⟩ := p
    obtain ⟨rfl, hclose⟩ := splitOnce_eq_some.mp hr
    have hs := @splitHostPort_bracket _ after hclose
    set low := lowerIn ['['] addr [']'] with hlowdef
    have hlow : Str.toLowercase ('[' :: addr ++ [']']) = '[' :: low ++ [']'] := by
      have h1 := lowerIn_append [] ['['] (addr ++ [']']) []
      have h2 := lowerIn_append ['['] addr [']'] []
      rw [lowerIn_inert inert_bracket] at h1
      rw [lowerIn_inert inert_closing] at h2
      rw [List.append_nil] at h1 h2
      simpa [toLowercase, h2] using h1
    have hlow' : Str.toLowercase ('[' :: low ++ [']']) = '[' :: low ++ [']'] := by
      rw [← hlow]
      exact toLowercase_of_lowered (lowered_toLowercase _)
    have hclose' : ']' ∉ low := fun h => hclose (inert_closing.mem_lowerIn.mp h)
    rw [List.cons_append] at hs
    cases hp : keptPort defaultPort (after.stripPrefix ":") with
    | none =>
      have hs' := @splitHostPort_bracket _ [] hclose'
      rw [netloc_dropped hs hp, hlow, netloc_dropped hs' rfl, hlow']
    | some p =>
      have hs' := @splitHostPort_bracket _ (':' :: Str.ofNat p) hclose'
      have hport : stripPrefix (':' :: Str.ofNat p) ":" = some (Str.ofNat p) := stripPrefix_eq_some.mpr rfl
      obtain ⟨hlt, hne, -⟩ := keptPort_eq_some hp
      rw [hport] at hs'
      rw [netloc_kept hs hp, hlow, List.append_assoc, List.singleton_append, netloc_kept hs' (keptPort_ofNat hlt hne),
        hlow', List.append_assoc]
      rfl

/-- **An authority is written once and for all just when its port is stable.** -/
theorem netloc_netloc_iff {defaultPort : Option ℕ} {h : Str} :
    netloc defaultPort (netloc defaultPort h) = netloc defaultPort h ↔ PortStable defaultPort h := by
  by_cases hb : h.head? = some '['
  · obtain ⟨rest, rfl⟩ : ∃ rest, h = '[' :: rest := by
      cases h with
      | nil => simp at hb
      | cons c rest => exact ⟨rest, by simpa using hb⟩
    exact ⟨fun _ hne => absurd hb hne, fun _ => netloc_netloc_bracket defaultPort rest⟩
  have hbl : ∀ host : Str, host <+: h → host.toLowercase.head? ≠ some '[' := by
    rintro host ⟨t, rfl⟩ hhead
    have := inert_bracket.of_head_toLowercase hhead
    rw [List.head?_append, this] at hb
    exact hb rfl
  have hsplit := splitHostPort_rsplit hb
  cases hr : h.rsplitOnce ':' with
  | none =>
    have hcolon := rsplitOnce_eq_none.mp hr
    rw [hr] at hsplit
    have hs' : splitHostPort h.toLowercase = (h.toLowercase, none) := by
      rw [splitHostPort_rsplit (hbl h (List.prefix_refl h)), rsplitOnce_eq_none.mpr]
      exact fun hc => hcolon (inert_colon.mem_toLowercase.mp hc)
    rw [netloc_dropped hsplit rfl, netloc_dropped hs' rfl]
    refine ⟨fun _ _ q hs => ?_, fun _ => toLowercase_of_lowered (lowered_toLowercase h)⟩
    rw [hr] at hs
    exact absurd hs (by simp)
  | some q =>
    obtain ⟨host, port⟩ := q
    obtain ⟨rfl, hcolon⟩ := rsplitOnce_eq_some.mp hr
    rw [hr] at hsplit
    have hhead := hbl host (List.prefix_append _ _)
    cases hk : keptPort defaultPort (some port) with
    | some p =>
      obtain ⟨hlt, hne, -⟩ := keptPort_eq_some hk
      have hr' : Str.rsplitOnce (host.toLowercase ++ ':' :: Str.ofNat p) ':' = some (host.toLowercase, Str.ofNat p) :=
        rsplitOnce_eq_some.mpr ⟨rfl, not_mem_ofNat (by decide) p⟩
      have hs' : splitHostPort (host.toLowercase ++ ':' :: Str.ofNat p) = (host.toLowercase, some (Str.ofNat p)) := by
        rw [splitHostPort_rsplit, hr']
        rw [List.head?_append]
        cases hl : host.toLowercase with
        | nil => simp
        | cons c l => simpa [hl] using hhead
      rw [netloc_kept hsplit hk, netloc_kept hs' (keptPort_ofNat hlt hne),
        toLowercase_of_lowered (lowered_toLowercase host)]
      refine ⟨fun _ _ q hs hnone => ?_, fun _ => rfl⟩
      rw [hr] at hs
      cases hs
      rw [hk] at hnone
      exact absurd hnone (by simp)
    | none =>
      rw [netloc_dropped hsplit hk, netloc_eq_self_iff (lowered_toLowercase host) hhead]
      refine ⟨fun hwritten _ q hs _ => ?_, fun hstable => hstable hb (host, port) hr hk⟩
      rw [hr] at hs
      cases hs
      exact hwritten

theorem lowered_netloc (defaultPort : Option ℕ) (h : Str) : ∀ c ∈ netloc defaultPort h, Lowered c := by
  intro c hc
  unfold netloc at hc
  dsimp only at hc
  split at hc
  · rcases List.mem_append.mp hc with hc | hc
    · exact lowered_toLowercase _ c hc
    · rcases List.mem_cons.mp hc with rfl | hc
      · exact inert_colon.lowered
      · exact (inert_of_isDigit (isDigit_of_mem_ofNat hc)).lowered
  · exact lowered_toLowercase _ c hc

/-- An authority that begins with a bracket when it is written began with one. -/
theorem bracket_of_head_netloc {defaultPort : Option ℕ} {h : Str} (hb : (netloc defaultPort h).head? = some '[') :
    ∃ tail, h = '[' :: tail := by
  by_contra hne
  have hhead : h.head? ≠ some '[' := by
    intro hh
    cases h with
    | nil => simp at hh
    | cons c tail => exact hne ⟨tail, by rw [Option.some.inj hh]⟩
  have hlower : ∀ host : Str, host <+: h → ∀ t : Str, t.head? ≠ some '[' → (host.toLowercase ++ t).head? ≠ some '[' := by
    rintro host ⟨t, rfl⟩ u hu hcontra
    rw [List.head?_append] at hcontra
    cases hl : host.toLowercase.head? with
    | none =>
      rw [hl, Option.none_or] at hcontra
      exact hu hcontra
    | some c =>
      rw [hl, Option.some_or] at hcontra
      have := inert_bracket.of_head_toLowercase (hl.trans hcontra)
      rw [List.head?_append, this] at hhead
      exact hhead rfl
  cases hr : h.rsplitOnce ':' with
  | none =>
    have hsplit := splitHostPort_rsplit hhead
    rw [hr] at hsplit
    rw [netloc_dropped hsplit rfl, ← List.append_nil h.toLowercase] at hb
    exact hlower h (List.prefix_refl h) [] (by simp) hb
  | some q =>
    obtain ⟨host, port⟩ := q
    have hsplit := splitHostPort_rsplit hhead
    have hprefix : host <+: h := ⟨_, (rsplitOnce_eq_some.mp hr).1.symm⟩
    rw [hr] at hsplit
    cases hk : keptPort defaultPort (some port) with
    | none =>
      rw [netloc_dropped hsplit hk, ← List.append_nil host.toLowercase] at hb
      exact hlower host hprefix [] (by simp) hb
    | some p =>
      rw [netloc_kept hsplit hk] at hb
      exact hlower host hprefix (':' :: Str.ofNat p) (by simp) hb

/-! ### Lengths -/

/-- An authority in lower case does not grow. -/
theorem length_netloc_le {defaultPort : Option ℕ} {h : Str} (hlow : ∀ c ∈ h, Lowered c) :
    (netloc defaultPort h).length ≤ h.length := by
  obtain ⟨⟨host, port⟩, hs⟩ : ∃ hp, splitHostPort h = hp := ⟨_, rfl⟩
  have hhost : host.toLowercase = host := toLowercase_of_lowered fun c hc =>
    hlow c (mem_splitHostPort_fst (hs ▸ hc))
  have hlen : host.length + (port.elim 0 fun t => t.length + 1) ≤ h.length := by
    unfold splitHostPort at hs
    split at hs
    · next rest =>
      split at hs
      · next addr after hsplit =>
        obtain ⟨rfl, -⟩ := splitOnce_eq_some.mp hsplit
        cases hs
        cases ha : after.stripPrefix ":" with
        | none => simp
        | some t =>
          rw [stripPrefix_eq_some.mp ha]
          simp
          omega
      · cases hs
        simp
    · split at hs
      · next host' port' hsplit =>
        cases hs
        rw [(rsplitOnce_eq_some.mp hsplit).1]
        simp
      · cases hs
        simp
  cases hk : keptPort defaultPort port with
  | none =>
    rw [netloc_dropped hs hk, hhost]
    omega
  | some p =>
    obtain ⟨-, -, t, rfl, hparse⟩ := keptPort_eq_some hk
    rw [netloc_kept hs hk, hhost]
    have := length_ofNat_le hparse
    simp only [Option.elim_some] at hlen
    simp only [List.length_append, List.length_cons]
    omega

/-- A beginning of a URL in lower case does not grow. -/
theorem length_normalizeStripped_le {scheme authority path s : Str} (hscheme : ∀ c ∈ scheme, Lowered c)
    (hfirst : scheme.splitOnceStr "://" = none) (hauthority : ∀ c ∈ authority, Lowered c)
    (hpath : ∀ c ∈ path.head?, c = '/') (hs : s <+: scheme ++ (("://" : Str) ++ (authority ++ path))) :
    (normalizeStripped s).length ≤ s.length := by
  obtain ⟨t, ht⟩ := hs
  cases hsplit : s.splitOnceStr "://" with
  | none =>
    have hlow : ∀ c ∈ s, Lowered c := by
      -- the beginning ends before `://` does
      have hpre : s <+: scheme ++ ("://" : Str) := by
        have h1 : s <+: scheme ++ ("://" : Str) ++ (authority ++ path) := ⟨t, by rw [ht, List.append_assoc]⟩
        rcases List.prefix_or_prefix_of_prefix h1 (List.prefix_append _ _) with h | ⟨u, rfl⟩
        · exact h
        · rw [List.append_assoc] at hsplit
          exact absurd rfl (splitOnceStr_eq_none.mp hsplit scheme u)
      intro c hc
      rcases List.mem_append.mp (hpre.subset hc) with hc | hc
      · exact hscheme c hc
      · rw [schemeEnd] at hc
        simp only [List.mem_cons, List.not_mem_nil, or_false] at hc
        rcases hc with rfl | rfl | rfl
        · exact inert_colon.lowered
        · exact inert_slash.lowered
        · exact inert_slash.lowered
    rw [normalizeStripped, hsplit, toLowercase_of_lowered hlow]
  | some q =>
    obtain ⟨a, b⟩ := q
    obtain ⟨rfl, -⟩ := splitOnceStr_eq_some hsplit
    obtain ⟨rfl, hb⟩ : a = scheme ∧ b ++ t = authority ++ path := by
      have h1 := splitOnceStr_append (y := b ++ t) (splitOnceStr_fst hsplit)
      rw [List.append_assoc, List.append_assoc] at ht
      rw [ht, splitOnceStr_append hfirst] at h1
      simpa [eq_comm] using h1
    have hlow : ∀ c ∈ dropUserinfo (authorityOf b), Lowered c := by
      have hpre : authorityOf b <+: authority ++ path :=
        hb ▸ ((List.takeWhile_prefix _).trans (List.takeWhile_prefix _)).trans (List.prefix_append b t)
      have hsub : authorityOf b <+: authority := by
        rcases List.prefix_or_prefix_of_prefix hpre (List.prefix_append authority path) with h | ⟨u, hu⟩
        · exact h
        · rw [← hu, List.prefix_append_right_inj] at hpre
          cases u with
          | nil => simp [← hu]
          | cons c u =>
            obtain ⟨v, rfl⟩ := hpre
            obtain rfl := hpath c rfl
            refine absurd ?_ (@not_slash_mem_authorityOf b)
            rw [← hu]
            simp
      exact fun c hc => hauthority c (hsub.subset (mem_dropUserinfo hc))
    have h1 := @length_netloc_le (gitDefaultPort a.toLowercase) _ hlow
    have h2 : (dropUserinfo (authorityOf b)).length ≤ (authorityOf b).length := by
      unfold dropUserinfo
      split
      · next hs =>
        rw [(rsplitOnce_eq_some.mp hs).1]
        simp
        omega
      · exact le_refl _
    have h3 : (authorityOf b).length + (pathOf b).length ≤ b.length := by
      rw [authorityOf, pathOf, ← List.length_append, List.takeWhile_append_dropWhile]
      exact (List.takeWhile_prefix _).length_le
    rw [normalizeStripped, hsplit]
    simp only [List.length_append, toLowercase_of_lowered hscheme] at h1 ⊢
    omega

/-! ### Settled URLs -/

/-- The end of the URL that is written, from a `/` on: the path or, where there is none, the host behind `://`,
unless a port ends the URL. -/
def writtenEnd (defaultPort : Option ℕ) (hostAndPort path : Str) : Str :=
  if path = [] then
    match keptPort defaultPort (splitHostPort hostAndPort).2 with
    | some _ => []
    | none => '/' :: (splitHostPort hostAndPort).1.toLowercase
  else path

/-- A URL that `normalize_git_url` brings to an end in one run: it drops no port in front of another one, and
uncovers no end that a further run takes off. -/
def Settled (url : Str) : Prop :=
  match (stripEnds url).splitOnceStr "://" with
  | none => ¬ LooseEnd (stripEnds url).toLowercase
  | some (scheme, rest) =>
    let defaultPort := gitDefaultPort scheme.toLowercase
    let hostAndPort := dropUserinfo (authorityOf rest)
    PortStable defaultPort hostAndPort ∧ ¬ LooseEnd (writtenEnd defaultPort hostAndPort (pathOf rest))

instance (url : Str) : Decidable (Settled url) :=
  match hs : (stripEnds url).splitOnceStr "://" with
  | none => decidable_of_iff (¬ LooseEnd (stripEnds url).toLowercase) (by rw [Settled, hs])
  | some (scheme, rest) =>
    decidable_of_iff (PortStable (gitDefaultPort scheme.toLowercase) (dropUserinfo (authorityOf rest)) ∧
      ¬ LooseEnd (writtenEnd (gitDefaultPort scheme.toLowercase) (dropUserinfo (authorityOf rest)) (pathOf rest)))
      (by rw [Settled, hs])

example : Settled "https://h/a/" ∧ ¬ Settled "https://h/a//" := by decide

/-- The end of what is written is the end of the URL. -/
theorem looseEnd_written {scheme h path : Str} {defaultPort : Option ℕ} (hpath : ∀ c ∈ path.head?, c = '/') :
    LooseEnd (scheme ++ (("://" : Str) ++ (netloc defaultPort h ++ path))) ↔
      LooseEnd (writtenEnd defaultPort h path) := by
  obtain ⟨⟨host, port⟩, hs⟩ : ∃ hp, splitHostPort h = hp := ⟨_, rfl⟩
  cases path with
  | cons c path =>
    obtain rfl := hpath c rfl
    have : scheme ++ (("://" : Str) ++ (netloc defaultPort h ++ '/' :: path)) =
        scheme ++ (("://" : Str) ++ netloc defaultPort h) ++ '/' :: path := by simp
    rw [this, looseEnd_append_slash, writtenEnd, if_neg (by simp)]
  | nil =>
    rw [writtenEnd, if_pos rfl, hs, List.append_nil]
    cases hk : keptPort defaultPort port with
    | some p =>
      have : scheme ++ (("://" : Str) ++ (host.toLowercase ++ ':' :: Str.ofNat p)) =
          scheme ++ (("://" : Str) ++ (host.toLowercase ++ [':'])) ++ Str.ofNat p := by simp
      rw [netloc_kept hs hk, this]
      exact iff_of_false (not_looseEnd_ofNat _ p) (show ¬ LooseEnd [] by decide)
    | none =>
      have : scheme ++ (("://" : Str) ++ host.toLowercase) = scheme ++ [':', '/'] ++ '/' :: host.toLowercase := by
        simp [schemeEnd]
      rw [netloc_dropped hs hk, this, looseEnd_append_slash]

theorem head_stripEnds {url : Str} : ∀ c ∈ (stripEnds url).head?, isWhitespace c = false := by
  intro c hc
  have hpre : stripEnds url <+: url.trim := (getD_stripSuffix_isPrefix _ _).trans (getD_stripSuffix_isPrefix _ _)
  obtain ⟨t, ht⟩ := hpre
  refine not_isWhitespace_head_trim (s := url) ?_
  rw [← ht, List.head?_append, Option.mem_def.mp hc]
  rfl

theorem head_toLowercase {s : Str} (h : ∀ c ∈ s.head?, isWhitespace c = false) :
    ∀ c ∈ s.toLowercase.head?, isWhitespace c = false := by
  intro c hc
  by_contra hw
  rw [Bool.not_eq_false] at hw
  exact Bool.false_ne_true ((h c ((inert_of_isWhitespace hw).of_head_toLowercase hc)).symm.trans hw)

/-- Without `://`, a URL is in lower case when it is written; only its end can change after that. -/
theorem normalizeGitUrl_twice_of_none {url : Str} (hs : (stripEnds url).splitOnceStr "://" = none) :
    normalizeGitUrl url = (stripEnds url).toLowercase ∧
      (normalizeGitUrl (normalizeGitUrl url) = normalizeGitUrl url ↔ ¬ LooseEnd (normalizeGitUrl url)) := by
  have hout : normalizeGitUrl url = (stripEnds url).toLowercase := by
    rw [normalizeGitUrl, normalizeStripped, hs]
  have hhead := head_toLowercase (@head_stripEnds url)
  have hlow : ∀ s : Str, s <+: (stripEnds url).toLowercase → normalizeStripped s = s := by
    rintro s ⟨t, ht⟩
    have hnone := splitOnceStr_toLowercase hs
    rw [← ht, splitOnceStr_eq_none] at hnone
    have : s.splitOnceStr "://" = none := splitOnceStr_eq_none.mpr fun a b hab => hnone a (b ++ t) (by simp [hab])
    rw [normalizeStripped, this]
    exact toLowercase_of_lowered fun c hc => lowered_toLowercase _ c (ht ▸ List.mem_append_left _ hc)
  refine ⟨hout, ?_⟩
  rw [hout, normalizeGitUrl, hlow _ (stripEnds_isPrefix hhead), stripEnds_eq_self hhead]

section

variable {url scheme rest : Str} (hs : (stripEnds url).splitOnceStr "://" = some (scheme, rest))

include hs

theorem normalizeGitUrl_of_some :
    normalizeGitUrl url = scheme.toLowercase ++ (("://" : Str) ++
      (netloc (gitDefaultPort scheme.toLowercase) (dropUserinfo (authorityOf rest)) ++ pathOf rest)) := by
  rw [normalizeGitUrl, normalizeStripped, hs]

theorem splitOnceStr_scheme : scheme.toLowercase.splitOnceStr "://" = none :=
  splitOnceStr_toLowercase (splitOnceStr_fst hs)

theorem head_normalizeGitUrl_of_some : ∀ c ∈ (normalizeGitUrl url).head?, isWhitespace c = false := by
  have hscheme : ∀ c ∈ scheme.head?, isWhitespace c = false := by
    intro c hc
    apply @head_stripEnds url c
    rw [(splitOnceStr_eq_some hs).1, List.head?_append, Option.mem_def.mp hc]
    rfl
  intro c hc
  rw [normalizeGitUrl_of_some hs, List.head?_append] at hc
  cases hl : scheme.toLowercase with
  | nil =>
    rw [hl, schemeEnd] at hc
    obtain rfl : ':' = c := by simpa using hc
    decide
  | cons d l =>
    refine head_toLowercase hscheme c ?_
    rw [hl]
    simpa [hl] using hc

/-- The authority of a URL is found again in what is written. -/
theorem authority_of_some :
    (normalizeGitUrl url).splitOnceStr "://" = some (scheme.toLowercase,
        netloc (gitDefaultPort scheme.toLowercase) (dropUserinfo (authorityOf rest)) ++ pathOf rest) ∧
      authorityOf (netloc (gitDefaultPort scheme.toLowercase) (dropUserinfo (authorityOf rest)) ++ pathOf rest) =
        netloc (gitDefaultPort scheme.toLowercase) (dropUserinfo (authorityOf rest)) := by
  refine ⟨?_, (authorityOf_append ?_ ?_ head_pathOf not_mem_pathOf).1⟩
  · rw [normalizeGitUrl_of_some hs, splitOnceStr_append (splitOnceStr_scheme hs)]
  · exact fun hc => not_slash_mem_authorityOf (mem_dropUserinfo (of_mem_netloc inert_slash (by decide) rfl hc))
  · exact fun hc => not_question_mem_authorityOf (mem_dropUserinfo (of_mem_netloc inert_question (by decide) rfl hc))

/-- With `://`, a URL is its own normal form when its authority is and nothing is taken off its end. -/
theorem normalizeGitUrl_twice_of_some :
    normalizeGitUrl (normalizeGitUrl url) = normalizeGitUrl url ↔
      PortStable (gitDefaultPort scheme.toLowercase) (dropUserinfo (authorityOf rest)) ∧
        ¬ LooseEnd (normalizeGitUrl url) := by
  set sch := scheme.toLowercase with hsch
  set h := dropUserinfo (authorityOf rest) with hh
  set path := pathOf rest
  set nl := netloc (gitDefaultPort sch) h with hnl
  have hout : normalizeGitUrl url = sch ++ (("://" : Str) ++ (nl ++ path)) := normalizeGitUrl_of_some hs
  have hschlow : ∀ c ∈ sch, Lowered c := lowered_toLowercase scheme
  have hfirst : sch.splitOnceStr "://" = none := splitOnceStr_scheme hs
  have hpath : ∀ c ∈ path.head?, c = '/' := head_pathOf
  have hwritten : normalizeStripped (sch ++ (("://" : Str) ++ (nl ++ path))) =
      sch ++ (("://" : Str) ++ (netloc (gitDefaultPort sch) nl ++ path)) := by
    apply normalizeStripped_written hschlow hfirst _ _ _ hpath not_mem_pathOf
    · exact fun hc => not_slash_mem_authorityOf (mem_dropUserinfo (of_mem_netloc inert_slash (by decide) rfl hc))
    · exact fun hc =>
        not_question_mem_authorityOf (mem_dropUserinfo (of_mem_netloc inert_question (by decide) rfl hc))
    · exact fun hc => not_mem_dropUserinfo (of_mem_netloc inert_at (by decide) rfl hc)
  have hnllow : ∀ c ∈ nl, Lowered c := lowered_netloc (gitDefaultPort sch) h
  have hhead : ∀ c ∈ (sch ++ (("://" : Str) ++ (nl ++ path))).head?, isWhitespace c = false :=
    hout ▸ head_normalizeGitUrl_of_some hs
  rw [hout, normalizeGitUrl]
  by_cases hloose : LooseEnd (sch ++ (("://" : Str) ++ (nl ++ path)))
  · -- the end that is taken off does not come back
    have hpre := stripEnds_isPrefix hhead
    have hlen := length_normalizeStripped_le hschlow hfirst hnllow hpath hpre
    have hne : stripEnds (sch ++ (("://" : Str) ++ (nl ++ path))) ≠ sch ++ (("://" : Str) ++ (nl ++ path)) :=
      fun heq => (stripEnds_eq_self hhead).mp heq hloose
    have hlt := lt_of_le_of_ne hpre.length_le fun heq => hne (hpre.eq_of_length heq)
    refine iff_of_false (fun heq => ?_) fun hand => hand.2 hloose
    rw [heq] at hlen
    omega
  · rw [(stripEnds_eq_self hhead).mpr hloose, hwritten, and_iff_left hloose, ← netloc_netloc_iff, ← hnl]
    simp

end

/-- **A normalized Git URL is its own normal form just when the URL is settled.** -/
theorem normalizeGitUrl_twice_iff {url : Str} :
    normalizeGitUrl (normalizeGitUrl url) = normalizeGitUrl url ↔ Settled url := by
  cases hs : (stripEnds url).splitOnceStr "://" with
  | none =>
    obtain ⟨hout, hiff⟩ := normalizeGitUrl_twice_of_none hs
    rw [hiff, hout, Settled, hs]
  | some q =>
    obtain ⟨scheme, rest⟩ := q
    rw [normalizeGitUrl_twice_of_some hs, normalizeGitUrl_of_some hs, looseEnd_written head_pathOf, Settled, hs]

/-- A normalized URL that is its own normal form, by its own text: nothing is taken off its end, and the port of its
authority is written as it is kept. -/
def Tidy (url : Str) : Prop :=
  ¬ LooseEnd url ∧ ∀ q ∈ url.splitOnceStr "://",
    (authorityOf q.2).head? ≠ some '[' → PortWritten (gitDefaultPort q.1) (authorityOf q.2)

instance (url : Str) : Decidable (Tidy url) :=
  inferInstanceAs (Decidable (_ ∧ ∀ q ∈ url.splitOnceStr "://", _))

/-- **What was normalized is its own normal form just when it is tidy.** -/
theorem normalizeGitUrl_eq_self_iff (url : Str) :
    normalizeGitUrl (normalizeGitUrl url) = normalizeGitUrl url ↔ Tidy (normalizeGitUrl url) := by
  cases hs : (stripEnds url).splitOnceStr "://" with
  | none =>
    obtain ⟨hout, hiff⟩ := normalizeGitUrl_twice_of_none hs
    have hnone : (normalizeGitUrl url).splitOnceStr "://" = none := hout ▸ splitOnceStr_toLowercase hs
    rw [hiff, Tidy, hnone]
    simp
  | some q =>
    obtain ⟨scheme, rest⟩ := q
    obtain ⟨hsplit, hauthority⟩ := authority_of_some hs
    rw [normalizeGitUrl_twice_of_some hs, Tidy, hsplit, and_comm, ← netloc_netloc_iff]
    refine and_congr_right fun _ => ?_
    set dp := gitDefaultPort scheme.toLowercase with hdp
    set h := dropUserinfo (authorityOf rest)
    have hport : netloc dp (netloc dp h) = netloc dp h ↔
        ((netloc dp h).head? ≠ some '[' → PortWritten dp (netloc dp h)) := by
      by_cases hb : (netloc dp h).head? = some '['
      · obtain ⟨tail, htail⟩ := bracket_of_head_netloc hb
        exact iff_of_true (by rw [htail]; exact netloc_netloc_bracket dp tail) fun hne => absurd hb hne
      · rw [netloc_eq_self_iff (lowered_netloc dp h) hb]
        exact ⟨fun hw _ => hw, fun hw => hw hb⟩
    rw [hport]
    constructor
    · intro hw q heq
      obtain rfl := Option.some.inj heq
      rw [hauthority]
      exact hw
    · intro hw
      have := hw _ rfl
      rwa [hauthority] at this

end Milpa.Core
