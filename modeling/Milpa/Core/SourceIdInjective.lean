import Milpa.Core.GitUrl

/-!
# Which sources share a canonical string

`canonical` joins the fields of a source with delimiters that begin with `#`, and
`normalize_source` keeps the delimiters out of the fields before them. The
repository of an OCI source is the exception: it may hold `#digest=`, so a repository
that ends in a digest and no digest, and the repository without it and that digest, share
one string. Nothing else does (`canonical_injective_iff`).
-/

namespace Milpa.Core

/-! ### Delimiters -/

/-- What is shorter than the delimiter before a `#` is nothing: the only `#` of the delimiter is its first
character. -/
theorem delim_prefix {rest m v w : Str} (hrest : '#' ∉ rest) (hm : m ≠ [])
    (h : ('#' :: rest) ++ v = m ++ '#' :: w) : ∃ m', m = '#' :: rest ++ m' := by
  rcases List.append_eq_append_iff.mp h with ⟨m', rfl, -⟩ | ⟨c, hc, hw⟩
  · exact ⟨m', rfl⟩
  · cases m with
    | nil => exact absurd rfl hm
    | cons x m =>
      cases c with
      | nil => exact ⟨[], by simpa using hc.symm⟩
      | cons y c =>
        simp only [List.cons_append, List.cons.injEq] at hc hw
        rw [hc.2, ← hw.1] at hrest
        simp at hrest

/-- A text without the delimiter, and a text that begins with its only `#` and not with the delimiter, do
not make it when joined. -/
theorem not_contains_append (rest : Str) {a : Str} (b : Str) (hrest : '#' ∉ rest) (ha : a.containsStr ('#' :: rest) = false)
    (hb : '#' ∉ b) (hne : ∀ v, '#' :: b ≠ '#' :: rest ++ v) : Str.containsStr (a ++ '#' :: b) ('#' :: rest) = false := by
  rw [Bool.eq_false_iff, Ne, Str.containsStr_iff] at ha ⊢
  rintro ⟨u, v, h⟩
  rcases List.append_eq_append_iff.mp h with ⟨m, rfl, hm⟩ | ⟨m, rfl, hm⟩
  · cases m with
    | nil => exact hne v hm
    | cons x m =>
      simp only [List.cons_append, List.cons.injEq] at hm
      rw [hm.2] at hb
      simp at hb
  · by_cases hnil : m = []
    · subst hnil
      exact hne v (by simpa using hm.symm)
    · obtain ⟨m', rfl⟩ := delim_prefix hrest hnil hm
      exact ha ⟨u, m', rfl⟩

/-- **What precedes an optional suffix and what is in it can be told apart**, when the delimiter is not in what
precedes. -/
theorem append_optSuffix_inj (rest : Str) {a b : Str} {x y : Option Str} (hrest : '#' ∉ rest)
    (ha : a.containsStr ('#' :: rest) = false) (hb : b.containsStr ('#' :: rest) = false)
    (h : a ++ optSuffix ('#' :: rest) x = b ++ optSuffix ('#' :: rest) y) : a = b ∧ x = y := by
  rw [Bool.eq_false_iff, Ne, Str.containsStr_iff] at ha hb
  cases x with
  | none =>
    cases y with
    | none => exact ⟨by simpa [optSuffix] using h, rfl⟩
    | some y => exact absurd ⟨b, y, by simpa [optSuffix] using h⟩ ha
  | some x =>
    cases y with
    | none => exact absurd ⟨a, x, by simpa [optSuffix] using h.symm⟩ hb
    | some y =>
      simp only [optSuffix] at h
      rcases List.append_eq_append_iff.mp h with ⟨m, rfl, hm⟩ | ⟨m, rfl, hm⟩
      · by_cases hnil : m = []
        · subst hnil
          simpa using hm
        · obtain ⟨m', rfl⟩ := delim_prefix hrest hnil hm
          exact absurd ⟨a, m', rfl⟩ hb
      · by_cases hnil : m = []
        · subst hnil
          simpa [eq_comm] using hm
        · obtain ⟨m', rfl⟩ := delim_prefix hrest hnil hm
          exact absurd ⟨b, m', rfl⟩ ha

/-- Two texts that end alike after their last `c` are alike. -/
theorem eq_of_last {c : Char} {a b x y : Str} (hx : c ∉ x) (hy : c ∉ y) (h : a ++ c :: x = b ++ c :: y) :
    a = b ∧ x = y := by
  have h₁ : Str.rsplitOnce (a ++ c :: x) c = some (a, x) := Str.rsplitOnce_eq_some.mpr ⟨rfl, hx⟩
  have h₂ : Str.rsplitOnce (b ++ c :: y) c = some (b, y) := Str.rsplitOnce_eq_some.mpr ⟨rfl, hy⟩
  rw [h, h₂] at h₁
  simpa [eq_comm] using h₁

/-- Two texts that begin alike before their first `c` are alike. -/
theorem eq_of_first {c : Char} {a b x y : Str} (ha : c ∉ a) (hb : c ∉ b) (h : a ++ c :: x = b ++ c :: y) :
    a = b ∧ x = y := by
  have h₁ : Str.splitOnce (a ++ c :: x) c = some (a, x) := Str.splitOnce_eq_some.mpr ⟨rfl, ha⟩
  have h₂ : Str.splitOnce (b ++ c :: y) c = some (b, y) := Str.splitOnce_eq_some.mpr ⟨rfl, hb⟩
  rw [h, h₂] at h₁
  simpa [eq_comm] using h₁

/-! ### The kinds, one by one -/

theorem canonical_git_inj {url₁ url₂ : Str} {ref₁ ref₂ sub₁ sub₂ : Option Str} (hu₁ : '#' ∉ url₁) (hu₂ : '#' ∉ url₂)
    (hr₁ : ∀ r ∈ ref₁, '#' ∉ r) (hr₂ : ∀ r ∈ ref₂, '#' ∉ r)
    (h : url₁ ++ refSuffix ref₁ ++ subdirSuffix sub₁ = url₂ ++ refSuffix ref₂ ++ subdirSuffix sub₂) :
    url₁ = url₂ ∧ ref₁ = ref₂ ∧ sub₁ = sub₂ := by
  have hfree : ∀ (url : Str) (ref : Option Str), '#' ∉ url → (∀ r ∈ ref, '#' ∉ r) →
      Str.containsStr (url ++ refSuffix ref) subdirDelim = false := by
    intro url ref hu hr
    cases ref with
    | none => exact not_contains_of_no_hash (by simpa [refSuffix, optSuffix] using hu)
    | some r =>
      refine not_contains_append "subdirectory=" ("ref=" ++ r) (by decide) (not_contains_of_no_hash hu) ?_ ?_
      · simpa using hr r rfl
      · intro v hv
        simp at hv
  obtain ⟨hbase, rfl⟩ := append_optSuffix_inj "subdirectory=" (by decide) (hfree _ _ hu₁ hr₁) (hfree _ _ hu₂ hr₂) h
  obtain ⟨rfl, rfl⟩ :=
    append_optSuffix_inj "ref=" (by decide) (not_contains_of_no_hash hu₁) (not_contains_of_no_hash hu₂) hbase
  exact ⟨rfl, rfl, rfl⟩

/-- The two ways in which OCI sources come to one string: they are equal, or one repository ends in the digest that
the other source has. -/
theorem canonical_oci_cases {reg₁ reg₂ repo₁ repo₂ : Str} {dig₁ dig₂ sub₁ sub₂ : Option Str}
    (hreg₁ : '/' ∉ reg₁) (hreg₂ : '/' ∉ reg₂)
    (hbase₁ : Str.containsStr (reg₁ ++ '/' :: repo₁) subdirDelim = false)
    (hbase₂ : Str.containsStr (reg₂ ++ '/' :: repo₂) subdirDelim = false)
    (hd₁ : ∀ d ∈ dig₁, '#' ∉ d) (hd₂ : ∀ d ∈ dig₂, '#' ∉ d)
    (h : reg₁ ++ '/' :: repo₁ ++ digestSuffix dig₁ ++ subdirSuffix sub₁ =
      reg₂ ++ '/' :: repo₂ ++ digestSuffix dig₂ ++ subdirSuffix sub₂) :
    reg₁ = reg₂ ∧ sub₁ = sub₂ ∧ (repo₁ = repo₂ ∧ dig₁ = dig₂ ∨
      (∃ d, dig₁ = none ∧ dig₂ = some d ∧ repo₁ = repo₂ ++ digestDelim ++ d) ∨
      ∃ d, dig₂ = none ∧ dig₁ = some d ∧ repo₂ = repo₁ ++ digestDelim ++ d) := by
  have hfree : ∀ (base : Str) (dig : Option Str), base.containsStr subdirDelim = false → (∀ d ∈ dig, '#' ∉ d) →
      Str.containsStr (base ++ digestSuffix dig) subdirDelim = false := by
    intro base dig hb hd
    cases dig with
    | none => simpa [digestSuffix, optSuffix] using hb
    | some d =>
      refine not_contains_append "subdirectory=" ("digest=" ++ d) (by decide) hb ?_ ?_
      · simpa using hd d rfl
      · intro v hv
        simp at hv
  obtain ⟨hdig, rfl⟩ := append_optSuffix_inj "subdirectory=" (by decide) (hfree _ _ hbase₁ hd₁) (hfree _ _ hbase₂ hd₂) h
  cases dig₁ with
  | none =>
    cases dig₂ with
    | none =>
      obtain ⟨rfl, rfl⟩ := eq_of_first hreg₁ hreg₂ (by simpa [digestSuffix, optSuffix] using hdig)
      exact ⟨rfl, rfl, Or.inl ⟨rfl, rfl⟩⟩
    | some d =>
      obtain ⟨rfl, rfl⟩ := eq_of_first (x := repo₁) (y := repo₂ ++ digestDelim ++ d) hreg₁ hreg₂
        (by simpa [digestSuffix, optSuffix] using hdig)
      exact ⟨rfl, rfl, Or.inr (Or.inl ⟨d, rfl, rfl, rfl⟩)⟩
  | some d =>
    cases dig₂ with
    | none =>
      obtain ⟨rfl, rfl⟩ := eq_of_first (x := repo₁ ++ digestDelim ++ d) (y := repo₂) hreg₁ hreg₂
        (by simpa [digestSuffix, optSuffix] using hdig)
      exact ⟨rfl, rfl, Or.inr (Or.inr ⟨d, rfl, rfl, rfl⟩)⟩
    | some e =>
      obtain ⟨hbase, hde⟩ := eq_of_last (c := '#') (x := "digest=" ++ d) (y := "digest=" ++ e)
        (by simpa using hd₁ d rfl) (by simpa using hd₂ e rfl) hdig
      obtain ⟨rfl, rfl⟩ := eq_of_first hreg₁ hreg₂ hbase
      exact ⟨rfl, rfl, Or.inl ⟨rfl, by simpa using hde⟩⟩

theorem slash_not_mem_of_validFlagName {s : Str} (h : validFlagName s = true) : '/' ∉ s := by
  intro hs
  simp only [validFlagName, Bool.and_eq_true, List.all_eq_true] at h
  have := h.2 '/' hs
  revert this
  decide

theorem hash_not_mem_of_validateGitRef {gitRef : Option Str} (h : validateGitRef gitRef = .ok ()) :
    ∀ r ∈ gitRef, '#' ∉ r := by
  rintro r hr
  cases hr
  simp only [validateGitRef, Result.bind_eq_ok, rejectIf_eq_ok] at h
  exact h.choose_spec.1

theorem hash_not_mem_of_validateDigest {digest : Option Str} (h : validateDigest digest = .ok ()) :
    ∀ d ∈ digest, '#' ∉ d := by
  rintro d hd
  cases hd
  simpa [validateDigest] using h

theorem canonical_git_eq {url₁ url₂ : Str} {ref₁ ref₂ sub₁ sub₂ : Option Str}
    (hs : Accepted (.fetchable (.git url₁ ref₁ sub₁))) (ht : Accepted (.fetchable (.git url₂ ref₂ sub₂)))
    (h : canonical (normalForm (.fetchable (.git url₁ ref₁ sub₁))) =
      canonical (normalForm (.fetchable (.git url₂ ref₂ sub₂)))) :
    normalForm (.fetchable (.git url₁ ref₁ sub₁)) = normalForm (.fetchable (.git url₂ ref₂ sub₂)) := by
  obtain ⟨hu₁, -, -, -, hr₁⟩ := hs
  obtain ⟨hu₂, -, -, -, hr₂⟩ := ht
  have hn₁ : '#' ∉ normalizeGitUrl url₁ := fun hc => hu₁ (foreign_hash.of_mem_normalizeGitUrl hc)
  have hn₂ : '#' ∉ normalizeGitUrl url₂ := fun hc => hu₂ (foreign_hash.of_mem_normalizeGitUrl hc)
  obtain ⟨hurl, rfl, rfl⟩ := canonical_git_inj hn₁ hn₂ (hash_not_mem_of_validateGitRef hr₁)
    (hash_not_mem_of_validateGitRef hr₂) (List.append_cancel_left h)
  rw [normalForm, normalForm, hurl]

theorem canonical_registry_eq {reg₁ reg₂ name₁ name₂ : Str} {ns₁ ns₂ : Option Str}
    (hs : Accepted (.fetchable (.registry reg₁ ns₁ name₁))) (ht : Accepted (.fetchable (.registry reg₂ ns₂ name₂)))
    (h : canonical (.fetchable (.registry reg₁ ns₁ name₁)) = canonical (.fetchable (.registry reg₂ ns₂ name₂))) :
    SourceId.fetchable (.registry reg₁ ns₁ name₁) = .fetchable (.registry reg₂ ns₂ name₂) := by
  have hr₁ := slash_not_mem_of_validFlagName hs.1
  have hr₂ := slash_not_mem_of_validFlagName ht.1
  have hn₁ := slash_not_mem_of_validFlagName hs.2.2
  have hn₂ := slash_not_mem_of_validFlagName ht.2.2
  cases ns₁ with
  | none =>
    cases ns₂ with
    | none =>
      obtain ⟨rfl, rfl⟩ := eq_of_first hr₁ hr₂ (List.append_cancel_left h)
      rfl
    | some ns₂ =>
      obtain ⟨-, rfl⟩ := eq_of_first hr₁ hr₂ (List.append_cancel_left h)
      simp at hn₁
  | some ns₁ =>
    cases ns₂ with
    | none =>
      obtain ⟨-, rfl⟩ := eq_of_first hr₁ hr₂ (List.append_cancel_left h)
      simp at hn₂
    | some ns₂ =>
      obtain ⟨rfl, hrest⟩ := eq_of_first hr₁ hr₂ (List.append_cancel_left h)
      obtain ⟨rfl, rfl⟩ := eq_of_last hn₁ hn₂ hrest
      rfl

/-- The character that the canonical strings of a kind begin with. -/
def kindChar : SourceId → Char
  | .fetchable (.git ..) => 'g'
  | .fetchable (.oci ..) => 'o'
  | .fetchable (.tarball ..) => 't'
  | .fetchable (.local ..) => 'f'
  | .fetchable (.registry ..) => 'p'
  | .member _ => 'm'

theorem head_canonical (s : SourceId) : (canonical s).head? = some (kindChar s) := by
  match s with
  | .fetchable (.git ..) => rfl
  | .fetchable (.oci ..) => rfl
  | .fetchable (.tarball ..) => rfl
  | .fetchable (.local ..) => rfl
  | .fetchable (.registry _ none _) => rfl
  | .fetchable (.registry _ (some _) _) => rfl
  | .member _ => rfl

theorem kindChar_normalForm (s : SourceId) : kindChar (normalForm s) = kindChar s := by
  match s with
  | .fetchable (.git ..) => rfl
  | .fetchable (.oci ..) => rfl
  | .fetchable (.tarball ..) => rfl
  | .fetchable (.local ..) => rfl
  | .fetchable (.registry ..) => rfl
  | .member _ => rfl

/-! ### Injectivity -/

/-- One source is an OCI source without a digest whose repository ends in `#digest=` and a text, and the other the
same but with that text as the digest. -/
def DigestClash (s t : SourceId) : Prop :=
  ∃ registry repository d subpath,
    s = .fetchable (.oci registry (repository ++ digestDelim ++ d) none subpath) ∧
      t = .fetchable (.oci registry repository (some d) subpath)

theorem DigestClash.canonical_eq {s t : SourceId} (h : DigestClash s t) :
    canonical (normalForm s) = canonical (normalForm t) ∧ normalForm s ≠ normalForm t := by
  obtain ⟨registry, repository, d, subpath, rfl, rfl⟩ := h
  rw [normalForm_oci, normalForm_oci, canonical_oci, canonical_oci]
  constructor
  · simp only [digestSuffix, optSuffix, List.append_assoc, List.cons_append, List.nil_append]
  · intro heq
    injection heq with heq
    injection heq with _ _ hdigest _
    cases hdigest

/-- Accepted sources with one canonical string have one normal form, or clash. -/
theorem canonical_eq_cases {s t : SourceId} (hs : Accepted s) (ht : Accepted t)
    (h : canonical (normalForm s) = canonical (normalForm t)) :
    normalForm s = normalForm t ∨ DigestClash s t ∨ DigestClash t s := by
  have hkind : kindChar s = kindChar t := by
    have := head_canonical (normalForm s)
    rw [h, head_canonical, kindChar_normalForm, kindChar_normalForm] at this
    simpa [eq_comm] using this
  match s with
  | .fetchable (.git url ref sub) =>
    match t with
    | .fetchable (.git ..) => exact Or.inl (canonical_git_eq hs ht h)
    | .fetchable (.oci ..) | .fetchable (.tarball ..) | .fetchable (.local ..) | .fetchable (.registry ..) | .member _ =>
      simp [kindChar] at hkind
  | .fetchable (.oci ..) =>
    match t with
    | .fetchable (.oci ..) =>
      obtain ⟨hreg₁, -, -, hb₁, -, hd₁⟩ := hs
      obtain ⟨hreg₂, -, -, hb₂, -, hd₂⟩ := ht
      obtain ⟨rfl, rfl, ⟨rfl, rfl⟩ | ⟨d, rfl, rfl, rfl⟩ | ⟨d, rfl, rfl, rfl⟩⟩ :=
        canonical_oci_cases hreg₁ hreg₂ hb₁ hb₂ (hash_not_mem_of_validateDigest hd₁)
          (hash_not_mem_of_validateDigest hd₂) (List.append_cancel_left h)
      · exact Or.inl rfl
      · exact Or.inr (Or.inl ⟨_, _, _, _, rfl, rfl⟩)
      · exact Or.inr (Or.inr ⟨_, _, _, _, rfl, rfl⟩)
    | .fetchable (.git ..) | .fetchable (.tarball ..) | .fetchable (.local ..) | .fetchable (.registry ..) | .member _ =>
      simp [kindChar] at hkind
  | .fetchable (.tarball ..) =>
    match t with
    | .fetchable (.tarball ..) =>
      obtain ⟨rfl, rfl⟩ := append_optSuffix_inj "subdirectory=" (by decide) hs.2.1 ht.2.1 (List.append_cancel_left h)
      exact Or.inl rfl
    | .fetchable (.git ..) | .fetchable (.oci ..) | .fetchable (.local ..) | .fetchable (.registry ..) | .member _ =>
      simp [kindChar] at hkind
  | .fetchable (.local path) =>
    match t with
    | .fetchable (.local path') =>
      obtain rfl : path = path' := List.append_cancel_left h
      exact Or.inl rfl
    | .fetchable (.git ..) | .fetchable (.oci ..) | .fetchable (.tarball ..) | .fetchable (.registry ..) | .member _ =>
      simp [kindChar] at hkind
  | .fetchable (.registry ..) =>
    match t with
    | .fetchable (.registry ..) => exact Or.inl (canonical_registry_eq hs ht h)
    | .fetchable (.git ..) | .fetchable (.oci ..) | .fetchable (.tarball ..) | .fetchable (.local ..) | .member _ =>
      simp [kindChar] at hkind
  | .member name =>
    match t with
    | .member name' =>
      obtain rfl : name = name' := List.append_cancel_left h
      exact Or.inl rfl
    | .fetchable (.git ..) | .fetchable (.oci ..) | .fetchable (.tarball ..) | .fetchable (.local ..)
    | .fetchable (.registry ..) => simp [kindChar] at hkind

/-- **The canonical string tells the accepted sources apart, but for digest clashes.** -/
theorem canonical_injective_iff {s t s' t' : SourceId} (hs : normalizeSource s = .ok s') (ht : normalizeSource t = .ok t') :
    (canonical s' = canonical t' → s' = t') ↔ ¬ DigestClash s t ∧ ¬ DigestClash t s := by
  obtain ⟨has, rfl⟩ := normalizeSource_eq_ok.mp hs
  obtain ⟨hat, rfl⟩ := normalizeSource_eq_ok.mp ht
  constructor
  · intro h
    refine ⟨fun hc => ?_, fun hc => ?_⟩
    · exact hc.canonical_eq.2 (h hc.canonical_eq.1)
    · exact hc.canonical_eq.2 (h hc.canonical_eq.1.symm).symm
  · rintro ⟨h₁, h₂⟩ h
    rcases canonical_eq_cases has hat h with h | h | h
    · exact h
    · exact absurd h h₁
    · exact absurd h h₂

theorem canonical_injective_iff_tarball_git :
    (canonical (.fetchable (.tarball "https://h/x" none)) = canonical (.fetchable (.git "https://h/x" none none)) →
      SourceId.fetchable (.tarball "https://h/x" none) = .fetchable (.git "https://h/x" none none)) ↔
    ¬ DigestClash (.fetchable (.tarball "https://h/x" none)) (.fetchable (.git "HTTPS://h/x.git" none none)) ∧
      ¬ DigestClash (.fetchable (.git "HTTPS://h/x.git" none none)) (.fetchable (.tarball "https://h/x" none)) :=
  canonical_injective_iff (by decide) (by decide)

/-- **Two pins, one string**: a repository that ends in a digest, and the digest of the repository. -/
theorem canonical_digest_clash :
    let s : SourceId := .fetchable (.oci "r.io" "lib#digest=sha256:ab" none none)
    let t : SourceId := .fetchable (.oci "r.io" "lib" (some "sha256:ab") none)
    normalizeSource s = .ok s ∧ normalizeSource t = .ok t ∧ canonical s = canonical t ∧ s ≠ t := by
  decide

end Milpa.Core
