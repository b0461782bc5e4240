import Milpa.Core.SourceId

/-!
# The characters of a normalized Git URL

`normalize_git_url` drops parts of a URL, lowers two of them and writes a port: the
characters that lowering leaves alone come from the URL, but for `:`, `/` and digits.
-/

namespace Milpa.Core

open Milpa.Str

theorem mem_getD_stripSuffix {c : Char} {s p : Str} (h : c ∈ (s.stripSuffix p).getD s) : c ∈ s := by
  cases hs : s.stripSuffix p with
  | none => simpa [hs] using h
  | some r =>
    rw [hs] at h
    rw [stripSuffix_eq_some.mp hs]
    exact List.mem_append_left _ h

theorem mem_stripEnds {c : Char} {url : Str} (h : c ∈ stripEnds url) : c ∈ url :=
  mem_trim (mem_getD_stripSuffix (mem_getD_stripSuffix h))

theorem mem_dropUserinfo {c : Char} {authority : Str} (h : c ∈ dropUserinfo authority) : c ∈ authority := by
  unfold dropUserinfo at h
  split at h
  · next a b hs =>
    rw [(rsplitOnce_eq_some.mp hs).1]
    exact List.mem_append_right _ (List.mem_cons_of_mem _ h)
  · exact h

theorem mem_splitHostPort_fst {c : Char} {hostAndPort : Str} (h : c ∈ (splitHostPort hostAndPort).1) :
    c ∈ hostAndPort := by
  unfold splitHostPort at h
  split at h
  · next rest =>
    split at h
    · next addr after hs =>
      rw [(splitOnce_eq_some.mp hs).1]
      simp only [List.cons_append, List.mem_cons, List.mem_append, List.not_mem_nil, or_false] at h ⊢
      tauto
    · exact h
  · split at h
    · next host port hs =>
      rw [(rsplitOnce_eq_some.mp hs).1]
      exact List.mem_append_left _ h
    · exact h

/-- `c` is neither `:` nor `/` nor a digit: `normalize_git_url` does not write it. -/
def Foreign (c : Char) : Prop := Inert c ∧ c ≠ ':' ∧ c ≠ '/' ∧ c.isDigit = false

theorem not_mem_ofNat {c : Char} (h : c.isDigit = false) (n : ℕ) : c ∉ Str.ofNat n := by
  intro hc
  have := Nat.isDigit_of_mem_toDigits (by decide) (by decide) hc
  simp [h] at this

/-- The authority that is written holds a character that is inert, no `:` and no digit only where the one read does. -/
theorem of_mem_netloc {c : Char} (hi : Inert c) (hcolon : c ≠ ':') (hdigit : c.isDigit = false)
    {defaultPort : Option ℕ} {hostAndPort : Str} (hc : c ∈ netloc defaultPort hostAndPort) : c ∈ hostAndPort := by
  have hhost : c ∈ (splitHostPort hostAndPort).1.toLowercase → c ∈ hostAndPort := fun hm =>
    mem_splitHostPort_fst (hi.mem_toLowercase.mp hm)
  unfold netloc at hc
  dsimp only at hc
  split at hc
  · rcases List.mem_append.mp hc with hc | hc
    · exact hhost hc
    · rcases List.mem_cons.mp hc with hc | hc
      · exact absurd hc hcolon
      · exact absurd hc (not_mem_ofNat hdigit _)
  · exact hhost hc

theorem mem_authorityOf {c : Char} {rest : Str} (h : c ∈ authorityOf rest) : c ∈ rest :=
  (List.takeWhile_prefix _).subset ((List.takeWhile_prefix _).subset h)

theorem mem_pathOf {c : Char} {rest : Str} (h : c ∈ pathOf rest) : c ∈ rest :=
  (List.takeWhile_prefix _).subset ((List.dropWhile_sublist _).subset h)

/-- **A foreign character of a normalized URL is one of the URL.** -/
theorem Foreign.of_mem_normalizeGitUrl {c : Char} (h : Foreign c) {url : Str} (hc : c ∈ normalizeGitUrl url) :
    c ∈ url := by
  refine mem_stripEnds ?_
  unfold normalizeGitUrl normalizeStripped at hc
  split at hc
  · exact h.1.mem_toLowercase.mp hc
  · next scheme rest hs =>
    rw [(splitOnceStr_eq_some hs).1]
    simp only [List.mem_append] at hc ⊢
    rcases hc with hc | hc | hc | hc
    · exact Or.inl (h.1.mem_toLowercase.mp hc)
    · exact Or.inr (Or.inl hc)
    · exact Or.inr (Or.inr (mem_authorityOf (mem_dropUserinfo (of_mem_netloc h.1 h.2.1 h.2.2.2 hc))))
    · exact Or.inr (Or.inr (mem_pathOf hc))

/-- The characters that are not safe are neither written nor lowered. -/
theorem foreign_of_isUnsafeChar {c : Char} (h : isUnsafeChar c = true) : Foreign c := by
  have hcases : c.toNat < 0x20 ∨ c.toNat = 0x7F ∨ c.toNat = 0x2028 ∨ c.toNat = 0x2029 := by
    simpa [isUnsafeChar, or_assoc] using h
  have hne : ∀ d : Char, isUnsafeChar d = false → c ≠ d := by
    rintro d hd rfl
    simp [h] at hd
  have hdigit : c.isDigit = false := by
    rw [Bool.eq_false_iff]
    intro hd
    have hbounds := Str.isDigit_iff.mp hd
    omega
  refine ⟨?_, hne ':' (by decide), hne '/' (by decide), hdigit⟩
  have hdot : c ≠ 'İ' := hne 'İ' (by decide)
  rcases hcases with hlow | hdel | hsep
  · exact ⟨(0, 0x40), by decide, by omega, by omega, hdot⟩
  · exact ⟨(0x7F, 0xA0), by decide, by omega, by omega, hdot⟩
  · exact ⟨(0x2028, 0x2029), by decide, by omega, by omega, hdot⟩

theorem containsUnsafeChar_normalizeGitUrl {url : Str} (h : containsUnsafeChar url = false) :
    containsUnsafeChar (normalizeGitUrl url) = false := by
  rw [containsUnsafeChar, List.any_eq_false] at h ⊢
  intro c hc hunsafe
  exact h c ((foreign_of_isUnsafeChar hunsafe).of_mem_normalizeGitUrl hc) hunsafe

theorem foreign_hash : Foreign '#' := ⟨⟨(0, 0x40), by decide, by decide, by decide, by decide⟩, by decide, by decide, by decide⟩

/-- **What was normalized is accepted again.** -/
theorem accepted_normalForm {s : SourceId} (h : Accepted s) : Accepted (normalForm s) := by
  match s, h with
  | .fetchable (.git url gitRef subpath), ⟨hhash, hunsafe, _, hsubpath, hgitRef⟩ =>
    have hhash' : '#' ∉ normalizeGitUrl (normalizeGitUrl url) := fun hc =>
      hhash (foreign_hash.of_mem_normalizeGitUrl (foreign_hash.of_mem_normalizeGitUrl hc))
    exact ⟨fun hc => hhash (foreign_hash.of_mem_normalizeGitUrl hc), containsUnsafeChar_normalizeGitUrl hunsafe,
      not_contains_of_no_hash hhash', hsubpath, hgitRef⟩
  | .fetchable (.oci registry repository digest subpath), h => exact h
  | .fetchable (.tarball url subpath), h => exact h
  | .fetchable (.local path), h => exact h
  | .fetchable (.registry registry ns name), h => exact h
  | .member memberName, h => exact h

theorem normalizeSource_of_normalized {raw sid : SourceId} (h : normalizeSource raw = .ok sid) :
    normalizeSource sid = .ok (normalForm sid) := by
  obtain ⟨haccepted, rfl⟩ := normalizeSource_eq_ok.mp h
  exact normalizeSource_eq_ok.mpr ⟨accepted_normalForm haccepted, rfl⟩

end Milpa.Core
