import Milpa.Core.WwwAuthenticate

/-!
# Token requests

What `tokenize_www_authenticate` makes of a header that RFC 7235 allows, and where the token
request goes. The challenges are the right ones if and only if each scheme and each name is
an identifier and only the first parameter of a challenge has white space before its equals
sign (`tokenize_iff`). The request reaches the realm of the first `Bearer` challenge if and
only if its two parameters are in lower case and the realm has neither a query nor a fragment.
-/

namespace Milpa.Core.WwwAuthenticate

/-! ### The challenges -/

/-- An element that is read as it is meant. -/
def Element.Plain : Element → Prop
  | .blank => True
  | .start scheme first => isIdent scheme = true ∧ ∀ f ∈ first, isIdent f.2.name = true
  | .param p => isIdent p.name = true ∧ p.before = []

theorem readable_of_isIdent {p : AuthParam} (h : isIdent p.name = true) : p.readable = some p.pair := if_pos h

/-- The first parameter of a challenge. -/
theorem insertParam_first {first : Option (Str × AuthParam)} (h : ∀ f ∈ first, isIdent f.2.name = true) :
    insertParam .empty (first.bind fun f => f.2.readable) = (first.map fun f => f.2.pair).toList.foldl (fun m p => m.insert p.1 p.2) .empty := by
  cases first with
  | none => rfl
  | some f =>
    rw [Option.bind_some, readable_of_isIdent (h f rfl)]
    rfl

theorem foldl_plain {es : List Element} (h : ∀ e ∈ es, e.Plain) (cs : List AuthChallenge) (scheme : Str) (params : BTreeMap Str Str) :
    (es.foldl Tokens.element ⟨cs, some scheme, params⟩).close =
      cs ++ ⟨scheme, (openParams es).foldl (fun m p => m.insert p.1 p.2) params⟩ :: (challenges es).map Challenge.read := by
  induction es generalizing cs scheme params with
  | nil => rfl
  | cons e es ih =>
    obtain ⟨he, hes⟩ := List.forall_mem_cons.mp h
    rw [List.foldl_cons]
    cases e with
    | blank => exact ih hes cs scheme params
    | start scheme' first =>
      rw [Tokens.element, if_pos he.1]
      show (es.foldl Tokens.element ⟨cs ++ [⟨scheme, params⟩], some scheme', insertParam .empty (first.bind fun f => f.2.readable)⟩).close = _
      rw [ih hes, insertParam_first he.2, ← List.foldl_append, List.append_assoc]
      rfl
    | param p =>
      rw [Tokens.element, if_neg fun hspaced => hspaced.2 he.2, if_neg (by simp), readable_of_isIdent he.1]
      exact ih hes cs scheme _

/-- Blank elements before the first challenge. -/
theorem foldl_blank {es : List Element} (h : ∀ e ∈ es, e = .blank) (t : Tokens) : es.foldl Tokens.element t = t := by
  induction es with
  | nil => rfl
  | cons e es ih =>
    obtain ⟨rfl, hes⟩ := List.forall_mem_cons.mp h
    exact ih hes

theorem challenges_append {es : List Element} (h : ∀ e ∈ es, e = .blank) (rest : List Element) : challenges (es ++ rest) = challenges rest := by
  induction es with
  | nil => rfl
  | cons e es ih =>
    obtain ⟨rfl, hes⟩ := List.forall_mem_cons.mp h
    exact ih hes

theorem openParams_append {es : List Element} (h : ∀ e ∈ es, e = .blank) (rest : List Element) : openParams (es ++ rest) = openParams rest := by
  induction es with
  | nil => rfl
  | cons e es ih =>
    obtain ⟨rfl, hes⟩ := List.forall_mem_cons.mp h
    exact ih hes

theorem tokenize_plain {h : Header} (hvalid : h.Valid) (hplain : ∀ e ∈ h.elements, e.Plain) :
    tokenizeWwwAuthenticate h.text = (challenges h.elements).map Challenge.read := by
  obtain ⟨es, scheme, first, rest, hstarts, hblank⟩ := hvalid.starts
  rw [tokenize_text hvalid]
  rw [hstarts] at hplain ⊢
  obtain ⟨hfirst, hrest⟩ := List.forall_mem_cons.mp fun e he => hplain e (List.mem_append_right es he)
  rw [List.foldl_append, foldl_blank hblank, challenges_append hblank, List.foldl_cons, Tokens.element, if_pos hfirst.1]
  show (rest.foldl Tokens.element ⟨[], some scheme, insertParam .empty (first.bind fun f => f.2.readable)⟩).close = _
  rw [foldl_plain hrest, insertParam_first hfirst.2, ← List.foldl_append]
  rfl

/-- What was read has identifiers only. -/
structure Tokens.Readable (t : Tokens) : Prop where
  close : ∀ c ∈ t.close, isIdent c.scheme = true ∧ ∀ k v, c.params.get? k = some v → isIdent k = true
  params : ∀ k v, t.currentParams.get? k = some v → isIdent k = true

theorem insertParam_readable {params : BTreeMap Str Str} (h : ∀ k v, params.get? k = some v → isIdent k = true) {parsed : Option (Str × Str)}
    (hparsed : ∀ p ∈ parsed, isIdent p.1 = true) : ∀ k v, (insertParam params parsed).get? k = some v → isIdent k = true := by
  intro k v hk
  cases parsed with
  | none => exact h k v hk
  | some p =>
    rw [insertParam, BTreeMap.get?_insert] at hk
    split_ifs at hk with hkey
    · exact hkey ▸ hparsed p rfl
    · exact h k v hk

theorem isIdent_of_readable {p : AuthParam} : ∀ q ∈ p.readable, isIdent q.1 = true := by
  intro q hq
  rw [AuthParam.readable] at hq
  split_ifs at hq with hname
  · obtain rfl := Option.some.inj hq
    exact hname
  · cases hq

theorem Tokens.Readable.fresh {t : Tokens} (h : t.Readable) : ∀ k v, t.fresh.get? k = some v → isIdent k = true := by
  intro k v hk
  rw [Tokens.fresh] at hk
  split_ifs at hk
  · cases hk
  · exact h.params k v hk

/-- A challenge that begins after what was read. -/
theorem Tokens.Readable.start {t : Tokens} (h : t.Readable) {scheme : Str} (hscheme : isIdent scheme = true) {params : BTreeMap Str Str}
    (hparams : ∀ k v, params.get? k = some v → isIdent k = true) : Tokens.Readable ⟨t.close, some scheme, params⟩ where
  close c hc := by
    rcases List.mem_append.mp hc with hc | hc
    · exact h.close c hc
    · obtain rfl := List.mem_singleton.mp hc
      exact ⟨hscheme, hparams⟩
  params := hparams

theorem Tokens.Readable.element {t : Tokens} (h : t.Readable) (e : Element) : (t.element e).Readable := by
  cases e with
  | blank => exact h
  | start scheme first =>
    rw [Tokens.element]
    split_ifs with hscheme
    · refine h.start hscheme (insertParam_readable h.fresh fun p hp => ?_)
      obtain ⟨f, -, hf⟩ := Option.bind_eq_some_iff.mp hp
      exact isIdent_of_readable p hf
    · exact h
  | param p =>
    rw [Tokens.element]
    split_ifs with hspaced hnone
    · exact h.start hspaced.1 h.fresh
    · exact h
    · obtain ⟨scheme, hscheme⟩ : ∃ scheme, t.currentScheme = some scheme := Option.ne_none_iff_exists'.mp (by simpa using hnone)
      have hparams := insertParam_readable h.params (isIdent_of_readable (p := p))
      refine ⟨fun c hc => ?_, hparams⟩
      have hclose := h.close
      rw [Tokens.close, hscheme] at hclose hc
      rcases List.mem_append.mp hc with hc | hc
      · exact hclose c (List.mem_append_left _ hc)
      · obtain rfl := List.mem_singleton.mp hc
        exact ⟨(hclose _ (List.mem_append_right _ (List.mem_singleton_self _))).1, hparams⟩

theorem Tokens.Readable.foldl {t : Tokens} (h : t.Readable) (es : List Element) : (es.foldl Tokens.element t).Readable := by
  induction es generalizing t with
  | nil => exact h
  | cons e es ih => exact ih (h.element e)

theorem readable_start : Tokens.Readable ⟨[], none, .empty⟩ where
  close c hc := absurd hc (by simp [Tokens.close])
  params k v hk := by cases hk

/-- An element that is taken for the start of a challenge. -/
def Element.begins : Element → Bool
  | .blank => false
  | .start scheme _ => isIdent scheme
  | .param p => isIdent p.name && decide (p.before ≠ [])

/-- The start of a challenge. -/
def Element.isStart : Element → Bool
  | .start _ _ => true
  | _ => false

theorem length_close_start (t : Tokens) (scheme : Str) (params : BTreeMap Str Str) :
    (Tokens.close ⟨t.close, some scheme, params⟩).length = t.close.length + 1 := by
  rw [Tokens.close, List.length_append]
  rfl

theorem length_close_element (t : Tokens) (e : Element) : (t.element e).close.length = t.close.length + if e.begins then 1 else 0 := by
  cases e with
  | blank => rfl
  | start scheme first =>
    rw [Tokens.element, Element.begins]
    split_ifs
    · exact length_close_start _ _ _
    · rfl
  | param p =>
    rw [Tokens.element]
    by_cases hspaced : isIdent p.name = true ∧ p.before ≠ []
    · rw [if_pos hspaced, if_pos (by simpa [Element.begins] using hspaced), length_close_start]
    · have hbegins : (Element.param p).begins = false := by simpa [Element.begins] using hspaced
      rw [if_neg hspaced, hbegins, if_neg Bool.false_ne_true, Nat.add_zero]
      split_ifs
      · rfl
      · cases hscheme : t.currentScheme <;> simp [Tokens.close, hscheme]

theorem length_close_foldl (t : Tokens) (es : List Element) :
    (es.foldl Tokens.element t).close.length = t.close.length + es.countP Element.begins := by
  induction es generalizing t with
  | nil => rfl
  | cons e es ih =>
    rw [List.foldl_cons, ih, length_close_element, List.countP_cons]
    omega

theorem length_challenges (es : List Element) : (challenges es).length = es.countP Element.isStart := by
  induction es with
  | nil => rfl
  | cons e es ih => cases e <;> simp [challenges, Element.isStart, List.countP_cons, ih]

/-- A smaller predicate that counts as much is the same one. -/
theorem of_countP_eq {α : Type*} {p q : α → Bool} {l : List α} (hle : ∀ x ∈ l, p x = true → q x = true) (hcount : l.countP q = l.countP p) :
    ∀ x ∈ l, q x = true → p x = true := by
  induction l with
  | nil => exact nofun
  | cons x l ih =>
    obtain ⟨hx, hl⟩ := List.forall_mem_cons.mp hle
    have hmono : l.countP p ≤ l.countP q := List.countP_mono_left hl
    rw [List.countP_cons, List.countP_cons] at hcount
    refine List.forall_mem_cons.mpr ⟨fun hq => ?_, ih hl ?_⟩
    · by_contra hp
      rw [if_pos hq, if_neg hp] at hcount
      omega
    · by_cases hp : p x = true
      · rw [if_pos hp, if_pos (hx hp)] at hcount
        omega
      · rw [if_neg hp] at hcount
        split_ifs at hcount <;> omega

/-- A challenge is one of the challenges, with its first parameter. -/
theorem mem_challenges {es : List Element} {scheme : Str} {first : Option (Str × AuthParam)} (h : .start scheme first ∈ es) :
    ∃ c ∈ challenges es, c.scheme = scheme ∧ ∀ f ∈ first, f.2.pair ∈ c.params := by
  induction es with
  | nil => cases h
  | cons e es ih =>
    rcases List.mem_cons.mp h with rfl | h
    · refine ⟨_, List.mem_cons_self, rfl, ?_⟩
      rintro f rfl
      exact List.mem_cons_self
    · obtain ⟨c, hc, hscheme⟩ := ih h
      refine ⟨c, ?_, hscheme⟩
      cases e with
      | start scheme' first' => exact List.mem_cons_of_mem _ hc
      | blank => exact hc
      | param p => exact hc

/-- A parameter is one of a challenge, or of none that has begun. -/
theorem mem_params {es : List Element} {p : AuthParam} (h : .param p ∈ es) : p.pair ∈ openParams es ∨ ∃ c ∈ challenges es, p.pair ∈ c.params := by
  induction es with
  | nil => cases h
  | cons e es ih =>
    cases e with
    | blank => exact ih ((List.mem_cons.mp h).resolve_left nofun)
    | start scheme first =>
      right
      rcases ih ((List.mem_cons.mp h).resolve_left nofun) with hopen | ⟨c, hc, hp⟩
      · exact ⟨_, List.mem_cons_self, List.mem_append_right _ hopen⟩
      · exact ⟨c, List.mem_cons_of_mem _ hc, hp⟩
    | param q =>
      rcases List.mem_cons.mp h with heq | h
      · cases heq
        exact .inl List.mem_cons_self
      · exact (ih h).imp_left (List.mem_cons_of_mem _)

/-! ### Parameters that are there once -/

theorem eqIgnoreAsciiCase_iff {a b : Str} : BoundedHttp.eqIgnoreAsciiCase a b = true ↔ a.map Char.toLower = b.map Char.toLower :=
  decide_eq_true_iff

/-- The parameters of a challenge are there once. -/
def Challenge.Once (c : Challenge) : Prop := c.params.Pairwise fun p q => BoundedHttp.eqIgnoreAsciiCase p.1 q.1 = false

theorem Challenge.Once.eq {c : Challenge} (h : c.Once) {p q : Str × Str} (hp : p ∈ c.params) (hq : q ∈ c.params)
    (heq : BoundedHttp.eqIgnoreAsciiCase p.1 q.1 = true) : p = q := by
  by_contra hne
  have hsymm : Std.Symm fun p q : Str × Str => BoundedHttp.eqIgnoreAsciiCase p.1 q.1 = false := by
    refine ⟨fun _ _ hpq => ?_⟩
    simp only [BoundedHttp.eqIgnoreAsciiCase, decide_eq_false_iff_not] at hpq ⊢
    exact fun heq => hpq heq.symm
  have hfalse := h.forall hp hq hne
  rw [heq] at hfalse
  cases hfalse

theorem Challenge.Once.get?_read {c : Challenge} (h : c.Once) {k v : Str} : c.read.params.get? k = some v ↔ (k, v) ∈ c.params :=
  BTreeMap.get?_foldl_insert_of_unique fun _ hp _ hq heq => h.eq hp hq (eqIgnoreAsciiCase_iff.mpr (congrArg _ heq))

/-- **What is read of a header are its challenges** if and only if all elements are plain. -/
theorem tokenize_iff {h : Header} (hvalid : h.Valid) :
    tokenizeWwwAuthenticate h.text = (challenges h.elements).map Challenge.read ↔ ∀ e ∈ h.elements, e.Plain := by
  refine ⟨fun heq => ?_, tokenize_plain hvalid⟩
  have hreadable := (readable_start.foldl h.elements).close
  have hlength := congrArg List.length heq
  rw [tokenize_text hvalid] at heq hlength
  rw [heq] at hreadable
  rw [length_close_foldl, List.length_map, length_challenges] at hlength
  have hchallenge : ∀ c ∈ challenges h.elements, isIdent c.scheme = true ∧ ∀ p ∈ c.params, isIdent p.1 = true := by
    intro c hc
    obtain ⟨hscheme, hparams⟩ := hreadable c.read (List.mem_map_of_mem hc)
    exact ⟨hscheme, fun p hp => hparams p.1 p.2 ((Challenge.Once.get?_read (hvalid.once c hc)).mpr hp)⟩
  have hbegins : ∀ e ∈ h.elements, e.begins = true → e.isStart = true := by
    refine of_countP_eq (fun e he hstart => ?_) (by simpa [Tokens.close] using hlength)
    cases e with
    | start scheme first =>
      obtain ⟨c, hc, hscheme, -⟩ := mem_challenges he
      exact hscheme ▸ (hchallenge c hc).1
    | blank => cases hstart
    | param p => cases hstart
  intro e he
  cases e with
  | blank => trivial
  | start scheme first =>
    obtain ⟨c, hc, rfl, hfirst⟩ := mem_challenges he
    exact ⟨(hchallenge c hc).1, fun f hf => (hchallenge c hc).2 _ (hfirst f hf)⟩
  | param p =>
    obtain ⟨es, scheme, first, rest, hstarts, hblank⟩ := hvalid.starts
    have hname : isIdent p.name = true := by
      rcases mem_params he with hopen | ⟨c, hc, hp⟩
      · rw [hstarts, openParams_append hblank] at hopen
        cases hopen
      · exact (hchallenge c hc).2 _ hp
    refine ⟨hname, ?_⟩
    by_contra hbefore
    exact absurd (hbegins _ he (by simp [Element.begins, hname, hbefore])) (by simp [Element.isStart])

/-! ### The request -/

variable {crate : BoundedHttp.UrlCrate} {scope header : Str} {cs : List Challenge}

/-- The first `Bearer` challenge. -/
def firstBearer (cs : List Challenge) : Option Challenge := cs.find? fun c => BoundedHttp.eqIgnoreAsciiCase c.scheme "bearer"

/-- The value of a parameter, whose name has any case. -/
def Challenge.param (c : Challenge) (name : Str) : Option Str := (c.params.find? fun p => BoundedHttp.eqIgnoreAsciiCase p.1 name).map Prod.snd

/-- The realm and the service of a challenge, where it has both and the realm is a URL for `http` or `https`. -/
def Challenge.target (crate : BoundedHttp.UrlCrate) (c : Challenge) : Option (Str × Str) :=
  match c.param "realm", c.param "service" with
  | some realm, some service => if realm ≠ [] ∧ service ≠ [] ∧ BoundedHttp.isHttp crate realm = true then some (realm, service) else none
  | _, _ => none

/-- The realm and the service that a token is to be requested from and for. -/
def wanted (crate : BoundedHttp.UrlCrate) (cs : List Challenge) : Option (Str × Str) := (firstBearer cs).bind (·.target crate)

/-- The token request goes to the realm that is wanted, and there is none otherwise. -/
structure Sends (crate : BoundedHttp.UrlCrate) (scope : Str) (cs : List Challenge) (header : Str) : Prop where
  sent : ∀ realm service, wanted crate cs = some (realm, service) →
    ∃ url, tokenUrl crate scope header = .ok url ∧ FormUrlencoded.Reaches url realm (tokenPairs scope service)
  silent : wanted crate cs = none → ∀ url, tokenUrl crate scope header ≠ .ok url

/-- The parameters that are wanted are in lower case, and the realm has neither a query nor a fragment. -/
def Straight (crate : BoundedHttp.UrlCrate) (cs : List Challenge) : Prop :=
  ∀ c realm service, firstBearer cs = some c → c.target crate = some (realm, service) →
    ("realm".toList, realm) ∈ c.params ∧ ("service".toList, service) ∈ c.params ∧ '?' ∉ realm ∧ '#' ∉ realm

theorem Challenge.Once.param_eq {c : Challenge} (h : c.Once) {name value : Str} (hp : (name, value) ∈ c.params) : c.param name = some value := by
  have hsome : (c.params.find? fun p => BoundedHttp.eqIgnoreAsciiCase p.1 name).isSome = true :=
    List.find?_isSome.mpr ⟨_, hp, eqIgnoreAsciiCase_iff.mpr rfl⟩
  obtain ⟨q, hq⟩ := Option.isSome_iff_exists.mp hsome
  have hname : BoundedHttp.eqIgnoreAsciiCase q.1 name = true := by simpa using List.find?_some hq
  have heq := h.eq (List.mem_of_find?_eq_some hq) hp hname
  rw [Challenge.param, hq, heq]
  rfl

theorem target_eq_some {c : Challenge} {realm service : Str} : c.target crate = some (realm, service) ↔
    c.param "realm" = some realm ∧ c.param "service" = some service ∧ realm ≠ [] ∧ service ≠ [] ∧ BoundedHttp.isHttp crate realm = true := by
  rw [Challenge.target]
  cases c.param "realm" with
  | none => simp
  | some r =>
    cases c.param "service" with
    | none => simp
    | some s =>
      dsimp only
      split_ifs with hgood
      · simp only [Option.some.injEq, Prod.mk.injEq]
        constructor
        · rintro ⟨rfl, rfl⟩
          exact ⟨rfl, rfl, hgood⟩
        · exact fun h => ⟨h.1, h.2.1⟩
      · refine iff_of_false nofun ?_
        rintro ⟨hr, hs, hrest⟩
        cases hr
        cases hs
        exact hgood hrest

theorem selectBearerChallenge_read (cs : List Challenge) : (selectBearerChallenge (cs.map Challenge.read)).toOption = (firstBearer cs).map Challenge.read := by
  have hfind : (cs.map Challenge.read).find? (fun c => BoundedHttp.eqIgnoreAsciiCase c.scheme "bearer") =
      (cs.find? fun c => BoundedHttp.eqIgnoreAsciiCase c.scheme "bearer").map Challenge.read := List.find?_map ..
  rw [selectBearerChallenge, hfind, firstBearer]
  cases cs.find? fun c => BoundedHttp.eqIgnoreAsciiCase c.scheme "bearer" <;> rfl

/-- A parameter that is there in lower case, and is not empty. -/
theorem Challenge.Once.filter_get? {c : Challenge} (h : c.Once) {name value : Str} :
    (c.read.params.get? name).filter (fun s => decide (s ≠ [])) = some value ↔ (name, value) ∈ c.params ∧ value ≠ [] := by
  rw [Option.filter_eq_some_iff, h.get?_read, decide_eq_true_iff]

/-- When there is a token request, where the challenges were read as they are meant. -/
theorem tokenUrl_eq_ok (hread : tokenizeWwwAuthenticate header = cs.map Challenge.read) (honce : ∀ c ∈ cs, c.Once) {url : Str} :
    tokenUrl crate scope header = .ok url ↔ ∃ c realm service, firstBearer cs = some c ∧ ("realm".toList, realm) ∈ c.params ∧
      ("service".toList, service) ∈ c.params ∧ c.target crate = some (realm, service) ∧
      url = realm ++ '?' :: FormUrlencoded.serialize (tokenPairs scope service) := by
  have hselect := selectBearerChallenge_read cs
  rw [tokenUrl, hread]
  constructor
  · intro hok
    split at hok
    · cases hok
    · rename_i bearer hbearer
      rw [hbearer] at hselect
      obtain ⟨c, hc, rfl⟩ := Option.map_eq_some_iff.mp hselect.symm
      have honce' : c.Once := honce c (List.mem_of_find?_eq_some hc)
      split at hok
      · rename_i realm service hrealm hservice
        obtain ⟨hr, hrne⟩ := honce'.filter_get?.mp hrealm
        obtain ⟨hs, hsne⟩ := honce'.filter_get?.mp hservice
        split_ifs at hok with hhttp
        refine ⟨c, realm, service, hc, hr, hs, ?_, (Except.ok.inj hok).symm⟩
        exact target_eq_some.mpr ⟨honce'.param_eq hr, honce'.param_eq hs, hrne, hsne, hhttp⟩
      · cases hok
  · rintro ⟨c, realm, service, hc, hr, hs, htarget, rfl⟩
    obtain ⟨-, -, hrne, hsne, hhttp⟩ := target_eq_some.mp htarget
    have honce' : c.Once := honce c (List.mem_of_find?_eq_some hc)
    rw [hc] at hselect
    cases hbearer : selectBearerChallenge (cs.map Challenge.read) with
    | error e =>
      rw [hbearer] at hselect
      cases hselect
    | ok bearer =>
      rw [hbearer] at hselect
      obtain rfl := Option.some.inj hselect
      dsimp only
      rw [honce'.filter_get?.mpr ⟨hr, hrne⟩, honce'.filter_get?.mpr ⟨hs, hsne⟩]
      exact if_pos hhttp

theorem wanted_eq_some {realm service : Str} :
    wanted crate cs = some (realm, service) ↔ ∃ c, firstBearer cs = some c ∧ c.target crate = some (realm, service) := Option.bind_eq_some_iff

/-- **The token request goes where it is wanted** if and only if what is wanted is straight. -/
theorem sends_iff (hread : tokenizeWwwAuthenticate header = cs.map Challenge.read) (honce : ∀ c ∈ cs, c.Once) :
    Sends crate scope cs header ↔ Straight crate cs := by
  have hadded : ∀ service, tokenPairs scope service ≠ [] := fun _ => List.cons_ne_nil _ _
  constructor
  · intro hsends c realm service hc htarget
    obtain ⟨url, hurl, hreaches⟩ := hsends.sent realm service (wanted_eq_some.mpr ⟨c, hc, htarget⟩)
    obtain ⟨c', realm', service', hc', hr, hs, htarget', rfl⟩ := (tokenUrl_eq_ok hread honce).mp hurl
    cases hc.symm.trans hc'
    cases htarget.symm.trans htarget'
    exact ⟨hr, hs, (FormUrlencoded.reaches_append_iff (hadded service)).mp hreaches⟩
  · intro hstraight
    refine ⟨fun realm service hwanted => ?_, fun hwanted url hurl => ?_⟩
    · obtain ⟨c, hc, htarget⟩ := wanted_eq_some.mp hwanted
      obtain ⟨hr, hs, hplain⟩ := hstraight c realm service hc htarget
      exact ⟨_, (tokenUrl_eq_ok hread honce).mpr ⟨c, realm, service, hc, hr, hs, htarget, rfl⟩,
        (FormUrlencoded.reaches_append_iff (hadded service)).mpr hplain⟩
    · obtain ⟨c, realm, service, hc, -, -, htarget, -⟩ := (tokenUrl_eq_ok hread honce).mp hurl
      rw [wanted_eq_some.mpr ⟨c, hc, htarget⟩] at hwanted
      cases hwanted

/-- A header is understood: its challenges are read as they are meant, the token request goes to the realm of the first
`Bearer` challenge, and without a `Bearer` challenge there is none. -/
structure Understood (crate : BoundedHttp.UrlCrate) (scope : Str) (h : Header) : Prop where
  tokens : tokenizeWwwAuthenticate h.text = (challenges h.elements).map Challenge.read
  sends : Sends crate scope (challenges h.elements) h.text
  noBearer : firstBearer (challenges h.elements) = none → ∀ url, tokenUrl crate scope h.text ≠ .ok url

/-- **When a header is understood**: all its elements are plain, and what is wanted of its first `Bearer` challenge is straight. -/
theorem understood_iff (crate : BoundedHttp.UrlCrate) (scope : Str) (h : Header) (hvalid : h.Valid) :
    Understood crate scope h ↔ (∀ e ∈ h.elements, e.Plain) ∧ Straight crate (challenges h.elements) := by
  constructor
  · intro hunderstood
    exact ⟨(tokenize_iff hvalid).mp hunderstood.tokens, (sends_iff hunderstood.tokens hvalid.once).mp hunderstood.sends⟩
  · rintro ⟨hplain, hstraight⟩
    have hread := (tokenize_iff hvalid).mpr hplain
    have hsends : Sends crate scope (challenges h.elements) h.text := (sends_iff hread hvalid.once).mpr hstraight
    refine ⟨hread, hsends, fun hnone => hsends.silent ?_⟩
    rw [wanted, hnone]
    rfl

/-- A `Bearer` challenge with a realm and a service, with this white space before the equals sign of the second one. -/
def bearerHeader (before : Str) : Header :=
  [([], .start "Bearer" (some ([' '], ⟨"realm", [], [], .quoted ("https://h/t".toList.map fun c => (false, c))⟩)), []),
    ([], .param ⟨"service", before, [], .token "s"⟩, [])]

theorem valid_bearerHeader {before : Str} (h : IsOws before) : (bearerHeader before).Valid where
  elements := by
    have htoken : ∀ {s : Str}, s ≠ [] → s.all isTchar = true → IsToken s := fun hne hall => ⟨hne, List.all_eq_true.mp hall⟩
    have hquoted : ("https://h/t".toList.all fun c => decide (c ≠ '"' ∧ c ≠ '\\')) = true := by decide
    have hservice : IsToken "service" := htoken (by decide) (by decide)
    refine List.forall_mem_cons.mpr ⟨⟨nofun, ⟨htoken (by decide) (by decide), by simp, by simp, ⟨htoken (by decide) (by decide), nofun, nofun,
      fun c hc => ?_⟩⟩, nofun⟩, ?_⟩
    · obtain ⟨d, hd, heq⟩ := List.mem_map.mp hc
      cases heq
      exact of_decide_eq_true (List.all_eq_true.mp hquoted c hd)
    · exact List.forall_mem_singleton.mpr ⟨nofun, ⟨hservice, h, nofun, htoken (by decide) (by decide)⟩, nofun⟩
  starts := ⟨[], _, _, _, rfl, nofun⟩
  once := List.forall_mem_singleton.mpr (by simp [openParams, AuthParam.pair]; decide)

/-- URLs as their texts, with the scheme before the colon. -/
def textUrls : BoundedHttp.UrlCrate where
  Url := Str
  parse s := .ok s
  join _ location := .ok location
  scheme url := url.takeWhile fun c => decide (c ≠ ':')
  hostStr _ := none
  portOrKnownDefault _ := none
  toText := id

theorem understood_bearerHeader : Understood textUrls "repository:o/r:pull" (bearerHeader []) := by
  refine (understood_iff textUrls "repository:o/r:pull" (bearerHeader []) (valid_bearerHeader nofun)).mpr ⟨?_, fun c realm service hc htarget => ?_⟩
  · refine List.forall_mem_cons.mpr ⟨⟨by decide, ?_⟩, List.forall_mem_singleton.mpr ⟨by decide, rfl⟩⟩
    rintro f hf
    cases hf
    decide
  · cases hc
    have heq : (realm, service) = ("https://h/t".toList, "s".toList) := Option.some.inj (htarget.symm.trans rfl)
    cases heq
    decide

/-- A space before the second equals sign makes a challenge of the second parameter. -/
theorem bearerHeader_misread : ¬ ∀ (crate : BoundedHttp.UrlCrate) (scope : Str) (h : Header), h.Valid → Understood crate scope h := by
  intro h
  have hvalid : (bearerHeader [' ']).Valid := valid_bearerHeader (by simp [IsOws])
  have htokens := congrArg List.length (h textUrls "repository:o/r:pull" (bearerHeader [' ']) hvalid).tokens
  rw [tokenize_text hvalid] at htokens
  exact absurd htokens (by decide)

end Milpa.Core.WwwAuthenticate
