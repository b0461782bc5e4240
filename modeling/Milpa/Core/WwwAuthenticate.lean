import Milpa.Core.BoundedHttp
import Milpa.Core.IndexTrust
import Milpa.Order.BTreeMap
import Milpa.Types.FormUrlencoded
import Milpa.Types.Text

/-!
# Challenges of a registry

`tokenize_www_authenticate` and `select_bearer_challenge` of `oci_client.rs`, and the URL of
the token request that `acquire_token` makes of them. A header of RFC 7235 is a list with
commas, whose elements are challenges and further parameters; the code splits it at the
commas that are not quoted and tells from each segment alone whether a challenge begins.
This module says what a segment does to the challenges that have been read; when the
challenges are the right ones is in `Milpa.Core.TokenRequest`.
-/

namespace Milpa.Core.WwwAuthenticate

/-- `AuthChallenge`. -/
structure AuthChallenge where
  scheme : Str
  params : BTreeMap Str Str

/-! ### The code -/

/-- The loop of `split_top_level_commas`, with whether a quoted string is open, and `buf`. -/
def splitCommas : Bool → Str → Str → List Str
  | _, buf, [] => [buf]
  | true, buf, '\\' :: c :: rest => splitCommas true (buf ++ ['\\', c]) rest
  | true, buf, c :: rest => splitCommas (decide (c ≠ '"')) (buf ++ [c]) rest
  | false, buf, '"' :: rest => splitCommas true (buf ++ ['"']) rest
  | false, buf, ',' :: rest => buf :: splitCommas false [] rest
  | false, buf, c :: rest => splitCommas false (buf ++ [c]) rest

/-- `split_top_level_commas`. -/
def splitTopLevelCommas (header : Str) : List Str := splitCommas false [] header

/-- A character of an identifier after its first one. -/
def isIdentChar (c : Char) : Bool := c.isAlphanum || c == '.' || c == '_' || c == '-'

/-- The identifier at the start of a text, and what is after it. -/
def identifier : Str → Option (Str × Str)
  | [] => none
  | c :: s => if c.isAlpha then some (c :: s.takeWhile isIdentChar, s.dropWhile isIdentChar) else none

/-- `scheme_start`. -/
def schemeStart (seg : Str) : Option (Str × Option Str) :=
  match identifier seg with
  | none => none
  | some (token, remainder) =>
    if remainder = [] then some (token, none)
    else if remainder.length - remainder.trimStart.length = 0 then none
    else some (token, some remainder.trimStart)

/-- The loop over a quoted value; `none` where it is not closed at the end. -/
def quotedValue : Str → Str → Option Str
  | _, [] => none
  | value, '\\' :: c :: rest => quotedValue (value ++ [c]) rest
  | value, c :: rest => if c = '"' then if rest = [] then some value else none else quotedValue (value ++ [c]) rest

/-- `parse_param`. -/
def parseParam (text : Str) : Option (Str × Str) :=
  match identifier text.trim with
  | none => none
  | some (key, rest) =>
    match Str.trimStart rest with
    | '=' :: rest =>
      match Str.trimStart rest with
      | '"' :: inner => (quotedValue [] inner).map (key, ·)
      | rest => if rest = [] ∨ rest.any (fun c => Str.isWhitespace c || c == ',') then none else some (key, rest)
    | _ => none

/-- The variables of the loop. -/
structure Tokens where
  challenges : List AuthChallenge
  currentScheme : Option Str
  currentParams : BTreeMap Str Str

/-- A segment that starts a challenge: its scheme, and what is after it. -/
def startsNewScheme (seg : Str) : Option (Str × Option Str) :=
  (schemeStart seg).filter fun p => (p.2.map (·.contains '=')).getD true

/-- The challenge that is being read, with those before it. -/
def Tokens.close (t : Tokens) : List AuthChallenge := t.challenges ++ (t.currentScheme.map (⟨·, t.currentParams⟩)).toList

/-- `current_params.insert`, of what was parsed. -/
def insertParam (params : BTreeMap Str Str) (parsed : Option (Str × Str)) : BTreeMap Str Str :=
  match parsed with
  | some (k, v) => params.insert k v
  | none => params

/-- One round of the loop. -/
def Tokens.segment (t : Tokens) (rawSeg : Str) : Tokens :=
  let seg := rawSeg.trim
  if seg = [] then t
  else
    match startsNewScheme seg with
    | some (token, rest) =>
      let params := if t.currentScheme.isSome then .empty else t.currentParams
      ⟨t.close, some token, insertParam params (rest.bind fun r => if r = [] then none else parseParam r)⟩
    | none => if t.currentScheme.isNone then t else { t with currentParams := insertParam t.currentParams (parseParam seg) }

/-- `tokenize_www_authenticate`. -/
def tokenizeWwwAuthenticate (header : Str) : List AuthChallenge :=
  ((splitTopLevelCommas header).foldl Tokens.segment ⟨[], none, .empty⟩).close

/-- Why there is no token request. -/
inductive ChallengeError where
  | unsupported (schemes : List Str)
  | missing (params : BTreeMap Str Str)
  | unsupportedScheme (realm : Str)

/-- `select_bearer_challenge`. -/
def selectBearerChallenge (challenges : List AuthChallenge) : Except ChallengeError AuthChallenge :=
  match challenges.find? fun c => BoundedHttp.eqIgnoreAsciiCase c.scheme "bearer" with
  | some c => .ok c
  | none => .error (.unsupported (challenges.map (·.scheme)))

/-- The pairs of the token request. -/
def tokenPairs (scope service : Str) : List (Bytes × Bytes) := [(utf8 "scope", utf8 scope), (utf8 "service", utf8 service)]

/-- `acquire_token`, from the header to the URL of the token request. -/
def tokenUrl (crate : BoundedHttp.UrlCrate) (scope header : Str) : Except ChallengeError Str :=
  match selectBearerChallenge (tokenizeWwwAuthenticate header) with
  | .error e => .error e
  | .ok bearer =>
    match (bearer.params.get? "realm").filter (fun s => decide (s ≠ [])), (bearer.params.get? "service").filter (fun s => decide (s ≠ [])) with
    | some realm, some service =>
      if BoundedHttp.isHttp crate realm then .ok (realm ++ '?' :: FormUrlencoded.serialize (tokenPairs scope service))
      else .error (.unsupportedScheme realm)
    | _, _ => .error (.missing bearer.params)

/-! ### The grammar -/

/-- `tchar`. -/
def isTchar (c : Char) : Bool := c.isAlphanum || "!#$%&'*+-.^_`|~".toList.contains c

/-- `token`. -/
def IsToken (s : Str) : Prop := s ≠ [] ∧ ∀ c ∈ s, isTchar c = true

/-- `OWS`. -/
def IsOws (s : Str) : Prop := ∀ c ∈ s, c = ' ' ∨ c = '\t'

/-- A value as it is written; each character of a quoted one is escaped or not. -/
inductive Value where
  | token (s : Str)
  | quoted (pieces : List (Bool × Char))

/-- A character of a quoted value. -/
def pieceText (p : Bool × Char) : Str := if p.1 then ['\\', p.2] else [p.2]

def Value.text : Value → Str
  | token s => s
  | quoted pieces => '"' :: (pieces.flatMap pieceText ++ ['"'])

/-- What a value is, unescaped. -/
def Value.value : Value → Str
  | token s => s
  | quoted pieces => pieces.map Prod.snd

def Value.Valid : Value → Prop
  | token s => IsToken s
  | quoted pieces => ∀ c, (false, c) ∈ pieces → c ≠ '"' ∧ c ≠ '\\'

/-- `auth-param`, with the white space before and after the equals sign. -/
structure AuthParam where
  name : Str
  before : Str
  after : Str
  value : Value

def AuthParam.text (p : AuthParam) : Str := p.name ++ (p.before ++ '=' :: (p.after ++ p.value.text))

structure AuthParam.Valid (p : AuthParam) : Prop where
  name : IsToken p.name
  before : IsOws p.before
  after : IsOws p.after
  value : p.value.Valid

/-- An element of the list: nothing, the start of a challenge, or a further parameter. -/
inductive Element where
  | blank
  | start (scheme : Str) (first : Option (Str × AuthParam))
  | param (p : AuthParam)

/-- An element without the white space around it. -/
def Element.text : Element → Str
  | blank => []
  | start scheme none => scheme
  | start scheme (some (spaces, p)) => scheme ++ (spaces ++ p.text)
  | param p => p.text

def Element.Valid : Element → Prop
  | blank => True
  | start scheme none => IsToken scheme
  | start scheme (some (spaces, p)) => IsToken scheme ∧ spaces ≠ [] ∧ (∀ c ∈ spaces, c = ' ') ∧ p.Valid
  | param p => p.Valid

/-- A challenge: its scheme and its parameters, as they are meant. -/
structure Challenge where
  scheme : Str
  params : List (Str × Str)

def AuthParam.pair (p : AuthParam) : Str × Str := (p.name, p.value.value)

/-- The further parameters, up to the next challenge. -/
def openParams : List Element → List (Str × Str)
  | [] => []
  | .start _ _ :: _ => []
  | .blank :: es => openParams es
  | .param p :: es => p.pair :: openParams es

/-- The challenges of a list of elements. -/
def challenges : List Element → List Challenge
  | [] => []
  | .start scheme first :: es => ⟨scheme, (first.map fun f => f.2.pair).toList ++ openParams es⟩ :: challenges es
  | _ :: es => challenges es

/-- A header: elements with the white space around each. -/
abbrev Header := List (Str × Element × Str)

def Header.elements (h : Header) : List Element := h.map fun e => e.2.1

def Header.text (h : Header) : Str := [','].intercalate (h.map fun e => e.1 ++ (e.2.1.text ++ e.2.2))

/-- A header that the grammar allows, where a challenge has a parameter once. -/
structure Header.Valid (h : Header) : Prop where
  elements : ∀ e ∈ h, IsOws e.1 ∧ e.2.1.Valid ∧ IsOws e.2.2
  /-- There is a challenge, and no parameter is before it. -/
  starts : ∃ es scheme first rest, h.elements = es ++ .start scheme first :: rest ∧ ∀ e ∈ es, e = .blank
  once : ∀ c ∈ challenges h.elements, c.params.Pairwise fun p q => BoundedHttp.eqIgnoreAsciiCase p.1 q.1 = false

/-- A challenge, as it is read. -/
def Challenge.read (c : Challenge) : AuthChallenge := ⟨c.scheme, c.params.foldl (fun m p => m.insert p.1 p.2) .empty⟩

/-! ### Characters -/

theorem toNat_of_isTchar {c : Char} (h : isTchar c = true) : 0x20 < c.toNat ∧ c.toNat < 0x7f := by
  rw [isTchar, Bool.or_eq_true] at h
  rcases h with h | h
  · rw [Str.isAlphanum_iff] at h
    omega
  · have hall : ("!#$%&'*+-.^_`|~".toList.all fun c => decide (0x20 < c.toNat ∧ c.toNat < 0x7f)) = true := by decide
    exact of_decide_eq_true (List.all_eq_true.mp hall c (List.contains_iff_mem.mp h))

theorem isTchar_ne {c : Char} (h : isTchar c = true) : Str.isWhitespace c = false ∧ c ≠ '=' ∧ c ≠ ',' ∧ c ≠ '"' := by
  obtain ⟨hlow, hhigh⟩ := toNat_of_isTchar h
  refine ⟨?_, ?_, ?_, ?_⟩
  · simp only [Str.isWhitespace]
    simp
    omega
  all_goals
    rintro rfl
    exact absurd h (by decide)

theorem isTchar_of_isIdentChar {c : Char} (h : isIdentChar c = true) : isTchar c = true := by
  simp only [isIdentChar, Bool.or_eq_true, beq_iff_eq] at h
  rcases h with ((h | rfl) | rfl) | rfl
  · rw [isTchar, h, Bool.true_or]
  all_goals decide

theorem isWhitespace_of_isOws {s : Str} (h : IsOws s) : ∀ c ∈ s, Str.isWhitespace c = true := by
  intro c hc
  rcases h c hc with rfl | rfl <;> decide

/-! ### Identifiers -/

/-- A whole text is an identifier. -/
def isIdent (s : Str) : Bool := decide (identifier s = some (s, []))

theorem isIdent_iff {s : Str} : isIdent s = true ↔ ∃ c t, s = c :: t ∧ c.isAlpha = true ∧ ∀ d ∈ t, isIdentChar d = true := by
  rw [isIdent, decide_eq_true_iff]
  cases s with
  | nil => simp [identifier]
  | cons c t =>
    rw [identifier]
    by_cases hc : c.isAlpha = true
    · rw [if_pos hc]
      simp only [Option.some.injEq, Prod.mk.injEq, List.cons.injEq, true_and, List.dropWhile_eq_nil_iff]
      constructor
      · exact fun h => ⟨c, t, ⟨rfl, rfl⟩, hc, h.2⟩
      · rintro ⟨_, _, ⟨rfl, rfl⟩, -, h⟩
        exact ⟨List.takeWhile_eq_self_iff.mpr h, h⟩
    · rw [if_neg hc]
      refine iff_of_false nofun ?_
      rintro ⟨_, _, heq, halpha, -⟩
      cases heq
      exact hc halpha

theorem isIdentChar_of_isIdent {s : Str} (h : isIdent s = true) : ∀ c ∈ s, isIdentChar c = true := by
  obtain ⟨c, t, rfl, hc, ht⟩ := isIdent_iff.mp h
  intro d hd
  rcases List.mem_cons.mp hd with rfl | hd
  · rw [isIdentChar, Char.isAlphanum, hc]
    rfl
  · exact ht d hd

/-- The identifier at the start is one, and the next character belongs to none. -/
theorem isIdent_of_identifier {text token rest : Str} (h : identifier text = some (token, rest)) :
    isIdent token = true ∧ text = token ++ rest ∧ ∀ c ∈ rest.head?, isIdentChar c = false := by
  cases text with
  | nil => cases h
  | cons c s =>
    rw [identifier] at h
    split_ifs at h with hc
    cases h
    refine ⟨isIdent_iff.mpr ⟨c, _, rfl, hc, fun d hd => List.mem_takeWhile_imp hd⟩, ?_, fun d hd => ?_⟩
    · rw [List.cons_append, List.takeWhile_append_dropWhile]
    · have hhead := List.head?_dropWhile_not isIdentChar s
      rw [hd] at hhead
      simpa using hhead

theorem identifier_append {s rest : Str} (hs : isIdent s = true) (hrest : ∀ c ∈ rest.head?, isIdentChar c = false) :
    identifier (s ++ rest) = some (s, rest) := by
  obtain ⟨c, t, rfl, hc, ht⟩ := isIdent_iff.mp hs
  have hstop : rest.takeWhile isIdentChar = [] ∧ rest.dropWhile isIdentChar = rest := by
    cases rest with
    | nil => exact ⟨rfl, rfl⟩
    | cons d rest => 
      have hd := hrest d rfl
      exact ⟨List.takeWhile_cons_of_neg (by simp [hd]), List.dropWhile_cons_of_neg (by simp [hd])⟩
  rw [List.cons_append, identifier, if_pos hc, List.takeWhile_append_of_pos ht, List.dropWhile_append_of_pos ht, hstop.1, hstop.2,
    List.append_nil]

/-- A token that is no identifier ends one too early, or begins none. -/
theorem identifier_of_not {s : Str} (hs : IsToken s) (hnot : isIdent s = false) (rest : Str) :
    identifier (s ++ rest) = none ∨ ∃ token c more, identifier (s ++ rest) = some (token, c :: more) ∧ isTchar c = true := by
  obtain ⟨c, t, rfl⟩ := List.exists_cons_of_ne_nil hs.1
  rw [List.cons_append, identifier]
  by_cases hc : c.isAlpha = true
  · right
    rw [if_pos hc]
    obtain ⟨d, hd, hident⟩ : ∃ d ∈ t, isIdentChar d = false := by
      by_contra hall
      push Not at hall
      exact absurd (isIdent_iff.mpr ⟨c, t, rfl, hc, fun d hd => by simpa using hall d hd⟩) (by simp [hnot])
    cases hdrop : t.dropWhile isIdentChar with
    | nil => exact absurd (List.dropWhile_eq_nil_iff.mp hdrop d hd) (by simp [hident])
    | cons e more =>
      refine ⟨c :: (t ++ rest).takeWhile isIdentChar, e, more ++ rest, ?_, ?_⟩
      · rw [List.dropWhile_append, hdrop]
        rfl
      · exact hs.2 e (List.mem_cons_of_mem _ ((List.dropWhile_suffix _).subset (hdrop ▸ List.mem_cons_self)))
  · left
    rw [if_neg hc]

theorem IsToken.head {s : Str} (h : IsToken s) : ∀ c ∈ s.head?, Str.isWhitespace c = false :=
  fun c hc => (isTchar_ne (h.2 c (List.mem_of_mem_head? hc))).1

theorem IsToken.of_isIdent {s : Str} (h : isIdent s = true) : IsToken s := by
  refine ⟨?_, fun c hc => isTchar_of_isIdentChar (isIdentChar_of_isIdent h c hc)⟩
  rintro rfl
  exact absurd h (by decide)

/-! ### The start of a challenge -/

theorem schemeStart_ident {s : Str} (hs : isIdent s = true) : schemeStart s = some (s, none) := by
  rw [schemeStart, of_decide_eq_true hs]
  rfl

theorem schemeStart_spaced {s spaces rest : Str} (hs : isIdent s = true) (hne : spaces ≠ []) (hspaces : ∀ c ∈ spaces, Str.isWhitespace c = true)
    (hrest : ∀ c ∈ rest.head?, Str.isWhitespace c = false) : schemeStart (s ++ (spaces ++ rest)) = some (s, some rest) := by
  have hstop : ∀ c ∈ (spaces ++ rest).head?, isIdentChar c = false := by
    intro c hc
    obtain ⟨d, spaces, rfl⟩ := List.exists_cons_of_ne_nil hne
    obtain rfl := Option.some.inj hc
    by_contra hident
    have hspace := hspaces _ List.mem_cons_self
    rw [(isTchar_ne (isTchar_of_isIdentChar (by simpa using hident))).1] at hspace
    cases hspace
  have htrim : Str.trimStart (spaces ++ rest) = rest := by rw [Str.trimStart_append hspaces, Str.trimStart_of_head hrest]
  have hlength : (spaces ++ rest).length - rest.length ≠ 0 := by
    have := List.length_pos_iff.mpr hne
    rw [List.length_append]
    omega
  rw [schemeStart, identifier_append hs hstop]
  dsimp only
  rw [if_neg (List.append_ne_nil_of_left_ne_nil hne rest), htrim, if_neg hlength]

/-- Something else than white space is right after an identifier. -/
theorem schemeStart_tight {text token : Str} {c : Char} {rest : Str} (h : identifier text = some (token, c :: rest))
    (hc : Str.isWhitespace c = false) : schemeStart text = none := by
  rw [schemeStart, h]
  dsimp only
  rw [if_neg (List.cons_ne_nil _ _), Str.trimStart_of_head (by simpa using hc), if_pos (Nat.sub_self _)]

theorem schemeStart_of_not {s : Str} (hs : IsToken s) (hnot : isIdent s = false) (rest : Str) : schemeStart (s ++ rest) = none := by
  rcases identifier_of_not hs hnot rest with h | ⟨token, c, more, h, hc⟩
  · rw [schemeStart, h]
  · exact schemeStart_tight h (isTchar_ne hc).1

/-! ### Parameters -/

theorem quotedValue_pieces (value : Str) {pieces : List (Bool × Char)} (h : (Value.quoted pieces).Valid) :
    quotedValue value (pieces.flatMap pieceText ++ ['"']) = some (value ++ pieces.map Prod.snd) := by
  induction pieces generalizing value with
  | nil => simp [quotedValue]
  | cons p pieces ih =>
    have ih := fun value => ih value fun c hc => h c (List.mem_cons_of_mem _ hc)
    obtain ⟨escaped, c⟩ := p
    rw [List.flatMap_cons, List.map_cons]
    cases escaped with
    | true =>
      show quotedValue value ('\\' :: c :: (pieces.flatMap pieceText ++ ['"'])) = _
      rw [quotedValue, ih, List.append_assoc]
      rfl
    | false =>
      obtain ⟨hquote, hescape⟩ := h c List.mem_cons_self
      show quotedValue value (c :: (pieces.flatMap pieceText ++ ['"'])) = _
      rw [quotedValue, if_neg hquote, ih, List.append_assoc]
      · rfl
      · intro d rest heq
        exact absurd heq hescape

theorem Value.text_ne_nil {v : Value} (h : v.Valid) : v.text ≠ [] := by
  cases v with
  | token s => exact h.1
  | quoted pieces => exact List.cons_ne_nil _ _

theorem Value.head {v : Value} (h : v.Valid) : ∀ c ∈ v.text.head?, Str.isWhitespace c = false := by
  cases v with
  | token s => exact IsToken.head h
  | quoted pieces =>
    rintro c hc
    obtain rfl := Option.some.inj hc
    decide

theorem Value.last {v : Value} (h : v.Valid) : ∀ c ∈ v.text.getLast?, Str.isWhitespace c = false := by
  cases v with
  | token s => exact fun c hc => (isTchar_ne (h.2 c (List.mem_of_mem_getLast? hc))).1
  | quoted pieces =>
    intro c hc
    rw [Value.text, ← List.cons_append, List.getLast?_concat] at hc
    obtain rfl := Option.some.inj hc
    decide

theorem AuthParam.head {p : AuthParam} (h : p.Valid) : ∀ c ∈ p.text.head?, Str.isWhitespace c = false := by
  obtain ⟨c, t, hname⟩ := List.exists_cons_of_ne_nil h.name.1
  intro d hd
  rw [AuthParam.text, hname] at hd
  obtain rfl := Option.some.inj hd
  exact h.name.head _ (by rw [hname]; rfl)

theorem AuthParam.last {p : AuthParam} (h : p.Valid) : ∀ c ∈ p.text.getLast?, Str.isWhitespace c = false := by
  intro c hc
  have htext : p.text = (p.name ++ (p.before ++ '=' :: p.after)) ++ p.value.text := by simp [AuthParam.text]
  rw [htext, List.getLast?_append_of_ne_nil _ (Value.text_ne_nil h.value)] at hc
  exact Value.last h.value c hc

/-- After the name of a parameter there is white space or the equals sign. -/
theorem AuthParam.stop {p : AuthParam} (h : p.Valid) (rest : Str) : ∀ c ∈ (p.before ++ '=' :: rest).head?, isIdentChar c = false := by
  intro c hc
  cases hbefore : p.before with
  | nil =>
    rw [hbefore] at hc
    obtain rfl := Option.some.inj hc
    decide
  | cons d before =>
    rw [hbefore] at hc
    obtain rfl := Option.some.inj hc
    rcases h.before d (hbefore ▸ List.mem_cons_self) with rfl | rfl <;> decide

theorem parseParam_text {p : AuthParam} (h : p.Valid) (hname : isIdent p.name = true) : parseParam p.text = some p.pair := by
  have hequals : Str.trimStart (p.before ++ '=' :: (p.after ++ p.value.text)) = '=' :: (p.after ++ p.value.text) := by
    rw [Str.trimStart_append (isWhitespace_of_isOws h.before), Str.trimStart_of_head]
    rintro c hc
    obtain rfl := Option.some.inj hc
    decide
  have hvalue : Str.trimStart (p.after ++ p.value.text) = p.value.text := by
    rw [Str.trimStart_append (isWhitespace_of_isOws h.after), Str.trimStart_of_head (Value.head h.value)]
  rw [parseParam, Str.trim_of_ends (AuthParam.head h) (AuthParam.last h), AuthParam.text, identifier_append hname (AuthParam.stop h _)]
  simp only [hequals, hvalue, AuthParam.pair]
  have hvalid := h.value
  cases hv : p.value with
  | quoted pieces =>
    rw [hv] at hvalid
    show (quotedValue [] (pieces.flatMap pieceText ++ ['"'])).map (p.name, ·) = _
    rw [quotedValue_pieces [] hvalid]
    rfl
  | token s =>
    rw [hv] at hvalid
    obtain ⟨hne, hall⟩ : IsToken s := hvalid
    have hplain : ¬ (s = [] ∨ s.any (fun c => Str.isWhitespace c || c == ',') = true) := by
      rintro (hnil | hany)
      · exact hne hnil
      · obtain ⟨c, hc, hbad⟩ := List.any_eq_true.mp hany
        obtain ⟨hspace, -, hcomma, -⟩ := isTchar_ne (hall c hc)
        simp [hspace, hcomma] at hbad
    show (match s with
      | '"' :: inner => (quotedValue [] inner).map (p.name, ·)
      | rest => if rest = [] ∨ rest.any (fun c => Str.isWhitespace c || c == ',') then none else some (p.name, rest)) = _
    split
    · exact absurd rfl (isTchar_ne (hall _ List.mem_cons_self)).2.2.2
    · exact if_neg hplain

/-- What begins with a token that is no identifier. -/
theorem parseParam_of_not {text name rest : Str} (htrim : text.trim = name ++ rest) (hname : IsToken name) (hnot : isIdent name = false) :
    parseParam text = none := by
  rw [parseParam, htrim]
  rcases identifier_of_not hname hnot rest with hnone | ⟨token, c, more, hsome, hc⟩
  · rw [hnone]
  · obtain ⟨hspace, hequals, -⟩ := isTchar_ne hc
    rw [hsome]
    dsimp only
    rw [Str.trimStart_of_head (by simpa using hspace)]
    split
    · rename_i heq
      exact absurd (List.cons.inj heq).1 hequals
    · rfl

/-- What is after the name of a parameter is no parameter. -/
theorem parseParam_equals (rest : Str) : parseParam ('=' :: rest) = none := by
  rw [parseParam, Str.trim_cons (by decide), identifier, if_neg (by decide)]

/-! ### Segments -/

/-- A name that can be read, with the value. -/
def AuthParam.readable (p : AuthParam) : Option (Str × Str) := if isIdent p.name then some p.pair else none

theorem parseParam_eq {p : AuthParam} (h : p.Valid) : parseParam p.text = p.readable := by
  rw [AuthParam.readable]
  cases hname : isIdent p.name with
  | true => exact parseParam_text h hname
  | false => exact parseParam_of_not (Str.trim_of_ends (AuthParam.head h) (AuthParam.last h)) h.name hname

/-- The parameters of a challenge that begins. -/
def Tokens.fresh (t : Tokens) : BTreeMap Str Str := if t.currentScheme.isSome then .empty else t.currentParams

/-- What an element does to what was read. -/
def Tokens.element (t : Tokens) : Element → Tokens
  | .blank => t
  | .start scheme first => if isIdent scheme then ⟨t.close, some scheme, insertParam t.fresh (first.bind fun f => f.2.readable)⟩ else t
  | .param p =>
    -- An identifier with white space after it is taken for a scheme.
    if isIdent p.name ∧ p.before ≠ [] then ⟨t.close, some p.name, t.fresh⟩
    else if t.currentScheme.isNone then t else { t with currentParams := insertParam t.currentParams p.readable }

theorem Element.trim_self {e : Element} (h : e.Valid) : e.text.trim = e.text := by
  match e with
  | .blank => rfl
  | .start scheme none => exact Str.trim_eq_self fun c hc => (isTchar_ne (h.2 c hc)).1
  | .start scheme (some (spaces, p)) =>
    obtain ⟨hscheme, hne, hspaces, hp⟩ := h
    refine Str.trim_of_ends (fun c hc => ?_) fun c hc => ?_
    · obtain ⟨d, t, hd⟩ := List.exists_cons_of_ne_nil hscheme.1
      rw [Element.text, hd] at hc
      obtain rfl := Option.some.inj hc
      exact hscheme.head _ (by rw [hd]; rfl)
    · have hp' : p.text ≠ [] := by
        rw [AuthParam.text]
        exact List.append_ne_nil_of_left_ne_nil hp.name.1 _
      rw [Element.text, ← List.append_assoc, List.getLast?_append_of_ne_nil _ hp'] at hc
      exact AuthParam.last hp c hc
  | .param p => exact Str.trim_of_ends (AuthParam.head h) (AuthParam.last h)

theorem Element.trim_text {e : Element} (h : e.Valid) {before after : Str} (hbefore : IsOws before) (hafter : IsOws after) :
    Str.trim (before ++ (e.text ++ after)) = e.text := by
  rw [Str.trim_append_left (isWhitespace_of_isOws hbefore), Str.trim_append_right _ (isWhitespace_of_isOws hafter), Element.trim_self h]

/-- A segment that begins no challenge. -/
theorem Tokens.segment_param {t : Tokens} {raw seg : Str} (htrim : raw.trim = seg) (hne : seg ≠ []) (hstart : startsNewScheme seg = none) :
    t.segment raw = if t.currentScheme.isNone then t else { t with currentParams := insertParam t.currentParams (parseParam seg) } := by
  rw [Tokens.segment]
  dsimp only
  rw [htrim, if_neg hne, hstart]

/-- A segment that begins one. -/
theorem Tokens.segment_start {t : Tokens} {raw seg scheme : Str} {rest : Option Str} (htrim : raw.trim = seg) (hne : seg ≠ [])
    (hstart : startsNewScheme seg = some (scheme, rest)) :
    t.segment raw = ⟨t.close, some scheme, insertParam t.fresh (rest.bind fun r => if r = [] then none else parseParam r)⟩ := by
  rw [Tokens.segment]
  dsimp only
  rw [htrim, if_neg hne, hstart]
  rfl

theorem startsNewScheme_none {seg : Str} (h : schemeStart seg = none) : startsNewScheme seg = none := by
  rw [startsNewScheme, h]
  rfl

/-- A segment whose identifier is followed by something with an equals sign. -/
theorem startsNewScheme_spaced {s spaces rest : Str} (hs : isIdent s = true) (hne : spaces ≠ []) (hspaces : ∀ c ∈ spaces, Str.isWhitespace c = true)
    (hrest : ∀ c ∈ rest.head?, Str.isWhitespace c = false) (hequals : '=' ∈ rest) :
    startsNewScheme (s ++ (spaces ++ rest)) = some (s, some rest) := by
  rw [startsNewScheme, schemeStart_spaced hs hne hspaces hrest, Option.filter_some, if_pos]
  exact List.contains_iff_mem.mpr hequals

theorem insertParam_none (params : BTreeMap Str Str) : insertParam params none = params := rfl

/-- What cannot be read at all leaves what was read. -/
theorem Tokens.segment_lost {t : Tokens} {raw seg : Str} (htrim : raw.trim = seg) (hne : seg ≠ []) (hstart : startsNewScheme seg = none)
    (hparam : parseParam seg = none) : t.segment raw = t := by
  rw [Tokens.segment_param htrim hne hstart, hparam]
  split_ifs <;> rfl

theorem Tokens.segment_eq (t : Tokens) {e : Element} (h : e.Valid) {before after : Str} (hbefore : IsOws before) (hafter : IsOws after) :
    t.segment (before ++ (e.text ++ after)) = t.element e := by
  have htrim := Element.trim_text h hbefore hafter
  match e with
  | .blank =>
    rw [Tokens.segment]
    dsimp only
    rw [htrim]
    rfl
  | .start scheme none =>
    have hne : Element.text (.start scheme none) ≠ [] := h.1
    rw [Tokens.element]
    cases hscheme : isIdent scheme with
    | true =>
      have hstart : startsNewScheme scheme = some (scheme, none) := by
        rw [startsNewScheme, schemeStart_ident hscheme]
        rfl
      rw [Tokens.segment_start htrim hne hstart, if_pos rfl]
      rfl
    | false =>
      have hlost : startsNewScheme scheme = none := by
        have := schemeStart_of_not h hscheme []
        rw [List.append_nil] at this
        exact startsNewScheme_none this
      have hself : scheme.trim = scheme ++ [] := by
        rw [List.append_nil]
        exact Element.trim_self (e := .start scheme none) h
      have hparam : parseParam scheme = none := parseParam_of_not hself h hscheme
      rw [Tokens.segment_lost htrim hne hlost hparam, if_neg (by simp)]
  | .start scheme (some (spaces, p)) =>
    obtain ⟨htoken, hspaces, hblank, hp⟩ := h
    have hne : Element.text (.start scheme (some (spaces, p))) ≠ [] := List.append_ne_nil_of_left_ne_nil htoken.1 _
    rw [Tokens.element]
    cases hscheme : isIdent scheme with
    | true =>
      have hstart : startsNewScheme (scheme ++ (spaces ++ p.text)) = some (scheme, some p.text) := by
        refine startsNewScheme_spaced hscheme hspaces (fun c hc => ?_) (AuthParam.head hp) (by simp [AuthParam.text])
        rw [hblank c hc]
        decide
      rw [Tokens.segment_start htrim hne hstart, if_pos rfl, Option.bind_some, if_neg, parseParam_eq hp]
      · rfl
      · exact List.append_ne_nil_of_left_ne_nil hp.name.1 _
    | false =>
      have hself : (scheme ++ (spaces ++ p.text)).trim = scheme ++ (spaces ++ p.text) :=
        Element.trim_self (e := .start scheme (some (spaces, p))) ⟨htoken, hspaces, hblank, hp⟩
      rw [Tokens.segment_lost htrim hne (startsNewScheme_none (schemeStart_of_not htoken hscheme _)) (parseParam_of_not hself htoken hscheme),
        if_neg (by simp)]
  | .param p =>
    have hne : Element.text (.param p) ≠ [] := List.append_ne_nil_of_left_ne_nil h.name.1 _
    have htight : ¬(isIdent p.name = true ∧ p.before ≠ []) → startsNewScheme p.text = none := by
      intro hspaced
      refine startsNewScheme_none ?_
      cases hname : isIdent p.name with
      | false => exact schemeStart_of_not h.name hname _
      | true =>
        have hbefore : p.before = [] := by
          by_contra hbefore
          exact hspaced ⟨hname, hbefore⟩
        have hident : identifier p.text = some (p.name, '=' :: (p.after ++ p.value.text)) := by
          have happend := identifier_append hname (AuthParam.stop h (p.after ++ p.value.text))
          rw [hbefore] at happend
          rw [AuthParam.text, hbefore]
          exact happend
        exact schemeStart_tight hident (by decide)
    rw [Tokens.element]
    split_ifs with hspaced hnone
    · have hstart : startsNewScheme p.text = some (p.name, some ('=' :: (p.after ++ p.value.text))) := by
        refine startsNewScheme_spaced hspaced.1 hspaced.2 (isWhitespace_of_isOws h.before) ?_ List.mem_cons_self
        rintro c hc
        obtain rfl := Option.some.inj hc
        decide
      rw [Tokens.segment_start htrim hne hstart, Option.bind_some, if_neg (List.cons_ne_nil _ _), parseParam_equals]
      rfl
    · rw [Tokens.segment_param htrim hne (htight hspaced), if_pos hnone]
    · rw [Tokens.segment_param htrim hne (htight hspaced), if_neg hnone]
      exact congrArg (fun parsed => { t with currentParams := insertParam t.currentParams parsed }) (parseParam_eq h)

/-! ### Splitting -/

/-- A text in which no quoted string is open at the end, and no comma is outside of one. -/
def Closed (s : Str) : Prop := ∀ buf rest, splitCommas false buf (s ++ rest) = splitCommas false (buf ++ s) rest

theorem Closed.append {a b : Str} (ha : Closed a) (hb : Closed b) : Closed (a ++ b) := by
  intro buf rest
  rw [List.append_assoc, ha, hb, List.append_assoc]

theorem closed_of_forall {s : Str} (h : ∀ c ∈ s, c ≠ '"' ∧ c ≠ ',') : Closed s := by
  induction s with
  | nil =>
    intro buf rest
    rw [List.append_nil, List.nil_append]
  | cons c s ih =>
    obtain ⟨⟨hquote, hcomma⟩, hs⟩ := List.forall_mem_cons.mp h
    intro buf rest
    rw [List.cons_append, splitCommas, ih hs, List.append_assoc, List.singleton_append]
    · exact hquote
    · exact hcomma

theorem closed_quoted {pieces : List (Bool × Char)} (h : (Value.quoted pieces).Valid) : Closed (Value.quoted pieces).text := by
  -- From inside the quoted string.
  have hinside : ∀ buf rest, splitCommas true buf (pieces.flatMap pieceText ++ '"' :: rest) =
      splitCommas false (buf ++ (pieces.flatMap pieceText ++ ['"'])) rest := by
    induction pieces with
    | nil =>
      intro buf rest
      rfl
    | cons p pieces ih =>
      have ih := ih fun c hc => h c (List.mem_cons_of_mem _ hc)
      intro buf rest
      obtain ⟨escaped, c⟩ := p
      cases escaped with
      | true =>
        show splitCommas true buf ('\\' :: c :: (pieces.flatMap pieceText ++ '"' :: rest)) = _
        rw [splitCommas, ih, List.append_assoc]
        rfl
      | false =>
        obtain ⟨hquote, hescape⟩ := h c List.mem_cons_self
        show splitCommas true buf (c :: (pieces.flatMap pieceText ++ '"' :: rest)) = _
        rw [splitCommas, decide_eq_true hquote, ih, List.append_assoc]
        · rfl
        · exact fun _ _ heq => absurd heq hescape
  intro buf rest
  rw [Value.text, List.cons_append, splitCommas, List.append_assoc, List.singleton_append, hinside, List.append_assoc]
  rfl

theorem closed_token {s : Str} (h : IsToken s) : Closed s :=
  closed_of_forall fun c hc => ⟨(isTchar_ne (h.2 c hc)).2.2.2, (isTchar_ne (h.2 c hc)).2.2.1⟩

theorem closed_ows {s : Str} (h : IsOws s) : Closed s := by
  refine closed_of_forall fun c hc => ?_
  rcases h c hc with rfl | rfl <;> decide

theorem Value.closed {v : Value} (h : v.Valid) : Closed v.text := by
  cases v with
  | token s => exact closed_token h
  | quoted pieces => exact closed_quoted h

theorem AuthParam.closed {p : AuthParam} (h : p.Valid) : Closed p.text := by
  have hequals : Closed ['='] := closed_of_forall (List.forall_mem_singleton.mpr (by decide))
  exact (closed_token h.name).append ((closed_ows h.before).append (hequals.append ((closed_ows h.after).append (Value.closed h.value))))

theorem Element.closed {e : Element} (h : e.Valid) : Closed e.text := by
  match e with
  | .blank => exact closed_of_forall nofun
  | .start scheme none => exact closed_token h
  | .start scheme (some (spaces, p)) =>
    obtain ⟨hscheme, -, hspaces, hp⟩ := h
    exact (closed_token hscheme).append ((closed_ows fun c hc => .inl (hspaces c hc)).append (AuthParam.closed hp))
  | .param p => exact AuthParam.closed h

/-- The commas between closed texts are the ones that it splits at. -/
theorem splitTopLevelCommas_intercalate {parts : List Str} (hne : parts ≠ []) (h : ∀ s ∈ parts, Closed s) :
    splitTopLevelCommas ([','].intercalate parts) = parts := by
  rw [splitTopLevelCommas]
  induction parts with
  | nil => exact absurd rfl hne
  | cons s parts ih =>
    obtain ⟨hs, hparts⟩ := List.forall_mem_cons.mp h
    by_cases hnil : parts = []
    · subst hnil
      have hlast := hs [] []
      rw [List.append_nil] at hlast
      rw [List.intercalate_singleton, hlast]
      rfl
    · obtain ⟨s', parts, rfl⟩ := List.exists_cons_of_ne_nil hnil
      rw [List.intercalate_cons_cons, List.append_assoc, hs, List.singleton_append, splitCommas, ih hnil hparts, List.nil_append]

/-- **What is read of a header** is what its elements make of it, one after the other. -/
theorem tokenize_text {h : Header} (hvalid : h.Valid) :
    tokenizeWwwAuthenticate h.text = (h.elements.foldl Tokens.element ⟨[], none, .empty⟩).close := by
  have hne : (h.map fun e => e.1 ++ (e.2.1.text ++ e.2.2)) ≠ [] := by
    obtain ⟨es, scheme, first, rest, hstarts, -⟩ := hvalid.starts
    rintro hnil
    rw [Header.elements, List.map_eq_nil_iff.mp hnil] at hstarts
    exact absurd hstarts.symm (by simp)
  have hclosed : ∀ s ∈ h.map fun e => e.1 ++ (e.2.1.text ++ e.2.2), Closed s := by
    intro s hs
    obtain ⟨e, he, rfl⟩ := List.mem_map.mp hs
    obtain ⟨hbefore, helement, hafter⟩ := hvalid.elements e he
    exact (closed_ows hbefore).append ((Element.closed helement).append (closed_ows hafter))
  rw [tokenizeWwwAuthenticate, Header.text, splitTopLevelCommas_intercalate hne hclosed, Header.elements, List.foldl_map, List.foldl_map]
  congr 1
  refine List.foldl_ext _ _ _ fun t e he => ?_
  obtain ⟨hbefore, helement, hafter⟩ := hvalid.elements e he
  exact t.segment_eq helement hbefore hafter

end Milpa.Core.WwwAuthenticate
