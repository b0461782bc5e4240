import Milpa.Types.Sha256

/-!
# Pairs in a query

The format `application/x-www-form-urlencoded` and the query of a URL. A list of pairs is
serialized as `url::form_urlencoded::Serializer` does it, and read as
`url::form_urlencoded::parse` does, each name and each value as its bytes. The pairs come
back (`parse_serialize`), and where a query is appended to a URL with a question mark, they
reach the URL that is meant if and only if it had no query and no fragment
(`reaches_append_iff`).
-/

namespace Milpa.FormUrlencoded

/-- A byte that stands for itself. -/
def isUnchanged (b : UInt8) : Bool :=
  (0x30 ≤ b && b ≤ 0x39) || (0x41 ≤ b && b ≤ 0x5A) || (0x61 ≤ b && b ≤ 0x7A) || b == 0x2A || b == 0x2D || b == 0x2E || b == 0x5F

/-- An upper-case hexadecimal digit. -/
def hexDigit (n : ℕ) : Char := Char.ofNat (if n < 10 then 0x30 + n else 0x37 + n)

/-- The value of a hexadecimal digit, of either case. -/
def hexValue (c : Char) : Option ℕ :=
  if '0' ≤ c ∧ c ≤ '9' then some (c.toNat - 0x30)
  else if 'A' ≤ c ∧ c ≤ 'F' then some (c.toNat - 0x37)
  else if 'a' ≤ c ∧ c ≤ 'f' then some (c.toNat - 0x57)
  else none

/-- `byte_serialize`, of a byte. -/
def serializeByte (b : UInt8) : Str :=
  if isUnchanged b then [Char.ofNat b.toNat] else if b = 0x20 then ['+'] else ['%', hexDigit (b.toNat / 16), hexDigit (b.toNat % 16)]

/-- `byte_serialize`. -/
def serializeBytes (bytes : Bytes) : Str := bytes.flatMap serializeByte

/-- A pair. -/
def serializePair (p : Bytes × Bytes) : Str := serializeBytes p.1 ++ '=' :: serializeBytes p.2

/-- `Serializer::extend_pairs`, from the empty string. -/
def serialize (pairs : List (Bytes × Bytes)) : Str := ['&'].intercalate (pairs.map serializePair)

/-- The bytes that a name or a value stands for. -/
def decode : Str → Bytes
  | [] => []
  | '+' :: s => 0x20 :: decode s
  | '%' :: a :: b :: s =>
    match hexValue a, hexValue b with
    | some x, some y => UInt8.ofNat (16 * x + y) :: decode s
    | _, _ => 0x25 :: decode (a :: b :: s)
  | c :: s => String.utf8EncodeChar c ++ decode s

/-- A piece between two separators. -/
def parsePair (s : Str) : Bytes × Bytes :=
  match Str.splitOnce s '=' with
  | some (name, value) => (decode name, decode value)
  | none => (decode s, [])

/-- `form_urlencoded::parse`. -/
def parse (s : Str) : List (Bytes × Bytes) := ((Str.split s '&').filter fun piece => decide (piece ≠ [])).map parsePair

/-! ### Reading what was written -/

set_option maxRecDepth 8000 in
theorem decode_unchanged : ∀ n < 256, isUnchanged (UInt8.ofNat n) = true →
    Char.ofNat n ≠ '+' ∧ Char.ofNat n ≠ '%' ∧ String.utf8EncodeChar (Char.ofNat n) = [UInt8.ofNat n] := by decide

theorem hexValue_hexDigit : ∀ n < 16, hexValue (hexDigit n) = some n := by decide

set_option maxRecDepth 8000 in
theorem serializeByte_free : ∀ n < 256,
    ((serializeByte (UInt8.ofNat n)).all fun c => decide (c ≠ '&' ∧ c ≠ '=' ∧ c ≠ '#' ∧ c ≠ '?')) = true := by decide

theorem serializeByte_cases (b : UInt8) : ∃ n < 256, b = UInt8.ofNat n := ⟨b.toNat, b.toNat_lt, (UInt8.ofNat_toNat).symm⟩

/-- A character that begins no escape. -/
theorem decode_cons {c : Char} (hplus : c ≠ '+') (hpercent : c ≠ '%') (s : Str) : decode (c :: s) = String.utf8EncodeChar c ++ decode s := by
  rw [decode] <;> simp_all

theorem decode_serializeByte (b : UInt8) (s : Str) : decode (serializeByte b ++ s) = b :: decode s := by
  obtain ⟨n, hn, rfl⟩ := serializeByte_cases b
  have htoNat : (UInt8.ofNat n).toNat = n := UInt8.toNat_ofNat_of_lt' hn
  rw [serializeByte]
  split_ifs with hunchanged hspace
  · obtain ⟨hplus, hpercent, hutf8⟩ := decode_unchanged n hn hunchanged
    rw [htoNat, List.singleton_append, decode_cons hplus hpercent, hutf8, List.singleton_append]
  · rw [hspace]
    rfl
  · have hhigh := hexValue_hexDigit (n / 16) (by omega)
    have hlow := hexValue_hexDigit (n % 16) (by omega)
    rw [htoNat, List.cons_append, List.cons_append, List.cons_append, List.nil_append, decode, hhigh, hlow]
    dsimp only
    rw [Nat.div_add_mod]

theorem decode_serializeBytes (bytes : Bytes) : decode (serializeBytes bytes) = bytes := by
  induction bytes with
  | nil => rfl
  | cons b bytes ih => rw [serializeBytes, List.flatMap_cons, decode_serializeByte, ← serializeBytes, ih]

theorem serializeBytes_free {bytes : Bytes} {c : Char} (h : c ∈ serializeBytes bytes) : c ≠ '&' ∧ c ≠ '=' ∧ c ≠ '#' ∧ c ≠ '?' := by
  obtain ⟨b, -, hc⟩ := List.mem_flatMap.mp h
  obtain ⟨n, hn, rfl⟩ := serializeByte_cases b
  exact of_decide_eq_true (List.all_eq_true.mp (serializeByte_free n hn) c hc)

theorem serializePair_free {p : Bytes × Bytes} {c : Char} (h : c ∈ serializePair p) : c ≠ '&' ∧ c ≠ '#' ∧ c ≠ '?' := by
  rw [serializePair, List.mem_append, List.mem_cons] at h
  rcases h with h | rfl | h
  · exact ⟨(serializeBytes_free h).1, (serializeBytes_free h).2.2⟩
  · decide
  · exact ⟨(serializeBytes_free h).1, (serializeBytes_free h).2.2⟩

theorem parsePair_serializePair (p : Bytes × Bytes) : parsePair (serializePair p) = p := by
  have hsplit : Str.splitOnce (serializePair p) '=' = some (serializeBytes p.1, serializeBytes p.2) :=
    Str.splitOnce_eq_some.mpr ⟨rfl, fun h => (serializeBytes_free h).2.1 rfl⟩
  rw [parsePair, hsplit]
  dsimp only
  rw [decode_serializeBytes, decode_serializeBytes]

theorem serializePair_ne_nil (p : Bytes × Bytes) : serializePair p ≠ [] := by
  rw [serializePair]
  exact List.append_ne_nil_of_right_ne_nil _ (List.cons_ne_nil _ _)

/-- A piece without a separator. -/
theorem parse_piece {s : Str} (h : '&' ∉ s) : parse s = if s = [] then [] else [parsePair s] := by
  rw [parse, Str.split, List.splitOn_eq_singleton h]
  by_cases hs : s = [] <;> simp [hs]

theorem parse_append (a b : Str) : parse (a ++ '&' :: b) = parse a ++ parse b := by
  rw [parse, Str.split, List.splitOn_append_cons_self, List.filter_append, List.map_append]
  rfl

theorem serialize_cons (p : Bytes × Bytes) {pairs : List (Bytes × Bytes)} (h : pairs ≠ []) :
    serialize (p :: pairs) = serializePair p ++ '&' :: serialize pairs := by
  obtain ⟨q, pairs, rfl⟩ := List.exists_cons_of_ne_nil h
  rw [serialize, serialize, List.map_cons, List.map_cons, List.intercalate_cons_cons, List.append_assoc, List.singleton_append]

theorem serialize_singleton (p : Bytes × Bytes) : serialize [p] = serializePair p := by simp [serialize]

theorem parse_serializePair (p : Bytes × Bytes) : parse (serializePair p) = [p] := by
  rw [parse_piece fun h => (serializePair_free h).1 rfl, if_neg (serializePair_ne_nil p), parsePair_serializePair]

/-- **The pairs come back.** -/
theorem parse_serialize (pairs : List (Bytes × Bytes)) : parse (serialize pairs) = pairs := by
  induction pairs with
  | nil => rfl
  | cons p pairs ih =>
    by_cases hpairs : pairs = []
    · subst hpairs
      rw [serialize_singleton, parse_serializePair]
    · rw [serialize_cons p hpairs, parse_append, ih, parse_serializePair]
      rfl

theorem serialize_free {pairs : List (Bytes × Bytes)} {c : Char} (h : c ∈ serialize pairs) : c ≠ '#' ∧ c ≠ '?' := by
  rcases Str.mem_of_mem_intercalate h with hc | ⟨part, hpart, hc⟩
  · obtain rfl := List.mem_singleton.mp hc
    decide
  · obtain ⟨p, -, rfl⟩ := List.mem_map.mp hpart
    exact (serializePair_free hc).2

/-! ### Appending a query -/

/-- A URL without its fragment. -/
def withoutFragment (url : Str) : Str := ((Str.splitOnce url '#').map Prod.fst).getD url

/-- What is before the query: scheme, authority and path. -/
def base (url : Str) : Str := ((Str.splitOnce (withoutFragment url) '?').map Prod.fst).getD (withoutFragment url)

/-- The pairs of the query. -/
def queryPairs (url : Str) : List (Bytes × Bytes) := ((Str.splitOnce (withoutFragment url) '?').map fun p => parse p.2).getD []

/-- A URL leads where another one does, with these pairs after its own ones. -/
def Reaches (url target : Str) (added : List (Bytes × Bytes)) : Prop :=
  base url = base target ∧ queryPairs url = queryPairs target ++ added

instance (url target : Str) (added : List (Bytes × Bytes)) : Decidable (Reaches url target added) :=
  inferInstanceAs (Decidable (_ ∧ _))

theorem withoutFragment_eq_self {url : Str} (h : '#' ∉ url) : withoutFragment url = url := by
  rw [withoutFragment, Str.splitOnce_eq_none.mpr h]
  rfl

/-- What is after the fragment has begun belongs to it. -/
theorem withoutFragment_append {url : Str} (h : '#' ∈ url) (rest : Str) : withoutFragment (url ++ rest) = withoutFragment url := by
  obtain ⟨a, b, rfl, ha⟩ := List.eq_append_cons_of_mem h
  have hsplit : ∀ b, Str.splitOnce (a ++ '#' :: b) '#' = some (a, b) := fun b => Str.splitOnce_eq_some.mpr ⟨rfl, ha⟩
  rw [List.append_assoc, List.cons_append, withoutFragment, withoutFragment, hsplit, hsplit]
  rfl

/-- A question mark in the last piece of a query is not where the pairs begin. -/
theorem parse_question_ne (query : Str) {added : List (Bytes × Bytes)} (hadded : added ≠ []) :
    parse (query ++ '?' :: serialize added) ≠ parse query ++ added := by
  obtain ⟨p, added, rfl⟩ := List.exists_cons_of_ne_nil hadded
  -- One piece, which ends with the first pair.
  have hpiece : ∀ last : Str, '&' ∉ last → parse (last ++ '?' :: serializePair p) ≠ parse last ++ [p] := by
    intro last hlast
    have hfree : '&' ∉ last ++ '?' :: serializePair p := by
      simp only [List.mem_append, List.mem_cons, not_or]
      exact ⟨hlast, by decide, fun h => (serializePair_free h).1 rfl⟩
    rw [parse_piece hfree, parse_piece hlast, if_neg (List.append_ne_nil_of_right_ne_nil _ (List.cons_ne_nil _ _))]
    by_cases hnil : last = []
    · subst hnil
      rw [if_pos rfl, List.nil_append, List.nil_append]
      intro heq
      have hsplit : Str.splitOnce ('?' :: serializePair p) '=' = some ('?' :: serializeBytes p.1, serializeBytes p.2) := by
        refine Str.splitOnce_eq_some.mpr ⟨rfl, fun h => ?_⟩
        rcases List.mem_cons.mp h with h | h
        · exact absurd h (by decide)
        · exact (serializeBytes_free h).2.1 rfl
      have hname := congrArg Prod.fst (List.singleton_inj.mp heq)
      rw [parsePair, hsplit] at hname
      dsimp only at hname
      have hquestion : String.utf8EncodeChar '?' = [0x3F] := by decide
      rw [decode_cons (by decide) (by decide), decode_serializeBytes, hquestion] at hname
      exact absurd (congrArg List.length hname) (by simp)
    · rw [if_neg hnil]
      exact fun heq => absurd (congrArg List.length heq) (by simp)
  have hquery : parse (query ++ '?' :: serializePair p) ≠ parse query ++ [p] := by
    cases hlast : Str.rsplitOnce query '&' with
    | none => exact hpiece query (Str.rsplitOnce_eq_none.mp hlast)
    | some ab =>
      obtain ⟨a, b⟩ := ab
      obtain ⟨rfl, hb⟩ := Str.rsplitOnce_eq_some.mp hlast
      rw [List.append_assoc, List.cons_append, parse_append, parse_append, List.append_assoc]
      exact fun heq => hpiece b hb (List.append_cancel_left heq)
  by_cases hrest : added = []
  · subst hrest
    rw [serialize_singleton]
    exact hquery
  · rw [serialize_cons p hrest, ← List.cons_append, ← List.append_assoc, parse_append, parse_serialize, ← List.singleton_append (l := added),
      ← List.append_assoc]
    exact fun heq => hquery (List.append_cancel_right heq)

/-- **An appended query reaches the URL** if and only if the URL has neither query nor fragment. -/
theorem reaches_append_iff {url : Str} {added : List (Bytes × Bytes)} (hadded : added ≠ []) :
    Reaches (url ++ '?' :: serialize added) url added ↔ '?' ∉ url ∧ '#' ∉ url := by
  by_cases hfragment : '#' ∈ url
  · refine iff_of_false (fun h => ?_) fun h => h.2 hfragment
    have hpairs := h.2
    rw [queryPairs, queryPairs, withoutFragment_append hfragment] at hpairs
    exact hadded (List.self_eq_append_right.mp hpairs)
  · have hfree : '#' ∉ url ++ '?' :: serialize added := by
      simp only [List.mem_append, List.mem_cons, not_or]
      exact ⟨hfragment, by decide, fun h => (serialize_free h).1 rfl⟩
    rw [Reaches, base, base, queryPairs, queryPairs, withoutFragment_eq_self hfragment, withoutFragment_eq_self hfree]
    by_cases hquery : '?' ∈ url
    · refine iff_of_false (fun h => ?_) fun h => h.1 hquery
      obtain ⟨a, query, rfl, ha⟩ := List.eq_append_cons_of_mem hquery
      have hsplit : ∀ b, Str.splitOnce (a ++ '?' :: b) '?' = some (a, b) := fun b => Str.splitOnce_eq_some.mpr ⟨rfl, ha⟩
      rw [List.append_assoc, List.cons_append, hsplit, hsplit] at h
      exact parse_question_ne query hadded h.2
    · refine iff_of_true ?_ ⟨hquery, hfragment⟩
      rw [Str.splitOnce_eq_some.mpr ⟨rfl, hquery⟩, Str.splitOnce_eq_none.mpr hquery]
      exact ⟨rfl, parse_serialize added⟩

end Milpa.FormUrlencoded
