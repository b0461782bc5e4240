import Milpa.Core.LockfileFormat
import Milpa.Kdl.Escaped

/-!
# The document of a lockfile

What a lockfile is as a KDL document (`lockDoc`), and that the lines that
`format_lockfile` writes are this document laid out, its strings escaped
(`formatLines_laidOut`).
-/

namespace Milpa.Core

open Milpa.Kdl

/-! ### Escaped strings -/

/-- A string that stands for itself when `kdl_str` writes it: the characters that it does not escape may stand
between quotes. -/
def Legible (s : Str) : Prop := ∀ c ∈ s, 0x20 ≤ c.toNat → isLiteral c = true

instance (s : Str) : Decidable (Legible s) := List.decidableBAll _ s

@[simp] theorem legible_nil : Legible [] := by simp [Legible]

@[simp] theorem legible_cons {c : Char} {s : Str} :
    Legible (c :: s) ↔ (0x20 ≤ c.toNat → isLiteral c = true) ∧ Legible s := List.forall_mem_cons

theorem unescape_hex {n : ℕ} (hn : n < 0x20) (rest : Str) :
    unescape (.digits 0 0) (Nat.toDigits 16 n ++ '}' :: rest) = (unescape .plain rest).map (Char.ofNat n :: ·) := by
  interval_cases n <;> rfl

/-- An escaped character is read as the character, if it may stand there. -/
theorem unescape_escapeChar (c : Char) (rest : Str) :
    unescape .plain (escapeChar c ++ rest) =
      if 0x20 ≤ c.toNat → isLiteral c = true then (unescape .plain rest).map (c :: ·) else none := by
  by_cases hquote : c = '"'
  · subst hquote
    rfl
  by_cases hslash : c = '\\'
  · subst hslash
    rfl
  by_cases hlow : c.toNat < 0x20
  · have := unescape_hex hlow rest
    rw [Char.ofNat_toNat] at this
    rw [escapeChar, if_neg hquote, if_neg hslash, if_pos hlow, if_pos (fun h => absurd h (by omega))]
    simpa [unescape] using this
  · have hhigh : 0x20 ≤ c.toNat := by omega
    have hstep : unescape .plain (c :: rest) =
        if isLiteral c && c != '"' then (unescape .plain rest).map (c :: ·) else none := by
      rw [unescape, if_neg hslash]
    have hne : (c != '"') = true := by simpa using hquote
    rw [escapeChar, if_neg hquote, if_neg hslash, if_neg hlow, List.singleton_append, hstep, hne, Bool.and_true]
    simp only [hhigh, true_imp_iff]

/-- **`kdl_str` writes a string that is read as it was just where the string is legible.** -/
theorem decodeBody_escape (s : Str) : decodeBody (escape s) = if Legible s then some s else none := by
  unfold decodeBody escape
  induction s with
  | nil => rfl
  | cons c s ih =>
    rw [List.flatMap_cons, unescape_escapeChar, ih]
    by_cases hc : 0x20 ≤ c.toNat → isLiteral c = true
    · by_cases hs : Legible s
      · rw [if_pos hc, if_pos hs, if_pos (legible_cons.mpr ⟨hc, hs⟩)]
        rfl
      · rw [if_pos hc, if_neg hs, if_neg (fun h => hs (legible_cons.mp h).2)]
        rfl
    · rw [if_neg hc, if_neg (fun h => hc (legible_cons.mp h).1)]

theorem lexes_append_of_plain {u : Str} (hu : ∀ c ∈ u, c ≠ '"' ∧ c ≠ '\\') (s : Str) : Lexes (u ++ s) = Lexes s := by
  induction u with
  | nil => rfl
  | cons c u ih =>
    obtain ⟨⟨hquote, hslash⟩, hu⟩ := List.forall_mem_cons.mp hu
    have hstep : Lexes (c :: (u ++ s)) = (c != '"' && Lexes (u ++ s)) := by
      rw [Lexes.eq_def]
      split <;> simp_all
    rw [List.cons_append, hstep, ih hu]
    simp [hquote]

theorem lexes_escapeChar (c : Char) (s : Str) : Lexes (escapeChar c ++ s) = Lexes s := by
  by_cases hquote : c = '"'
  · subst hquote
    rfl
  by_cases hslash : c = '\\'
  · subst hslash
    rfl
  by_cases hlow : c.toNat < 0x20
  · rw [escapeChar, if_neg hquote, if_neg hslash, if_pos hlow]
    have hhex : ∀ n < 0x20, '"' ∉ '{' :: (Nat.toDigits 16 n ++ ['}']) ∧ '\\' ∉ '{' :: (Nat.toDigits 16 n ++ ['}']) := by
      decide
    have : '\\' :: 'u' :: '{' :: (Nat.toDigits 16 c.toNat ++ ['}']) ++ s =
        '\\' :: 'u' :: (('{' :: (Nat.toDigits 16 c.toNat ++ ['}'])) ++ s) := by simp
    rw [this, Lexes, lexes_append_of_plain fun d hd =>
      ⟨fun h => (hhex _ hlow).1 (h ▸ hd), fun h => (hhex _ hlow).2 (h ▸ hd)⟩]
  · rw [escapeChar, if_neg hquote, if_neg hslash, if_neg hlow]
    exact lexes_append_of_plain (by simp [hquote, hslash]) s

theorem lexes_escape (s : Str) : Lexes (escape s) = true := by
  unfold escape
  induction s with
  | nil => rfl
  | cons c s ih => rw [List.flatMap_cons, lexes_escapeChar, ih]

theorem not_newline_escape (s : Str) : '\n' ∉ escape s := by
  simp only [escape, List.mem_flatMap, not_exists, not_and]
  intro c _ hc
  unfold escapeChar at hc
  split_ifs at hc with h1 h2 hlow
  · simp at hc
  · simp at hc
  · have hhex : ∀ n < 0x20, '\n' ∉ '\\' :: 'u' :: '{' :: (Nat.toDigits 16 n ++ ['}']) := by decide
    exact hhex _ hlow hc
  · obtain rfl : '\n' = c := by simpa using hc
    exact hlow (by decide)

/-! ### The document -/

/-- A string as an argument. -/
def arg (s : Str) : KdlEntry := ⟨none, none, .string s⟩

/-- A node whose arguments are strings. -/
def strNode (name : Str) (values : List Str) : KdlNode := .mk name (values.map arg) []

/-- A node that is there where its string is. -/
def optNode (name : Str) (value : Option Str) : List KdlNode := value.toList.map fun v => strNode name [v]

/-- The `url` of a source. -/
def urlNode (url : Str) : KdlNode := .mk "url" [⟨some "url", none, .string url⟩] []

/-- The fields of a source. -/
def sourceFieldNodes : SourceId → List KdlNode
  | .fetchable (.git url gitRef subpath) =>
    [strNode "kind" ["git"], urlNode url] ++ optNode "ref" gitRef ++ optNode "subpath" subpath
  | .fetchable (.oci registry repository digest subpath) =>
    [strNode "kind" ["oci"], strNode "registry" [registry], strNode "repository" [repository]] ++
      optNode "digest" digest ++ optNode "subpath" subpath
  | .fetchable (.tarball url subpath) => [strNode "kind" ["tarball"], urlNode url] ++ optNode "subpath" subpath
  | .fetchable (.local path) => [strNode "kind" ["local"], strNode "path" [path]]
  | .fetchable (.registry registry «namespace» name) =>
    [strNode "kind" ["registry"], strNode "registry" [registry]] ++ optNode "namespace" «namespace» ++
      [strNode "name" [name]]
  | .member memberName => [strNode "kind" ["member"], strNode "name" [memberName]]

/-- The block of a source. -/
def sourceNode (sid : SourceId) : KdlNode := .mk "source" [] (sourceFieldNodes sid)

/-- A submodule. -/
def submoduleNode (sub : Str × Str) : KdlNode :=
  .mk "submodule" [arg sub.1, ⟨none, some "sha", .string sub.2⟩] []

/-- The fields of a provenance. -/
def provenanceFieldNodes : ProvenanceRecord → List KdlNode
  | .git url refSpec commitSha origin submoduleShas =>
    [strNode "origin" [origin], strNode "kind" ["git"], strNode "url" [url]] ++ optNode "ref" refSpec ++
      optNode "commit_sha" commitSha ++ submoduleShas.map submoduleNode
  | .tarball url sha256 origin =>
    [strNode "origin" [origin], strNode "kind" ["tarball"], strNode "url" [url]] ++ optNode "sha256" sha256
  | .local path origin => [strNode "origin" [origin], strNode "kind" ["local"], strNode "path" [path]]
  | .member name origin => [strNode "origin" [origin], strNode "kind" ["member"], strNode "name" [name]]
  | .oci registry repository digest origin =>
    [strNode "origin" [origin], strNode "kind" ["oci"], strNode "registry" [registry],
      strNode "repository" [repository], strNode "digest" [digest]]
  | .root name origin => [strNode "origin" [origin], strNode "kind" ["root"], strNode "name" [name]]

/-- The block of a provenance. -/
def provenanceNode (p : ProvenanceRecord) : KdlNode := .mk "provenance" [] (provenanceFieldNodes p)

/-- The property of a predicate. -/
def predicateEntry (p : Predicate) : KdlEntry :=
  ⟨if p.negated then some "not".toList else none, some p.name, .string (p.values.headD [])⟩

/-- A conditional require: with its one predicate, or with a block of them. -/
def condRequireNode (cr : CondRequire) : KdlNode :=
  match cr.predicates with
  | [p] => .mk "cond-require" [arg cr.name, predicateEntry p] []
  | ps => .mk "cond-require" [arg cr.name] (ps.map fun p => .mk "when" [predicateEntry p] [])

/-- The block of a Rekor reference. -/
def rekorNode (r : RekorRef) : KdlNode :=
  .mk "rekor" [] [strNode "uuid" [r.uuid], strNode "log_index" [r.logIndex], strNode "integrated_time" [r.integratedTime]]

/-- The block of an attestation. -/
def attestationNode (att : LockAttestation) : KdlNode :=
  .mk "attestation" []
    ((match att.kind with
        | .authorSigned signer => [strNode "kind" ["author-signed"], strNode "signer" [signer]]
        | .milpaVendored => [strNode "kind" ["milpa-vendored"]]) ++
      att.rekor.toList.map rekorNode ++
      att.bundlePin.toList.map (fun pin => .mk "bundle" [⟨none, some "sha256", .string pin⟩] []) ++
      [strNode "namespace" [att.namespace]])

/-- The text of the property of a predicate. -/
def predicateText (p : Predicate) : Str :=
  p.name ++ ((if p.negated then "=(not)".toList else ['=']) ++ kdlStr (p.values.headD []))

/-- The key by which conditional requires are sorted. -/
def condKey (cr : CondRequire) : Str ×ₗ Str := toLex (cr.name, [','].intercalate (cr.predicates.map predicateText))

/-- A dependency in the order in which it is written. -/
def sortedDep (d : LockedDep) : LockedDep :=
  { d with condRequires := sortByKey condKey d.condRequires, aliases := sortByKey id d.aliases,
           provenances := sortByKey provenanceSortKey d.provenances }

/-- The children of a dependency, in the order in which they are. -/
def depFieldNodes (d : LockedDep) : List KdlNode :=
  optNode "namespace" d.namespace ++ d.sourceId.toList.map sourceNode ++ optNode "identity" d.identity ++
    [strNode "version" [d.version]] ++ optNode "declared_version_source" d.declaredVersionSource ++
    [strNode "src_dir" [d.srcDir], strNode "requires" d.requires] ++ d.condRequires.map condRequireNode ++
    (if d.aliases = [] then [] else [strNode "aliases" d.aliases]) ++
    (if d.activeFlags = [] then [] else [strNode "active_flags" d.activeFlags]) ++
    d.attestation.toList.map attestationNode ++ optNode "dep_decl" d.depDecl ++ d.provenances.map provenanceNode

/-- The node of a dependency. -/
def depNode (d : LockedDep) : KdlNode := .mk "dep" [arg d.name] (depFieldNodes (sortedDep d))

/-- The nodes before the dependencies. -/
def headNodes (l : Lockfile) : List KdlNode :=
  [.mk "version" [⟨none, none, .integer l.version⟩] [], strNode "strategy" [l.strategy]] ++
    l.excludeNewer.toList.map fun ts => strNode "exclude_newer" [Timestamp.formatIso8601Timestamp ts]

/-- The document of a lockfile. -/
def lockDoc (l : Lockfile) : List KdlNode := headNodes l ++ l.deps.map depNode

/-! ### Its lines -/

theorem nodesLines_append (depth : ℕ) (ns ms : List KdlNode) :
    nodesLines depth (ns ++ ms) = nodesLines depth ns ++ nodesLines depth ms := by
  induction ns with
  | nil => rfl
  | cons n ns ih => simp [nodesLines, ih]

/-- The lines of nodes as they are written. -/
def writtenLines (depth : ℕ) (ns : List KdlNode) : List Str := nodesLines depth (mapStrs escape ns)

@[simp] theorem writtenLines_nil (depth : ℕ) : writtenLines depth [] = [] := rfl

@[simp] theorem writtenLines_append (depth : ℕ) (ns ms : List KdlNode) :
    writtenLines depth (ns ++ ms) = writtenLines depth ns ++ writtenLines depth ms := by
  rw [writtenLines, mapStrs_append, nodesLines_append]
  rfl

theorem writtenLines_cons (depth : ℕ) (n : KdlNode) (ns : List KdlNode) :
    writtenLines depth (n :: ns) = (n.mapStr escape).lines depth ++ writtenLines depth ns := rfl

/-- The text of entries as they are written. -/
def writtenEntries (entries : List KdlEntry) : Str := entriesText (entries.map (KdlEntry.mapStr escape))

theorem lines_leaf (depth : ℕ) (name : Str) (entries : List KdlEntry) :
    ((KdlNode.mk name entries []).mapStr escape).lines depth = [indent depth ++ (name ++ writtenEntries entries)] := rfl

theorem lines_block (depth : ℕ) (name : Str) (entries : List KdlEntry) {children : List KdlNode} (h : children ≠ []) :
    ((KdlNode.mk name entries children).mapStr escape).lines depth =
      (indent depth ++ (name ++ (writtenEntries entries ++ [' ', '{']))) ::
        (writtenLines (depth + 1) children ++ [indent depth ++ ['}']]) := by
  cases children with
  | nil => exact absurd rfl h
  | cons c cs =>
    simp only [KdlNode.mapStr, mapStrs, KdlNode.lines, writtenLines_cons, List.append_assoc]
    rfl

theorem writtenEntries_args (values : List Str) : writtenEntries (values.map arg) = values.flatMap fun v => ' ' :: kdlStr v := by
  induction values with
  | nil => rfl
  | cons v vs ih =>
    rw [List.map_cons, List.flatMap_cons, ← ih]
    rfl

theorem lines_strNode (depth : ℕ) (name : Str) (values : List Str) :
    ((strNode name values).mapStr escape).lines depth =
      [indent depth ++ (name ++ values.flatMap fun v => ' ' :: kdlStr v)] := by
  rw [strNode, lines_leaf, writtenEntries_args]

/-- A field on its line. -/
theorem lines_field (depth : ℕ) (name value : Str) :
    ((strNode name [value]).mapStr escape).lines depth = [indent depth ++ fieldText name value] := by
  rw [lines_strNode]
  simp [fieldText]

theorem writtenLines_optNode (depth : ℕ) (name : Str) (value : Option Str) :
    writtenLines depth (optNode name value) = (optFieldText name value).map (indent depth ++ ·) := by
  cases value with
  | none => rfl
  | some v => simp [optNode, optFieldText, writtenLines_cons, lines_field]

theorem writtenEntries_cons (e : KdlEntry) (es : List KdlEntry) :
    writtenEntries (e :: es) = ' ' :: ((e.mapStr escape).text ++ writtenEntries es) := rfl

@[simp] theorem writtenEntries_nil : writtenEntries [] = [] := rfl

theorem text_arg (s : Str) : ((arg s).mapStr escape).text = kdlStr s := rfl

theorem lines_urlNode (depth : ℕ) (url : Str) :
    ((urlNode url).mapStr escape).lines depth = [indent depth ++ ("url (url)".toList ++ kdlStr url)] := by
  rw [urlNode, lines_leaf, writtenEntries_cons, writtenEntries_nil, List.append_nil]
  rfl

theorem writtenLines_source (depth : ℕ) (sid : SourceId) :
    writtenLines depth (sourceFieldNodes sid) = (formatSourceFields sid).map (indent depth ++ ·) := by
  cases sid with
  | fetchable origin =>
    cases origin <;>
      simp only [sourceFieldNodes, formatSourceFields, writtenLines_append, writtenLines_optNode, writtenLines_cons,
        lines_field, lines_urlNode, writtenLines_nil, List.map_append, List.map_cons, List.map_nil,
        List.cons_append, List.nil_append]
  | member memberName =>
    simp only [sourceFieldNodes, formatSourceFields, writtenLines_cons, lines_field, writtenLines_nil, List.map_cons,
      List.map_nil, List.cons_append, List.nil_append]

theorem lines_submoduleNode (depth : ℕ) (sub : Str × Str) :
    ((submoduleNode sub).mapStr escape).lines depth =
      [indent depth ++ ("submodule ".toList ++ (kdlStr sub.1 ++ (" sha=".toList ++ kdlStr sub.2)))] := by
  rw [submoduleNode, lines_leaf, writtenEntries_cons, writtenEntries_cons, writtenEntries_nil, List.append_nil, text_arg]
  rfl

theorem writtenLines_map {α : Type} {f : α → KdlNode} {depth : ℕ} {line : α → Str}
    (h : ∀ a, ((f a).mapStr escape).lines depth = [line a]) (l : List α) : writtenLines depth (l.map f) = l.map line := by
  induction l with
  | nil => rfl
  | cons a l ih => rw [List.map_cons, List.map_cons, writtenLines_cons, h, ih, List.singleton_append]

theorem writtenLines_provenance (depth : ℕ) (p : ProvenanceRecord) :
    writtenLines depth (provenanceFieldNodes p) = (formatProvenanceFields p).map (indent depth ++ ·) := by
  cases p <;>
    simp only [provenanceFieldNodes, formatProvenanceFields, writtenLines_append, writtenLines_optNode, writtenLines_cons,
      lines_field, writtenLines_map (lines_submoduleNode depth), writtenLines_nil, List.map_append, List.map_cons,
      List.map_nil, List.cons_append, List.nil_append, List.map_map, Function.comp_def]

/-- A block of fields of a dependency. -/
theorem lines_fields {name : Str} {nodes : List KdlNode} {fields : List Str} (hne : nodes ≠ [])
    (h : writtenLines 2 nodes = fields.map (indent 2 ++ ·)) :
    ((KdlNode.mk name [] nodes).mapStr escape).lines 1 = blockText name fields := by
  rw [lines_block 1 name [] hne, h]
  rfl

theorem lines_sourceNode (sid : SourceId) :
    ((sourceNode sid).mapStr escape).lines 1 = blockText "source" (formatSourceFields sid) := by
  refine lines_fields ?_ (writtenLines_source 2 sid)
  cases sid with
  | fetchable origin => cases origin <;> simp [sourceFieldNodes]
  | member memberName => simp [sourceFieldNodes]

theorem lines_provenanceNode (p : ProvenanceRecord) :
    ((provenanceNode p).mapStr escape).lines 1 = blockText "provenance" (formatProvenanceFields p) := by
  refine lines_fields ?_ (writtenLines_provenance 2 p)
  cases p <;> simp [provenanceFieldNodes]

theorem lines_rekorNode (r : RekorRef) :
    ((rekorNode r).mapStr escape).lines 2 =
      ["        rekor \x7b".toList, "            ".toList ++ fieldText "uuid" r.uuid,
        "            ".toList ++ fieldText "log_index" r.logIndex,
        "            ".toList ++ fieldText "integrated_time" r.integratedTime, "        \x7d".toList] := by
  rw [rekorNode, lines_block 2 _ _ (by simp)]
  simp only [writtenLines_cons, lines_field, writtenLines_nil, List.cons_append, List.nil_append]
  rfl

theorem lines_bundleNode (pin : Str) :
    ((KdlNode.mk "bundle" [⟨none, some "sha256", .string pin⟩] []).mapStr escape).lines 2 =
      ["        bundle sha256=".toList ++ kdlStr pin] := by
  rw [lines_leaf, writtenEntries_cons, writtenEntries_nil, List.append_nil]
  rfl

theorem lines_attestationNode (att : LockAttestation) :
    ((attestationNode att).mapStr escape).lines 1 = formatLockAttestation att := by
  obtain ⟨kind, rekor, bundlePin, ns⟩ := att
  rw [attestationNode, lines_block 1 _ _ (by simp)]
  simp only [writtenLines_append, formatLockAttestation]
  have hindent : indent 2 = "        ".toList := rfl
  cases kind <;> cases rekor <;> cases bundlePin <;>
    simp only [Nat.reduceAdd, writtenLines_cons, lines_field, lines_rekorNode, lines_bundleNode, writtenLines_nil,
      Option.toList_some, Option.toList_none, List.map_cons, List.map_nil, List.cons_append, List.nil_append, writtenEntries_nil, hindent] <;>
    rfl

/-! ### Conditional requires -/

/-- A predicate that can be written. -/
def SingleValued (p : Predicate) : Prop := ∃ v, p.values = [v]

theorem formatPredicateProp_eq {p : Predicate} (h : SingleValued p) : formatPredicateProp p = some (predicateText p) := by
  obtain ⟨v, hv⟩ := h
  rw [formatPredicateProp, predicateText, hv]
  cases p.negated <;> rfl

theorem mapM_eq_map {α β : Type} {f : α → Option β} {g : α → β} {l : List α} (h : ∀ a ∈ l, f a = some (g a)) :
    l.mapM f = some (l.map g) := by
  induction l with
  | nil => rfl
  | cons a l ih =>
    obtain ⟨ha, hl⟩ := List.forall_mem_cons.mp h
    simp [List.mapM_cons, ha, ih hl]

/-- A conditional require that can be written: a reader makes no others. -/
structure ValidCond (cr : CondRequire) : Prop where
  nonempty : cr.predicates ≠ []
  single : ∀ p ∈ cr.predicates, SingleValued p
  known : ∀ p ∈ cr.predicates, p.name ∈ knownPredicateNames

theorem condRequireSortKey_eq {cr : CondRequire} (h : ValidCond cr) : condRequireSortKey cr = some (condKey cr) := by
  rw [condRequireSortKey, mapM_eq_map fun p hp => formatPredicateProp_eq (h.single p hp)]
  rfl

theorem text_predicateEntry (p : Predicate) : ((predicateEntry p).mapStr escape).text = predicateText p := by
  obtain ⟨name, values, negated⟩ := p
  cases negated <;> simp [predicateEntry, KdlEntry.mapStr, KdlValue.mapStr, KdlEntry.text, keyText, tyText,
    KdlValue.text, predicateText, kdlStr]

theorem lines_whenNode (p : Predicate) :
    ((KdlNode.mk "when" [predicateEntry p] []).mapStr escape).lines 2 = ["        when ".toList ++ predicateText p] := by
  rw [lines_leaf, writtenEntries_cons, writtenEntries_nil, List.append_nil, text_predicateEntry]
  rfl

theorem formatCondRequire_eq {cr : CondRequire} (h : ValidCond cr) :
    formatCondRequire cr = some (((condRequireNode cr).mapStr escape).lines 1) := by
  obtain ⟨name, predicates⟩ := cr
  obtain ⟨hne, hsingle, -⟩ := h
  rw [formatCondRequire, mapM_eq_map fun p hp => formatPredicateProp_eq (hsingle p hp)]
  match predicates, hne with
  | [p], _ =>
    simp only [condRequireNode, List.map_cons, List.map_nil, Option.map_some]
    rw [lines_leaf, writtenEntries_cons, writtenEntries_cons, writtenEntries_nil, List.append_nil, text_arg,
      text_predicateEntry]
    rfl
  | p :: q :: ps, _ =>
    have hnode : condRequireNode ⟨name, p :: q :: ps⟩ =
        .mk "cond-require" [arg name] ((p :: q :: ps).map fun p => .mk "when" [predicateEntry p] []) := rfl
    rw [hnode, lines_block 1 _ _ (by simp), writtenLines_map lines_whenNode, writtenEntries_cons, writtenEntries_nil,
      List.append_nil, text_arg]
    simp only [Option.map_some, List.map_cons, List.map_map, List.cons_append, List.nil_append]
    rfl

/-- Sorting by keys that are computed first. -/
theorem sortByKey_keyed {α κ : Type} [LinearOrder κ] (key : α → κ) (l : List α) :
    (sortByKey Prod.fst (l.map fun a => (key a, a))).map Prod.snd = sortByKey key l := by
  have h := List.map_insertionSort (r := fun a b => key a ≤ key b) (s := fun a b : κ × α => a.1 ≤ b.1)
    (fun a => (key a, a)) l (fun a _ b _ => Iff.rfl)
  rw [sortByKey, ← h, List.map_map]
  exact List.map_id _

theorem formatCondRequires_eq {crs : List CondRequire} (h : ∀ cr ∈ crs, ValidCond cr) :
    formatCondRequires crs = some (writtenLines 1 ((sortByKey condKey crs).map condRequireNode)) := by
  have hkeys : crs.mapM (fun cr => (condRequireSortKey cr).map fun key => (key, cr)) =
      some (crs.map fun cr => (condKey cr, cr)) :=
    mapM_eq_map fun cr hcr => by rw [condRequireSortKey_eq (h cr hcr)]; rfl
  have hlines : (sortByKey condKey crs).mapM formatCondRequire =
      some ((sortByKey condKey crs).map fun cr => ((condRequireNode cr).mapStr escape).lines 1) :=
    mapM_eq_map fun cr hcr => formatCondRequire_eq (h cr (mem_sortByKey.mp hcr))
  have hflat : ∀ l : List CondRequire, (l.map fun cr => ((condRequireNode cr).mapStr escape).lines 1).flatten =
      writtenLines 1 (l.map condRequireNode) := by
    intro l
    induction l with
    | nil => rfl
    | cons cr l ih => rw [List.map_cons, List.flatten_cons, ih, List.map_cons, writtenLines_cons]
  simp only [formatCondRequires, hkeys, Option.bind_eq_bind, Option.bind_some, sortByKey_keyed, hlines, Option.pure_def,
    hflat]

/-! ### Dependencies and lockfiles -/

theorem joinKdl_text (v : Str) (vs : List Str) : ' ' :: joinKdl (v :: vs) = (v :: vs).flatMap fun v => ' ' :: kdlStr v := by
  induction vs generalizing v with
  | nil => simp [joinKdl]
  | cons w vs ih =>
    have : joinKdl (v :: w :: vs) = kdlStr v ++ ' ' :: joinKdl (w :: vs) := by
      simp [joinKdl, List.intercalate]
    rw [this, ih w, List.flatMap_cons (x := v), List.cons_append]

theorem lines_requires (requires : List Str) :
    ((strNode "requires" requires).mapStr escape).lines 1 =
      [if requires = [] then "    requires".toList else "    requires ".toList ++ joinKdl requires] := by
  rw [lines_strNode]
  cases requires with
  | nil => rfl
  | cons v vs =>
    rw [if_neg (by simp), ← joinKdl_text]
    rfl

/-- A list of strings that is left out where it is empty. -/
theorem writtenLines_strings {name pre : Str} (hpre : indent 1 ++ (name ++ [' ']) = pre) (values : List Str) :
    writtenLines 1 (if values = [] then [] else [strNode name values]) =
      if values = [] then [] else [pre ++ joinKdl values] := by
  cases values with
  | nil => rfl
  | cons v vs =>
    rw [if_neg (by simp), if_neg (by simp), writtenLines_cons, lines_strNode, writtenLines_nil, ← joinKdl_text, ← hpre]
    simp

theorem writtenLines_toList {α : Type} {f : α → KdlNode} {lines : α → List Str}
    (h : ∀ a, ((f a).mapStr escape).lines 1 = lines a) (l : List α) : writtenLines 1 (l.map f) = l.flatMap lines := by
  induction l with
  | nil => rfl
  | cons a l ih => rw [List.map_cons, writtenLines_cons, h, ih, List.flatMap_cons]

theorem writtenLines_opt (name : Str) (value : Option Str) :
    writtenLines 1 (optNode name value) = value.toList.map fun v => "    ".toList ++ fieldText name v := by
  rw [writtenLines_optNode, optFieldText, List.map_map]
  rfl

/-- A dependency whose conditional requires can be written. -/
def WritableDep (d : LockedDep) : Prop := ∀ cr ∈ d.condRequires, ValidCond cr

theorem formatDep_eq {d : LockedDep} (h : WritableDep d) :
    formatDep d = some (((depNode d).mapStr escape).lines 0 ++ [[]]) := by
  have hne : depFieldNodes (sortedDep d) ≠ [] := by
    intro hnil
    have hlen := congrArg List.length hnil
    simp only [depFieldNodes, List.length_append, List.length_cons, List.length_nil] at hlen
    omega
  have hfields : writtenLines 1 (depFieldNodes (sortedDep d)) =
      d.namespace.toList.map (fun ns => "    ".toList ++ fieldText "namespace" ns) ++
      d.sourceId.toList.flatMap (fun sid => blockText "source" (formatSourceFields sid)) ++
      d.identity.toList.map (fun identity => "    ".toList ++ fieldText "identity" identity) ++
      ["    ".toList ++ fieldText "version" d.version] ++
      d.declaredVersionSource.toList.map (fun src => "    ".toList ++ fieldText "declared_version_source" src) ++
      ["    ".toList ++ fieldText "src_dir" d.srcDir] ++
      [if d.requires = [] then "    requires".toList else "    requires ".toList ++ joinKdl d.requires] ++
      writtenLines 1 ((sortByKey condKey d.condRequires).map condRequireNode) ++
      (if d.aliases = [] then [] else ["    aliases ".toList ++ joinKdl (sortByKey id d.aliases)]) ++
      (if d.activeFlags = [] then [] else ["    active_flags ".toList ++ joinKdl d.activeFlags]) ++
      d.attestation.toList.flatMap formatLockAttestation ++
      d.depDecl.toList.map (fun dd => "    ".toList ++ fieldText "dep_decl" dd) ++
      (sortByKey provenanceSortKey d.provenances).flatMap fun p => blockText "provenance" (formatProvenanceFields p) := by
    have haliases := @writtenLines_strings "aliases" "    aliases " rfl (sortedDep d).aliases
    have hflags := @writtenLines_strings "active_flags" "    active_flags " rfl
      (sortedDep d).activeFlags
    have hnil : (sortedDep d).aliases = [] ↔ d.aliases = [] := sortByKey_eq_nil
    rw [depFieldNodes]
    simp only [writtenLines_append]
    rw [writtenLines_opt, writtenLines_toList lines_sourceNode, writtenLines_opt, writtenLines_cons, writtenLines_nil,
      lines_field, writtenLines_opt, writtenLines_cons, writtenLines_cons, writtenLines_nil, lines_field, lines_requires,
      haliases, hflags, writtenLines_opt, writtenLines_toList lines_attestationNode,
      writtenLines_toList lines_provenanceNode]
    simp only [hnil, List.append_nil, List.append_assoc]
    rfl
  rw [formatDep, formatCondRequires_eq h, depNode, lines_block 0 _ _ hne, hfields, writtenEntries_cons,
    writtenEntries_nil, List.append_nil, text_arg]
  simp only [Option.bind_eq_bind, Option.bind_some, Option.pure_def, List.append_assoc, List.cons_append,
    List.nil_append]
  rfl

/-- A lockfile that can be written. -/
def WritableLock (l : Lockfile) : Prop := ∀ d ∈ l.deps, WritableDep d

theorem formatLines_eq {l : Lockfile} (h : WritableLock l) :
    formatLines l = some (header :: (writtenLines 0 (headNodes l) ++
      [] :: (l.deps.map fun d => ((depNode d).mapStr escape).lines 0 ++ [[]]).flatten)) := by
  have hdeps : l.deps.mapM formatDep = some (l.deps.map fun d => ((depNode d).mapStr escape).lines 0 ++ [[]]) :=
    mapM_eq_map fun d hd => formatDep_eq (h d hd)
  have hversion : ((KdlNode.mk "version" [⟨none, none, .integer l.version⟩] []).mapStr escape).lines 0 =
      ["version ".toList ++ Str.ofNat l.version] := by
    rw [lines_leaf, writtenEntries_cons, writtenEntries_nil, List.append_nil]
    rfl
  have hnewer : writtenLines 0 (l.excludeNewer.toList.map fun ts =>
      strNode "exclude_newer" [Timestamp.formatIso8601Timestamp ts]) =
      l.excludeNewer.toList.map fun ts => fieldText "exclude_newer" (Timestamp.formatIso8601Timestamp ts) :=
    writtenLines_map (fun ts => lines_field 0 _ _) _
  rw [formatLines, hdeps]
  simp only [headNodes, writtenLines_cons, hversion, lines_field, hnewer, Option.bind_eq_bind, Option.bind_some, Option.pure_def, List.append_assoc, List.cons_append, List.nil_append]
  rfl

/-! ### Its layout -/

theorem written_entry {ty name : Option Str} {s : Str} (hty : ∀ t ∈ ty, IsBare t) (hname : ∀ n ∈ name, IsBare n) :
    (KdlEntry.mapStr escape ⟨ty, name, .string s⟩).Written :=
  ⟨hty, hname, lexes_escape s, not_newline_escape s⟩

theorem written_arg (s : Str) : ((arg s).mapStr escape).Written := written_entry (by simp) (by simp)

theorem written_node {name : Str} {entries : List KdlEntry} {children : List KdlNode} (hname : IsBare name)
    (hentries : ∀ e ∈ entries, (e.mapStr escape).Written) (hchildren : ∀ c ∈ children, (c.mapStr escape).Written) :
    ((KdlNode.mk name entries children).mapStr escape).Written := by
  rw [KdlNode.mapStr, mapStrs_eq_map]
  exact .mk hname (List.forall_mem_map.mpr hentries) (List.forall_mem_map.mpr hchildren)

theorem written_strNode {name : Str} (hname : IsBare name) (values : List Str) :
    ((strNode name values).mapStr escape).Written :=
  written_node hname (List.forall_mem_map.mpr fun v _ => written_arg v) (by simp)

theorem written_optNode {name : Str} (hname : IsBare name) (value : Option Str) :
    ∀ n ∈ optNode name value, (n.mapStr escape).Written :=
  List.forall_mem_map.mpr fun v _ => written_strNode hname [v]

theorem written_urlNode (url : Str) : ((urlNode url).mapStr escape).Written :=
  written_node (by decide) (by simpa using written_entry (s := url) (by simp; decide) (by simp)) (by simp)

theorem written_submoduleNode (sub : Str × Str) : ((submoduleNode sub).mapStr escape).Written :=
  written_node (by decide)
    (List.forall_mem_cons.mpr ⟨written_arg _, List.forall_mem_singleton.mpr (written_entry (by simp) (by simp; decide))⟩)
    (by simp)

theorem written_predicateEntry {p : Predicate} (h : p.name ∈ knownPredicateNames) :
    ((predicateEntry p).mapStr escape).Written := by
  refine written_entry ?_ ?_
  · cases p.negated
    · simp
    · simp
      decide
  · have hknown : ∀ n ∈ knownPredicateNames, IsBare n := by decide
    simpa using hknown _ h

theorem written_condRequireNode {cr : CondRequire} (h : ValidCond cr) : ((condRequireNode cr).mapStr escape).Written := by
  obtain ⟨name, predicates⟩ := cr
  obtain ⟨hne, -, hknown⟩ := h
  match predicates, hne with
  | [p], _ =>
    exact written_node (by decide)
      (List.forall_mem_cons.mpr ⟨written_arg _,
        List.forall_mem_singleton.mpr (written_predicateEntry (hknown p List.mem_cons_self))⟩) (by simp)
  | p :: q :: ps, _ =>
    refine written_node (by decide) (List.forall_mem_singleton.mpr (written_arg _)) ?_
    exact List.forall_mem_map.mpr fun p hp =>
      written_node (by decide) (List.forall_mem_singleton.mpr (written_predicateEntry (hknown p hp))) (by simp)

theorem written_sourceNode (sid : SourceId) : ((sourceNode sid).mapStr escape).Written := by
  refine written_node (by decide) (by simp) ?_
  cases sid with
  | fetchable origin =>
    cases origin <;>
      simp only [sourceFieldNodes, List.forall_mem_append, List.forall_mem_cons, List.not_mem_nil, false_implies,
        implies_true, and_true] <;>
      and_intros <;>
      first
        | exact written_strNode (by decide) _
        | exact written_optNode (by decide) _
        | exact written_urlNode _
  | member memberName =>
    simp only [sourceFieldNodes, List.forall_mem_cons, List.not_mem_nil, false_implies, implies_true, and_true]
    exact ⟨written_strNode (by decide) _, written_strNode (by decide) _⟩

theorem written_provenanceNode (p : ProvenanceRecord) : ((provenanceNode p).mapStr escape).Written := by
  refine written_node (by decide) (by simp) ?_
  cases p <;>
    simp only [provenanceFieldNodes, List.forall_mem_append, List.forall_mem_cons, List.not_mem_nil, false_implies,
      implies_true, and_true] <;>
    and_intros <;>
    first
      | exact written_strNode (by decide) _
      | exact written_optNode (by decide) _
      | exact List.forall_mem_map.mpr fun sub _ => written_submoduleNode sub

theorem written_attestationNode (att : LockAttestation) : ((attestationNode att).mapStr escape).Written := by
  refine written_node (by decide) (by simp) ?_
  have hrekor : ∀ r, ((rekorNode r).mapStr escape).Written := by
    intro r
    refine written_node (by decide) (by simp) ?_
    simp only [List.forall_mem_cons, List.not_mem_nil, false_implies, implies_true, and_true]
    exact ⟨written_strNode (by decide) _, written_strNode (by decide) _, written_strNode (by decide) _⟩
  have hbundle : ∀ pin, ((KdlNode.mk "bundle" [⟨none, some "sha256", .string pin⟩] []).mapStr escape).Written :=
    fun pin => written_node (by decide) (List.forall_mem_singleton.mpr (written_entry (by simp) (by simp; decide)))
      (by simp)
  simp only [List.forall_mem_append, List.forall_mem_map, List.forall_mem_singleton]
  refine ⟨⟨⟨?_, fun r _ => hrekor r⟩, fun pin _ => hbundle pin⟩, written_strNode (by decide) _⟩
  cases att.kind with
  | authorSigned signer =>
    exact List.forall_mem_cons.mpr ⟨written_strNode (by decide) _,
      List.forall_mem_singleton.mpr (written_strNode (by decide) _)⟩
  | milpaVendored => exact List.forall_mem_singleton.mpr (written_strNode (by decide) _)

theorem written_strings {name : Str} (hname : IsBare name) (values : List Str) :
    ∀ n ∈ (if values = [] then [] else [strNode name values]), (n.mapStr escape).Written := by
  split_ifs
  · simp
  · exact List.forall_mem_singleton.mpr (written_strNode hname values)

theorem written_depNode {d : LockedDep} (h : WritableDep d) : ((depNode d).mapStr escape).Written := by
  refine written_node (by decide) (List.forall_mem_singleton.mpr (written_arg _)) ?_
  simp only [depFieldNodes, List.forall_mem_append, List.forall_mem_map, List.forall_mem_cons, List.not_mem_nil,
    false_implies, implies_true, and_true]
  and_intros
  · exact written_optNode (by decide) _
  · exact fun sid _ => written_sourceNode sid
  · exact written_optNode (by decide) _
  · exact written_strNode (by decide) _
  · exact written_optNode (by decide) _
  · exact written_strNode (by decide) _
  · exact written_strNode (by decide) _
  · exact fun cr hcr => written_condRequireNode (h cr (mem_sortByKey.mp hcr))
  · exact written_strings (by decide) _
  · exact written_strings (by decide) _
  · exact fun att _ => written_attestationNode att
  · exact written_optNode (by decide) _
  · exact fun p _ => written_provenanceNode p

theorem written_headNodes (l : Lockfile) : ∀ n ∈ headNodes l, (n.mapStr escape).Written := by
  simp only [headNodes, List.forall_mem_append, List.forall_mem_map, List.forall_mem_cons, List.not_mem_nil,
    false_implies, implies_true, and_true]
  refine ⟨⟨?_, written_strNode (by decide) _⟩, fun ts _ => written_strNode (by decide) _⟩
  refine written_node (by decide) (List.forall_mem_singleton.mpr ?_) (by simp)
  constructor
  · rintro _ ⟨⟩
  · rintro _ ⟨⟩
  · exact Int.natCast_nonneg _

theorem laidOut_nodes {ns : List KdlNode} (h : ∀ n ∈ ns, (n.mapStr escape).Written) :
    LaidOut (writtenLines 0 ns) (mapStrs escape ns) := by
  induction ns with
  | nil => exact .nil
  | cons n ns ih =>
    obtain ⟨hn, hns⟩ := List.forall_mem_cons.mp h
    exact .node hn (ih hns)

/-- **`format_lockfile` lays the document of the lockfile out.** -/
theorem formatLines_laidOut {l : Lockfile} (h : WritableLock l) :
    ∃ lines, formatLines l = some lines ∧ LaidOut lines (mapStrs escape (lockDoc l)) := by
  refine ⟨_, formatLines_eq h, ?_⟩
  have hdeps : ∀ ds : List LockedDep, (∀ d ∈ ds, WritableDep d) →
      LaidOut (ds.map fun d => ((depNode d).mapStr escape).lines 0 ++ [[]]).flatten (mapStrs escape (ds.map depNode)) := by
    intro ds hds
    induction ds with
    | nil => exact .nil
    | cons d ds ih =>
      obtain ⟨hd, hds⟩ := List.forall_mem_cons.mp hds
      rw [List.map_cons, List.flatten_cons, List.append_assoc]
      exact .node (written_depNode hd) (.blank (ih hds))
  rw [lockDoc, mapStrs_append]
  exact .comment (by decide) ((laidOut_nodes (written_headNodes l)).append (.blank (hdeps l.deps h)))

end Milpa.Core
