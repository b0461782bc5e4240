import Milpa.Kdl.Escaped
import Milpa.Types.Nesting

/-!
# The nesting of a document that is laid out

The nesting guards count braces and comment marks in the text of a document. What is
between the strings of the text matters only where it is a brace: the counts can be taken
over the document, its strings and its blocks one after the other (`Scan.joinLines`).
-/

namespace Milpa.Kdl

open Nesting

/-! ### Counting over a text -/

/-- A character that neither count looks at. -/
def Plain (c : Char) : Prop := c ≠ '{' ∧ c ≠ '}' ∧ c ≠ '/' ∧ c ≠ '*'

instance (c : Char) : Decidable (Plain c) := inferInstanceAs (Decidable (_ ∧ _ ∧ _ ∧ _))

/-- A count over a text that starts anew behind a plain character and behind a brace, which it takes for `op` and
`cl`. -/
structure Scan (f : Count → Str → Count) (op cl : Count → Count) : Prop where
  nil : ∀ c, f c [] = c
  plain : ∀ c (a : Str) {x : Char} (b : Str), Plain x → f c (a ++ x :: b) = f (f c a) b
  opening : ∀ c (a b : Str), f c (a ++ '{' :: b) = f (op (f c a)) b
  closing : ∀ c (a b : Str), f c (a ++ '}' :: b) = f (cl (f c a)) b

theorem braces_append (c : Count) (a b : Str) : braces c (a ++ b) = braces (braces c a) b := by
  fun_induction braces c a with
  | case1 c => rfl
  | case2 c s ih => exact ih
  | case3 c s ih => exact ih
  | case4 c x s hopen hclose ih =>
    rw [List.cons_append, braces.eq_4 c x _ hopen hclose, ih]

theorem scan_braces : Scan braces Count.opened Count.closed where
  nil _ := rfl
  plain c a x b hx := by
    rw [braces_append, braces.eq_4 _ x b (fun h => hx.1 h) fun h => hx.2.1 h]
  opening c a b := braces_append c a _
  closing c a b := braces_append c a _

theorem comments_skip {x : Char} (hslash : x ≠ '/') (hstar : x ≠ '*') (c : Count) (b : Str) :
    comments c (x :: b) = comments c b :=
  comments.eq_3 c x b (fun _ h _ => hslash h) fun _ h _ => hstar h

theorem comments_append {x : Char} (hslash : x ≠ '/') (hstar : x ≠ '*') (c : Count) (a b : Str) :
    comments c (a ++ x :: b) = comments (comments c a) b := by
  fun_induction comments c a with
  | case1 c s ih => exact ih
  | case2 c s ih => exact ih
  | case3 c y s hopen hclose ih =>
    rw [List.cons_append, ← ih]
    cases s with
    | nil =>
      refine comments.eq_3 c y _ (fun s _ h => ?_) fun s _ h => ?_
      · exact hstar (List.cons.inj h).1
      · exact hslash (List.cons.inj h).1
    | cons z s =>
      refine comments.eq_3 c y _ (fun t hy h => ?_) fun t hy h => ?_
      · exact hopen s hy (by rw [(List.cons.inj h).1])
      · exact hclose s hy (by rw [(List.cons.inj h).1])
  | case4 c => exact comments_skip hslash hstar c b

theorem scan_comments : Scan comments id id where
  nil _ := rfl
  plain c a x b hx := comments_append hx.2.2.1 hx.2.2.2 c a b
  opening c a b := comments_append (by decide) (by decide) c a b
  closing c a b := comments_append (by decide) (by decide) c a b

/-! ### Counting over a document -/

/-- The count over the strings of entries. -/
def entriesCount (f : Count → Str → Count) (c : Count) (entries : List KdlEntry) : Count :=
  (entriesStrings entries).foldl f c

mutual

/-- The count over a node: its strings, and its children where it has any between two braces. -/
def KdlNode.count (f : Count → Str → Count) (op cl : Count → Count) (c : Count) : KdlNode → Count
  | .mk _ entries children =>
    let c := entriesCount f c entries
    match children with
    | [] => c
    | n :: ns => cl (nodesCount f op cl (n.count f op cl (op c)) ns)

/-- The count over nodes. -/
def nodesCount (f : Count → Str → Count) (op cl : Count → Count) (c : Count) : List KdlNode → Count
  | [] => c
  | n :: ns => nodesCount f op cl (n.count f op cl c) ns

end

/-- A document whose strings and blocks nest as deep as is allowed. -/
def ShallowDoc (doc : List KdlNode) : Prop :=
  (nodesCount braces Count.opened Count.closed ⟨0, 0⟩ doc).max ≤ kdlMaxNestingDepth ∧
    (nodesCount comments id id ⟨0, 0⟩ doc).max ≤ kdlMaxNestingDepth

instance (doc : List KdlNode) : Decidable (ShallowDoc doc) := inferInstanceAs (Decidable (_ ∧ _))

section

variable {f : Count → Str → Count} {op cl : Count → Count}

theorem Scan.skip (h : Scan f op cl) {u : Str} (hu : ∀ x ∈ u, Plain x) (c : Count) (b : Str) : f c (u ++ b) = f c b := by
  induction u with
  | nil => rfl
  | cons x u ih =>
    obtain ⟨hx, hu⟩ := List.forall_mem_cons.mp hu
    have := h.plain c [] (u ++ b) hx
    rw [h.nil] at this
    exact this.trans (ih hu)

theorem Scan.skip_all (h : Scan f op cl) {u : Str} (hu : ∀ x ∈ u, Plain x) (c : Count) : f c u = c := by
  rw [← List.append_nil u, h.skip hu, h.nil]

theorem plain_of_isIdentChar {c : Char} (h : isIdentChar c = true) : Plain c := by
  refine ⟨?_, ?_, ?_, ?_⟩ <;>
  · rintro rfl
    revert h
    decide

theorem plain_of_isBare {s : Str} (h : IsBare s) : ∀ x ∈ s, Plain x := fun x hx => plain_of_isIdentChar (h.2.1 x hx)

theorem plain_ofNat (n : ℕ) : ∀ x ∈ Str.ofNat n, Plain x := by
  intro x hx
  have hdigit : x.isDigit = true := Nat.isDigit_of_mem_toDigits (by decide) (by decide) hx
  apply plain_of_isIdentChar
  simp [isIdentChar, Char.isAlphanum, hdigit]

theorem plain_indent (depth : ℕ) : ∀ x ∈ indent depth, Plain x := by
  intro x hx
  rw [List.eq_of_mem_replicate hx]
  decide

theorem plain_keyText {e : KdlEntry} (he : e.Written) : ∀ x ∈ keyText e.name, Plain x := by
  cases hn : e.name with
  | none => simp [keyText]
  | some n =>
    have := plain_of_isBare (he.name n hn)
    simp only [keyText, List.forall_mem_append, List.forall_mem_singleton]
    exact ⟨this, by decide⟩

theorem plain_tyText {e : KdlEntry} (he : e.Written) : ∀ x ∈ tyText e.ty, Plain x := by
  cases ht : e.ty with
  | none => simp [tyText]
  | some t =>
    have := plain_of_isBare (he.ty t ht)
    simp only [tyText, List.forall_mem_cons, List.forall_mem_append]
    exact ⟨by decide, this, by simp [Plain]⟩

theorem Scan.entry (h : Scan f op cl) {e : KdlEntry} (he : e.Written) (c : Count) :
    f c e.text = (e.value.asString.toList).foldl f c := by
  rw [KdlEntry.text, h.skip (plain_keyText he), h.skip (plain_tyText he)]
  obtain ⟨ty, name, v⟩ := e
  cases v with
  | string body =>
    have hquote : f c ('"' :: (body ++ ['"'])) = f c (body ++ ['"']) :=
      h.skip (u := ['"']) (by simp; decide) c (body ++ ['"'])
    exact hquote.trans ((h.plain c body [] (by decide)).trans (h.nil _))
  | integer n => exact h.skip_all (plain_ofNat _) c
  | float => exact h.nil c
  | bool b => exact h.nil c
  | null => exact h.nil c

theorem Scan.entries (h : Scan f op cl) {es : List KdlEntry} (hes : ∀ e ∈ es, e.Written) (c : Count) :
    f c (entriesText es) = entriesCount f c es := by
  induction es generalizing c with
  | nil => exact h.nil c
  | cons e es ih =>
    obtain ⟨he, hes⟩ := List.forall_mem_cons.mp hes
    have hspace : ∀ b, f c (' ' :: b) = f c b := fun b => h.skip (u := [' ']) (by simp; decide) c b
    have hnext : f c (e.text ++ entriesText es) = f (f c e.text) (entriesText es) := by
      cases es with
      | nil => rw [show entriesText [] = [] from rfl, List.append_nil, h.nil]
      | cons e' es =>
        show f c (e.text ++ ' ' :: (e'.text ++ entriesText es)) = f (f c e.text) (' ' :: (e'.text ++ entriesText es))
        rw [h.plain c e.text _ (by decide)]
        exact (h.skip (u := [' ']) (by simp; decide) _ _).symm
    show f c (' ' :: (e.text ++ entriesText es)) = _
    have hstrings : entriesStrings (e :: es) = e.value.asString.toList ++ entriesStrings es := by
      rw [entriesStrings, List.filterMap_cons]
      cases e.value.asString <;> rfl
    rw [hspace, hnext, ih hes, h.entry he, entriesCount, entriesCount, hstrings, List.foldl_append]

theorem Scan.head (h : Scan f op cl) {name : Str} {es : List KdlEntry} (hname : IsBare name)
    (hes : ∀ e ∈ es, e.Written) (depth : ℕ) (c : Count) :
    f c (indent depth ++ (name ++ entriesText es)) = entriesCount f c es := by
  rw [h.skip (plain_indent depth), h.skip (plain_of_isBare hname), h.entries hes]

mutual

/-- **The count over the lines of a node is the count over the node.** -/
theorem Scan.foldl_lines (h : Scan f op cl) {n : KdlNode} (hn : n.Written) (depth : ℕ) (c : Count) :
    (n.lines depth).foldl f c = n.count f op cl c := by
  match n, hn with
  | .mk name es [], .mk hname hes _ => exact h.head hname hes depth c
  | .mk name es (n :: ns), .mk hname hes hchildren =>
    obtain ⟨hn, hns⟩ := List.forall_mem_cons.mp hchildren
    have hopen : f c (indent depth ++ (name ++ (entriesText es ++ [' ', '{']))) = op (entriesCount f c es) := by
      have hsplit : indent depth ++ (name ++ (entriesText es ++ [' ', '{'])) =
          (indent depth ++ (name ++ entriesText es)) ++ ' ' :: ['{'] := by simp
      have hbrace := h.opening (entriesCount f c es) [] []
      rw [hsplit, h.plain c _ _ (by decide), h.head hname hes]
      exact hbrace.trans (by rw [h.nil, h.nil])
    have hclose : ∀ c, f c (indent depth ++ ['}']) = cl c := by
      intro c
      have hbrace := h.closing c [] []
      rw [h.skip (plain_indent depth)]
      exact hbrace.trans (by rw [h.nil, h.nil])
    rw [KdlNode.lines, List.foldl_cons, hopen, List.foldl_append, List.foldl_append, h.foldl_lines hn,
      h.foldl_nodesLines hns, List.foldl_cons, List.foldl_nil, hclose, KdlNode.count]

theorem Scan.foldl_nodesLines (h : Scan f op cl) {ns : List KdlNode} (hns : ∀ n ∈ ns, n.Written) (depth : ℕ)
    (c : Count) : (nodesLines depth ns).foldl f c = nodesCount f op cl c ns := by
  match ns with
  | [] => rfl
  | n :: ns =>
    obtain ⟨hn, hns⟩ := List.forall_mem_cons.mp hns
    rw [nodesLines, List.foldl_append, h.foldl_lines hn, h.foldl_nodesLines hns, nodesCount]

end

/-- The count over lines that are put together is the count over the lines. -/
theorem Scan.joinLines (h : Scan f op cl) (c : Count) (lines : List Str) : f c (joinLines lines) = lines.foldl f c := by
  induction lines generalizing c with
  | nil => exact h.nil c
  | cons l ls ih =>
    cases ls with
    | nil => simp [Kdl.joinLines, List.intercalate]
    | cons l' ls =>
      have hjoin : Kdl.joinLines (l :: l' :: ls) = l ++ '\n' :: Kdl.joinLines (l' :: ls) := by
        simp [Kdl.joinLines, List.intercalate]
      rw [hjoin, h.plain c l _ (by decide), ih]
      rfl

theorem nodesCount_append (c : Count) (ns ms : List KdlNode) :
    nodesCount f op cl c (ns ++ ms) = nodesCount f op cl (nodesCount f op cl c ns) ms := by
  induction ns generalizing c with
  | nil => rfl
  | cons n ns ih => rw [List.cons_append, nodesCount, nodesCount, ih]

end

end Milpa.Kdl
