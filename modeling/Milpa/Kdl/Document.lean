import Milpa.Kdl.Quoted

/-!
# KDL documents

A document is a list of nodes; a node has a name, arguments and properties, and children.
The text of a document that is laid out plainly (a node a line, its children between
braces on lines of their own, indented by four spaces a level) is given by `LaidOut`.
In such a text the strings are bodies of quoted strings, escapes and all; what a parser
of KDL 2.0 makes of it is the document with the bodies decoded, and nothing where one of
them cannot be decoded: `Conforms`.
-/

namespace Milpa.Kdl

/-- A value. A float is not looked into. -/
inductive KdlValue where
  | string (s : Str)
  | integer (n : ℤ)
  | float
  | bool (b : Bool)
  | null
  deriving DecidableEq, Repr

/-- `as_string`. -/
def KdlValue.asString : KdlValue → Option Str
  | .string s => some s
  | _ => none

/-- An argument or, where it has a name, a property. -/
structure KdlEntry where
  /-- The type annotation. -/
  ty : Option Str
  name : Option Str
  value : KdlValue
  deriving DecidableEq, Repr

/-- A node. Where it has no block of children the list of them is empty. -/
inductive KdlNode where
  | mk (name : Str) (entries : List KdlEntry) (children : List KdlNode)

def KdlNode.name : KdlNode → Str
  | .mk name _ _ => name

def KdlNode.entries : KdlNode → List KdlEntry
  | .mk _ entries _ => entries

def KdlNode.children : KdlNode → List KdlNode
  | .mk _ _ children => children

@[simp] theorem KdlNode.name_mk (name : Str) (entries : List KdlEntry) (children : List KdlNode) :
    (KdlNode.mk name entries children).name = name := rfl

@[simp] theorem KdlNode.entries_mk (name : Str) (entries : List KdlEntry) (children : List KdlNode) :
    (KdlNode.mk name entries children).entries = entries := rfl

@[simp] theorem KdlNode.children_mk (name : Str) (entries : List KdlEntry) (children : List KdlNode) :
    (KdlNode.mk name entries children).children = children := rfl

/-! ### Decoding the bodies -/

/-- The value that a written one stands for. -/
def KdlValue.decode : KdlValue → Option KdlValue
  | .string body => (decodeBody body).map .string
  | v => some v

def KdlEntry.decode (e : KdlEntry) : Option KdlEntry := e.value.decode.map fun v => { e with value := v }

/-- The entries that written ones stand for. -/
def decodeEntries : List KdlEntry → Option (List KdlEntry)
  | [] => some []
  | e :: es => e.decode.bind fun e' => (decodeEntries es).map (e' :: ·)

mutual

/-- The node that a written one stands for. -/
def KdlNode.decode : KdlNode → Option KdlNode
  | .mk name entries children =>
    (decodeEntries entries).bind fun es => (decodeNodes children).map fun cs => .mk name es cs

/-- The nodes that written ones stand for. -/
def decodeNodes : List KdlNode → Option (List KdlNode)
  | [] => some []
  | n :: ns => n.decode.bind fun n' => (decodeNodes ns).map (n' :: ·)

end

/-! ### The layout -/

/-- A letter, a digit, an underscore or a hyphen. -/
def isIdentChar (c : Char) : Bool := c.isAlphanum || c == '_' || c == '-'

/-- A name that needs no quotes. -/
def IsBare (s : Str) : Prop :=
  (∃ c ∈ s.head?, c.isAlpha = true) ∧ (∀ c ∈ s, isIdentChar c = true) ∧
    s ∉ (["true", "false", "null", "inf", "nan"] : List String).map String.toList

instance (s : Str) : Decidable (IsBare s) :=
  decidable_of_iff (s.head?.any Char.isAlpha = true ∧ s.all isIdentChar = true ∧
    s ∉ (["true", "false", "null", "inf", "nan"] : List String).map String.toList)
    (by cases s <;> simp [IsBare])

/-- A value that the layout knows: the body of a quoted string on one line, or a natural number. -/
def KdlValue.Written : KdlValue → Prop
  | .string body => Lexes body = true ∧ '\n' ∉ body
  | .integer n => 0 ≤ n
  | _ => False

/-- An entry that the layout knows. -/
structure KdlEntry.Written (e : KdlEntry) : Prop where
  ty : ∀ t ∈ e.ty, IsBare t
  name : ∀ n ∈ e.name, IsBare n
  value : e.value.Written

/-- A node that the layout knows, with all below it. -/
inductive KdlNode.Written : KdlNode → Prop where
  | mk {name : Str} {entries : List KdlEntry} {children : List KdlNode} (hname : IsBare name)
    (hentries : ∀ e ∈ entries, e.Written) (hchildren : ∀ c ∈ children, c.Written) :
    Written (.mk name entries children)

/-- The text of a value. -/
def KdlValue.text : KdlValue → Str
  | .string body => '"' :: (body ++ ['"'])
  | .integer n => Str.ofNat n.toNat
  | _ => []

/-- The text of a type annotation. -/
def tyText : Option Str → Str
  | some t => '(' :: (t ++ [')'])
  | none => []

/-- The text of the name of a property. -/
def keyText : Option Str → Str
  | some n => n ++ ['=']
  | none => []

/-- The text of an entry. -/
def KdlEntry.text (e : KdlEntry) : Str := keyText e.name ++ (tyText e.ty ++ e.value.text)

/-- The text of entries, each behind a space. -/
def entriesText (entries : List KdlEntry) : Str := entries.flatMap fun e => ' ' :: e.text

/-- The white space before a line. -/
def indent (depth : ℕ) : Str := List.replicate (4 * depth) ' '

mutual

/-- The lines of a node. -/
def KdlNode.lines (depth : ℕ) : KdlNode → List Str
  | .mk name entries children =>
    match children with
    | [] => [indent depth ++ (name ++ entriesText entries)]
    | c :: cs =>
      (indent depth ++ (name ++ (entriesText entries ++ [' ', '{']))) ::
        (c.lines (depth + 1) ++ (nodesLines (depth + 1) cs ++ [indent depth ++ ['}']]))

/-- The lines of nodes, one after the other. -/
def nodesLines (depth : ℕ) : List KdlNode → List Str
  | [] => []
  | n :: ns => n.lines depth ++ nodesLines depth ns

end

/-- Lines that hold the nodes, with empty lines and comments between them. -/
inductive LaidOut : List Str → List KdlNode → Prop where
  | nil : LaidOut [] []
  | blank {ls ns} (h : LaidOut ls ns) : LaidOut ([] :: ls) ns
  | comment {ls ns} {c : Str} (hc : Clean c) (h : LaidOut ls ns) : LaidOut (('/' :: '/' :: c) :: ls) ns
  | node {ls ns} {n : KdlNode} (hn : n.Written) (h : LaidOut ls ns) : LaidOut (n.lines 0 ++ ls) (n :: ns)

/-- Lines put together. -/
def joinLines (lines : List Str) : Str := ['\n'].intercalate lines

/-- A parser that reads plain texts as the specification of KDL 2.0 says. -/
structure Conforms (parse : Str → Except Str (List KdlNode)) : Prop where
  parse_laidOut : ∀ {lines : List Str} {raw : List KdlNode}, LaidOut lines raw →
    (parse (joinLines lines)).toOption = decodeNodes raw

theorem LaidOut.append {ls ls' : List Str} {ns ns' : List KdlNode} (h : LaidOut ls ns) (h' : LaidOut ls' ns') :
    LaidOut (ls ++ ls') (ns ++ ns') := by
  induction h with
  | nil => exact h'
  | blank h ih => exact .blank ih
  | comment hc h ih => exact .comment hc ih
  | node hn h ih =>
    rw [List.append_assoc]
    exact .node hn ih

end Milpa.Kdl
