import Milpa.Types.Text

/-!
# The nesting guard

`kdl_brace_depth` and `kdl_block_comment_depth`: the two counts that every KDL text is
measured by before it is parsed. They look at the characters only, also inside strings.
The source counts in bytes; a brace, a slash or a star is a byte that no other character
has among its bytes.
-/

namespace Milpa.Nesting

/-- `KDL_MAX_NESTING_DEPTH`. -/
def kdlMaxNestingDepth : ℕ := 32

/-- A count that is running: the depth, and the greatest depth so far. -/
structure Count where
  depth : ℕ
  max : ℕ
  deriving DecidableEq, Repr

/-- One level down. -/
def Count.opened (c : Count) : Count := ⟨c.depth + 1, if c.max < c.depth + 1 then c.depth + 1 else c.max⟩

/-- One level up. -/
def Count.closed (c : Count) : Count := ⟨c.depth - 1, c.max⟩

/-- The loop of `kdl_brace_depth`. -/
def braces (c : Count) : Str → Count
  | [] => c
  | '{' :: s => braces c.opened s
  | '}' :: s => braces c.closed s
  | _ :: s => braces c s

/-- `kdl_brace_depth`. -/
def kdlBraceDepth (text : Str) : ℕ := (braces ⟨0, 0⟩ text).max

/-- The loop of `kdl_block_comment_depth`. -/
def comments (c : Count) : Str → Count
  | '/' :: '*' :: s => comments c.opened s
  | '*' :: '/' :: s => comments c.closed s
  | _ :: s => comments c s
  | [] => c

/-- `kdl_block_comment_depth`. -/
def kdlBlockCommentDepth (text : Str) : ℕ := (comments ⟨0, 0⟩ text).max

/-- A text that passes both guards. -/
def Shallow (text : Str) : Prop :=
  kdlBraceDepth text ≤ kdlMaxNestingDepth ∧ kdlBlockCommentDepth text ≤ kdlMaxNestingDepth

instance (text : Str) : Decidable (Shallow text) := inferInstanceAs (Decidable (_ ∧ _))

end Milpa.Nesting
