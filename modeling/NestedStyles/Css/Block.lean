import NestedStyles.Css.Declaration
import NestedStyles.Text.Lines
/-!
# Blocks of CSS

Generated CSS is a sequence of blocks: rule blocks, and media blocks around rule blocks. A block is
a selector and rules; what the selector is, is left open, so that the blocks of a sheet can be
listed before their classes have names.

* `Block.traverse` replaces selectors, in the order in which they are printed;
* `Selector.text` and `Block.lines` print them, with two spaces for each level.
-/
namespace NestedStyles.Css

open Text (indent)

structure RuleBlock (σ : Type) where
  selector : σ
  rules : Rules

/-- A rule block at the top, or a media query and its rule blocks. -/
inductive Block (σ : Type) where
  | rules (block : RuleBlock σ)
  | media (query : String) (blocks : List (RuleBlock σ))

/-- Replaces the selector of a rule block. -/
def RuleBlock.traverse {σ τ : Type} {m : Type → Type} [Monad m] (f : σ → m τ) (b : RuleBlock σ) :
    m (RuleBlock τ) :=
  return ⟨← f b.selector, b.rules⟩

/-- Replaces the selectors of a block from first to last, and the text of a media query. -/
def Block.traverse {σ τ : Type} {m : Type → Type} [Monad m] (query : String → String)
    (f : σ → m τ) : Block σ → m (Block τ)
  | .rules b => return .rules (← b.traverse f)
  | .media q bs => return .media (query q) (← bs.mapM (RuleBlock.traverse f))

/-- What a rule block applies to. -/
inductive Selector where
  /-- Literal text. -/
  | literal (text : String)
  /-- The elements of a class, with a fragment, inside the elements that `parent` selects. -/
  | ofClass (parent : Option String) (className fragment : String)
  deriving DecidableEq, Repr

def Selector.text : Selector → String
  | literal text => text
  | ofClass none className fragment => "." ++ className ++ fragment
  | ofClass (some parent) className fragment => parent ++ " ." ++ className ++ fragment

def RuleBlock.lines (level : Nat) (b : RuleBlock Selector) : List String :=
  (indent level ++ b.selector.text ++ " \x7b") ::
    (b.rules.map fun r => indent (level + 1) ++ declaration r.1 r.2) ++ [indent level ++ "\x7d"]

def Block.lines : Block Selector → List String
  | .rules b => b.lines 0
  | .media query bs => ("@" ++ query ++ " \x7b") :: bs.flatMap (RuleBlock.lines 1) ++ ["\x7d"]

end NestedStyles.Css
