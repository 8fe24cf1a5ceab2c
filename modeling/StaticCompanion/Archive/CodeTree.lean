/-!
# Codes of variable length

A code gives each of its symbols a word of bits. The words are laid down in a tree: zero leads
left, one leads right, and a leaf holds a symbol. A code is told by the lengths of its words alone:
the shorter words stand further left, and words of one length stand in the order of their symbols.
-/
namespace StaticCompanion

inductive CodeTree where
  | unused
  | symbol (value : Nat)
  | fork (zero one : CodeTree)
  deriving Repr

namespace CodeTree

def maxLength : Nat := 15

/-- How many words of the greatest length start with a given word. -/
def extensions (length : Nat) : Nat := Nat.pow 2 (maxLength - length)

/-- Fills a tree from the left with words in order of length; gives back the words that find no
place. The root of the tree stands at `depth` and has `room` levels below it. -/
def fill : (room depth : Nat) → List (Nat × Nat) → CodeTree × List (Nat × Nat)
  | _, _, [] => (unused, [])
  | 0, _, (_, value) :: rest => (symbol value, rest)
  | room + 1, depth, (length, value) :: rest =>
    if length ≤ depth then (symbol value, rest)
    else
      let (zero, rest) := fill room (depth + 1) ((length, value) :: rest)
      let (one, rest) := fill room (depth + 1) rest
      (fork zero one, rest)

/-- The words in use, each with its length and its symbol, in the order of the tree. -/
def words (lengths : List Nat) : List (Nat × Nat) :=
  (lengths.zipIdx.filter (·.1 ≠ 0)).mergeSort fun left right => left.1 ≤ right.1

/-- The tree of a code that is told by the lengths of its words; zero stands for no word. -/
def ofLengths (lengths : List Nat) : CodeTree := (fill maxLength 0 (words lengths)).1

/-- Whether words of these lengths take up all places of a tree, each once. -/
def isComplete (lengths : List Nat) : Bool :=
  (lengths.filter (· ≠ 0)).foldl (fun taken length => taken + extensions length) 0 == extensions 0

/-- Whether the only word is a single bit. -/
def isSingle (lengths : List Nat) : Bool := lengths.filter (· ≠ 0) == [1]

def isEmpty (lengths : List Nat) : Bool := lengths.all (· == 0)

end CodeTree

end StaticCompanion
