import TreeMatching.Pairing
import TreeMatching.Share
import TreeMatching.Tree

/-!
# Overlap of two subtrees

How similar the subtrees under two nodes are, is measured by the pairs found so far: the
descendants of the first node whose partners are descendants of the second.

## Main definitions

* `Overlap`, `Overlap.between` — the number of common descendants and of all descendants.
* `Overlap.chawathe`, `Overlap.dice`, `Overlap.jaccard`, `Overlap.inclusion` — four ways to relate
  the common descendants to all of them.
-/

set_option autoImplicit false

namespace TreeMatching

/-- The numbers of descendants of a source node and of a destination node, and how many of the
former are linked to one of the latter. -/
structure Overlap where
  common : Nat
  src : Nat
  dst : Nat
deriving DecidableEq, Inhabited

namespace Overlap

/-- The overlap of the subtrees at `a` and `b` under a pairing. -/
def between (src dst : Tree) (p : Pairing) (a b : NodeId) : Overlap where
  common := (src.descendants a).countP fun d => (p.dst? d).any (dst.isDescendant b)
  src := (src.descendants a).length
  dst := dst.size b - 1

/-- The common descendants within the larger set of descendants. -/
def chawathe (o : Overlap) : Share := ⟨o.common, max o.src o.dst⟩

/-- The common descendants of both sides within all descendants of both sides. -/
def dice (o : Overlap) : Share := ⟨2 * o.common, o.src + o.dst⟩

/-- The common descendants within the union of the two sets. -/
def jaccard (o : Overlap) : Share := ⟨o.common, o.src + o.dst - o.common⟩

/-- The common descendants within the smaller set of descendants. -/
def inclusion (o : Overlap) : Share := ⟨o.common, min o.src o.dst⟩

end Overlap

end TreeMatching
