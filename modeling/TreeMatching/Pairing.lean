import TreeMatching.Fault
import TreeMatching.Partners

/-!
# Pairings

A pairing links nodes of a source tree with nodes of a destination tree, each node with at most
one partner.  It is the common store of all matching stages.

## Main definitions

* `Pair` — a source node with a destination node.
* `Pairing` — the store, kept in both directions, with the number of its pairs.
* `Pairing.empty`, `Pairing.withCapacity` — the stores to begin with.
* `Pairing.link`, `Pairing.unlink` — the only two ways to change it.
* `Pairing.dst?`, `Pairing.src?`, `Pairing.has`, `Pairing.pairs` — how it is looked at.
* `Pairing.isOneToOne` — checks that the two directions are inverse to each other.
-/

set_option autoImplicit false

namespace TreeMatching

/-- A source node with a destination node. -/
structure Pair where
  src : NodeId
  dst : NodeId
deriving DecidableEq, Inhabited

/-- A one-to-one relation between source nodes and destination nodes. -/
structure Pairing where
  /-- The partners of the source nodes. -/
  forward : Partners
  /-- The partners of the destination nodes. -/
  backward : Partners
  /-- The number of pairs. -/
  size : Nat
  /-- As many source nodes are linked. -/
  size_eq : size = forward.count

namespace Pairing

/-- The pairing without any pairs, and with room for trees of the given sizes. -/
def withCapacity (srcNodes dstNodes : Nat) : Pairing where
  forward := .blank (srcNodes + 1)
  backward := .blank (dstNodes + 1)
  size := 0
  size_eq := by rw [Partners.count_blank]

/-- The pairing without any pairs. -/
def empty : Pairing where
  forward := .blank 0
  backward := .blank 0
  size := 0
  size_eq := by rw [Partners.count_blank]

/-- The partner of a source node. -/
def dst? (p : Pairing) (src : NodeId) : Option NodeId := p.forward.get? src

/-- The partner of a destination node. -/
def src? (p : Pairing) (dst : NodeId) : Option NodeId := p.backward.get? dst

/-- Whether a source node has a partner. -/
def hasSrc (p : Pairing) (src : NodeId) : Bool := (p.dst? src).isSome

/-- Whether a destination node has a partner. -/
def hasDst (p : Pairing) (dst : NodeId) : Bool := (p.src? dst).isSome

/-- Whether two nodes are each other's partners. -/
def has (p : Pairing) (src dst : NodeId) : Bool := p.dst? src == some dst

/-- Whether neither of two nodes has a partner. -/
def bothFree (p : Pairing) (src dst : NodeId) : Bool := !p.hasSrc src && !p.hasDst dst

/-- Whether there are no pairs. -/
def isEmpty (p : Pairing) : Bool := p.size == 0

/-- All pairs, in the order of their source nodes. -/
def pairs (p : Pairing) : List Pair := p.forward.entries.map fun (s, d) => ⟨s, d⟩

/-- Adds a pair without looking whether its nodes are free. -/
def insert (p : Pairing) (src dst : NodeId) : Pairing where
  forward := p.forward.set src dst
  backward := p.backward.set dst src
  size := if p.hasSrc src then p.size else p.size + 1
  size_eq := by rw [Partners.count_set, p.size_eq, hasSrc, dst?]

/-- Removes a pair without looking whether it is there. -/
def erase (p : Pairing) (src dst : NodeId) : Pairing where
  forward := p.forward.clear src
  backward := p.backward.clear dst
  size := if p.hasSrc src then p.size - 1 else p.size
  size_eq := by rw [Partners.count_clear, p.size_eq, hasSrc, dst?]

/-- Links two nodes.  It fails if one of them has a partner already, be it the other one. -/
def link (p : Pairing) (src dst : NodeId) : Except Fault Pairing :=
  if p.bothFree src dst then .ok (p.insert src dst) else .error (.conflict src dst)

/-- Links two nodes if both are free, and tells whether they were. -/
def linkIfFree (p : Pairing) (src dst : NodeId) : Bool × Pairing :=
  match p.link src dst with
  | .ok p => (true, p)
  | .error _ => (false, p)

/-- Undoes a link.  It fails if the two nodes are not each other's partners. -/
def unlink (p : Pairing) (src dst : NodeId) : Except Fault Pairing :=
  if p.has src dst then .ok (p.erase src dst) else .error (.notLinked src dst)

/-- Links all pairs of a list, one after the other. -/
def linkAll (p : Pairing) (pairs : List Pair) : Except Fault Pairing :=
  pairs.foldlM (fun p x => p.link x.src x.dst) p

/-- Whether the two directions are inverse to each other and the number of pairs is right: every
pair is found again from its destination, and there are as many linked nodes on either side. -/
def isOneToOne (p : Pairing) : Bool :=
  p.pairs.all (fun x => p.src? x.dst == some x.src) && p.pairs.length == p.size &&
    p.backward.count == p.size

/-! ### What the two changes do to the partners -/

/-- A new link changes the partner of one source node only. -/
theorem dst?_insert (p : Pairing) (s d x : NodeId) :
    (p.insert s d).dst? x = if s = x then some d else p.dst? x :=
  Partners.get?_set ..

/-- A new link changes the partner of one destination node only. -/
theorem src?_insert (p : Pairing) (s d y : NodeId) :
    (p.insert s d).src? y = if d = y then some s else p.src? y :=
  Partners.get?_set ..

/-- Undoing a link frees one source node only. -/
theorem dst?_erase (p : Pairing) (s d x : NodeId) :
    (p.erase s d).dst? x = if s = x then none else p.dst? x :=
  Partners.get?_clear ..

/-- Undoing a link frees one destination node only. -/
theorem src?_erase (p : Pairing) (s d y : NodeId) :
    (p.erase s d).src? y = if d = y then none else p.src? y :=
  Partners.get?_clear ..

end Pairing

end TreeMatching
