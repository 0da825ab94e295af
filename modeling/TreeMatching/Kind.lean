import Std.Data.HashMap

/-!
# Node kinds

What a node *is* (a grammar symbol, a class of syntax) is a number to this library: kinds are only
ever compared for equality.  A `KindTable` hands out numbers for names, counting from zero in the
order in which the names are first met, and never takes one back.

## Main definitions

* `Kind` — a 32-bit tag; `Kind.text` writes it when it has no name.
* `KindTable.intern`, `KindTable.get?`, `KindTable.name?` — from names to kinds and back.
-/

set_option autoImplicit false

namespace TreeMatching

/-- The kind of a node, compared for equality only. -/
structure Kind where
  /-- The number that stands for the kind. -/
  tag : UInt32
deriving DecidableEq, Hashable, Inhabited

/-- How a kind is written when no name is known for it. -/
def Kind.text (k : Kind) : String := "#" ++ Nat.repr k.tag.toNat

/-- Names and the kinds that stand for them.  The kind numbered `i` belongs to the `i`-th name. -/
structure KindTable where
  /-- The names in the order of their numbers. -/
  names : Array String := #[]
  /-- The kind of each name. -/
  kinds : Std.HashMap String Kind := {}

namespace KindTable

/-- The table without any names. -/
def empty : KindTable := {}

/-- The kind of a name, if the name has been met before. -/
def get? (t : KindTable) (name : String) : Option Kind := t.kinds[name]?

/-- The name of a kind, if the kind stands for one. -/
def name? (t : KindTable) (k : Kind) : Option String := t.names[k.tag.toNat]?

/-- The kind of a name, together with the table in which it is known: a new name gets the next
number. -/
def intern (t : KindTable) (name : String) : Kind × KindTable :=
  match t.get? name with
  | some k => (k, t)
  | none =>
    let k : Kind := ⟨UInt32.ofNat t.names.size⟩
    (k, ⟨t.names.push name, t.kinds.insert name k⟩)

/-- The table after meeting the given names from left to right. -/
def internAll (t : KindTable) (names : List String) : KindTable :=
  names.foldl (fun t name => (t.intern name).2) t

/-- A name that is known keeps its kind, and the table does not change. -/
theorem intern_of_get?_eq_some {t : KindTable} {name : String} {k : Kind}
    (h : t.get? name = some k) : t.intern name = (k, t) := by
  simp [intern, h]

/-- After meeting a name the table knows it. -/
theorem get?_intern_self (t : KindTable) (name : String) :
    (t.intern name).2.get? name = some (t.intern name).1 := by
  unfold intern
  cases h : t.get? name with
  | some k => exact h
  | none => simp [get?]

end KindTable

end TreeMatching
