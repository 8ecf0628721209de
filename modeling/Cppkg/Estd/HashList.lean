import Cppkg.Lib.Transition
import Mathlib.Data.List.InsertIdx
import Mathlib.Logic.Function.Basic

/-!
# Hash lists

`HashList` of `hashlist.h`: a linked list (`lst_`) and an index of its iterators by value
(`umap_`). The nodes of the linked list have identities, as an iterator denotes a node and
stays valid while others are inserted and erased, and the node of an insertion is chosen by the
allocator, among those not in use. An operation through an iterator that does not belong to the
list is undefined (`none`).

Arguments are passed by reference. One that refers to an element of the list is read as long as
the node of the element is there; to read it afterwards is undefined too.
-/

namespace Cppkg.Estd

/-- The identity of a node of a linked list. -/
abbrev Node := ℕ

/-- An iterator of a linked list: a node, or the end. -/
inductive Iter where
  | node (n : Node)
  | stop
  deriving DecidableEq, Repr

/-- `HashList`. -/
structure HashList (T : Type) where
  /-- `lst_`: the nodes in order with their values. -/
  lst : List (Node × T)
  /-- `umap_`: the iterators by value. -/
  umap : T → Option Iter

namespace HashList

variable {T : Type}

/-- The nodes in order. -/
def nodes (h : HashList T) : List Node := h.lst.map Prod.fst

/-- The values in order, as iteration sees them. -/
def values (h : HashList T) : List T := h.lst.map Prod.snd

/-! ### The linked list -/

/-- The number of elements before an iterator, nothing when it is not of this list. -/
def position (lst : List (Node × T)) : Iter → Option ℕ
  | .node n => if n ∈ lst.map Prod.fst then some ((lst.map Prod.fst).idxOf n) else none
  | .stop => some lst.length

/-- `lst_.insert(position, val)`: a new node immediately before the position. -/
def listInsert (lst : List (Node × T)) (pos : Iter) (fresh : Node) (val : T) :
    Option (Iter × List (Node × T)) := do
  let i ← position lst pos
  some (.node fresh, lst.insertIdx i (fresh, val))

/-- `lst_.erase(position)`. -/
def listErase (lst : List (Node × T)) (pos : Iter) : Option (List (Node × T)) := do
  let i ← position lst pos
  if i < lst.length then some (lst.eraseIdx i) else none

/-- `lst_.end()`, decremented. -/
def beforeEnd (lst : List (Node × T)) : Option Iter := lst.getLast?.map fun e ↦ .node e.1

/-- An argument of type `const T&`. -/
inductive Arg (T : Type) where
  /-- An object that no operation of the list destroys. -/
  | value (val : T)
  /-- The element that a node of the list holds. -/
  | element (n : Node)

/-- The value an argument refers to, nothing when its node has been erased. -/
def Arg.read (lst : List (Node × T)) : Arg T → Option T
  | .value val => some val
  | .element n => lst.lookup n

/-! ### The operations -/

/-- The default constructor. -/
def empty : HashList T := ⟨[], fun _ ↦ none⟩

/-- `clear`. -/
def clear (_ : HashList T) : HashList T := ⟨[], fun _ ↦ none⟩

/-- The implicit copy: `lst_` is copied into nodes of its own, `umap_` value by value. -/
def copy (h : HashList T) (fresh : List Node) : HashList T := ⟨fresh.zip h.values, h.umap⟩

variable [DecidableEq T]

/-- `push_back`. -/
def pushBack (h : HashList T) (val : Arg T) (fresh : Node) : Option (Iter × HashList T) := do
  let v ← val.read h.lst
  match h.umap v with
  | some it => some (it, h)
  | none =>
    let lst := h.lst ++ [(fresh, v)]
    let position ← beforeEnd lst
    let v ← val.read lst
    some (position, ⟨lst, Function.update h.umap v (some position)⟩)

/-- `pop_back`. -/
def popBack (h : HashList T) : HashList T :=
  match h.lst.getLast? with
  | none => h
  | some back => ⟨h.lst.dropLast, Function.update h.umap back.2 none⟩

/-- `insert`. -/
def insert (h : HashList T) (position : Iter) (val : Arg T) (fresh : Node) :
    Option (Iter × HashList T) := do
  let v ← val.read h.lst
  match h.umap v with
  | some it => some (it, h)
  | none =>
    let (position, lst) ← listInsert h.lst position fresh v
    let v ← val.read lst
    some (position, ⟨lst, Function.update h.umap v (some position)⟩)

/-- `erase`. -/
def erase (h : HashList T) (val : Arg T) : Option (HashList T) := do
  let v ← val.read h.lst
  match h.umap v with
  | none => some h
  | some it =>
    let lst ← listErase h.lst it
    -- `umap_.erase(val)` reads `val` once more, after its node may have been erased
    let v ← val.read lst
    some ⟨lst, Function.update h.umap v none⟩

/-- The constructor from a range, with the nodes that the allocator gives its values. -/
def fromRange (range : List (T × Node)) : Option (HashList T) :=
  range.foldlM (fun h e ↦ (h.pushBack (.value e.1) e.2).map Prod.snd) empty

end HashList

end Cppkg.Estd
