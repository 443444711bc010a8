import PowerLawRocksdb.LinkedHeap
import PowerLawRocksdb.SpaceSaving

/-!
# The linked tracker of `SpaceSaving`

This is the other half of the class: `Process` over `Parent` and `Child` nodes.
A `Parent` stands for one count and owns a circular list of the `Child` nodes that
have it; the `Parent` nodes are doubly linked from `smallest_` to `largest_`. The
table from elements to nodes is a `HashMapSS`. It is used through five operations,
which are a parameter here.

A null pointer is `none`. Following a null pointer or one to a deleted node is
undefined (`none`), and so is a table operation that does not return. Nodes are
never allocated at an old address; since no run follows a pointer to a deleted
node, a reused address would make no difference. Counts are 64-bit and wrap.
-/
namespace PowerLawRocksdb.LinkedTracker
open SpaceSaving LinkedHeap

abbrev ParentId := ℕ

abbrev ChildId := ℕ

structure Parent where
  left : Option ParentId
  right : Option ParentId
  child : Option ChildId
  value : ℕ
  deriving DecidableEq, Repr

def Parent.init : Parent := ⟨none, none, none, 0⟩

structure Child where
  parent : Option ParentId
  next : Option ChildId
  element : Key
  deriving DecidableEq, Repr

def Child.init : Child := ⟨none, none, 0⟩

/-- What the tracker uses of a `HashMapSS`. `find` returns the index, if the key is
found; `value` and `setValue` access `values_`. -/
structure MapOps (M : Type) where
  find : M → Key → Option (Option ℕ)
  value : M → ℕ → Option ChildId
  setValue : M → ℕ → ChildId → Option M
  insert : M → Key → ChildId → Option M
  remove : M → Key → Option M

structure State (M : Type) where
  parents : Heap Parent
  children : Heap Child
  map : M
  smallest : Option ParentId
  largest : Option ParentId

variable {M : Type}

def State.add (s : State M) (this : ParentId) (c : ChildId) : Option (State M) := do
  let children ← s.children.modify c fun n => { n with parent := some this }
  let p ← s.parents.read this
  match p.child with
  | none =>
      let parents ← s.parents.modify this fun n => { n with child := some c }
      let children ← children.modify c fun n => { n with next := some c }
      some { s with parents, children }
  | some q =>
      let last ← children.read q
      let children ← children.modify c fun n => { n with next := last.next }
      let children ← children.modify q fun n => { n with next := some c }
      let parents ← s.parents.modify this fun n => { n with child := some c }
      some { s with parents, children }

/-- The branch of `Detach` for the only child of its parent: the parent is unlinked
and deleted. -/
def State.dropParent (s : State M) (parent : ParentId) : Option (State M) := do
  let p ← s.parents.read parent
  let right ← p.right
  if some parent = s.smallest then
    let parents ← s.parents.modify right fun n => { n with left := none }
    some { s with parents := parents.free parent, smallest := p.right }
  else
    let parents ← s.parents.modify right fun n => { n with left := p.left }
    let left ← p.left
    let parents ← parents.modify left fun n => { n with right := p.right }
    some { s with parents := parents.free parent }

/-- The entry of a nonzero `element` is pointed at `child`. A search that fails leaves
the index `temp` as it was, and the write uses it all the same. -/
def redirect (ops : MapOps M) (map : M) (element : Key) (child : ChildId) (temp : ℕ) :
    Option (M × ℕ) :=
  if element = 0 then some (map, temp)
  else do
    let found ← ops.find map element
    let temp := found.getD temp
    let map ← ops.setValue map temp child
    some (map, temp)

/-- The branch of `Detach` for a child with siblings: the elements of `this` and of the
node behind it are swapped, and that node is taken out of the circle. -/
def State.swapNext (ops : MapOps M) (s : State M) (this next : ChildId) (parent : ParentId) :
    Option (State M) := do
  let p ← s.parents.read parent
  let parents ← s.parents.modify parent fun n =>
    if p.child = some next then { n with child := some this } else n
  let b ← s.children.read this
  let n ← s.children.read next
  let children ← s.children.modify this fun c => { c with element := n.element }
  let children ← children.modify next fun c => { c with element := b.element }
  let (map, temp) ← redirect ops s.map n.element this b.element.toNat
  let (map, _) ← redirect ops map b.element next temp
  let children ← children.modify this fun c => { c with next := n.next }
  some { s with parents, children, map }

def State.detach (ops : MapOps M) (s : State M) (this : ChildId) : Option (State M) := do
  let b ← s.children.read this
  let parent ← b.parent
  let next ← b.next
  if next = this then s.dropParent parent else s.swapNext ops this next parent

def State.newParent (s : State M) (bucket : ChildId) (count : ℕ) (next : Option ParentId) :
    Option (State M × ParentId) := do
  let b ← s.children.read bucket
  let parent ← b.parent
  let p := s.parents.fresh
  let parents := s.parents.alloc { Parent.init with left := some parent, value := count }
  let parents ← parents.modify parent fun n => { n with right := some p }
  match next with
  | some next =>
      let parents ← parents.modify p fun n => { n with right := some next }
      let parents ← parents.modify next fun n => { n with left := some p }
      some ({ s with parents }, p)
  | none => some ({ s with parents, largest := some p }, p)

def State.raise (ops : MapOps M) (s : State M) (bucket : ChildId) (b : Child)
    (parent : ParentId) (count : ℕ) (next : Option ParentId) : Option (State M) :=
  if b.next = some bucket then do
    let parents ← s.parents.modify parent fun n => { n with value := count }
    some { s with parents }
  else do
    let temp ← b.next
    let s ← s.detach ops bucket
    let (s, p) ← s.newParent temp count next
    s.add p temp

def State.increment (ops : MapOps M) (s : State M) (bucket : ChildId) : Option (State M) := do
  let b ← s.children.read bucket
  let parent ← b.parent
  let p ← s.parents.read parent
  let count := SpaceSaving.increment p.value
  match p.right with
  | some next =>
      let n ← s.parents.read next
      if n.value = count then
        let temp ← b.next
        let s ← s.detach ops bucket
        s.add next temp
      else s.raise ops bucket b parent count (some next)
  | none => s.raise ops bucket b parent count none

/-- `Process` of an element that the table does not have: it takes over the node of an
element with the smallest count. -/
def State.evict (ops : MapOps M) (s : State M) (element : Key) : Option (State M) := do
  let smallest ← s.smallest
  let p ← s.parents.read smallest
  let bucket ← p.child
  let b ← s.children.read bucket
  let map ← ops.remove s.map b.element
  let children ← s.children.modify bucket fun n => { n with element }
  let map ← ops.insert map element bucket
  State.increment ops { s with children, map } bucket

def State.process (ops : MapOps M) (s : State M) (element : Key) : Option (State M) := do
  match ← ops.find s.map element with
  | none => s.evict ops element
  | some index =>
      let bucket ← ops.value s.map index
      s.increment ops bucket

def State.addChildren : ℕ → State M → Option (State M)
  | 0, s => some s
  | n + 1, s => do
      let c := s.children.fresh
      let smallest ← s.smallest
      let s ← State.add { s with children := s.children.alloc Child.init } smallest c
      s.addChildren n

/-- The constructor, with the empty table `map`. -/
def State.init (map : M) (numCounters : ℕ) : Option (State M) :=
  let parents : Heap Parent := []
  let p := parents.fresh
  State.addChildren numCounters ⟨parents.alloc Parent.init, [], map, some p, some p⟩

end PowerLawRocksdb.LinkedTracker
