import TsSem02.Library.CInt
import TsSem02.Storage.Storage

/-! # `SimpleLRU`

The cache as the source has it: an explicit heap of list nodes with owning `next`
and raw `prev` pointers, an index from keys to nodes, and a counter of free
bytes.  `LruM` is the state monad over that memory whose failures are the
undefined behaviour a call can run into.

Sizes are naturals.  `key.length() + value.length()` cannot wrap, both lengths
being below `std::string::max_size() < 2 ^ 63`; every other operation on
`_free_size` and on a size difference is reduced to 64 bits explicitly.
-/

namespace Afina.Backend

open CInt

abbrev Ptr := Nat

/-- `SimpleLRU::lru_node`; `next` owns the node it points to. -/
structure LruNode where
  key : Bytes
  value : Bytes
  next : Option Ptr
  prev : Option Ptr
deriving DecidableEq, Repr

/-- The allocated nodes. -/
abbrev Heap := Ptr → Option LruNode

structure SimpleLRU where
  maxSize : Nat
  freeSize : Nat
  lruHead : Option Ptr
  lruTail : Option Ptr
  lruIndex : AList fun _ : Bytes => Ptr
  heap : Heap
  heapEnd : Ptr  -- the first address that was never allocated

abbrev LruM := StateT SimpleLRU (Except Fault)

/-- `SimpleLRU(size_t max_size)` -/
def SimpleLRU.fresh (maxSize : Nat) : SimpleLRU where
  maxSize := maxSize
  freeSize := maxSize
  lruHead := none
  lruTail := none
  lruIndex := ∅
  heap := fun _ => none
  heapEnd := 0

/-! ## Memory -/

def node (p : Option Ptr) : LruM LruNode := fun s =>
  match p with
  | none => .error .nullPointer
  | some p =>
    match s.heap p with
    | none => .error .danglingPointer
    | some n => .ok (n, s)

def write (p : Option Ptr) (f : LruNode → LruNode) : LruM Unit := do
  let n ← node p
  modify fun s => { s with heap := Function.update s.heap (p.getD 0) (some (f n)) }

def setPrev (p q : Option Ptr) : LruM Unit := write p fun n => { n with prev := q }

def newNode (key value : Bytes) : LruM Ptr := do
  let p := (← get).heapEnd
  modify fun s =>
    { s with
      heap := Function.update s.heap p (some ⟨key, value, none, none⟩)
      heapEnd := p + 1 }
  return p

/-- `delete p`; the node's `next` is a `unique_ptr`, so the nodes behind it go
    with it. -/
def destroy : Nat → Option Ptr → LruM Unit
  | _, none => return
  | 0, some _ => throw .divergence
  | fuel + 1, some p => do
    let n ← node (some p)
    modify fun s => { s with heap := Function.update s.heap p none }
    destroy fuel n.next

def releaseNext (p : Option Ptr) : LruM (Option Ptr) := do
  let n ← node p
  write p fun n => { n with next := none }
  return n.next

/-- `p->next.reset(q)`: the previous pointee is destroyed. -/
def resetNext (p q : Option Ptr) : LruM Unit := do
  let n ← node p
  write p fun n => { n with next := q }
  destroy (← get).heapEnd n.next

def releaseHead : LruM (Option Ptr) := do
  let head := (← get).lruHead
  modify fun s => { s with lruHead := none }
  return head

/-- `_lru_head.reset(q)`: the previous pointee is destroyed. -/
def resetHead (q : Option Ptr) : LruM Unit := do
  let head := (← get).lruHead
  modify fun s => { s with lruHead := q }
  destroy (← get).heapEnd head

/-! ## Sizes -/

/-- `key.length() + value.length()` -/
def nodeSize (key value : Bytes) : Nat := key.length + value.length

/-- `_free_size += x` and, with a negated argument, `_free_size -= x`. -/
def addFree (x : Int) : LruM Unit :=
  modify fun s => { s with freeSize := toUnsigned 64 (s.freeSize + x) }

/-! ## Operations -/

namespace SimpleLRU

/-- `MoveToHead` and `Delete` both start taking `n` out by pointing its
    successor, or the tail, at its predecessor. -/
def bypassBackwards (n : LruNode) : LruM Unit :=
  match n.next with
  | some next => setPrev (some next) n.prev
  | none => modify fun s => { s with lruTail := n.prev }

def moveToHead (key : Bytes) : LruM (Option Ptr) := do
  match (← get).lruIndex.lookup key with
  | none => return none
  | some removeNode =>
    if (← node (← get).lruHead).key = key then
      return some removeNode
    let n ← node (some removeNode)
    bypassBackwards n
    setPrev (← get).lruHead (some removeNode)
    -- a released pointer is dropped, not destroyed
    let _ ← releaseNext (← node (some removeNode)).prev
    resetNext (← node (some removeNode)).prev (← releaseNext (some removeNode))
    resetNext (some removeNode) (← releaseHead)
    resetHead (some removeNode)
    let prev := (← node (some removeNode)).prev
    if (← node prev).prev = none then
      setPrev prev (← get).lruHead
    setPrev (some removeNode) none
    return some removeNode

def delete (key : Bytes) : LruM Bool := do
  match (← get).lruIndex.lookup key with
  | none => return false
  | some removeNode =>
    let n ← node (some removeNode)
    addFree (nodeSize n.key n.value)
    modify fun s => { s with lruIndex := s.lruIndex.erase key }
    bypassBackwards n
    match (← node (some removeNode)).prev with
    | some prev => resetNext (some prev) (← releaseNext (some removeNode))
    | none => resetHead (← releaseNext (some removeNode))
    return true

/-- `while (_free_size < need) Delete(_lru_tail->key);`, one iteration for each
    unit of `fuel`. -/
def evictLoop : Nat → Nat → LruM Unit
  | 0, _ => throw .divergence
  | fuel + 1, need => do
    if (← get).freeSize < need then
      let tail ← node (← get).lruTail
      let _ ← delete tail.key
      evictLoop fuel need

/-- The eviction loop.  An iteration that deletes anything takes a key out of the
    index, so more iterations than the index has keys never end. -/
def evict (need : Nat) : LruM Unit := do
  evictLoop ((← get).lruIndex.entries.length + 1) need

/-- `_lru_index.emplace(key, p)`: an existing entry of `key` stays. -/
def emplace (key : Bytes) (p : Ptr) : LruM Unit :=
  modify fun s =>
    if key ∈ s.lruIndex then s else { s with lruIndex := s.lruIndex.insert key p }

/-- `PutInHead` once there is room: a new node becomes the head. -/
def insertHead (key value : Bytes) : LruM Bool := do
  let newHead ← newNode key value
  match (← get).lruHead with
  | none =>
    resetHead (some newHead)
    modify fun s => { s with lruTail := s.lruHead }
  | some head =>
    setPrev (some head) (some newHead)
    resetNext (some newHead) (← releaseHead)
    resetHead (some newHead)
  emplace key newHead
  addFree (-(nodeSize key value : Int))
  return true

def putInHead (key value : Bytes) : LruM Bool := do
  let newNodeSize := nodeSize key value
  if newNodeSize > (← get).maxSize then
    return false
  evict newNodeSize
  insertHead key value

/-- The common tail of `Put` and `Set` for a key found at `it`. -/
def overwrite (it : Ptr) (key value : Bytes) : LruM Bool := do
  let newNodeSize := nodeSize key value
  if newNodeSize > (← get).maxSize then
    return false
  let n ← node (some it)
  -- `std::int64_t delta_size` from a difference of two `std::size_t`
  let deltaSize := toSigned 64 (toUnsigned 64 (newNodeSize - nodeSize n.key n.value))
  -- `_free_size < delta_size` converts `delta_size` to `std::size_t`
  evict (toUnsigned 64 deltaSize)
  addFree (-(toUnsigned 64 deltaSize : Int))
  write (some it) fun n => { n with value := value }
  return true

def put (key value : Bytes) : LruM Bool := do
  match ← moveToHead key with
  | none => putInHead key value
  | some it => overwrite it key value

def putIfAbsent (key value : Bytes) : LruM Bool := do
  match (← get).lruIndex.lookup key with
  | some _ => return false
  | none => putInHead key value

def set (key value : Bytes) : LruM Bool := do
  match ← moveToHead key with
  | none => return false
  | some it => overwrite it key value

/-- `SimpleLRU::Get`; `none` when the key is not found. -/
def get (key : Bytes) : LruM (Option Bytes) := do
  match ← moveToHead key with
  | none => return none
  | some it => return some (← node (some it)).value

def call : StorageCall → LruM StorageReply
  | .put key value => .flag <$> put key value
  | .putIfAbsent key value => .flag <$> putIfAbsent key value
  | .set key value => .flag <$> set key value
  | .delete key => .flag <$> delete key
  | .get key => .found <$> get key

end SimpleLRU

instance : Storage SimpleLRU where
  call := SimpleLRU.call

end Afina.Backend
