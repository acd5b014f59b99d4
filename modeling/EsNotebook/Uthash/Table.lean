import EsNotebook.Lib.LinkSort

/-!
# The hash table

`uthash.h` makes a hash of any structure with a `UT_hash_handle` in it.  The
items are linked twice: in the order in which they were added, and in the
chain of their bucket.  A bucket that has grown too long doubles the number of
buckets.  Nothing stands for an access to memory that is not allocated, an
index past the end of the buckets or a division by zero.
-/

namespace EsNotebook.Uthash

/-- The address of an item, which is also that of its hash handle here: the two
are always the same distance apart. -/
abbrev Addr := ℕ

/-- `UT_hash_handle`; the key is read through the item. -/
structure UtHashHandle where
  tbl : Addr
  prev : Option Addr
  next : Option Addr
  hhPrev : Option Addr
  hhNext : Option Addr
  hashv : BitVec 32
  deriving DecidableEq, Repr

/-- A structure that the hash handle makes hashable. -/
structure Item (κ ν : Type) where
  key : κ
  val : ν
  hh : UtHashHandle
  deriving DecidableEq, Repr

/-- What the application keeps in an item. -/
def Item.entry {κ ν : Type} (r : Item κ ν) : κ × ν := (r.key, r.val)

/-- `UT_hash_bucket` -/
structure UtHashBucket where
  hhHead : Option Addr
  count : ℕ
  expandMult : ℕ
  deriving DecidableEq, Repr

/-- `UT_hash_table` -/
structure UtHashTable where
  buckets : List UtHashBucket
  numBuckets : ℕ
  log2NumBuckets : ℕ
  numItems : ℕ
  tail : Addr
  idealChainMaxlen : ℕ
  nonidealItems : ℕ
  ineffExpands : ℕ
  noexpand : Bool
  deriving DecidableEq, Repr

def hashInitialNumBuckets : ℕ := 32

def hashInitialNumBucketsLog2 : ℕ := 5

def hashBktCapacityThresh : ℕ := 10

/-- The pointer to the first item, and the memory that is allocated. -/
structure Hash (κ ν : Type) where
  head : Option Addr
  tables : Heap Addr UtHashTable
  items : Heap Addr (Item κ ν)

variable {κ ν : Type} [DecidableEq κ]

/-! ## Links -/

/-- The order of the application, `prev` and `next`. -/
def appLinks : Linkage Addr (Item κ ν) (Item κ ν) where
  next r := r.hh.next
  setNext n r := { r with hh := { r.hh with next := n } }
  setPrev p r := { r with hh := { r.hh with prev := p } }
  payload r := { r with hh := { r.hh with prev := none, next := none } }
  Back p r := r.hh.prev = p
  next_setNext _ _ := rfl
  next_setPrev _ _ := rfl
  payload_setNext _ _ := rfl
  payload_setPrev _ _ := rfl
  back_setPrev _ _ := rfl
  back_setNext _ _ _ h := h

/-- The chain of a bucket, `hh_prev` and `hh_next`. -/
def bktLinks : Linkage Addr (Item κ ν) (Item κ ν) where
  next r := r.hh.hhNext
  setNext n r := { r with hh := { r.hh with hhNext := n } }
  setPrev p r := { r with hh := { r.hh with hhPrev := p } }
  payload r := { r with hh := { r.hh with hhPrev := none, hhNext := none } }
  Back p r := r.hh.hhPrev = p
  next_setNext _ _ := rfl
  next_setPrev _ _ := rfl
  payload_setNext _ _ := rfl
  payload_setPrev _ _ := rfl
  back_setPrev _ _ := rfl
  back_setNext _ _ _ h := h

/-! ## The table of a hash -/

/-- `(head)->hh.tbl`, with its address. -/
def Hash.tbl (s : Hash κ ν) : Option (Addr × UtHashTable) := do
  let h ← s.head
  let r ← s.items.get? h
  let t ← s.tables.get? r.hh.tbl
  some (r.hh.tbl, t)

def Hash.setTbl (s : Hash κ ν) (p : Addr) (t : UtHashTable) : Hash κ ν :=
  { s with tables := s.tables.modify p fun _ ↦ t }

/-- `HASH_TO_BKT` -/
def hashToBkt (hashv : BitVec 32) (numBkts : ℕ) : ℕ := hashv.toNat &&& (numBkts - 1)

/-- `HASH_MAKE_TABLE` -/
def hashMakeTable (head : Addr) : UtHashTable where
  buckets := List.replicate hashInitialNumBuckets ⟨none, 0, 0⟩
  numBuckets := hashInitialNumBuckets
  log2NumBuckets := hashInitialNumBucketsLog2
  numItems := 0
  tail := head
  idealChainMaxlen := 0
  nonidealItems := 0
  ineffExpands := 0
  noexpand := false

/-! ## Finding -/

/-- `HASH_FIND_IN_BKT` -/
def hashFindInBkt (items : Heap Addr (Item κ ν)) (b : UtHashBucket) (key : κ)
    (hashval : BitVec 32) : Option (Option Addr) :=
  seek (items.next bktLinks.next)
    (fun a ↦ (items.get? a).any fun r ↦ r.hh.hashv = hashval ∧ r.key = key)
    (items.size + 1) b.hhHead

/-- `HASH_FIND` -/
def hashFind (hashFcn : κ → BitVec 32) (s : Hash κ ν) (key : κ) : Option (Option Addr) :=
  if s.head = none then some none
  else do
    let (_, t) ← s.tbl
    let b ← t.buckets[hashToBkt (hashFcn key) t.numBuckets]?
    hashFindInBkt s.items b key (hashFcn key)

/-! ## Buckets -/

/-- Put the item at the head of the chain that begins at `hhHead`. -/
def pushChain (items : Heap Addr (Item κ ν)) (hhHead : Option Addr) (a : Addr) :
    Option (Heap Addr (Item κ ν)) := do
  let items ← items.store a fun r ↦ { r with hh := { r.hh with hhNext := hhHead, hhPrev := none } }
  match hhHead with
  | none => some items
  | some x => items.store x (bktLinks.setPrev (some a))

/-- The variables of `HASH_EXPAND_BUCKETS`. -/
structure Expansion (κ ν : Type) where
  items : Heap Addr (Item κ ν)
  newBuckets : List UtHashBucket
  nonidealItems : ℕ

/-- Move one item to its new bucket, of `numBkts`. -/
def Expansion.move (e : Expansion κ ν) (numBkts idealChainMaxlen : ℕ) (thh : Addr) :
    Option (Expansion κ ν) := do
  let r ← e.items.get? thh
  let i := hashToBkt r.hh.hashv numBkts
  let b ← e.newBuckets[i]?
  let count := b.count + 1
  let items ← pushChain e.items b.hhHead thh
  if count > idealChainMaxlen then
    if idealChainMaxlen = 0 then none
    else some ⟨items, e.newBuckets.set i ⟨some thh, count, count / idealChainMaxlen⟩,
      e.nonidealItems + 1⟩
  else some ⟨items, e.newBuckets.set i ⟨some thh, count, b.expandMult⟩, e.nonidealItems⟩

/-- Move the items of an old bucket, from the item `thh` on. -/
def Expansion.moveChain (numBkts idealChainMaxlen : ℕ) :
    ℕ → Option Addr → Expansion κ ν → Option (Expansion κ ν)
  | 0, _, _ => none
  | _ + 1, none, e => some e
  | fuel + 1, some thh, e => do
      let r ← e.items.get? thh
      let e ← e.move numBkts idealChainMaxlen thh
      moveChain numBkts idealChainMaxlen fuel r.hh.hhNext e

/-- The ideal chain length, ⌈items / buckets⌉ for twice the buckets. -/
def UtHashTable.idealAfterExpand (t : UtHashTable) : ℕ :=
  (t.numItems >>> (t.log2NumBuckets + 1)) +
    if t.numItems &&& (t.numBuckets * 2 - 1) ≠ 0 then 1 else 0

/-- The table after the items have moved.  Two expansions in a row that leave
more than half of the items in too long a chain are the last ones. -/
def UtHashTable.expanded (t : UtHashTable) (newBuckets : List UtHashBucket) (nonidealItems : ℕ) :
    UtHashTable :=
  let ineffExpands := if nonidealItems > t.numItems >>> 1 then t.ineffExpands + 1 else 0
  { t with
    buckets := newBuckets
    numBuckets := t.numBuckets * 2
    log2NumBuckets := t.log2NumBuckets + 1
    idealChainMaxlen := t.idealAfterExpand
    nonidealItems := nonidealItems
    ineffExpands := ineffExpands
    noexpand := t.noexpand || decide (ineffExpands > 1) }

/-- `HASH_EXPAND_BUCKETS` -/
def hashExpandBuckets (items : Heap Addr (Item κ ν)) (t : UtHashTable) :
    Option (Heap Addr (Item κ ν) × UtHashTable) := do
  let numBkts := t.numBuckets * 2
  let e ← t.buckets.foldlM
    (fun e b ↦ Expansion.moveChain numBkts t.idealAfterExpand (items.size + 1) b.hhHead e)
    (⟨items, List.replicate numBkts ⟨none, 0, 0⟩, 0⟩ : Expansion κ ν)
  some (e.items, t.expanded e.newBuckets e.nonidealItems)

/-- `HASH_ADD_TO_BKT` -/
def hashAddToBkt (items : Heap Addr (Item κ ν)) (t : UtHashTable) (i : ℕ) (a : Addr) :
    Option (Heap Addr (Item κ ν) × UtHashTable) := do
  let b ← t.buckets[i]?
  let items ← pushChain items b.hhHead a
  let t := { t with buckets := t.buckets.set i ⟨some a, b.count + 1, b.expandMult⟩ }
  if b.count + 1 ≥ (b.expandMult + 1) * hashBktCapacityThresh ∧ t.noexpand = false then
    hashExpandBuckets items t
  else some (items, t)

/-- `HASH_DEL_IN_BKT` -/
def hashDelInBkt (items : Heap Addr (Item κ ν)) (b : UtHashBucket) (a : Addr) :
    Option (Heap Addr (Item κ ν) × UtHashBucket) := do
  let r ← items.get? a
  let hhHead := if b.hhHead = some a then r.hh.hhNext else b.hhHead
  let items ← match r.hh.hhPrev with
    | none => some items
    | some p => items.store p (bktLinks.setNext r.hh.hhNext)
  let items ← match r.hh.hhNext with
    | none => some items
    | some n => items.store n (bktLinks.setPrev r.hh.hhPrev)
  some (items, ⟨hhHead, b.count - 1, b.expandMult⟩)

/-! ## Adding and deleting -/

/-- `HASH_APPEND_LIST` -/
def hashAppendList (s : Hash κ ν) (add : Addr) : Option (Hash κ ν) := do
  let (p, t) ← s.tbl
  let items ← s.items.store add fun r ↦
    { r with hh := { r.hh with next := none, prev := some t.tail } }
  let items ← items.store t.tail (appLinks.setNext (some add))
  some ({ s with items := items }.setTbl p { t with tail := add })

/-- The part of `HASH_ADD` that links the item in the order of the application.
The first item gets a new table, for which `malloc` returns `newTbl`. -/
def hashAddLinks (s : Hash κ ν) (add newTbl : Addr) : Option (Hash κ ν) :=
  if s.head = none then do
    let items ← s.items.store add fun r ↦
      { r with hh := { r.hh with next := none, prev := none, tbl := newTbl } }
    some ⟨some add, s.tables.alloc newTbl (hashMakeTable add), items⟩
  else do
    let (p, _) ← s.tbl
    let items ← s.items.store add fun r ↦ { r with hh := { r.hh with tbl := p } }
    hashAppendList { s with items := items } add

/-- `HASH_ADD` -/
def hashAdd (hashFcn : κ → BitVec 32) (s : Hash κ ν) (add newTbl : Addr) :
    Option (Hash κ ν) := do
  let r ← s.items.get? add
  let items ← s.items.store add fun r ↦ { r with hh := { r.hh with hashv := hashFcn r.key } }
  let s ← hashAddLinks { s with items := items } add newTbl
  let (p, t) ← s.tbl
  let (items, t) ← hashAddToBkt s.items { t with numItems := t.numItems + 1 }
    (hashToBkt (hashFcn r.key) t.numBuckets) add
  some ({ s with items := items }.setTbl p t)

/-- The part of `HASH_DELETE` that takes an item out of the order of the
application; `r` is its record. -/
def hashDeleteLinks (s : Hash κ ν) (del : Addr) (r : Item κ ν) : Option (Hash κ ν) := do
  let (p, t) ← s.tbl
  let s ←
    if t.tail = del then r.hh.prev.map fun q ↦ s.setTbl p { t with tail := q }
    else some s
  let s ← match r.hh.prev with
    | some q => (s.items.store q (appLinks.setNext r.hh.next)).map fun h ↦ { s with items := h }
    | none => some { s with head := r.hh.next }
  match r.hh.next with
  | some n => (s.items.store n (appLinks.setPrev r.hh.prev)).map fun h ↦ { s with items := h }
  | none => some s

/-- `HASH_DELETE` -/
def hashDelete (s : Hash κ ν) (del : Addr) : Option (Hash κ ν) := do
  let r ← s.items.get? del
  if r.hh.prev = none ∧ r.hh.next = none then do
    let (p, _) ← s.tbl
    some { s with head := none, tables := s.tables.free p }
  else do
    let s ← hashDeleteLinks s del r
    let (p, t) ← s.tbl
    let b ← t.buckets[hashToBkt r.hh.hashv t.numBuckets]?
    let (items, b) ← hashDelInBkt s.items b del
    some ({ s with items := items }.setTbl p
      { t with
        buckets := t.buckets.set (hashToBkt r.hh.hashv t.numBuckets) b
        numItems := t.numItems - 1 })

/-! ## Sorting and counting -/

/-- `HASH_SRT`; the sign of `cmpfcn` tells which of two items comes first. -/
def hashSrt (cmpfcn : κ × ν → κ × ν → ℤ) (s : Hash κ ν) : Option (Hash κ ν) :=
  if s.head = none then some s
  else do
    let o ← appLinks.sortLoop (fun a b ↦ decide (cmpfcn a.entry b.entry ≤ 0)) (s.items.size + 1) 1
      s.head s.items
    let s := { s with items := o.heap }
    let (p, t) ← s.tbl
    let tail ← o.tail
    some ({ s with head := o.list }.setTbl p { t with tail := tail })

/-- `HASH_COUNT` -/
def hashCount (s : Hash κ ν) : Option ℕ :=
  if s.head = none then some 0 else s.tbl.map fun (_, t) ↦ t.numItems

/-! ## The integrity check -/

/-- Follow a list and compare the link back of each item; the count, or `none`
where a link is wrong. -/
def fsckList (L : Linkage Addr (Item κ ν) (Item κ ν)) (back : Item κ ν → Option Addr)
    (items : Heap Addr (Item κ ν)) :
    ℕ → Option Addr → Option Addr → ℕ → Option (Option ℕ)
  | 0, _, _, _ => none
  | _ + 1, _, none, count => some (some count)
  | fuel + 1, prev, some thh, count => do
      let r ← items.get? thh
      if back r ≠ prev then some none
      else fsckList L back items fuel (some thh) (L.next r) (count + 1)

/-- The chain of one bucket, added to the count so far. -/
def fsckBucket (items : Heap Addr (Item κ ν)) (count : Option ℕ) (b : UtHashBucket) :
    Option (Option ℕ) := do
  let c ← fsckList bktLinks (fun r ↦ r.hh.hhPrev) items (items.size + 1) none b.hhHead 0
  some (do
    let n ← count
    let c ← c
    if b.count = c then some (n + c) else none)

/-- `HASH_FSCK`: whether the hash passes. -/
def hashFsck (s : Hash κ ν) : Option Bool :=
  if s.head = none then some true
  else do
    let (_, t) ← s.tbl
    let count ← t.buckets.foldlM (fsckBucket s.items) (some 0)
    let appCount ← fsckList appLinks (fun r ↦ r.hh.prev) s.items (s.items.size + 1) none s.head 0
    some (count = some t.numItems ∧ appCount = some t.numItems)

/-! ## Jenkins' hash -/

/-- `HASH_JEN_MIX` -/
def hashJenMix (a b c : BitVec 32) : BitVec 32 × BitVec 32 × BitVec 32 :=
  let a := (a - b - c) ^^^ (c >>> 13)
  let b := (b - c - a) ^^^ (a <<< 8)
  let c := (c - a - b) ^^^ (b >>> 13)
  let a := (a - b - c) ^^^ (c >>> 12)
  let b := (b - c - a) ^^^ (a <<< 16)
  let c := (c - a - b) ^^^ (b >>> 5)
  let a := (a - b - c) ^^^ (c >>> 3)
  let b := (b - c - a) ^^^ (a <<< 10)
  let c := (c - a - b) ^^^ (b >>> 15)
  (a, b, c)

/-- The bytes of a word of the key, from the lowest; bytes that are not there
count as zero. -/
def keyWord (key : List (BitVec 8)) (i : ℕ) : BitVec 32 :=
  (key.getD i 0).zeroExtend 32 + ((key.getD (i + 1) 0).zeroExtend 32 <<< 8) +
    ((key.getD (i + 2) 0).zeroExtend 32 <<< 16) + ((key.getD (i + 3) 0).zeroExtend 32 <<< 24)

/-- One block of twelve bytes after the other; the key goes on behind them. -/
def hashJenBlocks :
    ℕ → List (BitVec 8) → BitVec 32 × BitVec 32 × BitVec 32 → BitVec 32 × BitVec 32 × BitVec 32
  | 0, _, state => state
  | n + 1, key, (i, j, hashv) => hashJenBlocks n (key.drop 12)
      (hashJenMix (i + keyWord key 0) (j + keyWord key 4) (hashv + keyWord key 8))

/-- `HASH_JEN`, which `HASH_FCN` is unless another function is chosen. -/
def hashJen (key : List (BitVec 8)) : BitVec 32 :=
  let (i, j, hashv) := hashJenBlocks (key.length / 12) key (0x9e3779b9, 0x9e3779b9, 0xfeedbeef)
  let rest := key.drop (key.length / 12 * 12)
  -- the bytes 8 to 10 stand above that of the length
  let hashv := hashv + BitVec.ofNat 32 key.length + (keyWord rest 8 <<< 8)
  (hashJenMix (i + keyWord rest 0) (j + keyWord rest 4) hashv).2.2

end EsNotebook.Uthash
