/-
  TCore.EasyFs.BlockCache — the block cache and its manager (block_cache.rs).

  An `Arc<Mutex<BlockCache>>` is a pointer into a heap of cache objects; every `Arc::new`
  takes a fresh one. The manager's queue holds one reference to each object in it and
  `handles` lists the references held outside, one for each clone that is alive. The strong
  count of an object is the number of both. When the last reference goes, the object is
  dropped and its `Drop` writes a dirty block back.

  A lookup compares the block id only, as the source does; the device is kept in the object.
  The manager holds at most 16 objects: a miss on a full queue drops the first object that
  only the queue refers to, and panics when there is none.
-/

import TCore.EasyFs.DiskLayout

namespace TCore.EasyFs

structure BlockCache where
  cache : Block
  blockId : Nat
  device : Nat
  modified : Bool

instance : Inhabited BlockCache := ⟨⟨Block.zero, 0, 0, false⟩⟩

structure Manager where
  /-- What each device holds. -/
  devices : Nat → Nat → Block
  heap : Nat → BlockCache
  next : Nat
  queue : List (Nat × Nat)
  handles : List Nat

namespace Manager

/-- No object is cached and nobody holds one. -/
def empty (devices : Nat → Nat → Block) : Manager := ⟨devices, fun _ => default, 0, [], []⟩

def readBlock (m : Manager) (device id : Nat) : Block := m.devices device id

def writeBlock (m : Manager) (device id : Nat) (b : Block) : Manager :=
  { m with devices := Function.update m.devices device (Function.update (m.devices device) id b) }

/-- `BlockCache::sync`. -/
def sync (m : Manager) (p : Nat) : Manager :=
  if (m.heap p).modified then
    writeBlock { m with heap := Function.update m.heap p { m.heap p with modified := false } }
      (m.heap p).device (m.heap p).blockId (m.heap p).cache
  else m

def strongCount (m : Manager) (p : Nat) : Nat := (m.queue.map Prod.snd).count p + m.handles.count p

/-- A reference to `p` has just gone: the last one drops the object. -/
def dropped (m : Manager) (p : Nat) : Manager := if m.strongCount p = 0 then m.sync p else m

/-- Drop a handle. -/
def release (m : Manager) (p : Nat) : Manager := dropped { m with handles := m.handles.erase p } p

/-- `BlockCache::new` behind a fresh `Arc`, pushed on the queue and handed out. -/
def load (m : Manager) (id device : Nat) : Nat × Manager :=
  (m.next, { m with
    heap := Function.update m.heap m.next ⟨m.readBlock device id, id, device, false⟩
    next := m.next + 1
    queue := m.queue ++ [(id, m.next)]
    handles := m.next :: m.handles })

/-- Make room on a full queue. `none` is "Run out of BlockCache!". -/
def substitute (m : Manager) : Option Manager :=
  if m.queue.length = 16 then
    match m.queue.findIdx? fun e => m.strongCount e.2 == 1 with
    | some i => some (dropped { m with queue := m.queue.eraseIdx i } (m.queue.getD i (0, 0)).2)
    | none => none
  else some m

/-- `BlockCacheManager::get_block_cache`. -/
def getBlockCache (m : Manager) (id device : Nat) : Option (Nat × Manager) :=
  match m.queue.find? fun e => e.1 == id with
  | some e => some (e.2, { m with handles := e.2 :: m.handles })
  | none => m.substitute.map fun m => m.load id device

/-- `BlockCache::modify` by way of a handle: the bytes change and the block is dirty. -/
def modify (m : Manager) (p : Nat) (b : Block) : Manager :=
  { m with heap := Function.update m.heap p { m.heap p with cache := b, modified := true } }

/-- `block_cache_sync_all`: every object of the queue, front to back. -/
def syncAll (m : Manager) : Manager := m.queue.foldl (fun m e => m.sync e.2) m

end Manager

/-! ## A client of the cache -/

/-- What a client does: take a handle to a block, read or change the block by way of the
    `i`-th handle it holds, drop that handle, flush everything. -/
inductive CacheOp where
  | get (id : Nat)
  | read (i : Nat)
  | modify (i : Nat) (f : Block → Block)
  | release (i : Nat)
  | syncAll

inductive CacheOut where
  | done
  | bytes (b : Block)

/-- The client's handles, oldest first: the block each was taken for, and its object. -/
structure Client where
  mgr : Manager
  held : List (Nat × Nat)

def Client.step (device : Nat) (c : Client) : CacheOp → Option (CacheOut × Client)
  | .get id => (c.mgr.getBlockCache id device).map fun r => (.done, ⟨r.2, c.held ++ [(id, r.1)]⟩)
  | .read i => c.held[i]?.map fun h => (.bytes (c.mgr.heap h.2).cache, c)
  | .modify i f => c.held[i]?.map fun h => (.done, { c with mgr := c.mgr.modify h.2 (f (c.mgr.heap h.2).cache) })
  | .release i => c.held[i]?.map fun h => (.done, ⟨c.mgr.release h.2, c.held.eraseIdx i⟩)
  | .syncAll => some (.done, { c with mgr := c.mgr.syncAll })

def Client.run (device : Nat) (c : Client) : List CacheOp → Option (List CacheOut × Client)
  | [] => some ([], c)
  | o :: os => do
    let (x, c) ← c.step device o
    let (xs, c) ← c.run device os
    some (x :: xs, c)

/-! ## No cache -/

/-- The reference: the blocks themselves, and the block behind each handle. -/
structure Plain where
  blocks : Nat → Block
  held : List Nat

def Plain.step (r : Plain) : CacheOp → Option (CacheOut × Plain)
  | .get id => some (.done, { r with held := r.held ++ [id] })
  | .read i => r.held[i]?.map fun id => (.bytes (r.blocks id), r)
  | .modify i f => r.held[i]?.map fun id => (.done, { r with blocks := Function.update r.blocks id (f (r.blocks id)) })
  | .release i => r.held[i]?.map fun _ => (.done, { r with held := r.held.eraseIdx i })
  | .syncAll => some (.done, r)

/-- The reference run, as long as at most 15 distinct blocks are held at once. -/
def Plain.run (r : Plain) : List CacheOp → Option (List CacheOut × Plain)
  | [] => some ([], r)
  | o :: os => do
    let (x, r) ← r.step o
    if r.held.dedup.length ≤ 15 then
      let (xs, r) ← r.run os
      some (x :: xs, r)
    else none

end TCore.EasyFs
