/-
  TCore.EasyFs.DiskInode — growing, clearing, reading and writing a disk inode (layout.rs).

  An inode addresses its data blocks directly (the first 28), through the block `indirect1`
  (128 more) and through the rows of the block `indirect2` (128 rows of 128). The functions
  take the inode by value and answer the inode they leave; the caller holds the lock of the
  block the inode lies in. Sizes and block counts are `u32` in the source; a count is a `Nat`
  here, with the wrap-around of `size + 511` kept.
-/

import TCore.EasyFs.DiskLayout
import TCore.EasyFs.Bitmap

namespace TCore.EasyFs

open TCore.Lib Prog

/-- `Iterator::next().unwrap()` on the blocks handed to `increase_size`. -/
def nextBlock : List UInt32 → Fs (UInt32 × List UInt32)
  | [] => .panic
  | x :: xs => pure (x, xs)

/-- The id of an index block: the next new block if there was none before, `x` otherwise. -/
def takeIndex (current : Nat) (x : UInt32) (newBlocks : List UInt32) : Fs (UInt32 × List UInt32) :=
  if current = 0 then nextBlock newBlocks else pure (x, newBlocks)

/-- `n` turns of `a[current] = new_blocks.next().unwrap(); current += 1`. -/
def fill {α : Type} (put : α → Nat → UInt32 → α) : Nat → Nat → α → List UInt32 → Fs (α × List UInt32)
  | 0, _, a, newBlocks => pure (a, newBlocks)
  | n + 1, current, a, newBlocks => do
    let (x, rest) ← nextBlock newBlocks
    fill put n (current + 1) (put a current x) rest

/-- The row of a second-level cell: a new block when the cell is the row's first. -/
def openRow (a0 b0 : Nat) (indirect2 : Block) (newBlocks : List UInt32) : Fs (Block × List UInt32) :=
  if b0 = 0 then do
    let (x, rest) ← nextBlock newBlocks
    pure (indirect2.setEntry a0 x, rest)
  else pure (indirect2, newBlocks)

/-- `n` turns of the loop that walks the second-level cells from `(a0, b0)`, with the lock of the
    `indirect2` block held. -/
def fillRows : Nat → Nat → Nat → Block → List UInt32 → Fs (Block × List UInt32)
  | 0, _, _, indirect2, newBlocks => pure (indirect2, newBlocks)
  | n + 1, a0, b0, indirect2, newBlocks => do
    assert (a0 < 128)
    let (indirect2, newBlocks) ← openRow a0 b0 indirect2 newBlocks
    let newBlocks ← modify (indirect2.entry a0).toNat fun indirect1 => do
      let (x, rest) ← nextBlock newBlocks
      pure (rest, indirect1.setEntry b0 x)
    if b0 + 1 = 128 then fillRows n (a0 + 1) 0 indirect2 newBlocks
    else fillRows n a0 (b0 + 1) indirect2 newBlocks

/-- Push the ids a row holds, row after row, `n` rows from `r` on. -/
def clearRows (indirect2 : Block) : Nat → Nat → List UInt32 → Fs (List UInt32)
  | 0, _, v => pure v
  | n + 1, r, v => do
    let row ← modify (indirect2.entry r).toNat fun indirect1 => pure ((List.range 128).map indirect1.entry, indirect1)
    clearRows indirect2 n (r + 1) (v ++ indirect2.entry r :: row)

namespace DiskInode

/-- `_data_blocks`. -/
def dataBlocksOf (size : UInt32) : Nat := (size.toNat + 511) % 2 ^ 32 / 512

def dataBlocks (ino : DiskInode) : Nat := dataBlocksOf ino.size

/-- The blocks `data_blocks` many data blocks take, index blocks included. -/
def totalFor (dataBlocks : Nat) : Nat :=
  dataBlocks + (if dataBlocks > 28 then 1 else 0) +
    (if dataBlocks > 156 then 1 + (dataBlocks - 156 + 128 - 1) / 128 else 0)

def totalBlocks (size : UInt32) : Nat := totalFor (dataBlocksOf size)

def blocksNumNeeded (ino : DiskInode) (newSize : UInt32) : Fs Nat := do
  assert (newSize ≥ ino.size)
  pure ((totalBlocks newSize + 2 ^ 32 - totalBlocks ino.size) % 2 ^ 32)

def getBlockId (ino : DiskInode) (innerId : Nat) : Fs UInt32 :=
  if innerId < 28 then pure (ino.direct.get innerId)
  else if innerId < 156 then read ino.indirect1.toNat fun b => pure (b.entry (innerId - 28))
  else do
    let indirect1 ← read ino.indirect2.toNat fun b => do
      assert ((innerId - 156) / 128 < 128)
      pure (b.entry ((innerId - 156) / 128))
    read indirect1.toNat fun b => pure (b.entry ((innerId - 156) % 128))

/-- The part of `increase_size` past the direct blocks and `indirect1`; both counts are those left
    after 156 blocks. -/
def increaseRows (ino : DiskInode) (current total : Nat) (newBlocks : List UInt32) : Fs DiskInode := do
  let (indirect2, newBlocks) ← takeIndex current ino.indirect2 newBlocks
  modify indirect2.toNat fun b => do
    let r ← fillRows (total - current) (current / 128) (current % 128) b newBlocks
    pure ((), r.1)
  pure { ino with indirect2 := indirect2 }

/-- The part of `increase_size` past the direct blocks; both counts are those left after 28
    blocks. -/
def increaseIndirect (ino : DiskInode) (current total : Nat) (newBlocks : List UInt32) : Fs DiskInode := do
  let (indirect1, newBlocks) ← takeIndex current ino.indirect1 newBlocks
  let newBlocks ← modify indirect1.toNat fun b => do
    let r ← fill Block.setEntry (min total 128 - current) current b newBlocks
    pure (r.2, r.1)
  if total > 128 then
    increaseRows { ino with indirect1 := indirect1 } (max current 128 - 128) (total - 128) newBlocks
  else pure { ino with indirect1 := indirect1 }

def increaseSize (ino : DiskInode) (newSize : UInt32) (newBlocks : List UInt32) : Fs DiskInode := do
  let current := ino.dataBlocks
  let total := dataBlocksOf newSize
  let (direct, newBlocks) ← fill Arr.set (min total 28 - current) current ino.direct newBlocks
  let ino := { ino with size := newSize, direct := direct }
  if total > 28 then increaseIndirect ino (max current 28 - 28) (total - 28) newBlocks else pure ino

/-- The part of `clear_size` past the direct blocks and `indirect1`; `n` blocks are left. -/
def clearIndirect2 (ino : DiskInode) (n : Nat) (v : List UInt32) : Fs (List UInt32) := do
  assert (n ≤ 16384)
  modify ino.indirect2.toNat fun b => do
    let v ← clearRows b (n / 128) 0 (v ++ [ino.indirect2])
    if n % 128 > 0 then do
      let row ← modify (b.entry (n / 128)).toNat fun indirect1 =>
        pure ((List.range (n % 128)).map indirect1.entry, indirect1)
      pure (v ++ b.entry (n / 128) :: row, b)
    else pure (v, b)

/-- The part of `clear_size` past the direct blocks; `n` blocks are left. -/
def clearIndirect1 (ino : DiskInode) (n : Nat) (v : List UInt32) : Fs (List UInt32 × DiskInode) := do
  let v ← modify ino.indirect1.toNat fun b =>
    pure (v ++ ino.indirect1 :: (List.range (min n 128)).map b.entry, b)
  let ino := { ino with indirect1 := 0 }
  if n > 128 then do
    let v ← ino.clearIndirect2 (n - 128) v
    pure (v, { ino with indirect2 := 0 })
  else pure (v, ino)

def clearSize (ino : DiskInode) : Fs (List UInt32 × DiskInode) :=
  let n := ino.dataBlocks
  let v := (List.range (min n 28)).map ino.direct.get
  let ino := { ino with size := 0, direct := Arr.ofFn fun i => if i < min n 28 then 0 else ino.direct.get i }
  if n > 28 then ino.clearIndirect1 (n - 28) v else pure (v, ino)

/-- The loop of `read_at`, answering the bytes it copies; `fuel` bounds its turns. -/
def readLoop (ino : DiskInode) (stop : Nat) : Nat → Nat → Fs (List UInt8)
  | 0, _ => .panic
  | fuel + 1, start => do
    let endCurrentBlock := min (512 * (start / 512 + 1)) stop
    let blockId ← ino.getBlockId (start / 512)
    let src ← read blockId.toNat fun b => pure (b.slice (start % 512) (endCurrentBlock - start))
    if endCurrentBlock = stop then pure src
    else do
      let rest ← ino.readLoop stop fuel endCurrentBlock
      pure (src ++ rest)

/-- `read_at`: the number of bytes read and what the buffer then holds. -/
def readAt (ino : DiskInode) (offset : Nat) (buf : List UInt8) : Fs (Nat × List UInt8) :=
  let stop := min ((offset + buf.length) % 2 ^ 64) ino.size.toNat
  if offset ≥ stop then pure (0, buf)
  else do
    let got ← ino.readLoop stop (stop - offset) offset
    pure (got.length, got ++ buf.drop got.length)

/-- The loop of `write_at`; `buf` is what is left to write. -/
def writeLoop (ino : DiskInode) (stop : Nat) : Nat → Nat → List UInt8 → Fs Nat
  | 0, _, _ => .panic
  | fuel + 1, start, buf => do
    let endCurrentBlock := min (512 * (start / 512 + 1)) stop
    let blockWriteSize := endCurrentBlock - start
    let blockId ← ino.getBlockId (start / 512)
    modify blockId.toNat fun b => pure ((), b.copyFrom (start % 512) (buf.take blockWriteSize))
    if endCurrentBlock = stop then pure blockWriteSize
    else do
      let rest ← ino.writeLoop stop fuel endCurrentBlock (buf.drop blockWriteSize)
      pure (blockWriteSize + rest)

def writeAt (ino : DiskInode) (offset : Nat) (buf : List UInt8) : Fs Nat := do
  let stop := min ((offset + buf.length) % 2 ^ 64) ino.size.toNat
  assert (offset ≤ stop)
  ino.writeLoop stop (stop - offset + 1) offset buf

end DiskInode

end TCore.EasyFs
