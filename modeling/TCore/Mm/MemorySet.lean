/-
  TCore.Mm.MemorySet — areas of virtual memory and address spaces (mm/memory_set.rs).

  The tracker of a page is dropped before the page is unmapped, and the areas of a memory set that is
  dropped or recycled are not unmapped at all: a page table that is still there then has valid entries
  for free frames.

  `none` is a panic. `low` is the first frame after the kernel.
-/

import TCore.Mm.Mappings

namespace TCore.Mm

open TCore.Lib PageTable VirtAddr

inductive MapType where
  | identical
  | framed
  | noalloc
  deriving DecidableEq

structure MapArea where
  start : Nat
  end_ : Nat
  /-- The `BTreeMap`, in the order of its pages. -/
  dataFrames : List (Nat × FrameTracker)
  mapType : MapType
  mapPerm : PTEFlags

namespace MapArea

/-- `VPNRange::new` asserts that the range is one. -/
def new (startVa endVa : Nat) (mapType : MapType) (mapPerm : PTEFlags) : Option MapArea :=
  let start := floor startVa
  let end_ := ceil endVa
  if start ≤ end_ then some ⟨start, end_, [], mapType, mapPerm⟩ else none

def fromAnother (another : MapArea) : MapArea := { another with dataFrames := [] }

def vpnRange (a : MapArea) : List Nat := List.range' a.start (a.end_ - a.start)

/-- The pages are mapped in order, so that a tracker is inserted behind the others. -/
def mapOne (a : MapArea) (pt : PageTable) (r : Ram) (vpn : Nat) : Option (MapArea × PageTable × Ram) :=
  match a.mapType with
  | .identical => (pt.map r vpn vpn a.mapPerm).map fun (pt, r) => (a, pt, r)
  | .framed =>
    r.frameAlloc.bind fun (frame, r) =>
      (pt.map r vpn frame a.mapPerm).map fun (pt, r) =>
        ({ a with dataFrames := a.dataFrames ++ [(vpn, ⟨frame, false⟩)] }, pt, r)
  | .noalloc => none

def mapPages (a : MapArea) (pt : PageTable) (r : Ram) : List Nat → Option (MapArea × PageTable × Ram)
  | [] => some (a, pt, r)
  | vpn :: rest => (a.mapOne pt r vpn).bind fun (a, pt, r) => mapPages a pt r rest

def map (a : MapArea) (pt : PageTable) (r : Ram) : Option (MapArea × PageTable × Ram) := a.mapPages pt r a.vpnRange

/-- `data_frames.remove`, with the drop of the tracker. -/
def removeFrame (a : MapArea) (r : Ram) (vpn : Nat) : Option (MapArea × Ram) :=
  match a.dataFrames.find? fun x => x.1 == vpn with
  | none => some (a, r)
  | some (_, frame) => (frame.drop r).map fun r => ({ a with dataFrames := a.dataFrames.eraseP fun x => x.1 == vpn }, r)

def unmapOne (a : MapArea) (pt : PageTable) (r : Ram) (vpn : Nat) : Option (MapArea × Ram) :=
  (if a.mapType = .framed then a.removeFrame r vpn else some (a, r)).bind fun (a, r) =>
    (pt.unmap r vpn).map fun r => (a, r)

def unmapPages (a : MapArea) (pt : PageTable) (r : Ram) : List Nat → Option (MapArea × Ram)
  | [] => some (a, r)
  | vpn :: rest => (a.unmapOne pt r vpn).bind fun (a, r) => unmapPages a pt r rest

def unmap (a : MapArea) (pt : PageTable) (r : Ram) : Option (MapArea × Ram) := a.unmapPages pt r a.vpnRange

/-- A turn of the loop of `copy_data`: the `i`-th piece of the data goes to the frame of the `i`-th page. An empty piece,
which is that of no data, writes nothing. -/
def copyTurn (low : Nat) (a : MapArea) (pt : PageTable) (data : List (BitVec 8)) (r : Ram) (i : Nat) : Option Ram :=
  (pt.translate r.mem (a.start + i)).bind fun pte =>
    let src := (data.drop (i * PAGE_SIZE)).take PAGE_SIZE
    if src = [] then some r else r.store low pte.ppn (Frame.copyFromSlice · src)

/-- The loop makes its first turn also without data. -/
def copyData (low : Nat) (a : MapArea) (pt : PageTable) (r : Ram) (data : List (BitVec 8)) : Option Ram :=
  if a.mapType = .framed then
    (List.range (max 1 ((data.length + (PAGE_SIZE - 1)) / PAGE_SIZE))).foldlM (a.copyTurn low pt data) r
  else none

/-- The trackers are dropped with the area. -/
def drop (a : MapArea) (r : Ram) : Option Ram := FrameTracker.dropAll (a.dataFrames.map Prod.snd) r

def dropAreas (areas : List MapArea) (r : Ram) : Option Ram := areas.foldlM (fun r area => drop area r) r

end MapArea

structure MemorySet where
  pageTable : PageTable
  areas : List MapArea

/-- A program header of an ELF file. -/
structure ProgramHeader where
  /-- `get_type() == Load`. -/
  load : Bool
  virtualAddr : Nat
  memSize : Nat
  offset : Nat
  fileSize : Nat
  isRead : Bool
  isWrite : Bool
  isExecute : Bool

/-- What the parser makes of the bytes of an ELF file. -/
structure ElfFile where
  input : List (BitVec 8)
  programHeaders : List ProgramHeader
  entryPoint : Nat

namespace MemorySet

def newBare (r : Ram) : Option (MemorySet × Ram) := (PageTable.new r).map fun (pt, r) => (⟨pt, []⟩, r)

def token (ms : MemorySet) : Nat := ms.pageTable.token

def push (low : Nat) (ms : MemorySet) (r : Ram) (area : MapArea) (data : Option (List (BitVec 8))) :
    Option (MemorySet × Ram) :=
  (area.map ms.pageTable r).bind fun (area, pt, r) =>
    (match data with
    | none => some r
    | some data => area.copyData low pt r data).map fun r => (⟨pt, ms.areas ++ [area]⟩, r)

def insertFramedArea (low : Nat) (ms : MemorySet) (r : Ram) (startVa endVa : Nat) (permission : PTEFlags) :
    Option (MemorySet × Ram) :=
  (MapArea.new startVa endVa .framed permission).bind fun area => ms.push low r area none

def removeAreaWithStartVpn (ms : MemorySet) (r : Ram) (startVpn : Nat) : Option (MemorySet × Ram) :=
  match ms.areas.find? fun area => area.start == startVpn with
  | none => some (ms, r)
  | some area =>
    (area.unmap ms.pageTable r).bind fun (area, r) =>
      (area.drop r).map fun r => ({ ms with areas := ms.areas.eraseP fun area => area.start == startVpn }, r)

/-- The page of the trampoline, in every address space. -/
def trampolineVpn : Nat := floor (fromUsize TRAMPOLINE)

/-- The conversion to a page number asserts that the symbol is aligned. -/
def mapTrampoline (strampoline : Nat) (ms : MemorySet) (r : Ram) : Option (MemorySet × Ram) :=
  let pa := PhysAddr.fromUsize strampoline
  if pageOffset pa = 0 then
    (ms.pageTable.map r trampolineVpn (pa / PAGE_SIZE) (.R ||| .X)).map fun (pt, r) => ({ ms with pageTable := pt }, r)
  else none

end MemorySet

namespace ProgramHeader

def mapPerm (ph : ProgramHeader) : PTEFlags :=
  .U ||| (if ph.isRead then .R else 0) ||| (if ph.isWrite then .W else 0) ||| (if ph.isExecute then .X else 0)

def mapArea (ph : ProgramHeader) : Option MapArea :=
  MapArea.new (fromUsize ph.virtualAddr) (fromUsize (ph.virtualAddr + ph.memSize)) .framed ph.mapPerm

/-- The slice of the file, with the panic of one that is out of range. -/
def data (ph : ProgramHeader) (input : List (BitVec 8)) : Option (List (BitVec 8)) :=
  let stop := (ph.offset + ph.fileSize) % 2 ^ 64
  if ph.offset ≤ stop ∧ stop ≤ input.length then some ((input.drop ph.offset).take (stop - ph.offset)) else none

end ProgramHeader

namespace MemorySet

/-- A turn of the loop over the program headers. The last segment that is loaded gives `max_end_vpn`. -/
def loadSegment (low : Nat) (input : List (BitVec 8)) (x : MemorySet × Ram × Nat) (ph : ProgramHeader) :
    Option (MemorySet × Ram × Nat) :=
  if ph.load then
    ph.mapArea.bind fun area =>
      (ph.data input).bind fun data =>
        (x.1.push low x.2.1 area (some data)).map fun (ms, r) => (ms, r, area.end_)
  else some x

/-- The base of the user stacks: a page above the end of the last segment. -/
def userStackBase (maxEndVpn : Nat) : Nat := (toUsize (ofPageNum maxEndVpn) + PAGE_SIZE) % 2 ^ 64

/-- The memory set, the base of the user stacks and the entry point. -/
def fromElf (low strampoline : Nat) (elf : ElfFile) (r : Ram) : Option ((MemorySet × Nat × Nat) × Ram) :=
  (newBare r).bind fun (ms, r) =>
    (ms.mapTrampoline strampoline r).bind fun (ms, r) =>
      (elf.programHeaders.foldlM (loadSegment low elf.input) (ms, r, 0)).map fun (ms, r, maxEndVpn) =>
        ((ms, userStackBase maxEndVpn, elf.entryPoint), r)

/-- The page of the new memory set becomes a copy of the user's. -/
def copyPage (low : Nat) (user ms : MemorySet) (r : Ram) (vpn : Nat) : Option Ram :=
  (user.pageTable.translate r.mem vpn).bind fun src =>
    (ms.pageTable.translate r.mem vpn).bind fun dst => r.store low dst.ppn fun _ => r.mem src.ppn

/-- A turn of the loop over the areas of the user. -/
def copyArea (low : Nat) (user : MemorySet) (x : MemorySet × Ram) (area : MapArea) : Option (MemorySet × Ram) :=
  (x.1.push low x.2 (MapArea.fromAnother area) none).bind fun (ms, r) =>
    (area.vpnRange.foldlM (copyPage low user ms) r).map fun r => (ms, r)

def fromExistedUser (low strampoline : Nat) (user : MemorySet) (r : Ram) : Option (MemorySet × Ram) :=
  (newBare r).bind fun (ms, r) =>
    (ms.mapTrampoline strampoline r).bind fun (ms, r) => user.areas.foldlM (copyArea low user) (ms, r)

/-- The areas are cleared, and the page table stays as it is. -/
def recycleDataPages (ms : MemorySet) (r : Ram) : Option (MemorySet × Ram) :=
  (MapArea.dropAreas ms.areas r).map fun r => ({ ms with areas := [] }, r)

/-- The fields of a memory set are dropped in the order of their declaration. -/
def drop (ms : MemorySet) (r : Ram) : Option Ram :=
  (ms.pageTable.frames.foldlM Ram.frameDealloc r).bind (MapArea.dropAreas ms.areas)

end MemorySet

end TCore.Mm
