import HobbyOS.Bytes
import HobbyOS.Machine
import HobbyOS.Suspend

/-!
# Allocation of inodes

`Ext2Mount::allocInode`, called by any number of processes. It reads the descriptor of a group and
the bitmap of its inodes, sector by sector, into buffers of its own; sets a bit which is clear; and
writes the bitmap, the descriptor, the superblock and the inode.

A process is suspended where `Disk::read` does not find a sector in the cache, and reads what the
sector holds when it goes on. Sectors may leave the cache at any time, and there are no mutexes.

Sectors and blocks are functions from offsets to bytes; their numbers, and those of inodes, are
computed with 32 bits. What else is written while files are created
(directories, blocks of files and their bitmaps) may be anything which is not in the bitmaps of
inodes and does not move them (`Creation.other`).
-/

namespace HobbyOS

open Function

/-- `Disk::SECTOR_SIZE`. -/
def sectorSize : ℕ := 512

/-- `sizeof(Ext2BlockGroupDesc)`. -/
def descSize : ℕ := 32

/-- `sizeof(Ext2InodeDisk)`. -/
def rawInodeSize : ℕ := 128

/-- What a file system is like: the fields of the superblock which do not change, and where the
    bitmaps and the tables of inodes are. -/
structure Ext2 where
  firstDataBlock : ℕ
  sectorsPerBlock : ℕ
  inodesPerGroup : ℕ
  inodeSize : ℕ
  groupCount : ℕ
  inodeBitmap : ℕ → ℕ
  inodeTable : ℕ → ℕ

/-- The bytes of a sector, of a block, or of something else. -/
abbrev Buf := ℕ → UInt8

/-- The sectors, whether they are in the cache, and `m_sb`. -/
structure Sectors where
  sector : ℕ → Buf
  cached : ℕ → Bool
  sb : Buf

/-- `Disk::write`. -/
def Sectors.write (s : Sectors) (x : ℕ) (data : Buf) : Sectors :=
  { s with
    sector := update s.sector x data
    cached := update s.cached x true }

/-- `Disk::read`. -/
def diskDevice : Device Sectors ℕ Buf where
  get s := s.sector
  hit s := s.cached
  fetch s x := { s with cached := update s.cached x true }

/-- A program which reads and writes sectors. -/
abbrev DiskProg := Prog Sectors ℕ Buf

/-- `memcpy(buf + offset, src, size)`. -/
def copyTo (buf : Buf) (offset size : ℕ) (src : Buf) : Buf :=
  fun o => if offset ≤ o ∧ o < offset + size then src (o - offset) else buf o

/-- What begins at an offset. -/
def fromOffset (buf : Buf) (offset : ℕ) : Buf := fun o => buf (offset + o)

/-- Whether `buf[i / 8] & (1 << (i % 8))`. -/
def bitAt (buf : Buf) (i : ℕ) : Bool := (buf (i / 8)).toNat.testBit (i % 8)

/-- `buf[i / 8] |= 1 << (i % 8)`. -/
def setBitAt (buf : Buf) (i : ℕ) : Buf :=
  update buf (i / 8) (UInt8.ofNat ((buf (i / 8)).toNat ||| 1 <<< (i % 8)))

namespace Ext2

variable (fs : Ext2)

/-- `m_blockSize`. -/
def blockSize : ℕ := fs.sectorsPerBlock * sectorSize

/-- The loop of `Ext2Mount::readBlock`, with `n` sectors left. -/
def readSectors (sector : ℕ) : ℕ → ℕ → Buf → DiskProg Buf
  | 0, _, buf => .ret buf
  | n + 1, i, buf => do
    let data ← .fetch ((sector + i) % 2 ^ 32)
    readSectors sector n (i + 1) (copyTo buf (i * sectorSize) sectorSize data)

/-- `Ext2Mount::readBlock`. Nothing else of the buffer is looked at. -/
def readBlock (block : ℕ) : DiskProg Buf :=
  readSectors (block * fs.sectorsPerBlock % 2 ^ 32) fs.sectorsPerBlock 0 fun _ => 0

/-- The loop of `Ext2Mount::writeBlock`, with `n` sectors left. -/
def writeSectors (sector : ℕ) (buf : Buf) : ℕ → ℕ → DiskProg Unit
  | 0, _ => .ret ()
  | n + 1, i => do
    .modify fun s => s.write ((sector + i) % 2 ^ 32) (fromOffset buf (i * sectorSize))
    writeSectors sector buf n (i + 1)

/-- `Ext2Mount::writeBlock`. -/
def writeBlock (block : ℕ) (buf : Buf) : DiskProg Unit :=
  writeSectors (block * fs.sectorsPerBlock % 2 ^ 32) buf fs.sectorsPerBlock 0

/-- How many descriptors there are in a block. -/
def descPerBlock : ℕ := fs.blockSize / descSize

/-- The block with the descriptor of a group. -/
def descBlock (group : ℕ) : ℕ := fs.firstDataBlock + 1 + group / fs.descPerBlock

/-- Where the descriptor is in its block. -/
def descOffset (group : ℕ) : ℕ := group % fs.descPerBlock * descSize

/-- `Ext2Mount::readGroupDesc`. -/
def readGroupDesc (group : ℕ) : DiskProg Buf := do
  let buf ← fs.readBlock (fs.descBlock group)
  .ret (fromOffset buf (fs.descOffset group))

/-- `Ext2Mount::writeGroupDesc`. -/
def writeGroupDesc (group : ℕ) (desc : Buf) : DiskProg Unit := do
  let buf ← fs.readBlock (fs.descBlock group)
  fs.writeBlock (fs.descBlock group) (copyTo buf (fs.descOffset group) descSize desc)

/-- `bg_inode_bitmap`. -/
def bgInodeBitmap (desc : Buf) : ℕ := loadLE desc 4 4

/-- `bg_inode_table`. -/
def bgInodeTable (desc : Buf) : ℕ := loadLE desc 8 4

/-- `bg_free_inodes_count`. -/
def bgFreeInodesCount (desc : Buf) : ℕ := loadLE desc 14 2

/-- `Ext2Mount::writeRawInode`. -/
def writeRawInode (num : ℕ) (raw : Buf) : DiskProg Unit := do
  let desc ← fs.readGroupDesc ((num + (2 ^ 32 - 1)) % 2 ^ 32 / fs.inodesPerGroup)
  let index := (num + (2 ^ 32 - 1)) % 2 ^ 32 % fs.inodesPerGroup
  let inodesPerBlock := fs.blockSize / fs.inodeSize
  let buf ← fs.readBlock (bgInodeTable desc + index / inodesPerBlock)
  fs.writeBlock (bgInodeTable desc + index / inodesPerBlock)
    (copyTo buf (index % inodesPerBlock * fs.inodeSize) rawInodeSize raw)

/-- `m_sb.s_free_inodes_count--`, and the superblock is written. -/
def writeSuperBlock (s : Sectors) : Sectors :=
  let sb := storeLE s.sb 16 4 (loadLE s.sb 16 4 + (2 ^ 32 - 1))
  ({ s with sb := sb }.write 2 sb).write 3 (fromOffset sb sectorSize)

/-- The number of an inode. -/
def inodeNum (group i : ℕ) : ℕ := (fs.inodesPerGroup * group + i + 1) % 2 ^ 32

/-- The rest of `Ext2Mount::allocInode`, after a clear bit was found. -/
def takeInode (group : ℕ) (desc bitmap : Buf) (i : ℕ) : DiskProg ℕ := do
  fs.writeBlock (bgInodeBitmap desc) (setBitAt bitmap i)
  fs.writeGroupDesc group (storeLE desc 14 2 (bgFreeInodesCount desc - 1))
  .modify writeSuperBlock
  fs.writeRawInode (fs.inodeNum group i) fun _ => 0
  .ret (fs.inodeNum group i)

/-- The first bit which is clear. -/
def findClear (bitmap : Buf) : Option ℕ :=
  (List.range fs.inodesPerGroup).find? fun i => !bitAt bitmap i

/-- The loop of `Ext2Mount::allocInode`, with `n` groups left. -/
def allocInodeFrom (preferGroup : ℕ) : ℕ → DiskProg ℕ
  | 0 => .ret 0
  | n + 1 => do
    let group := (preferGroup + (fs.groupCount - (n + 1))) % 2 ^ 32 % fs.groupCount
    let desc ← fs.readGroupDesc group
    if bgFreeInodesCount desc = 0 then allocInodeFrom preferGroup n
    else do
      let bitmap ← fs.readBlock (bgInodeBitmap desc)
      match fs.findClear bitmap with
      | some i => fs.takeInode group desc bitmap i
      | none => allocInodeFrom preferGroup n

/-- `Ext2Mount::allocInode`. -/
def allocInode (preferGroup : ℕ) : DiskProg ℕ := fs.allocInodeFrom preferGroup fs.groupCount

/-! ## What is where -/

/-- The sector with the descriptor of a group. -/
def descSector (group : ℕ) : ℕ :=
  fs.descBlock group * fs.sectorsPerBlock + fs.descOffset group / sectorSize

/-- A sector holds the descriptors it is to hold. -/
def SectorOk (x : ℕ) (data : Buf) : Prop :=
  ∀ g < fs.groupCount, fs.descSector g = x →
    bgInodeBitmap (fromOffset data (fs.descOffset g % sectorSize)) = fs.inodeBitmap g ∧
    bgInodeTable (fromOffset data (fs.descOffset g % sectorSize)) = fs.inodeTable g

instance (x : ℕ) (data : Buf) : Decidable (fs.SectorOk x data) :=
  inferInstanceAs (Decidable (∀ g < fs.groupCount, _ → _))

/-- A bit of the bitmap of a group on the disk. -/
def inodeBit (s : Sectors) (group i : ℕ) : Bool :=
  bitAt (s.sector (fs.inodeBitmap group * fs.sectorsPerBlock + i / 8 / sectorSize))
    (i % (8 * sectorSize))

end Ext2

/-! ## Creation of files -/

/-- A call of `allocInode` which is suspended, and the sector it is suspended on. -/
structure Suspended where
  pid : ℕ
  sector : ℕ
  rest : Buf → DiskProg ℕ

/-- The disk, the calls which are suspended, and the inodes which calls have returned. -/
structure Creation where
  disk : Sectors
  calls : List Suspended
  returned : List ℕ

/-- What happens next. -/
inductive CreationEvent
  /-- A process calls `allocInode`. -/
  | alloc (pid preferGroup : ℕ)
  /-- A process which was suspended goes on. -/
  | resume (pid : ℕ)
  /-- Something else is written. -/
  | other (sector : ℕ) (data : Buf)
  /-- A sector is evicted from the cache. -/
  | evict (sector : ℕ)

namespace Creation

variable (fs : Ext2) (c : Creation)

/-- A call is suspended, or has returned an inode, or `0`. -/
def after (pid : ℕ) (r : Sectors × DiskProg ℕ) : Creation :=
  match r.2 with
  | .ret 0 => { c with disk := r.1 }
  | .ret num => { c with disk := r.1, returned := num :: c.returned }
  | .read x k => { c with disk := r.1, calls := ⟨pid, x, k⟩ :: c.calls }
  | .act _ _ => c

/-- What else is written is not in the bitmaps of inodes, and does not move them. -/
def Other (x : ℕ) (data : Buf) : Prop :=
  (∀ g < fs.groupCount, x / fs.sectorsPerBlock ≠ fs.inodeBitmap g) ∧ fs.SectorOk x data

instance (x : ℕ) (data : Buf) : Decidable (Other fs x data) :=
  inferInstanceAs (Decidable (_ ∧ _))

/-- One step. -/
def step : CreationEvent → Option (Creation × Unit)
  | .alloc pid preferGroup =>
    if pid ∈ c.calls.map Suspended.pid then none
    else some (c.after pid ((fs.allocInode preferGroup).run diskDevice c.disk), ())
  | .resume pid =>
    (c.calls.find? fun t => t.pid = pid).map fun t =>
      ({ c with calls := c.calls.filter fun t => t.pid ≠ pid }.after pid
        (Prog.resume diskDevice t.sector t.rest c.disk), ())
  | .other x data => if Other fs x data then some ({ c with disk := c.disk.write x data }, ()) else none
  | .evict x => some ({ c with disk := { c.disk with cached := update c.disk.cached x false } }, ())

/-- Nobody has called `allocInode` yet. -/
def start (disk : Sectors) : Creation := ⟨disk, [], []⟩

end Creation

end HobbyOS
