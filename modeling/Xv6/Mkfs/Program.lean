import Xv6.Blk.Map
import Xv6.Fs.Name

/-!
# mkfs

The program `mkfs`, which writes the first image of the file system. It runs on a
little-endian host, where `xshort` and `xint` are the identity. The image is a file
that is written and read by blocks: a block that has been written is there, and so are
all blocks before it, and reading past the end fails. Whenever the program ends other
than with `exit(0)` – because an assertion fails, or with `exit(1)` after a failed call
– the model panics.

A file on the host has a name, which is a C string, and its contents in the pieces that
the calls of `read` return, each of one byte up to the size of the buffer.

The state has in addition a record of what the program does: the inode numbers and
block numbers it has assigned, and the calls of `wsect` with the function that has made
them.
-/

namespace Xv6.Mkfs

open Lib Blk Fs

def NINODES : UInt32 := 200

def nbitmap : UInt32 := UInt32.ofNat (FSSIZE / (BSIZE * 8)) + 1

def ninodeblocks : UInt32 := NINODES / IPB + 1

def nlog : UInt32 := UInt32.ofNat LOGSIZE

/-- The number of blocks before the data blocks. -/
def nmeta : UInt32 := 2 + nlog + ninodeblocks + nbitmap

def fssize : UInt32 := UInt32.ofNat FSSIZE

/-- The superblock. -/
def sb : Superblock where
  size := fssize
  nblocks := fssize - nmeta
  ninodes := NINODES
  nlog := nlog
  logstart := 2
  inodestart := 2 + nlog
  bmapstart := 2 + nlog + ninodeblocks

/-- The functions that call `wsect`. -/
inductive Caller where
  | main
  | winode
  | balloc
  | iappend
  deriving DecidableEq

/-- The state of the program. -/
structure St where
  /-- The image. -/
  blk : Disk
  /-- How many blocks long the image is. -/
  length : ℕ
  freeinode : UInt32
  freeblock : UInt32
  /-- The inode numbers that have been assigned. -/
  inums : List UInt32
  /-- The block numbers that have been assigned. -/
  blocks : List UInt32
  /-- The calls of `wsect`. -/
  writes : List (Caller × UInt32)

/-- The operations of the program. -/
inductive Op where
  | panic (msg : String)
  | rsect (sec : UInt32)
  | wsect (who : Caller) (sec : UInt32) (b : Block)
  /-- `freeinode++`. -/
  | newInode
  /-- `freeblock++`. -/
  | newBlock
  /-- Read `freeblock`. -/
  | freeblock

@[reducible] def Op.Res : Op → Type
  | .panic _ => Empty
  | .rsect _ => Block
  | .wsect _ _ _ => Unit
  | _ => UInt32

abbrev MkfsM := Prog Op.Res

def Op.perform (o : Op) : MkfsM o.Res := Prog.perform o

/-- The block of the image at which `lseek` stops: its argument `sec * BSIZE` is an
`uint`. -/
def sector (sec : UInt32) : UInt32 := sec * UInt32.ofNat BSIZE / UInt32.ofNat BSIZE

namespace St

def wsect (s : St) (who : Caller) (sec : UInt32) (b : Block) : St where
  blk := Function.update s.blk (sector sec) b
  length := max s.length ((sector sec).toNat + 1)
  freeinode := s.freeinode
  freeblock := s.freeblock
  inums := s.inums
  blocks := s.blocks
  writes := (who, sec) :: s.writes

def newInode (s : St) : St :=
  { s with freeinode := s.freeinode + 1, inums := s.freeinode :: s.inums }

def newBlock (s : St) : St :=
  { s with freeblock := s.freeblock + 1, blocks := s.freeblock :: s.blocks }

/-- The state in which `mkfs` starts, with an empty image. -/
def init : St where
  blk := fun _ _ => 0
  length := 0
  freeinode := 1
  freeblock := nmeta
  inums := []
  blocks := []
  writes := []

end St

/-- What an operation does. -/
def handle : (o : Op) → St → Effect (o.Res × St)
  | .panic msg, _ => .panic msg
  | .rsect sec, s =>
    if (sector sec).toNat < s.length then .ok (s.blk (sector sec), s) else .panic "read"
  | .wsect who sec b, s => .ok ((), s.wsect who sec b)
  | .newInode, s => .ok (s.freeinode, s.newInode)
  | .newBlock, s => .ok (s.freeblock, s.newBlock)
  | .freeblock, s => .ok (s.freeblock, s)

/-- The program ends without success. -/
def panic {α : Type} (msg : String) : MkfsM α := .op (.panic msg) fun e => nomatch e

def assert (c : Prop) [Decidable c] : MkfsM Unit := if c then .ret () else panic "assert"

/-! ### Inodes -/

def winode (inum : UInt32) (d : Dinode) : MkfsM Unit := do
  let buf : Block ← (Op.rsect (IBLOCK sb inum)).perform
  (Op.wsect .winode (IBLOCK sb inum) (putDinode buf (inum.toNat % 8) d)).perform

def rinode (inum : UInt32) : MkfsM Dinode := do
  let buf : Block ← (Op.rsect (IBLOCK sb inum)).perform
  return getDinode buf (inum.toNat % 8)

def ialloc (type : Int16) : MkfsM UInt32 := do
  let inum : UInt32 ← Op.newInode.perform
  winode inum ⟨type, 0, 0, 1, 0, fun _ => 0⟩
  return inum

/-- The part of `iappend` that finds the block with the numbers. -/
def findIndirect (a : Addrs) : MkfsM Addrs := do
  if addr a NDIRECT = 0 then
    let x : UInt32 ← Op.newBlock.perform
    return setAddr a NDIRECT x
  else
    return a

/-- The part of `iappend` that finds the block with index `fbn`. -/
def findBlock (a : Addrs) (fbn : ℕ) : MkfsM (Addrs × UInt32) := do
  if fbn < NDIRECT then
    if addr a fbn = 0 then
      let x : UInt32 ← Op.newBlock.perform
      return (setAddr a fbn x, x)
    else
      return (a, addr a fbn)
  else
    let a ← findIndirect a
    let indirect : Block ← (Op.rsect (addr a NDIRECT)).perform
    if indirect.get32 (4 * (fbn - NDIRECT)) = 0 then
      let x : UInt32 ← Op.newBlock.perform
      (Op.wsect .iappend (addr a NDIRECT) (indirect.set32 (4 * (fbn - NDIRECT)) x)).perform
      return (a, x)
    else
      return (a, indirect.get32 (4 * (fbn - NDIRECT)))

/-- The loop of `iappend`, with the bytes `p` left to append at `off`; `n` bounds the
number of rounds. It returns the block numbers and the offset. -/
def iappendLoop : ℕ → Addrs → ℕ → Str → MkfsM (Addrs × ℕ)
  | 0, a, off, _ => return (a, off)
  | n + 1, a, off, p => do
    if p = [] then
      return (a, off)
    else
      let fbn := off / BSIZE
      assert (fbn < MAXFILE)
      let (a, x) ← findBlock a fbn
      let n1 := min p.length ((fbn + 1) * BSIZE - off)
      let buf : Block ← (Op.rsect x).perform
      (Op.wsect .iappend x (buf.patch (off - fbn * BSIZE) n1 fun k => p.getD k 0)).perform
      iappendLoop n a (off + n1) (p.drop n1)

def iappend (inum : UInt32) (p : Str) : MkfsM Unit := do
  let din ← rinode inum
  let (a, off) ← iappendLoop p.length din.addrs din.size.toNat p
  winode inum (din.resize (UInt32.ofNat off) a)

/-! ### The program -/

/-- The bitmap in which the first `used` blocks are marked. -/
def bitmap (used : ℕ) : Block := (List.range used).foldl setBit fun _ => 0

def balloc (used : UInt32) : MkfsM Unit := do
  assert (used.toNat < BSIZE * 8)
  (Op.wsect .balloc sb.bmapstart (bitmap used.toNat)).perform

/-- A file on the host. -/
structure HostFile where
  name : Str
  name_ne : ∀ c ∈ name, c ≠ 0
  /-- What the calls of `read` return, if the file can be opened. -/
  chunks : Option (List Str)
  chunks_ne : ∀ cs, chunks = some cs → ∀ c ∈ cs, c ≠ [] ∧ c.length ≤ BSIZE

/-- The name under which a file is stored: `mkfs` skips a leading `_`. -/
def HostFile.stored (f : HostFile) : Str := if f.name.head? = some 95 then f.name.tail else f.name

/-- Append the pieces of a file. -/
def appendAll (inum : UInt32) : List Str → MkfsM Unit
  | [] => return
  | c :: cs => do
    iappend inum c
    appendAll inum cs

/-- The body of the loop over the files. -/
def addFile (rootino : UInt32) (f : HostFile) : MkfsM Unit := do
  assert (slash ∉ f.name)
  match f.chunks with
  | none => panic "open"
  | some cs => do
    let inum ← ialloc T_FILE
    iappend rootino (dirent inum f.stored)
    appendAll inum cs

def addFiles (rootino : UInt32) : List HostFile → MkfsM Unit
  | [] => return
  | f :: fs => do
    addFile rootino f
    addFiles rootino fs

/-- Write zeros to `n` blocks, from `i` on. -/
def zeroBlocks : ℕ → UInt32 → MkfsM Unit
  | 0, _ => return
  | n + 1, i => do
    (Op.wsect .main i fun _ => 0).perform
    zeroBlocks n (i + 1)

/-- Fix the size of the root directory. -/
def fixRoot (rootino : UInt32) : MkfsM Unit := do
  let din ← rinode rootino
  winode rootino (din.resize (UInt32.ofNat ((din.size.toNat / BSIZE + 1) * BSIZE)) din.addrs)

def main (files : List HostFile) : MkfsM Unit := do
  zeroBlocks FSSIZE 0
  (Op.wsect .main 1 sb.encode).perform
  let rootino ← ialloc T_DIR
  assert (rootino = ROOTINO)
  iappend rootino (dirent rootino dot)
  iappend rootino (dirent rootino dotdot)
  addFiles rootino files
  fixRoot rootino
  let used : UInt32 ← Op.freeblock.perform
  balloc used

end Xv6.Mkfs
