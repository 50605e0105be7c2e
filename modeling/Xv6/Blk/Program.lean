import Xv6.Blk.Map
import Xv6.Fs.State

/-!
# Blocks and inodes

The functions of `fs.c` that work on the blocks of the disk, from `bzero` to `writei`.
They get at the blocks through the buffer cache, with `bread`, and change them through
the log, with `log_write`. What they see is the disk as it will be when the transaction
is committed; the log itself keeps the numbers of the blocks of the transaction.

The driver stops the system when it is asked for a block that is not on the disk, and
`log_write` when the log is full or no transaction is open.
-/

namespace Xv6.Blk

open Lib Fs

/-- The disk, seen through the buffer cache and the log. -/
structure Dev where
  blk : Disk
  /-- The superblock in memory. -/
  sb : Superblock
  /-- `log.lh`: the blocks that the transaction has written. -/
  logged : List UInt32
  /-- `log.outstanding`. -/
  outstanding : ℤ
  /-- The number of blocks that the driver can get at: `FSSIZE` in `ide.c`, and `disksize` in
  `memide.c`. -/
  disksize : ℕ

inductive DevOp where
  | panic (msg : String)
  | bread (b : UInt32)
  /-- `log_write`, after the block has been changed. -/
  | logWrite (b : UInt32) (v : Block)
  /-- Read `sb`. -/
  | sb

@[reducible] def DevOp.Res : DevOp → Type
  | .panic _ => Empty
  | .bread _ => Block
  | .sb => Superblock
  | _ => Unit

abbrev DevM := Prog DevOp.Res

def DevOp.perform (o : DevOp) : DevM o.Res := Prog.perform o

/-- The transaction has no room for another block. -/
def Dev.LogFull (s : Dev) : Prop :=
  LOGSIZE ≤ s.logged.length ∨ s.sb.nlog.toNat ≤ s.logged.length + 1

instance (s : Dev) : Decidable s.LogFull := inferInstanceAs (Decidable (_ ∨ _))

/-- A block is written. -/
def Dev.put (s : Dev) (b : UInt32) (v : Block) : Dev where
  blk := Function.update s.blk b v
  sb := s.sb
  logged := if b ∈ s.logged then s.logged else s.logged ++ [b]
  outstanding := s.outstanding
  disksize := s.disksize

/-- What an operation does. -/
def DevOp.handle : (o : DevOp) → Dev → Effect (o.Res × Dev)
  | .panic msg, _ => .panic msg
  | .bread b, s => if s.disksize ≤ b.toNat then .panic "incorrect blockno" else .ok (s.blk b, s)
  | .logWrite b v, s =>
    if s.LogFull then .panic "too big a transaction"
    else if s.outstanding < 1 then .panic "log_write outside of trans"
    else .ok ((), s.put b v)
  | .sb, s => .ok (s.sb, s)

def stop {α : Type} (msg : String) : DevM α := .op (.panic msg) fun e => nomatch e

/-! ### Blocks -/

def bzero (bno : UInt32) : DevM Unit := do
  let _bp : Block ← (DevOp.bread bno).perform
  (DevOp.logWrite bno fun _ => 0).perform

/-- The inner loop of `balloc`: the first of `n` bits that is not set. -/
def freeBit (b : Block) (n : ℕ) : Option ℕ := (List.range n).find? fun bi => isSet b bi = false

/-- What `balloc` does with a block that is free. -/
def ballocTake (bblock : UInt32) (bp : Block) (b : UInt32) (bi : ℕ) : DevM UInt32 := do
  (DevOp.logWrite bblock (setBit bp bi)).perform
  bzero (b + UInt32.ofNat bi)
  return b + UInt32.ofNat bi

/-- The outer loop of `balloc`, from `b` on; `n` bounds the number of rounds. -/
def ballocLoop : ℕ → UInt32 → DevM UInt32
  | 0, _ => stop "balloc: out of blocks"
  | n + 1, b => do
    let sb : Superblock ← DevOp.sb.perform
    if b < sb.size then
      let bp : Block ← (DevOp.bread (BBLOCK sb b)).perform
      match freeBit bp (min BPB.toNat (sb.size.toNat - b.toNat)) with
      | some bi => ballocTake (BBLOCK sb b) bp b bi
      | none => ballocLoop n (b + BPB)
    else
      stop "balloc: out of blocks"

def balloc : DevM UInt32 := do
  let sb : Superblock ← DevOp.sb.perform
  ballocLoop (sb.size.toNat / BPB.toNat + 1) 0

/-! ### Inodes -/

def iupdate (inum : UInt32) (d : Dinode) : DevM Unit := do
  let sb : Superblock ← DevOp.sb.perform
  let bp : Block ← (DevOp.bread (IBLOCK sb inum)).perform
  (DevOp.logWrite (IBLOCK sb inum) (putDinode bp (inum.toNat % 8) d)).perform

/-- The part of `bmap` that finds the block with the numbers. -/
def bmapIndirect (a : Addrs) : DevM Addrs := do
  if addr a NDIRECT = 0 then
    let x ← balloc
    return setAddr a NDIRECT x
  else
    return a

/-- `bmap`, for an inode with block numbers `a`: the block numbers it leaves, and its
result. -/
def bmap (a : Addrs) (bn : ℕ) : DevM (Addrs × UInt32) := do
  if bn < NDIRECT then
    if addr a bn = 0 then
      let x ← balloc
      return (setAddr a bn x, x)
    else
      return (a, addr a bn)
  else if bn - NDIRECT < NINDIRECT then
    let a ← bmapIndirect a
    let bp : Block ← (DevOp.bread (addr a NDIRECT)).perform
    if bp.get32 (4 * (bn - NDIRECT)) = 0 then
      let x ← balloc
      (DevOp.logWrite (addr a NDIRECT) (bp.set32 (4 * (bn - NDIRECT)) x)).perform
      return (a, x)
    else
      return (a, bp.get32 (4 * (bn - NDIRECT)))
  else
    stop "bmap: out of range"

/-! ### Contents -/

/-- The loop of `readi`, with `n` bytes left to read at `off`; the first argument bounds
the number of rounds. -/
def readLoop : ℕ → Addrs → ℕ → ℕ → DevM (Addrs × Str)
  | 0, a, _, _ => return (a, [])
  | k + 1, a, off, n => do
    if n = 0 then
      return (a, [])
    else
      let (a, x) ← bmap a (off / BSIZE)
      let bp : Block ← (DevOp.bread x).perform
      let m := min n (BSIZE - off % BSIZE)
      let (a, rest) ← readLoop k a (off + m) (n - m)
      return (a, (List.range m).map (fun i => bp.byte (off % BSIZE + i)) ++ rest)

/-- `readi`, for an inode that is not a device; it returns the inode in memory as
well. -/
def readi (d : Dinode) (off n : UInt32) : DevM (Option Str × Dinode) :=
  match readiLen d.size off n with
  | none => return (none, d)
  | some m => do
    let (a, bs) ← readLoop m.toNat d.addrs off.toNat m.toNat
    return (some bs, d.resize d.size a)

/-- The loop of `writei`, with the bytes `src` left to write at `off`; the first argument
bounds the number of rounds. -/
def writeLoop : ℕ → Addrs → ℕ → Str → DevM Addrs
  | 0, a, _, _ => return a
  | k + 1, a, off, src => do
    if src = [] then
      return a
    else
      let (a, x) ← bmap a (off / BSIZE)
      let bp : Block ← (DevOp.bread x).perform
      let m := min src.length (BSIZE - off % BSIZE)
      (DevOp.logWrite x (bp.patch (off % BSIZE) m fun i => src.getD i 0)).perform
      writeLoop k a (off + m) (src.drop m)

/-- The end of `writei`. -/
def grow (inum : UInt32) (d : Dinode) (a : Addrs) (n size : UInt32) :
    DevM (Option UInt32 × Dinode) := do
  if 0 < n ∧ d.size < size then
    iupdate inum (d.resize size a)
    return (some n, d.resize size a)
  else
    return (some n, d.resize d.size a)

/-- `writei`, for an inode that is not a device. -/
def writei (inum : UInt32) (d : Dinode) (off : UInt32) (src : Str) :
    DevM (Option UInt32 × Dinode) := do
  if writeiOk d.size off (UInt32.ofNat src.length) then
    let a ← writeLoop src.length d.addrs off.toNat src
    grow inum d a (UInt32.ofNat src.length) (off + UInt32.ofNat src.length)
  else
    return (none, d)

end Xv6.Blk
