import Mathlib.Data.List.Nodup
import Xv6.Lib.Writes
import Xv6.Param

/-!
# What `commit()` and `recover_from_log()` write

The part of `log.c` that moves blocks: `write_log`, `write_head`, `install_trans`,
`read_head` and the two functions made of them. What they see of a block is what
`bread` returns, the cached contents if the block is cached and the disk's
otherwise; what they do to the disk is a list of single-block writes, in the order
in which `bwrite` issues them. A machine that stops in the middle has done a
prefix of that list, and starts again with nothing but the disk.

The contents of the header block are a `struct logheader`: the count `n` at
offset 0, then the block numbers. `n` is a signed integer, and a negative count
makes the loops over the header do nothing.
-/

namespace Xv6.Redo

open Lib

/-- The memory of the log: where it starts, the header, the contents `bread`
returns, and the block writes issued so far. -/
structure Mem where
  /-- `log.start`, the block number of the header on disk. -/
  start : ℕ
  /-- The entries of the header in memory. -/
  lh : List UInt32
  /-- What `bread` returns. -/
  buf : ℕ → Block
  /-- The writes issued, in order. -/
  out : List (ℕ × Block)

/-- `bwrite`: issue the write of a block with the contents of its buffer. -/
def Mem.bwrite (m : Mem) (b : ℕ) : Mem := { m with out := m.out ++ [(b, m.buf b)] }

/-- `memmove(to->data, from->data, BSIZE)` between the buffers of two blocks. -/
def Mem.memmove (m : Mem) (dst src : ℕ) : Mem :=
  { m with buf := Function.update m.buf dst (m.buf src) }

/-- The entry `tail` of the header in memory. -/
def Mem.block (m : Mem) (tail : ℕ) : ℕ := (m.lh.getD tail 0).toNat

/-- Copy modified blocks from cache to log. -/
def writeLog (m : Mem) : Mem :=
  (List.range m.lh.length).foldl
    (fun m tail => (m.memmove (m.start + tail + 1) (m.block tail)).bwrite (m.start + tail + 1)) m

/-- Copy committed blocks from log to their home location. -/
def installTrans (m : Mem) : Mem :=
  (List.range m.lh.length).foldl
    (fun m tail => (m.memmove (m.block tail) (m.start + tail + 1)).bwrite (m.block tail)) m

/-- Store a header into a block: the count, then the entries. -/
def putHeader (b : Block) (lh : List UInt32) : Block :=
  (List.range lh.length).foldl (fun b i => b.set32 (4 + 4 * i) (lh.getD i 0))
    (b.set32 0 (UInt32.ofNat lh.length))

/-- The count of the header stored in a block, as the loops over it see it. -/
def headerCount (b : Block) : ℕ :=
  -- `n` is an `int`: from 2 ^ 31 on the field is a negative number
  if (b.get32 0).toNat < 2 ^ 31 then (b.get32 0).toNat else 0

/-- The entries of the header stored in a block. -/
def getHeader (b : Block) : List UInt32 :=
  (List.range (headerCount b)).map fun i => b.get32 (4 + 4 * i)

/-- Read the log header from disk into the in-memory log header. -/
def readHead (m : Mem) : Mem := { m with lh := getHeader (m.buf m.start) }

/-- Write in-memory log header to disk. -/
def writeHead (m : Mem) : Mem :=
  { m with buf := Function.update m.buf m.start (putHeader (m.buf m.start) m.lh) }.bwrite m.start

/-- Write the transaction of the header to the log, commit it, install it and
erase it. -/
def commit (m : Mem) : Mem :=
  if 0 < m.lh.length then
    let m := installTrans (writeHead (writeLog m))
    writeHead { m with lh := [] }
  else m

/-- Install the transaction the header on disk names, if any, and erase it. -/
def recoverFromLog (m : Mem) : Mem :=
  let m := installTrans (readHead m)
  writeHead { m with lh := [] }

/-- The writes `commit()` issues, for a header and the contents `bread`
returns. -/
def commitWrites (start : ℕ) (lh : List UInt32) (buf : ℕ → Block) : List (ℕ × Block) :=
  (commit ⟨start, lh, buf, []⟩).out

/-- The writes `recover_from_log()` issues on a disk, at boot, when nothing is
cached. -/
def recoverWrites (start : ℕ) (d : ℕ → Block) : List (ℕ × Block) :=
  (recoverFromLog ⟨start, [], d, []⟩).out

/-- The disk after a recovery that completes. -/
def recover (start : ℕ) (d : ℕ → Block) : ℕ → Block := applyWrites d (recoverWrites start d)

/-- The disk after a recovery that is stopped after `j` of its writes. -/
def recoverCrash (start : ℕ) (d : ℕ → Block) (j : ℕ) : ℕ → Block :=
  applyWrites d ((recoverWrites start d).take j)

end Xv6.Redo
