import Xv6.Fs.Name
import Xv6.Fs.Op

/-!
# Inodes, directories and paths

The functions of `fs.c` from `ialloc` to `nameiparent` as programs over the
operations of `Xv6.Fs.Op`. They follow the source line by line; `p` is the process
that runs them, what the source calls `myproc()`. A function that may return a null
pointer returns an `Option`, and so does one that returns `-1`.

A loop over the entries of a directory runs once for each multiple of the size of
an entry that is below the size of the directory, which does not change as the
directory is locked.
-/

namespace Xv6.Fs

open Lib

variable {Pid : Type}

/-! ### Inodes -/

/-- The loop of `ialloc`: `n` inodes are left, from `inum` on. -/
def iallocLoop (dev : UInt32) (type : Int16) : ℕ → UInt32 → FsM Pid Slot
  | 0, _ => panic "ialloc: no inodes"
  | n + 1, inum => do
    let free : Bool ← (Op.ialloc inum type).perform
    if free then
      (Op.iget dev inum).perform
    else
      iallocLoop dev type n (inum + 1)

def ialloc (dev : UInt32) (type : Int16) : FsM Pid Slot := do
  let ninodes : UInt32 ← Op.ninodes.perform
  iallocLoop dev type (ninodes.toNat - 1) 1

/-- The part of `ilock` that reads the inode from disk if necessary. -/
def iload (ip : Slot) : FsM Pid Unit := do
  let valid : Bool ← (Op.valid ip).perform
  if valid = true then
    return
  else
    (Op.load ip).perform
    let d : Fields ← (Op.fields ip).perform
    panicIf (d.type = 0) "ilock: no type"

def ilock (p : Pid) (ip : Slot) : FsM Pid Unit := do
  let ref : ℤ ← (Op.ref ip).perform
  panicIf (ref < 1) "ilock"
  (Op.acquiresleep p ip).perform
  iload ip

def iunlock (p : Pid) (ip : Slot) : FsM Pid Unit := do
  let holding : Bool ← (Op.holdingsleep p ip).perform
  panicIf (holding = false) "iunlock"
  let ref : ℤ ← (Op.ref ip).perform
  panicIf (ref < 1) "iunlock"
  (Op.releasesleep ip).perform

/-- Truncate and free an inode that has no links and no other references. -/
def ifree (ip : Slot) : FsM Pid Unit := do
  (Op.itrunc ip).perform
  (Op.setType ip 0).perform
  (Op.iupdate ip).perform
  (Op.invalidate ip).perform

/-- The part of `iput` that frees the inode, if this was the last reference and it
has no links. -/
def iputFree (ip : Slot) : FsM Pid Unit := do
  let valid : Bool ← (Op.valid ip).perform
  if valid = true then
    let d : Fields ← (Op.fields ip).perform
    if d.nlink = 0 then
      let r : ℤ ← (Op.ref ip).perform
      if r = 1 then ifree ip else return
    else
      return
  else
    return

def iput (p : Pid) (ip : Slot) : FsM Pid Unit := do
  (Op.acquiresleep p ip).perform
  iputFree ip
  (Op.releasesleep ip).perform
  (Op.decref ip).perform

def iunlockput (p : Pid) (ip : Slot) : FsM Pid Unit := do
  iunlock p ip
  iput p ip

/-- Add to the number of links of an inode: `ip->nlink += k; iupdate(ip)`. -/
def addNlink (ip : Slot) (k : Int16) : FsM Pid Unit := do
  let d : Fields ← (Op.fields ip).perform
  (Op.setNlink ip (d.nlink + k)).perform
  (Op.iupdate ip).perform

/-- The `read` and `write` entries of `devsw`: the console is the only device. -/
def isConsole (d : Fields) : Bool := d.major = CONSOLE

def consoleread (p : Pid) (ip : Slot) (n : UInt32) : FsM Pid (Option Str) := do
  iunlock p ip
  let c : Option Str ← (Op.consoleread n).perform
  ilock p ip
  return c

def consolewrite (p : Pid) (ip : Slot) (src : Str) : FsM Pid (Option UInt32) := do
  iunlock p ip
  ilock p ip
  return some (UInt32.ofNat src.length)

def readi (p : Pid) (ip : Slot) (off n : UInt32) : FsM Pid (Option Str) := do
  let d : Fields ← (Op.fields ip).perform
  if d.type = T_DEV then
    if isConsole d then consoleread p ip n else return none
  else
    (Op.readi ip off n).perform

def writei (p : Pid) (ip : Slot) (off : UInt32) (src : Str) : FsM Pid (Option UInt32) := do
  let d : Fields ← (Op.fields ip).perform
  if d.type = T_DEV then
    if isConsole d then consolewrite p ip src else return none
  else
    (Op.writei ip off src).perform

/-! ### Directories -/

/-- How many entries a loop over a directory of this size goes through. -/
def nentries (size : UInt32) : ℕ := (size.toNat + 15) / 16

/-- Read the entry at an offset of a directory. -/
def readEntry (p : Pid) (dp : Slot) (off : UInt32) (msg : String) : FsM Pid Str := do
  match ← readi p dp off DESIZE with
  | some de => if de.length = DESIZE.toNat then return de else panic msg
  | none => panic msg

/-- The loop of `dirlookup`, with `n` entries left from `off` on. -/
def dirlookupLoop (p : Pid) (dp : Slot) (name : Str) :
    ℕ → UInt32 → FsM Pid (Option (Slot × UInt32))
  | 0, _ => return none
  | n + 1, off => do
    let de ← readEntry p dp off "dirlookup read"
    if deInum de ≠ 0 ∧ namecmp name (deName de) = 0 then
      let ids : UInt32 × UInt32 ← (Op.ids dp).perform
      let ip : Slot ← (Op.iget ids.1 (deInum de)).perform
      return some (ip, off)
    else
      dirlookupLoop p dp name n (off + DESIZE)

def dirlookup (p : Pid) (dp : Slot) (name : Str) : FsM Pid (Option (Slot × UInt32)) := do
  let d : Fields ← (Op.fields dp).perform
  panicIf (d.type ≠ T_DIR) "dirlookup not DIR"
  dirlookupLoop p dp name (nentries d.size) 0

/-- The loop of `dirlink` for an empty entry, with `n` entries left from `off`
on. -/
def emptyEntry (p : Pid) (dp : Slot) : ℕ → UInt32 → FsM Pid UInt32
  | 0, off => return off
  | n + 1, off => do
    let de ← readEntry p dp off "dirlink read"
    if deInum de = 0 then return off else emptyEntry p dp n (off + DESIZE)

/-- `dirlink`; whether it has added the entry. -/
def dirlink (p : Pid) (dp : Slot) (name : Str) (inum : UInt32) : FsM Pid Bool := do
  match ← dirlookup p dp name with
  | some (ip, _) => do
    iput p ip
    return false
  | none => do
    let d : Fields ← (Op.fields dp).perform
    let off ← emptyEntry p dp (nentries d.size) 0
    let n ← writei p dp off (dirent inum name)
    panicIf (n ≠ some DESIZE) "dirlink"
    return true

/-! ### Paths -/

/-- The loop of `namex` over the rest of the path, at inode `ip`. -/
def namexLoop (p : Pid) (nameiparent : Bool) :
    List (Str × Str) → Slot → Str → FsM Pid (Option (Slot × Str))
  | [], ip, name => do
    if nameiparent then
      iput p ip
      return none
    else
      return some (ip, name)
  | (name, path) :: rest, ip, _ => do
    ilock p ip
    let d : Fields ← (Op.fields ip).perform
    if d.type ≠ T_DIR then
      iunlockput p ip
      return none
    else if nameiparent ∧ path = [] then
      -- stop one level early
      iunlock p ip
      return some (ip, name)
    else
      match ← dirlookup p ip name with
      | none => do
        iunlockput p ip
        return none
      | some (next, _) => do
        iunlockput p ip
        namexLoop p nameiparent rest next name

/-- The inode at which the walk along a path starts. -/
def namexStart (p : Pid) (path : Str) : FsM Pid Slot := do
  if path.head? = some slash then
    (Op.iget ROOTDEV ROOTINO).perform
  else
    let cwd : Slot ← (Op.cwd p).perform
    (Op.idup cwd).perform
    return cwd

def namex (p : Pid) (path : Str) (nameiparent : Bool) : FsM Pid (Option (Slot × Str)) := do
  let ip ← namexStart p path
  namexLoop p nameiparent (elems path) ip []

def namei (p : Pid) (path : Str) : FsM Pid (Option Slot) := do
  return (← namex p path false).map (·.1)

def nameiparent (p : Pid) (path : Str) : FsM Pid (Option (Slot × Str)) :=
  namex p path true

end Xv6.Fs
