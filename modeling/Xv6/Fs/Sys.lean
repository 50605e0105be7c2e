import Xv6.Fs.Inode

/-!
# The system calls

The system calls of `sysfile.c`, with the functions of `file.c` and `pipe.c` that
open and close files, the part of `exec` that reads the executable, and the parts of
`fork` and `exit` that are about open files and working directories. A call gets
its arguments as they are after `argint`, `argptr` and `argstr`; it answers an
`Option`, where `none` is the result `-1`, or nothing.

Whether `exec` finds the memory it needs is not decided here: `Xv6.Fs.Vm` says what
`setupkvm` and `allocuvm` return.
-/

namespace Xv6.Fs

open Lib

variable {Pid : Type}

/-! ### Open files -/

/-- The loop of `fdalloc` over the descriptors that are left. -/
def fdallocLoop (p : Pid) (f : FileId) : List Fd → FsM Pid (Option Fd)
  | [] => return none
  | fd :: fds => do
    let g : Option FileId ← (Op.ofile p fd).perform
    if g = none then
      (Op.setOfile p fd (some f)).perform
      return some fd
    else
      fdallocLoop p f fds

def fdalloc (p : Pid) (f : FileId) : FsM Pid (Option Fd) :=
  fdallocLoop p f (List.finRange NOFILE)

/-- The part of `fileclose` after the critical section. -/
def fileput (p : Pid) (ff : File) : FsM Pid Unit := do
  if ff.type = .pipe then
    (Op.pipeclose ff.pipe ff.writable).perform
  else if ff.type = .inode then
    Op.beginOp.perform
    iput p ff.ip
    Op.endOp.perform
  else
    return

def fileclose (p : Pid) (f : FileId) : FsM Pid Unit := do
  let ff : Option File ← (Op.fileclose f).perform
  match ff with
  | none => return
  | some ff => fileput p ff

/-- `if(r > 0) f->off += r`. -/
def advance (f : FileId) (off r : UInt32) : FsM Pid Unit :=
  onlyIf (0 < r) (Op.setOff f (off + r)).perform

def fileread (p : Pid) (f : FileId) (n : UInt32) : FsM Pid (Option Str) := do
  let file : File ← (Op.file f).perform
  if file.readable = false then
    return none
  else if file.type = .inode then
    ilock p file.ip
    let locked : File ← (Op.file f).perform
    let r ← readi p file.ip locked.off n
    advance f locked.off (UInt32.ofNat (r.getD []).length)
    iunlock p file.ip
    return r
  else if file.type = .pipe then
    return none
  else
    panic "fileread"

def filestat (p : Pid) (f : FileId) : FsM Pid (Option Fields) := do
  let file : File ← (Op.file f).perform
  if file.type = .inode then
    ilock p file.ip
    let d : Fields ← (Op.fields file.ip).perform
    iunlock p file.ip
    return some d
  else
    return none

/-- The most bytes `filewrite` writes in one transaction. -/
def filewriteMax : ℕ := ((MAXOPBLOCKS - 1 - 1 - 2) / 2) * 512

/-- The loop of `filewrite`, with `src` left to write; `n` bounds the number of
rounds. -/
def filewriteLoop (p : Pid) (f : FileId) (ip : Slot) : ℕ → Str → FsM Pid Bool
  | 0, src => return src = []
  | n + 1, src => do
    if src = [] then
      return true
    else
      let src1 := src.take filewriteMax
      Op.beginOp.perform
      ilock p ip
      let file : File ← (Op.file f).perform
      let r ← writei p ip file.off src1
      advance f file.off (r.getD 0)
      iunlock p ip
      Op.endOp.perform
      match r with
      | none => return false
      | some m => do
        panicIf (m.toNat ≠ src1.length) "short filewrite"
        filewriteLoop p f ip n (src.drop filewriteMax)

def filewrite (p : Pid) (f : FileId) (src : Str) : FsM Pid (Option UInt32) := do
  let file : File ← (Op.file f).perform
  if file.writable = false then
    return none
  else if file.type = .inode then
    let all ← filewriteLoop p f file.ip src.length src
    return if all then some (UInt32.ofNat src.length) else none
  else if file.type = .pipe then
    return none
  else
    panic "filewrite"

/-! ### Names -/

/-- The part of `sys_link` after `bad`. -/
def linkBad (p : Pid) (ip : Slot) : FsM Pid (Option Unit) := do
  ilock p ip
  addNlink ip (-1)
  iunlockput p ip
  Op.endOp.perform
  return none

/-- The condition in `sys_link` that enters the inode into the directory. -/
def linkEntry (p : Pid) (dp : Slot) (name : Str) (dids ids : UInt32 × UInt32) : FsM Pid Bool :=
  if dids.1 ≠ ids.1 then .ret false else dirlink p dp name ids.2

/-- The part of `sys_link` that enters the inode into the directory `dp`. -/
def linkInto (p : Pid) (ip dp : Slot) (name : Str) : FsM Pid (Option Unit) := do
  ilock p dp
  let dids : UInt32 × UInt32 ← (Op.ids dp).perform
  let ids : UInt32 × UInt32 ← (Op.ids ip).perform
  let linked ← linkEntry p dp name dids ids
  if linked = false then
    iunlockput p dp
    linkBad p ip
  else
    iunlockput p dp
    iput p ip
    Op.endOp.perform
    return some ()

def sysLink (p : Pid) (old new : Str) : FsM Pid (Option Unit) := do
  Op.beginOp.perform
  match ← namei p old with
  | none => do
    Op.endOp.perform
    return none
  | some ip => do
    ilock p ip
    let d : Fields ← (Op.fields ip).perform
    if d.type = T_DIR then
      iunlockput p ip
      Op.endOp.perform
      return none
    else
      addNlink ip 1
      iunlock p ip
      match ← nameiparent p new with
      | none => linkBad p ip
      | some (dp, name) => linkInto p ip dp name

/-- The loop of `isdirempty`, with `n` entries left from `off` on. -/
def isdiremptyLoop (p : Pid) (dp : Slot) : ℕ → UInt32 → FsM Pid Bool
  | 0, _ => return true
  | n + 1, off => do
    let de ← readEntry p dp off "isdirempty: readi"
    if deInum de ≠ 0 then return false else isdiremptyLoop p dp n (off + DESIZE)

def isdirempty (p : Pid) (dp : Slot) : FsM Pid Bool := do
  let d : Fields ← (Op.fields dp).perform
  isdiremptyLoop p dp (nentries d.size - 2) (2 * DESIZE)

/-- The condition of `sys_unlink` on the inode. -/
def unlinkable (p : Pid) (ip : Slot) (type : Int16) : FsM Pid Bool :=
  if type = T_DIR then isdirempty p ip else .ret true

/-- The part of `sys_unlink` after `bad`. -/
def unlinkBad (p : Pid) (dp : Slot) : FsM Pid (Option Unit) := do
  iunlockput p dp
  Op.endOp.perform
  return none

/-- The part of `sys_unlink` that removes the entry at `off` of `dp` for the inode
`ip`. -/
def unlinkEntry (p : Pid) (dp ip : Slot) (off : UInt32) : FsM Pid (Option Unit) := do
  let n ← writei p dp off emptyDirent
  panicIf (n ≠ some DESIZE) "unlink: writei"
  let d : Fields ← (Op.fields ip).perform
  onlyIf (d.type = T_DIR) (addNlink dp (-1))
  iunlockput p dp
  addNlink ip (-1)
  iunlockput p ip
  Op.endOp.perform
  return some ()

def sysUnlink (p : Pid) (path : Str) : FsM Pid (Option Unit) := do
  Op.beginOp.perform
  match ← nameiparent p path with
  | none => do
    Op.endOp.perform
    return none
  | some (dp, name) => do
    ilock p dp
    if namecmp name dot = 0 ∨ namecmp name dotdot = 0 then
      unlinkBad p dp
    else
      match ← dirlookup p dp name with
      | none => unlinkBad p dp
      | some (ip, off) => do
        ilock p ip
        let d : Fields ← (Op.fields ip).perform
        panicIf (d.nlink < 1) "unlink: nlink < 1"
        let empty ← unlinkable p ip d.type
        if empty = false then
          iunlockput p ip
          unlinkBad p dp
        else
          unlinkEntry p dp ip off

/-- The part of `create` for a new directory: create the entries `.` and `..`. -/
def createDots (p : Pid) (dp ip : Slot) (dinum inum : UInt32) : FsM Pid Unit := do
  addNlink dp 1
  let dotted ← dirlink p ip dot inum
  panicIf (dotted = false) "create dots"
  let dotted ← dirlink p ip dotdot dinum
  panicIf (dotted = false) "create dots"

/-- The part of `create` that fills in the new inode. -/
def createFill (ip : Slot) (major minor : Int16) : FsM Pid Unit := do
  (Op.setDev ip major minor).perform
  (Op.setNlink ip 1).perform
  (Op.iupdate ip).perform

/-- The part of `create` for a new inode in the directory `dp`. -/
def createNew (p : Pid) (dp : Slot) (name : Str) (type major minor : Int16) : FsM Pid Slot := do
  let dids : UInt32 × UInt32 ← (Op.ids dp).perform
  let ip ← ialloc dids.1 type
  ilock p ip
  createFill ip major minor
  let ids : UInt32 × UInt32 ← (Op.ids ip).perform
  onlyIf (type = T_DIR) (createDots p dp ip dids.2 ids.2)
  let linked ← dirlink p dp name ids.2
  panicIf (linked = false) "create: dirlink"
  iunlockput p dp
  return ip

/-- `create`: the inode it returns is locked. -/
def create (p : Pid) (path : Str) (type major minor : Int16) : FsM Pid (Option Slot) := do
  match ← nameiparent p path with
  | none => return none
  | some (dp, name) => do
    ilock p dp
    match ← dirlookup p dp name with
    | some (ip, _) => do
      iunlockput p dp
      ilock p ip
      let d : Fields ← (Op.fields ip).perform
      if type = T_FILE ∧ d.type = T_FILE then
        return some ip
      else
        iunlockput p ip
        return none
    | none => do
      let ip ← createNew p dp name type major minor
      return some ip

/-- The part of `sys_open` that finds the inode, and locks it. -/
def openInode (p : Pid) (path : Str) (omode : UInt32) : FsM Pid (Option Slot) := do
  if omode &&& O_CREATE ≠ 0 then
    create p path T_FILE 0 0
  else
    match ← namei p path with
    | none => return none
    | some ip => do
      ilock p ip
      let d : Fields ← (Op.fields ip).perform
      if d.type = T_DIR ∧ omode ≠ O_RDONLY then
        iunlockput p ip
        return none
      else
        return some ip

/-- `filealloc` and `fdalloc` as `sys_open` calls them. -/
def openFile (p : Pid) : FsM Pid (Option (FileId × Fd)) := do
  let f : Option FileId ← Op.filealloc.perform
  match f with
  | none => return none
  | some f => match ← fdalloc p f with
    | some fd => return some (f, fd)
    | none => do
      fileclose p f
      return none

def sysOpen (p : Pid) (path : Str) (omode : UInt32) : FsM Pid (Option Fd) := do
  Op.beginOp.perform
  match ← openInode p path omode with
  | none => do
    Op.endOp.perform
    return none
  | some ip => match ← openFile p with
    | none => do
      iunlockput p ip
      Op.endOp.perform
      return none
    | some (f, fd) => do
      iunlock p ip
      Op.endOp.perform
      (Op.setFile f ip (omode &&& O_WRONLY = 0)
        (omode &&& O_WRONLY ≠ 0 ∨ omode &&& O_RDWR ≠ 0)).perform
      return some fd

/-- `sys_mkdir` and `sys_mknod`. -/
def sysCreate (p : Pid) (path : Str) (type major minor : Int16) : FsM Pid (Option Unit) := do
  Op.beginOp.perform
  match ← create p path type major minor with
  | none => do
    Op.endOp.perform
    return none
  | some ip => do
    iunlockput p ip
    Op.endOp.perform
    return some ()

def sysMkdir (p : Pid) (path : Str) : FsM Pid (Option Unit) := sysCreate p path T_DIR 0 0

def sysMknod (p : Pid) (path : Str) (major minor : Int16) : FsM Pid (Option Unit) :=
  sysCreate p path T_DEV major minor

def sysChdir (p : Pid) (path : Str) : FsM Pid (Option Unit) := do
  Op.beginOp.perform
  match ← namei p path with
  | none => do
    Op.endOp.perform
    return none
  | some ip => do
    ilock p ip
    let d : Fields ← (Op.fields ip).perform
    if d.type ≠ T_DIR then
      iunlockput p ip
      Op.endOp.perform
      return none
    else
      iunlock p ip
      let cwd : Slot ← (Op.cwd p).perform
      iput p cwd
      Op.endOp.perform
      (Op.setCwd p (some ip)).perform
      return some ()

/-- `argfd`: what a system call does with the open file of a descriptor, which fails if
there is none. -/
def argfd {α : Type} (p : Pid) (fd : Fd) (k : FileId → FsM Pid (Option α)) :
    FsM Pid (Option α) := do
  let f : Option FileId ← (Op.ofile p fd).perform
  match f with
  | none => return none
  | some f => k f

def sysDup (p : Pid) (fd : Fd) : FsM Pid (Option Fd) :=
  argfd p fd fun f => do
    match ← fdalloc p f with
    | none => return none
    | some fd => do
      (Op.filedup f).perform
      return some fd

def sysFstat (p : Pid) (fd : Fd) : FsM Pid (Option Fields) := argfd p fd (filestat p)

def sysRead (p : Pid) (fd : Fd) (n : UInt32) : FsM Pid (Option Str) :=
  argfd p fd fun f => fileread p f n

def sysWrite (p : Pid) (fd : Fd) (src : Str) : FsM Pid (Option UInt32) :=
  argfd p fd fun f => filewrite p f src

def sysClose (p : Pid) (fd : Fd) : FsM Pid (Option Unit) :=
  argfd p fd fun f => do
    (Op.setOfile p fd none).perform
    fileclose p f
    return some ()

/-! ### Pipes -/

/-- `pipealloc`, with what `kalloc` returns. -/
def pipealloc (p : Pid) (page : Option PipeId) : FsM Pid (Option (FileId × FileId)) := do
  let f0 : Option FileId ← Op.filealloc.perform
  match f0 with
  | none => return none
  | some f0 => do
    let f1 : Option FileId ← Op.filealloc.perform
    match f1 with
    | none => do
      fileclose p f0
      return none
    | some f1 => match page with
      | none => do
        fileclose p f0
        fileclose p f1
        return none
      | some q => do
        (Op.pipeNew q).perform
        (Op.setPipe f0 q true false).perform
        (Op.setPipe f1 q false true).perform
        return some (f0, f1)

/-- `sys_pipe` closes both files again. -/
def pipeBad (p : Pid) (rf wf : FileId) : FsM Pid (Option (Fd × Fd)) := do
  fileclose p rf
  fileclose p wf
  return none

def sysPipe (p : Pid) (page : Option PipeId) : FsM Pid (Option (Fd × Fd)) := do
  match ← pipealloc p page with
  | none => return none
  | some (rf, wf) => match ← fdalloc p rf with
    | none => pipeBad p rf wf
    | some fd0 => match ← fdalloc p wf with
      | none => do
        (Op.setOfile p fd0 none).perform
        pipeBad p rf wf
      | some fd1 => return some (fd0, fd1)

/-! ### Processes -/

/-- What `setupkvm` and `allocuvm` return to `exec`: whether they succeed, the
latter for each program header. -/
structure Vm where
  setupkvm : Bool
  allocuvm : ℕ → Bool

/-- The 32-bit field at an offset of a header. -/
def field32 (s : Str) (off : ℕ) : UInt32 :=
  Bytes.le32 (s.getD off 0) (s.getD (off + 1) 0) (s.getD (off + 2) 0) (s.getD (off + 3) 0)

/-- The 16-bit field at an offset of a header. -/
def field16 (s : Str) (off : ℕ) : ℕ := (s.getD off 0).toNat + 256 * (s.getD (off + 1) 0).toNat

/-- The size of a page. -/
def PGSIZE : UInt32 := 4096

/-- `loaduvm`, with `n` pages left of `sz` bytes of the file from `offset` on. -/
def loaduvm (p : Pid) (ip : Slot) : ℕ → UInt32 → UInt32 → FsM Pid Bool
  | 0, _, _ => return true
  | n + 1, offset, sz => do
    let m := if sz < PGSIZE then sz else PGSIZE
    match ← readi p ip offset m with
    | none => return false
    | some s =>
      if s.length ≠ m.toNat then return false
      else loaduvm p ip n (offset + PGSIZE) (sz - PGSIZE)

/-- The loop of `exec` over the program headers, with `n` left from `off` on; the
current one is the `i`-th. -/
def execLoad (p : Pid) (ip : Slot) (vm : Vm) : ℕ → ℕ → UInt32 → FsM Pid Bool
  | 0, _, _ => return true
  | n + 1, i, off => do
    match ← readi p ip off 32 with
    | none => return false
    | some ph =>
      if ph.length ≠ 32 then return false
      else if field32 ph 0 ≠ 1 then execLoad p ip vm n (i + 1) (off + 32)
      else if field32 ph 20 < field32 ph 16 then return false
      else if field32 ph 8 + field32 ph 20 < field32 ph 8 then return false
      else if vm.allocuvm i = false then return false
      else if field32 ph 8 % PGSIZE ≠ 0 then return false
      else
        let npages := (field32 ph 16).toNat / 4096 + if (field32 ph 16) % PGSIZE = 0 then 0 else 1
        if ← loaduvm p ip npages (field32 ph 4) (field32 ph 16) then
          execLoad p ip vm n (i + 1) (off + 32)
        else
          return false

/-- The part of `exec` that reads the ELF header and loads the program. -/
def execImage (p : Pid) (ip : Slot) (vm : Vm) : FsM Pid Bool := do
  match ← readi p ip 0 52 with
  | none => return false
  | some elf =>
    if elf.length ≠ 52 then return false
    else if field32 elf 0 ≠ 0x464C457F then return false
    else if vm.setupkvm = false then return false
    else execLoad p ip vm (field16 elf 44) 0 (field32 elf 28)

/-- The part of `exec` up to the end of its transaction: whether the program has
been loaded. -/
def execFile (p : Pid) (path : Str) (vm : Vm) : FsM Pid Bool := do
  Op.beginOp.perform
  match ← namei p path with
  | none => do
    Op.endOp.perform
    return false
  | some ip => do
    ilock p ip
    let loaded ← execImage p ip vm
    iunlockput p ip
    Op.endOp.perform
    return loaded

/-- `fork` gives the child a file of the parent. -/
def forkFile (q : Pid) (fd : Fd) : Option FileId → FsM Pid Unit
  | none => return
  | some f => do
    (Op.filedup f).perform
    (Op.setOfile q fd (some f)).perform

/-- The loop of `fork` over the open files of the parent. -/
def forkFiles (p q : Pid) : List Fd → FsM Pid Unit
  | [] => return
  | fd :: fds => do
    let f : Option FileId ← (Op.ofile p fd).perform
    forkFile q fd f
    forkFiles p q fds

/-- The part of `fork` about files, with the process `allocproc` returns; there is
none when it fails, or when there is no memory for the process. -/
def fork (p : Pid) : Option Pid → FsM Pid Unit
  | none => return
  | some q => do
    (Op.allocproc q).perform
    forkFiles p q (List.finRange NOFILE)
    let cwd : Slot ← (Op.cwd p).perform
    (Op.idup cwd).perform
    (Op.setCwd q (some cwd)).perform

/-- `exit` closes a file. -/
def exitFile (p : Pid) (fd : Fd) : Option FileId → FsM Pid Unit
  | none => return
  | some f => do
    fileclose p f
    (Op.setOfile p fd none).perform

/-- The loop of `exit` over the open files. -/
def exitFiles (p : Pid) : List Fd → FsM Pid Unit
  | [] => return
  | fd :: fds => do
    let f : Option FileId ← (Op.ofile p fd).perform
    exitFile p fd f
    exitFiles p fds

/-- The part of `exit` about files. -/
def exit (p : Pid) : FsM Pid Unit := do
  exitFiles p (List.finRange NOFILE)
  Op.beginOp.perform
  let cwd : Slot ← (Op.cwd p).perform
  iput p cwd
  Op.endOp.perform
  (Op.setCwd p none).perform

/-! ### A call -/

/-- A system call and its arguments. -/
inductive Call (Pid : Type) where
  | open (path : Str) (omode : UInt32)
  | mkdir (path : Str)
  | mknod (path : Str) (major minor : Int16)
  | link (old new : Str)
  | unlink (path : Str)
  | chdir (path : Str)
  | dup (fd : Fd)
  | fstat (fd : Fd)
  | read (fd : Fd) (n : UInt32)
  | write (fd : Fd) (src : Str)
  | close (fd : Fd)
  | exec (path : Str) (vm : Vm)
  | pipe (page : Option PipeId)
  | fork (q : Option Pid)
  | wait
  | exit

/-- The program of a system call of process `p`; what it returns to the process is
left out. `wait` has nothing to do with files: the process it reaps has closed
them. -/
def Call.prog (p : Pid) : Call Pid → FsM Pid Unit
  | .open path omode => do let _ ← sysOpen p path omode
  | .mkdir path => do let _ ← sysMkdir p path
  | .mknod path major minor => do let _ ← sysMknod p path major minor
  | .link old new => do let _ ← sysLink p old new
  | .unlink path => do let _ ← sysUnlink p path
  | .chdir path => do let _ ← sysChdir p path
  | .dup fd => do let _ ← sysDup p fd
  | .fstat fd => do let _ ← sysFstat p fd
  | .read fd n => do let _ ← sysRead p fd n
  | .write fd src => do let _ ← sysWrite p fd src
  | .close fd => do let _ ← sysClose p fd
  | .exec path vm => do let _ ← execFile p path vm
  | .pipe page => do let _ ← sysPipe p page
  | .fork q => Fs.fork p q
  | .wait => return
  | .exit => Fs.exit p

end Xv6.Fs
