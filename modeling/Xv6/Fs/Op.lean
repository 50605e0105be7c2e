import Xv6.Inode.Cache
import Xv6.Lib.Prog

/-!
# The operations of the file system

The system calls of `sysfile.c`, and the functions of `fs.c` and `file.c` that work
on inodes, directories and paths, are programs over the operations of this file
(`Xv6.Fs.Op`): the accesses to the inode cache, to the inodes on the disk and their
contents, to the table of open files and to the processes. An operation is a
section of the source that nobody else can interfere with – a critical section
under a spin-lock, or an access to an inode by a process that holds its sleep-lock.

The programs do not know how the contents of an inode are laid out on the disk. To
them an inode is its `type`, `major`, `minor`, `nlink` and `size`
(`Xv6.Fs.Fields`) and an array of bytes; the block numbers of an inode are the
business of whoever performs the operations.
-/

namespace Xv6.Fs

open Lib

/-- The part of an inode that the system calls see. -/
structure Fields where
  type : Int16
  major : Int16
  minor : Int16
  nlink : Int16
  size : UInt32
  deriving DecidableEq

namespace Fields

def setType (d : Fields) (type : Int16) : Fields := { d with type := type }

def setDev (d : Fields) (major minor : Int16) : Fields := { d with major := major, minor := minor }

def setNlink (d : Fields) (nlink : Int16) : Fields := { d with nlink := nlink }

def setSize (d : Fields) (size : UInt32) : Fields := { d with size := size }

end Fields

/-- The `type` of a `struct file`. -/
inductive FileType where
  | none
  | pipe
  | inode
  deriving DecidableEq

/-- The page a pipe is in. -/
abbrev PipeId := UInt32

/-- `struct file`. -/
structure File where
  type : FileType
  ref : ℤ
  readable : Bool
  writable : Bool
  pipe : PipeId
  ip : Slot
  off : UInt32
  deriving DecidableEq

namespace File

def setRef (f : File) (ref : ℤ) : File := { f with ref := ref }

def setOff (f : File) (off : UInt32) : File := { f with off := off }

/-- `fileclose` gives up a `struct file`. -/
def closed (f : File) : File := { f with ref := 0, type := .none }

/-- `sys_open` fills in a `struct file`. -/
def asInode (f : File) (ip : Slot) (readable writable : Bool) : File :=
  { f with type := .inode, ip := ip, off := 0, readable := readable, writable := writable }

/-- `pipealloc` fills in a `struct file`. -/
def asPipe (f : File) (q : PipeId) (readable writable : Bool) : File :=
  { f with type := .pipe, readable := readable, writable := writable, pipe := q }

@[simp] theorem setRef_ref (f : File) (ref : ℤ) : (f.setRef ref).ref = ref := rfl

@[simp] theorem setRef_type (f : File) (ref : ℤ) : (f.setRef ref).type = f.type := rfl

@[simp] theorem closed_ref (f : File) : f.closed.ref = 0 := rfl

@[simp] theorem closed_type (f : File) : f.closed.type = .none := rfl

end File

/-- What files have to do with a pipe; its bytes are the subject of `Xv6.Pipe`. -/
structure PipeEnds where
  readopen : Bool
  writeopen : Bool
  /-- How often `kalloc` has handed out the page, less how often it has been given to
  `kfree`. -/
  owned : ℤ
  deriving DecidableEq

/-- An index into the table of open files. -/
abbrev FileId := Fin NFILE

/-- A file descriptor. -/
abbrev Fd := Fin NOFILE

instance : NeZero NFILE := ⟨by decide⟩

instance : NeZero NOFILE := ⟨by decide⟩

/-- An operation on the state of the file system. -/
inductive Op (Pid : Type) where
  | panic (msg : String)
  /-- The critical section of `iget`. -/
  | iget (dev inum : UInt32)
  /-- The critical section of `idup`. -/
  | idup (i : Slot)
  /-- Read `ip->ref`. -/
  | ref (i : Slot)
  /-- `ip->ref--`. -/
  | decref (i : Slot)
  | acquiresleep (p : Pid) (i : Slot)
  | releasesleep (i : Slot)
  | holdingsleep (p : Pid) (i : Slot)
  /-- Read `ip->dev` and `ip->inum`. -/
  | ids (i : Slot)
  /-- Read `ip->valid`. -/
  | valid (i : Slot)
  /-- Read the other fields of an inode in memory. -/
  | fields (i : Slot)
  /-- Read an inode from disk. -/
  | load (i : Slot)
  | setType (i : Slot) (type : Int16)
  | setDev (i : Slot) (major minor : Int16)
  | setNlink (i : Slot) (nlink : Int16)
  /-- `ip->valid = 0`. -/
  | invalidate (i : Slot)
  | iupdate (i : Slot)
  | itrunc (i : Slot)
  /-- `readi` for an inode that is not a device. -/
  | readi (i : Slot) (off n : UInt32)
  /-- `writei` for an inode that is not a device. -/
  | writei (i : Slot) (off : UInt32) (src : List UInt8)
  /-- Read `sb.ninodes`. -/
  | ninodes
  /-- One round of the loop of `ialloc`: take the inode if it is free. -/
  | ialloc (inum : UInt32) (type : Int16)
  /-- What `consoleread` does between the two accesses to the inode. -/
  | consoleread (n : UInt32)
  /-- The critical section of `filealloc`. -/
  | filealloc
  /-- The critical section of `filedup`. -/
  | filedup (f : FileId)
  /-- The critical section of `fileclose`. -/
  | fileclose (f : FileId)
  /-- Read a `struct file`. -/
  | file (f : FileId)
  /-- `sys_open` fills in a `struct file`. -/
  | setFile (f : FileId) (ip : Slot) (readable writable : Bool)
  /-- `pipealloc` gets a page from `kalloc` and opens both ends of the pipe. -/
  | pipeNew (q : PipeId)
  /-- `pipealloc` fills in a `struct file`. -/
  | setPipe (f : FileId) (q : PipeId) (readable writable : Bool)
  /-- `pipeclose`. -/
  | pipeclose (q : PipeId) (writable : Bool)
  /-- Set `f->off`. -/
  | setOff (f : FileId) (off : UInt32)
  /-- `allocproc`, with the process it returns. -/
  | allocproc (q : Pid)
  /-- Read `p->ofile[fd]`. -/
  | ofile (p : Pid) (fd : Fd)
  | setOfile (p : Pid) (fd : Fd) (f : Option FileId)
  /-- Read `p->cwd`, which every process that runs has. -/
  | cwd (p : Pid)
  | setCwd (p : Pid) (i : Option Slot)
  | beginOp
  | endOp

/-- What an operation answers. -/
@[reducible] def Op.Res {Pid : Type} : Op Pid → Type
  | .panic _ => Empty
  | .iget _ _ => Slot
  | .ref _ => ℤ
  | .holdingsleep _ _ => Bool
  | .ids _ => UInt32 × UInt32
  | .valid _ => Bool
  | .fields _ => Fields
  | .readi _ _ _ => Option (List UInt8)
  | .writei _ _ _ => Option UInt32
  | .ninodes => UInt32
  | .ialloc _ _ => Bool
  | .consoleread _ => Option (List UInt8)
  | .filealloc => Option FileId
  | .fileclose _ => Option File
  | .file _ => File
  | .ofile _ _ => Option FileId
  | .cwd _ => Slot
  | _ => Unit

variable {Pid : Type}

/-- A program of the file system. -/
abbrev FsM (Pid : Type) := Prog (@Op.Res Pid)

/-- The program that performs one operation. -/
def Op.perform (o : Op Pid) : FsM Pid o.Res := Prog.perform o

/-- `panic`. -/
def panic {α : Type} (msg : String) : FsM Pid α := .op (.panic msg) fun e => nomatch e

/-- `if(c) panic(msg)`. -/
def panicIf (c : Prop) [Decidable c] (msg : String) : FsM Pid Unit :=
  if c then panic msg else .ret ()

/-- `if(c) m`. -/
def onlyIf (c : Prop) [Decidable c] (m : FsM Pid Unit) : FsM Pid Unit :=
  if c then m else .ret ()

end Xv6.Fs
