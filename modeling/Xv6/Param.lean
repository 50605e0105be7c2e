import Xv6.Lib.Bytes

/-!
# Constants of the kernel

The sizes and codes of `param.h`, `fs.h` and `stat.h`, under the names the source
gives them.
-/

namespace Xv6

/-- The most blocks one file-system operation writes. -/
def MAXOPBLOCKS : ℕ := 10

/-- The most data blocks in the on-disk log, which is also the length of the
array `block` of a `struct logheader`. -/
def LOGSIZE : ℕ := MAXOPBLOCKS * 3

/-- The number of buffers of the buffer cache. -/
def NBUF : ℕ := MAXOPBLOCKS * 3

/-- The number of entries of the inode cache. -/
def NINODE : ℕ := 50

/-- The device number of the disk with the root directory. -/
def ROOTDEV : UInt32 := 1

/-- The inode number of the root directory. -/
def ROOTINO : UInt32 := 1

/-- The size of a block. -/
def BSIZE : ℕ := 512

/-- The size of the file system in blocks. -/
def FSSIZE : ℕ := 1000

/-- The number of direct blocks of an inode. -/
def NDIRECT : ℕ := 12

/-- The number of block numbers in an indirect block. -/
def NINDIRECT : ℕ := BSIZE / 4

/-- The most blocks of a file. -/
def MAXFILE : ℕ := NDIRECT + NINDIRECT

/-- The type of a directory. -/
def T_DIR : Int16 := 1

/-- The type of a file. -/
def T_FILE : Int16 := 2

/-- The type of a device. -/
def T_DEV : Int16 := 3

/-- The major number of the console. -/
def CONSOLE : Int16 := 1

/-- The length of a name in a directory. -/
def DIRSIZ : ℕ := 14

/-- The open files of the system. -/
def NFILE : ℕ := 100

/-- The processes of the system. -/
def NPROC : ℕ := 64

/-- The open files of a process. -/
def NOFILE : ℕ := 16

/-- The bits of the mode of `open`. -/
def O_RDONLY : UInt32 := 0x000
def O_WRONLY : UInt32 := 0x001
def O_RDWR : UInt32 := 0x002
def O_CREATE : UInt32 := 0x200

/-- The contents of a block. -/
abbrev Block := Lib.Bytes BSIZE

end Xv6
