/-!
# Kernel parameters

The constants of `param.h`, `mmu.h`, `memlayout.h` and `fs.h` that the modelled functions use, and the bounds of
the C integer types they compute with.
-/

namespace Xv6

/-- `NPROC`: slots of the process table. -/
def NPROC : Nat := 64
/-- `NOFILE`: open files per process. -/
def NOFILE : Nat := 16
/-- `NFILE`: open files in the system. -/
def NFILE : Nat := 100
/-- `MAXOPBLOCKS`: blocks one file-system operation may write. -/
def MAXOPBLOCKS : Nat := 10
/-- `LOGSIZE`: data blocks of the on-disk log, as the log code counts them. -/
def LOGSIZE : Nat := MAXOPBLOCKS * 3
/-- `NBUF`: buffers of the block cache. -/
def NBUF : Nat := MAXOPBLOCKS * 3
/-- `FSSIZE`: blocks of the file system image. -/
def FSSIZE : Nat := 1000
/-- `BSIZE`: bytes of a disk block. -/
def BSIZE : Nat := 512
/-- `PGSIZE`: bytes of a page. -/
def PGSIZE : Nat := 4096
/-- `KERNBASE`: first kernel virtual address. -/
def KERNBASE : Nat := 0x80000000
/-- `MMAPBASE`: start of the region `mmap` addresses are relative to. -/
def MMAPBASE : Nat := 0x40000000

def PROT_READ : Int := 0x1
def PROT_WRITE : Int := 0x2
def MAP_ANONYMOUS : Int := 0x1
def MAP_POPULATE : Int := 0x2

/-- `2^32`: `uint` arithmetic is modulo this. -/
def UINT_MOD : Nat := 4294967296
/-- The largest `int`, `2^31 - 1`. -/
def INT_MAX : Nat := 2147483647

end Xv6
