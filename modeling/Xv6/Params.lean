import Mathlib.Tactic.Common
import Mathlib.Algebra.Group.Nat.Defs

/-!
# Constants of the kernel

The numbers of `kernel/param.h`, `kernel/fs.h`, `kernel/stat.h`,
`kernel/fcntl.h`, `kernel/riscv.h` and `kernel/memlayout.h` that the modelled functions use,
under their names in the source.
-/

namespace Xv6

/-! ## `kernel/param.h` and `kernel/proc.h` -/

/-- Maximum number of blocks any file-system operation writes. -/
abbrev MAXOPBLOCKS : Nat := 10

/-- Maximum number of data blocks in the on-disk log. -/
abbrev LOGSIZE : Nat := MAXOPBLOCKS * 3

/-- Size of the buffer cache. -/
abbrev NBUF : Nat := MAXOPBLOCKS * 3

/-- Maximum number of processes. -/
abbrev NPROC : Nat := 64

/-- Open files per process. -/
abbrev NOFILE : Nat := 16

/-- Open files per system. -/
abbrev NFILE : Nat := 100

/-- Maximum number of active inodes. -/
abbrev NINODE : Nat := 50

/-- Maximum major device number. -/
abbrev NDEV : Nat := 10

/-- Maximum number of arguments of `exec`. -/
abbrev MAXARG : Nat := 32

/-- File mappings per process. -/
abbrev MAXMMAPITEM : Nat := 16

/-! ## `kernel/fs.h` -/

/-- Block size in bytes. -/
abbrev BSIZE : Nat := 1024

abbrev NDIRECT : Nat := 12

/-- Block numbers in an indirect block. -/
abbrev NINDIRECT : Nat := BSIZE / 4

/-- Maximum number of blocks of a file. -/
abbrev MAXFILE : Nat := NDIRECT + NINDIRECT

/-! ## `kernel/fcntl.h` -/

abbrev O_RDONLY : Int := 0x000
abbrev O_WRONLY : Int := 0x001
abbrev O_RDWR : Int := 0x002
abbrev O_CREATE : Int := 0x200
abbrev O_TRUNC : Int := 0x400

abbrev PROT_READ : Int := 0x1
abbrev PROT_WRITE : Int := 0x2
abbrev PROT_EXEC : Int := 0x4

abbrev MAP_SHARED : Int := 0x01
abbrev MAP_PRIVATE : Int := 0x02

/-! ## `kernel/riscv.h` and `kernel/memlayout.h` -/

/-- Bytes per page. -/
abbrev PGSIZE : Nat := 4096

/-- One beyond the highest possible virtual address. -/
abbrev MAXVA : Nat := 2 ^ 38

/-- The trampoline page, the highest one. -/
abbrev TRAMPOLINE : Nat := MAXVA - PGSIZE

/-- The trap frame of the process, right below the trampoline. -/
abbrev TRAPFRAME : Nat := TRAMPOLINE - PGSIZE

/-- The first address of physical memory. -/
abbrev KERNBASE : Nat := 0x80000000

/-- One beyond the last address of physical memory. -/
abbrev PHYSTOP : Nat := KERNBASE + 128 * 1024 * 1024

abbrev PTE_V : Nat := 1
abbrev PTE_R : Nat := 2
abbrev PTE_W : Nat := 4
abbrev PTE_X : Nat := 8
abbrev PTE_U : Nat := 16

end Xv6
