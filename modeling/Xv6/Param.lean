import Mathlib

/-!
# Constants of the kernel

The parameters of `kernel/param.h`, the physical layout of `kernel/memlayout.h` and the page
arithmetic of `kernel/riscv.h`, with the values the sources give them. The page-rounding
macros work on `uint64` with a mask; on the sizes and addresses the kernel passes them
(all far below `2^64 - PGSIZE`) the mask is division and multiplication by `PGSIZE`.
-/

namespace Xv6

/-- `PGSIZE`: bytes per page. -/
def PGSIZE : Nat := 4096

/-- `KERNBASE`: where the boot ROM loads the kernel. -/
def KERNBASE : Nat := 0x80000000

/-- `PHYSTOP`: the end of the RAM the kernel uses. -/
def PHYSTOP : Nat := KERNBASE + 128 * 1024 * 1024

/-- `PGROUNDUP(sz)`: `sz` rounded up to a page boundary. -/
def PGROUNDUP (sz : Nat) : Nat := (sz + PGSIZE - 1) / PGSIZE * PGSIZE

/-- `PGROUNDDOWN(a)`: `a` rounded down to a page boundary. -/
def PGROUNDDOWN (a : Nat) : Nat := a / PGSIZE * PGSIZE

/-- `NPROC`: maximum number of processes. -/
def NPROC : Nat := 64

/-- `MAXOPBLOCKS`: maximum number of blocks any file-system operation writes. -/
def MAXOPBLOCKS : Nat := 10

/-- `LOGBLOCKS`: maximum number of data blocks in the on-disk log. -/
def LOGBLOCKS : Nat := MAXOPBLOCKS * 3

/-- `NBUF`: size of the disk block cache. -/
def NBUF : Nat := MAXOPBLOCKS * 3

/-- `NOFILE`: open files per process. -/
def NOFILE : Nat := 16

/-- `NFILE`: open files per system. -/
def NFILE : Nat := 100

/-- `NINODE`: maximum number of active inodes. -/
def NINODE : Nat := 50

/-- `ROOTDEV`: device number of the file system's root disk. -/
def ROOTDEV : Nat := 1

/-- `NDEV`: maximum major device number. -/
def NDEV : Nat := 10

/-- `MAXPATH`: maximum file path name. -/
def MAXPATH : Nat := 128

/-- `FSSIZE`: size of the file system in blocks. -/
def FSSIZE : Nat := 2000

/-- `MAXARG`: maximum `exec` arguments. -/
def MAXARG : Nat := 32

/-- `USERSTACK`: user stack pages. -/
def USERSTACK : Nat := 1

theorem PGSIZE_pos : 0 < PGSIZE := by decide

theorem PGROUNDUP_mod (sz : Nat) : PGROUNDUP sz % PGSIZE = 0 := by
  simp [PGROUNDUP]

theorem le_PGROUNDUP (sz : Nat) : sz ≤ PGROUNDUP sz := by
  unfold PGROUNDUP PGSIZE
  omega

/-- An aligned address is at least `PGROUNDUP sz` as soon as it is at least `sz`. -/
theorem PGROUNDUP_le_of_mod {sz p : Nat} (hp : p % PGSIZE = 0) (h : sz ≤ p) :
    PGROUNDUP sz ≤ p := by
  unfold PGROUNDUP PGSIZE at *
  omega

end Xv6
