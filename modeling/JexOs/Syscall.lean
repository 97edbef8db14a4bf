import JexOs.JexFs

/-!
# System calls

`syscall_handler` of `src/kernel/syscall.c`: which routine of the kernel a register state is handed
to, and what is checked of its pointers before. Of the routines only those are modelled that write
to the caller's memory: `fs_read` of `src/fs/fs.c` with the two file systems behind it, and `waitpid`,
which stores an exit code.
-/

namespace JexOs.Syscall

open ByteMem JexFs

/-- The fields of `registers_t` that the handler reads. -/
structure Registers where
  eax : UInt32
  ebx : UInt32
  ecx : UInt32
  edx : UInt32

def sysPrint : UInt32 := 0
def sysExit : UInt32 := 1
def sysOpen : UInt32 := 2
def sysRead : UInt32 := 3
def sysWrite : UInt32 := 4
def sysClose : UInt32 := 5
def sysSeek : UInt32 := 6
def sysSbrk : UInt32 := 7
def sysExecve : UInt32 := 8
def sysFork : UInt32 := 9
def sysWaitpid : UInt32 := 10
def sysPrintInt : UInt32 := 11
def sysPrintChar : UInt32 := 12
def sysSignal : UInt32 := 13
def sysKill : UInt32 := 14
def sysGetpid : UInt32 := 15
def sysPrintHex : UInt32 := 18

def isValidUserPtr (addr len : UInt32) : Bool :=
  if addr = 0 ∨ addr ≥ 0xC0000000 then false
  else if addr + len < addr then false
  else if addr + len > 0xC0000000 then false
  else true

/-- What a system call comes to. -/
inductive Request where
  | print (text : UInt32)
  | exit (code : UInt32)
  | openFile (filename flags : UInt32)
  | read (fd buffer size : UInt32)
  | write (fd buffer size : UInt32)
  | close (fd : UInt32)
  | seek (fd offset whence : UInt32)
  | sbrk (increment : UInt32)
  | execve (filename argv envp : UInt32)
  | fork
  | waitpid (pid status options : UInt32)
  | getpid
  | printInt (value : UInt32)
  | printChar (value : UInt32)
  | printHex (value : UInt32)
  | signal (sig handler : UInt32)
  | kill (pid sig : UInt32)
  /-- `regs->eax = -1` -/
  | refused
  | nothing

def syscallHandler (regs : Registers) : Request :=
  if regs.eax = sysPrint then
    if !isValidUserPtr regs.ebx 1 then .nothing else .print regs.ebx
  else if regs.eax = sysExit then .exit regs.ebx
  else if regs.eax = sysOpen then
    if !isValidUserPtr regs.ebx 1 then .refused else .openFile regs.ebx regs.ecx
  else if regs.eax = sysRead then
    if !isValidUserPtr regs.ecx regs.edx then .refused else .read regs.ebx regs.ecx regs.edx
  else if regs.eax = sysWrite then
    if !isValidUserPtr regs.ecx regs.edx then .refused else .write regs.ebx regs.ecx regs.edx
  else if regs.eax = sysClose then .close regs.ebx
  else if regs.eax = sysSeek then .seek regs.ebx regs.ecx regs.edx
  else if regs.eax = sysSbrk then .sbrk regs.ebx
  else if regs.eax = sysExecve then
    if !isValidUserPtr regs.ebx 1 then .refused else .execve regs.ebx regs.ecx regs.edx
  else if regs.eax = sysFork then .fork
  else if regs.eax = sysWaitpid then
    if !isValidUserPtr regs.ecx 4 then .refused else .waitpid regs.ebx regs.ecx regs.edx
  else if regs.eax = sysGetpid then .getpid
  else if regs.eax = sysPrintInt then .printInt regs.ebx
  else if regs.eax = sysPrintChar then .printChar regs.ebx
  else if regs.eax = sysPrintHex then .printHex regs.ebx
  else if regs.eax = sysSignal then .signal regs.ebx regs.ecx
  else if regs.eax = sysKill then .kill regs.ebx regs.ecx
  else .nothing

/-! ### `fs_read` -/

/-- An open virtual file: `buf_local` as the callback leaves it, with what lies behind it on the
stack, and the number the callback returns. -/
structure VirtualFile where
  content : Mem
  n : Int
  offset : Nat

/-- The open files. -/
structure Vfs where
  sb : Superblock
  disk : Mem
  /-- The inode and the offset of a descriptor in use. -/
  fileTable : Fin 32 → Option (Nat × Nat)
  /-- Whether `devtmpfs` is mounted. -/
  mounted : Bool
  /-- The slots of `devtmpfs` in use; those without a read callback are left out. -/
  openFiles : Fin 8 → Option VirtualFile

/-- `(int)x` -/
def toSigned (x : Nat) : Int := if x < 2 ^ 31 then x else x - 2 ^ 32

/-- `devtmpfs_read`: how many bytes it copies, and from where; none if it returns -1. -/
def devtmpfsRead (v : Vfs) (fd : Int) (size : Nat) : Option (Nat × Mem) :=
  if h : 100 ≤ fd ∧ fd < 108 then
    match v.openFiles ⟨(fd - 100).toNat, by omega⟩ with
    | none => none
    | some f =>
      if f.n ≤ 0 ∨ toSigned f.offset ≥ f.n then some (0, f.content)
      else
        let avail := f.n - toSigned f.offset
        let size := if toSigned size > avail then avail.toNat else size
        some (size, fun i => f.content (f.offset + i))
  else
    none

theorem toNat_lt {fd : Int} (h : 0 ≤ fd ∧ fd < 32) : fd.toNat < 32 := by omega

/-- `fs_read`: how many bytes are copied to the caller's buffer, and from where. -/
def fsRead (v : Vfs) (fd : Int) (size : Nat) : Except Fault (Nat × Mem) :=
  if fd ≥ 100 then
    if v.mounted then .ok ((devtmpfsRead v fd size).getD (0, fun _ => 0)) else .ok (0, fun _ => 0)
  else if h : 0 ≤ fd ∧ fd < 32 then
    match v.fileTable ⟨fd.toNat, toNat_lt h⟩ with
    | none => .ok (0, fun _ => 0)
    | some (idx, offset) =>
      (jexfsRead v.sb v.disk idx size offset).map fun bytes =>
        (bytes.length, fun i => bytes.getD i 0)
  else
    .ok (0, fun _ => 0)

/-- The caller's memory after the call, as far as the kernel writes there through a pointer it was
given. `code` is the exit code `waitpid` stores, if it reaps a child. -/
def serve (v : Vfs) (mem : Mem) (code : Option Int) (regs : Registers) : Except Fault Mem :=
  match syscallHandler regs with
  | .read fd buffer size =>
    (fsRead v (toSigned fd.toNat) size.toNat).map fun (n, src) => blit mem buffer.toNat n src
  | .waitpid _ status _ =>
    match code with
    | some code => .ok (store32 mem status.toNat (code % 2 ^ 32).toNat)
    | none => .ok mem
  | _ => .ok mem

end JexOs.Syscall
