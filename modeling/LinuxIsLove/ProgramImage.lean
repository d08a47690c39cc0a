import LinuxIsLove.ReadBounds

/-!
# Where the image of a program goes

`execute` copies the whole file of a program to `START_EXE_ADDR`, which lies inside the 4 MB page
of the new process.  No path compares the length of the file with what is left of the page, and an
inode can describe files that are longer: `loadedInside_iff`.
-/

namespace LinuxIsLove

open Bytes EventMachine

/-- The copy of a file to the load address stores to the address `a`, from some memory. -/
def Stores (img : Image) (d : Dentry) (a : ℕ) : Prop :=
  ∃ mem : Memory, splice mem startExeAddr (load img d (window mem startExeAddr)) a ≠ mem a

/-- The process `pid` has been given the file of an entry as its image: every store was to its
page, every byte of the file is there, and nothing else has changed. -/
structure LoadedInside (img : Image) (d : Dentry) (pid : ℕ) (k k' : Kernel) : Prop where
  inside : ∀ a, Stores img d a → InPage a
  whole : ∀ j < inodeLength img d.inode,
    InPage (startExeAddr + j) ∧ k'.userMem pid (startExeAddr + j) = fileByte img d.inode j
  frame : ∀ a, ¬ (startExeAddr ≤ a ∧ a < startExeAddr + inodeLength img d.inode) →
    k'.userMem pid a = k.userMem pid a
  others : ∀ p, p ≠ pid → k'.userMem p = k.userMem p

section Load

variable {E : Env} {k k' : Kernel} {site : Site} {command args : CString} {d : Dentry}

/-- The page reaches from 294912 bytes before the load address to 3899392 bytes behind it. -/
theorem startExeAddr_eq : startExeAddr = progVmStart + 0x48000 ∧ loadRoom = 3899392 := by decide

/-- A command that is accepted names an inode of the image. -/
theorem checkExecutable_inode (h : checkExecutable E.img command = some (d, args)) :
    d.inode < inodeCnt E.img := by
  by_contra hno
  simp only [checkExecutable] at h
  split_ifs at h with hfound hlen helf
  cases h
  rw [readData_of_invalid _ _ _ (not_lt.1 hno)] at hlen
  exact hlen (by decide)

/-- The whole file is copied. -/
theorem splice_load (h : d.inode < inodeCnt E.img) (mem : Memory) (a : ℕ) :
    splice mem startExeAddr (load E.img d (window mem startExeAddr)) a =
      if startExeAddr ≤ a ∧ a < startExeAddr + inodeLength E.img d.inode then
        fileByte E.img d.inode (a - startExeAddr)
      else mem a := by
  have hload : load E.img d (window mem startExeAddr) = copy (window mem startExeAddr)
      (fileByte E.img d.inode) (inodeLength E.img d.inode) := by
    rw [load, readData_eq _ _ h (by norm_num)]
    simp only [Nat.sub_zero, min_self, Nat.zero_add]
  rw [hload, splice_copy]

/-- The addresses that the copy stores to. -/
theorem stores_iff (h : d.inode < inodeCnt E.img) (a : ℕ) :
    Stores E.img d a ↔ startExeAddr ≤ a ∧ a < startExeAddr + inodeLength E.img d.inode := by
  constructor
  · rintro ⟨mem, hne⟩
    by_contra hout
    rw [splice_load h, if_neg hout] at hne
    exact hne rfl
  · intro hin
    -- a memory that holds another byte there
    refine ⟨fun _ => fileByte E.img d.inode (a - startExeAddr) + 1, ?_⟩
    rw [splice_load h, if_pos hin]
    intro heq
    exact absurd (left_eq_add.1 heq) (by decide)

/-- **The image of a program stays in its page** exactly if the file is not longer than what the
page holds from the load address on. -/
theorem loadedInside_iff (hcheck : checkExecutable E.img command = some (d, args))
    (h : execute E site command k = some k') :
    LoadedInside E.img d k'.running k k' ↔ inodeLength E.img d.inode ≤ loadRoom := by
  have hinode := checkExecutable_inode hcheck
  obtain ⟨hstart, hroom⟩ := startExeAddr_eq
  have hpage : progVmStart + space4MB = startExeAddr + loadRoom := by decide
  obtain ⟨pid, dentry, args', hcheck', -, -, -, rfl⟩ := execute_spec h
  rw [hcheck, Option.some.injEq, Prod.mk.injEq] at hcheck'
  obtain ⟨rfl, rfl⟩ := hcheck'
  have hmem : (startProcess E site pid d args (takeSlot k pid)).userMem pid =
      splice (k.userMem pid) startExeAddr
        (load E.img d (window (k.userMem pid) startExeAddr)) := Function.update_self ..
  constructor
  · intro hin
    by_contra hlong
    have hlast := hin.inside (startExeAddr + loadRoom) ((stores_iff hinode _).2 (by omega))
    have hend := hlast.2
    omega
  · intro hle
    refine ⟨fun a ha => ?_, fun j hj => ⟨?_, ?_⟩, fun a ha => ?_, fun p hp => ?_⟩
    · obtain ⟨h1, h2⟩ := (stores_iff hinode a).1 ha
      exact ⟨by omega, by omega⟩
    · exact ⟨by omega, by omega⟩
    · show (startProcess E site pid d args (takeSlot k pid)).userMem pid _ = _
      rw [hmem, splice_load hinode, if_pos ⟨Nat.le_add_right _ _, by omega⟩,
        Nat.add_sub_cancel_left]
    · show (startProcess E site pid d args (takeSlot k pid)).userMem pid a = _
      rw [hmem, splice_load hinode, if_neg ha]
      rfl
    · exact Function.update_of_ne hp ..

end Load

/-- The shell of the small machine stays in its page. -/
theorem loadedInside_iff_shell : ∃ d args k', checkExecutable small.img shell = some (d, args) ∧
    execute small .syscall shell (boot small) = some k' ∧
    (LoadedInside small.img d k'.running (boot small) k' ↔
      inodeLength small.img d.inode ≤ loadRoom) ∧
    inodeLength small.img d.inode = 40 ∧ LoadedInside small.img d k'.running (boot small) k' := by
  have haccepted : (checkExecutable small.img shell).isSome = true := by decide +kernel
  have hstarted : (execute small .syscall shell (boot small)).isSome = true := by decide +kernel
  have hlength : ∀ r ∈ checkExecutable small.img shell,
      inodeLength small.img (Dentry.inode r.1) = 40 := by decide +kernel
  obtain ⟨⟨d, args⟩, hcheck⟩ := Option.isSome_iff_exists.1 haccepted
  obtain ⟨k', hexec⟩ := Option.isSome_iff_exists.1 hstarted
  have hlen := hlength _ hcheck
  have hiff := loadedInside_iff hcheck hexec
  exact ⟨d, args, k', hcheck, hexec, hiff, hlen, hiff.2 (by rw [hlen]; decide)⟩

/-! ### An image with a long file -/

/-- The small image with a `shell` of the greatest length, 1023 blocks, in as many data blocks. -/
def longShellImg : Image := fun a =>
  if 4100 ≤ a ∧ a < 8192 then
    match (a - 4100) % 4 with
    | 0 => UInt8.ofNat ((a - 4100) / 4 % 256)
    | 1 => UInt8.ofNat ((a - 4100) / 4 / 256)
    | _ => 0
  else
    match a with
    | 8 => 0xFF | 9 => 0x03
    | 4096 => 0 | 4097 => 0xF0 | 4098 => 0x3F
    | _ => smallImg a

theorem longShellImg_wellFormed : WellFormed longShellImg where
  entries := by decide
  name_nonempty := by decide +kernel
  padded := by decide +kernel
  distinct := by decide +kernel
  types := by decide +kernel

/-- The small machine with that image. -/
def longShell : Env := { small with img := longShellImg }

/-- `execute` accepts the long `shell`, and its last stores are behind the page of the process. -/
theorem longShell_leaves_page : WellFormed longShell.img ∧
    dataBlockCnt longShell.img = blocksPerInode ∧
    (∀ j < blocksPerInode, inodeDataBlock longShell.img 0 j = j) ∧
    ∃ d args k', checkExecutable longShell.img shell = some (d, args) ∧
      inodeLength longShell.img d.inode = blocksPerInode * blockSize ∧
      execute longShell .syscall shell (boot longShell) = some k' ∧
      ¬ LoadedInside longShell.img d k'.running (boot longShell) k' := by
  refine ⟨longShellImg_wellFormed, by decide, by decide +kernel, ?_⟩
  have haccepted : (checkExecutable longShell.img shell).isSome = true := by decide +kernel
  have hstarted : (execute longShell .syscall shell (boot longShell)).isSome = true := by
    decide +kernel
  have hlength : ∀ r ∈ checkExecutable longShell.img shell,
      inodeLength longShell.img (Dentry.inode r.1) = blocksPerInode * blockSize := by
    decide +kernel
  obtain ⟨⟨d, args⟩, hcheck⟩ := Option.isSome_iff_exists.1 haccepted
  obtain ⟨k', hexec⟩ := Option.isSome_iff_exists.1 hstarted
  have hlen := hlength _ hcheck
  refine ⟨d, args, k', hcheck, hlen, hexec, fun hin => ?_⟩
  have hle := (loadedInside_iff hcheck hexec).1 hin
  rw [hlen] at hle
  exact absurd hle (by decide)

end LinuxIsLove
