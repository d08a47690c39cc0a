import LinuxIsLove.Lookup
import LinuxIsLove.Source.Events

/-!
# What `read` writes to the caller's memory

`ReadBounded` is the contract of `read` for one descriptor and one call: whatever the caller's
memory holds, no byte outside the buffer changes and the result is between 0 and the size of the
buffer.  The file driver, the terminal and the clock keep to it.  The directory driver appends a
newline and a NUL to the name behind the `nbytes` bytes it was given.
-/

namespace LinuxIsLove

open Bytes EventMachine

/-- A live descriptor of a process. -/
structure LiveFd (files : ℕ → Fd) (fd : ℤ) : Prop where
  nonneg : 0 ≤ fd
  lt : fd < fileArrayLen
  live : (files fd.toNat).flags ≠ 0
  fops : (files fd.toNat).fops ≠ none
  pos : (files fd.toNat).pos < 2 ^ 32

/-- A read of `nbytes` bytes to `buf` stays inside the buffer, whatever memory holds. -/
def ReadBounded (E : Env) (k : Kernel) (fd : ℤ) (buf : ℕ) (nbytes : ℤ) : Prop :=
  ∀ mem r k', readFile E fd buf nbytes (k.setMem mem) = some (r, k') →
    (∀ a : ℕ, ¬ ((buf : ℤ) ≤ a ∧ a < buf + nbytes) → k'.mem a = mem a) ∧
      (∀ p, p ≠ k.running → k'.userMem p = k.userMem p) ∧ 0 ≤ r ∧ r ≤ nbytes

/-! ### The memory after a read -/

section Memory

variable {k : Kernel} {mem : Memory}

@[simp] theorem setMem_mem : (k.setMem mem).mem = mem := by
  simp [Kernel.mem, Kernel.setMem]

@[simp] theorem setMem_running : (k.setMem mem).running = k.running := rfl

@[simp] theorem setMem_current : (k.setMem mem).current = k.current := rfl

@[simp] theorem setMem_terminals : (k.setMem mem).terminals = k.terminals := rfl

theorem setMem_userMem_of_ne {p : ℕ} (h : p ≠ k.running) :
    (k.setMem mem).userMem p = k.userMem p := Function.update_of_ne h ..

@[simp] theorem advance_userMem (k : Kernel) (i n : ℕ) : (k.advance i n).userMem = k.userMem := rfl

@[simp] theorem advance_running (k : Kernel) (i n : ℕ) : (k.advance i n).running = k.running := rfl

@[simp] theorem advance_mem (k : Kernel) (i n : ℕ) : (k.advance i n).mem = k.mem := rfl

end Memory

/-- A read that copies at most `nbytes` bytes to the buffer stays inside it. -/
theorem copy_inside {buf n : ℕ} {nbytes : ℤ} (hn : (n : ℤ) ≤ nbytes) (mem src : Memory) {a : ℕ}
    (ha : ¬ ((buf : ℤ) ≤ a ∧ a < buf + nbytes)) :
    splice mem buf (copy (window mem buf) src n) a = mem a := by
  rw [splice_copy, if_neg (by omega)]

theorem splice_nothing (mem : Memory) (buf : ℕ) :
    mem = splice mem buf (copy (window mem buf) mem 0) := by
  rw [copy_zero, splice_window]

/-! ### The drivers -/

section Drivers

variable {E : Env} {k : Kernel} {mem : Memory} {i buf : ℕ} {nbytes : ℤ}

/-- What `fs_read` delivers. -/
theorem fsRead_spec (E : Env) (buf : ℕ) (h0 : 0 ≤ nbytes) (hn : nbytes < 2 ^ 31)
    (hpos : (k.current.files i).pos < 2 ^ 32) :
    ∃ (n : ℕ) (src : Memory), (n : ℤ) ≤ nbytes ∧
      fsRead E i buf nbytes k =
        ((n : ℤ), (k.setMem (splice k.mem buf (copy (window k.mem buf) src n))).advance i
          (u32 (n : ℤ))) := by
  have hu : u32 nbytes = nbytes.toNat := u32_of_nonneg h0 (by omega)
  by_cases hinode : (k.current.files i).inodeNum < inodeCnt E.img
  · have hread := readData_eq (window k.mem buf) (u32 nbytes) hinode hpos
    refine ⟨_, _, ?_, by simp only [fsRead, hread]; rfl⟩
    rw [hu]
    omega
  · have hread := readData_of_invalid (k.current.files i).pos (window k.mem buf) (u32 nbytes)
      (not_lt.1 hinode)
    refine ⟨0, fun _ => 0, by omega, ?_⟩
    simp only [fsRead, hread, copy_zero]
    rfl

/-- What `terminal_read` delivers once a line was entered. -/
theorem terminalRead_spec (h0 : 0 ≤ nbytes) (hbuf : buf ≠ 0) {r : ℤ} {k' : Kernel}
    (h : terminalRead buf nbytes k = some (r, k')) :
    ∃ n : ℕ, (n : ℤ) ≤ nbytes ∧ 0 ≤ r ∧ r ≤ nbytes ∧
      k'.running = k.running ∧
      k'.userMem = (k.setMem (splice k.mem buf (copy (window k.mem buf)
        (fun j => (k.terminals k.current.termNum.toNat).lineBuf j) n))).userMem := by
  rw [terminalRead, if_neg hbuf] at h
  by_cases henter : (k.terminals k.current.termNum.toNat).hitEnter = true
  · have hspec := drain_spec (k.terminals k.current.termNum.toNat) h0 (window k.mem buf)
    simp only [if_pos henter, Option.some.injEq, Prod.mk.injEq] at h
    obtain ⟨hr, hk⟩ := h
    subst hk
    refine ⟨min nbytes.toNat lineBufMax, by omega, ?_, ?_, rfl, ?_⟩
    · rw [← hr, hspec.1]
      simp only [lineBufMax]
      omega
    · rw [← hr, hspec.1]
      omega
    · simp only [hspec.2]
  · simp only [if_neg henter] at h
    exact absurd h (by simp)

end Drivers

/-! ### Directories -/

section Directories

variable {img : Image} {i : ℕ}

theorem scannedName_length (img : Image) (i : ℕ) :
    (scannedName img i).length = strlen (dentryAt img i) 0 := by
  rw [scannedName, List.length_map, List.length_range]

theorem scannedName_length_le (hw : WellFormed img) (hi : i < dirEntriesCnt img) :
    (scannedName img i).length ≤ 33 := by
  have hle := entryName_length_le img i
  simp only [fnameLen] at hle
  by_cases hu : Unterminated img i
  · rw [scannedName_of_unterminated hw hi hu, List.length_append, List.length_singleton]
    omega
  · rw [scannedName_of_terminated hw hi hu]
    omega

/-- The local copy of an entry has the same name. -/
theorem strlen_copy_dentry (hw : WellFormed img) (hi : i < dirEntriesCnt img) (d : Dentry) :
    strlen (copy d (dentryAt img i) bytesDentry) 0 = (scannedName img i).length := by
  have hle := scannedName_length_le hw hi
  have hlen := scannedName_length img i
  have hcopy : ∀ j ≤ 33, copy d (dentryAt img i) bytesDentry (0 + j) = dentryAt img i (0 + j) := by
    intro j hj
    exact copy_of_lt (by simp only [bytesDentry]; omega)
  rw [hlen] at hle ⊢
  refine strlen_eq (by omega) (fun j hj => ?_) ?_
  · rw [hcopy j (by omega)]
    exact strlen_ne_zero hj
  · rw [hcopy _ hle]
    exact strlen_end (by omega)

/-- The name that is copied of an entry, the bytes behind it, and the result. -/
theorem readDirectoryEntry_eq (hw : WellFormed img) (hi : i < dirEntriesCnt img) (buf : Memory)
    (length : ℕ) :
    readDirectoryEntry img i buf length =
      (((min (scannedName img i).length length : ℕ) : ℤ),
        Function.update
          (Function.update (copy buf (dentryAt img i) (min (scannedName img i).length length))
            (min (scannedName img i).length length) 10)
          (min (scannedName img i).length length + 1) 0) := by
  have hindex : (readDentryByIndex img i fun _ => 0).2 =
      copy (fun _ => 0) (dentryAt img i) bytesDentry := by
    rw [readDentryByIndex, if_pos hi]
    rfl
  have hloop := readDirectoryEntryLoop_eq (copy (fun _ => 0) (dentryAt img i) bytesDentry) length
    buf (scannedName img i).length 0
  simp only [Nat.zero_min, Nat.zero_add, copy_zero] at hloop
  have hle := scannedName_length_le hw hi
  have hname : copy buf (copy (fun _ => 0) (dentryAt img i) bytesDentry)
      (min (scannedName img i).length length) =
        copy buf (dentryAt img i) (min (scannedName img i).length length) := by
    funext j
    by_cases hj : j < min (scannedName img i).length length
    · rw [copy_of_lt hj, copy_of_lt hj, copy_of_lt (by simp only [bytesDentry]; omega)]
    · rw [copy_of_le (by omega), copy_of_le (by omega)]
  simp only [readDirectoryEntry, if_neg (not_le.2 hi), hindex, strlen_copy_dentry hw hi, hloop,
    hname]

/-- A directory read either delivers nothing, or the name with the two bytes behind it. -/
theorem dirRead_spec {E : Env} {nbytes : ℤ} (k : Kernel) (i buf : ℕ) (hw : WellFormed E.img)
    (h0 : 0 ≤ nbytes) (hn : nbytes < 2 ^ 31) :
    let pos := (k.current.files i).pos
    let n := min (scannedName E.img pos).length nbytes.toNat
    (dirEntriesCnt E.img ≤ pos ∧ dirRead E i buf nbytes k = (0, (k.setMem k.mem).advance i 1)) ∨
      (pos < dirEntriesCnt E.img ∧ dirRead E i buf nbytes k =
        ((n : ℤ), (k.setMem (Function.update (Function.update
          (splice k.mem buf (copy (window k.mem buf) (dentryAt E.img pos) n))
            (buf + n) 10) (buf + (n + 1)) 0)).advance i 1)) := by
  intro pos n
  have hu : u32 nbytes = nbytes.toNat := u32_of_nonneg h0 (by omega)
  by_cases hpos : pos < dirEntriesCnt E.img
  · right
    refine ⟨hpos, ?_⟩
    simp only [dirRead, hu]
    rw [readDirectoryEntry_eq hw hpos]
    simp only [splice_update]
    rfl
  · left
    refine ⟨not_lt.1 hpos, ?_⟩
    have hread : readDirectoryEntry E.img pos (window k.mem buf) (u32 nbytes) =
        (0, window k.mem buf) := by
      rw [readDirectoryEntry, if_pos (not_lt.1 hpos)]
    simp only [dirRead]
    rw [show (k.current.files i).pos = pos from rfl, hread]
    simp only [splice_window]

end Directories

/-! ### The contract -/

section Contract

variable {E : Env} {k : Kernel} {fd : ℤ} {buf : ℕ} {nbytes : ℤ}

/-- The room that the entry at the position of a directory descriptor needs: its name, a newline
and a NUL. -/
def DirRoom (img : Image) (pos : ℕ) (nbytes : ℤ) : Prop :=
  pos < dirEntriesCnt img → (scannedName img pos).length + 2 ≤ nbytes

instance (img : Image) (pos : ℕ) (nbytes : ℤ) : Decidable (DirRoom img pos nbytes) := by
  unfold DirRoom
  infer_instance

/-- When the call keeps to the contract. -/
def ReadCondition (img : Image) (files : ℕ → Fd) (fd : ℤ) (buf : ℕ) (nbytes : ℤ) : Prop :=
  fd ≠ 1 ∧ ((files fd.toNat).fops = some .term → buf ≠ 0) ∧
    ((files fd.toNat).fops = some .dir → DirRoom img (files fd.toNat).pos nbytes)

theorem readFile_of_live (hfd : LiveFd k.current.files fd) (h1 : fd ≠ 1) :
    readFile E fd buf nbytes k = readDevice E fd.toNat buf nbytes k := by
  have hrange : ¬ (fd < 0 ∨ fd = 1 ∨ (fileArrayLen : ℤ) ≤ fd) := by
    have := hfd.nonneg
    have := hfd.lt
    omega
  rw [readFile, if_neg hrange, if_pos hfd.live]

/-- A read whose copy stays inside the buffer keeps to the contract. -/
theorem readBounded_of_copy {mem mem' : Memory} {r : ℤ} {k' : Kernel} (n : ℕ) (src : Memory)
    (hn : (n : ℤ) ≤ nbytes) (hr0 : 0 ≤ r) (hrn : r ≤ nbytes)
    (hmem' : mem' = splice mem buf (copy (window mem buf) src n))
    (hrunning : k'.running = k.running)
    (hk' : k'.userMem = ((k.setMem mem).setMem mem').userMem) :
    (∀ a : ℕ, ¬ ((buf : ℤ) ≤ a ∧ a < buf + nbytes) → k'.mem a = mem a) ∧
      (∀ p, p ≠ k.running → k'.userMem p = k.userMem p) ∧ 0 ≤ r ∧ r ≤ nbytes := by
  refine ⟨fun a ha => ?_, fun p hp => ?_, hr0, hrn⟩
  · have hsame : k'.mem = mem' := by
      rw [Kernel.mem, hk', hrunning]
      exact setMem_mem (k := k.setMem mem)
    rw [hsame, hmem']
    exact copy_inside hn mem src ha
  · rw [hk', setMem_userMem_of_ne (k := k.setMem mem) hp, setMem_userMem_of_ne hp]

/-- The descriptors of every kind but a directory keep to the contract. -/
theorem readBounded_of_ne_dir (hfd : LiveFd k.current.files fd) (h0 : 0 ≤ nbytes)
    (hn : nbytes < 2 ^ 31) (h1 : fd ≠ 1)
    (hterm : (k.current.files fd.toNat).fops = some .term → buf ≠ 0)
    (hdir : (k.current.files fd.toNat).fops ≠ some .dir) : ReadBounded E k fd buf nbytes := by
  intro mem r k' h
  rw [readFile_of_live (k := k.setMem mem) hfd h1, readDevice] at h
  simp only [setMem_current] at h
  cases hfops : (k.current.files fd.toNat).fops with
  | none => exact absurd hfops hfd.fops
  | some fops =>
    rw [hfops] at h
    cases fops with
    | rtc =>
      simp only [Option.some.injEq, Prod.mk.injEq] at h
      obtain ⟨rfl, rfl⟩ := h
      exact readBounded_of_copy 0 mem h0 le_rfl h0 (splice_nothing mem buf) rfl
        (by simp [Kernel.setMem])
    | dir => exact absurd hfops hdir
    | file =>
      obtain ⟨n, src, hle, hread⟩ := fsRead_spec (k := k.setMem mem) E buf h0 hn hfd.pos
      simp only [hread, Option.some.injEq, Prod.mk.injEq, setMem_mem] at h
      obtain ⟨rfl, rfl⟩ := h
      exact readBounded_of_copy n src hle (by omega) hle rfl rfl rfl
    | term =>
      obtain ⟨n, hle, hr0, hrn, hrunning, hmem⟩ := terminalRead_spec h0 (hterm hfops) h
      rw [setMem_mem] at hmem
      exact readBounded_of_copy n _ hle hr0 hrn rfl hrunning hmem

/-- A directory read keeps to the contract exactly if the entry and the two bytes behind it fit. -/
theorem readBounded_dir (buf : ℕ) (hw : WellFormed E.img) (hfd : LiveFd k.current.files fd)
    (h0 : 0 ≤ nbytes) (hn : nbytes < 2 ^ 31) (h1 : fd ≠ 1)
    (hdir : (k.current.files fd.toNat).fops = some .dir) :
    ReadBounded E k fd buf nbytes ↔ DirRoom E.img (k.current.files fd.toNat).pos nbytes := by
  have hread : ∀ mem, readFile E fd buf nbytes (k.setMem mem) =
      some (dirRead E fd.toNat buf nbytes (k.setMem mem)) := by
    intro mem
    rw [readFile_of_live (k := k.setMem mem) hfd h1, readDevice]
    simp only [setMem_current, hdir]
  constructor
  · intro h hpos
    by_contra hroom
    have hret := hread fun _ => 1
    rcases dirRead_spec (k.setMem fun _ => 1) fd.toNat buf hw h0 hn
      with ⟨hend, _⟩ | ⟨_, hdata⟩
    · exact absurd hpos (not_lt.2 hend)
    · simp only [setMem_mem, setMem_current] at hdata
      rw [hdata] at hret
      obtain ⟨hout, -⟩ := h _ _ _ hret
      -- the first byte behind the buffer is overwritten
      have hbyte := hout (buf + nbytes.toNat) (by omega)
      rw [advance_mem, setMem_mem, Function.update_apply, Function.update_apply] at hbyte
      split_ifs at hbyte with hz hnl
      · exact absurd hbyte (by decide)
      · exact absurd hbyte (by decide)
      · omega
  · intro hroom mem r k' h
    rw [hread mem, Option.some.injEq] at h
    rcases dirRead_spec (k.setMem mem) fd.toNat buf hw h0 hn
      with ⟨_, hdata⟩ | ⟨hpos, hdata⟩
    · rw [hdata, Prod.mk.injEq, setMem_mem] at h
      obtain ⟨rfl, rfl⟩ := h
      exact readBounded_of_copy 0 mem h0 le_rfl h0 (splice_nothing mem buf) rfl rfl
    · have hfit := hroom hpos
      simp only [setMem_mem, setMem_current] at hdata
      rw [hdata, Prod.mk.injEq] at h
      obtain ⟨rfl, rfl⟩ := h
      refine ⟨fun a ha => ?_, fun p hp => ?_, by omega, by omega⟩
      · rw [advance_mem, setMem_mem, Function.update_of_ne (by omega),
          Function.update_of_ne (by omega)]
        exact copy_inside (by omega) mem _ ha
      · rw [advance_userMem, setMem_userMem_of_ne (k := k.setMem mem) hp, setMem_userMem_of_ne hp]

/-- **The contract of `read`.**  For a live descriptor of any kind it is kept exactly if `read`
serves the call (neither the standard output nor a terminal read to the null pointer) and, for a
directory with an entry at the position, the name and the two bytes appended to it fit. -/
theorem readBounded_iff (hw : WellFormed E.img) (hfd : LiveFd k.current.files fd)
    (h0 : 0 ≤ nbytes) (hn : nbytes < 2 ^ 31) :
    ReadBounded E k fd buf nbytes ↔ ReadCondition E.img k.current.files fd buf nbytes := by
  by_cases h1 : fd = 1
  · -- the standard output is refused
    subst h1
    constructor
    · intro h
      obtain ⟨-, -, hr, -⟩ := h (fun _ => 0) (-1) (k.setMem fun _ => 0) rfl
      exact absurd hr (by decide)
    · intro h
      exact absurd rfl h.1
  by_cases hterm : (k.current.files fd.toNat).fops = some .term ∧ buf = 0
  · -- the null pointer is refused
    obtain ⟨hfops, rfl⟩ := hterm
    constructor
    · intro h
      have hread : readFile E fd 0 nbytes (k.setMem fun _ => 0) =
          some (-1, k.setMem fun _ => 0) := by
        rw [readFile_of_live (k := k.setMem fun _ => 0) hfd h1, readDevice]
        simp only [setMem_current, hfops]
        rfl
      obtain ⟨-, -, hr, -⟩ := h _ _ _ hread
      exact absurd hr (by decide)
    · intro h
      exact absurd rfl (h.2.1 hfops)
  have hterm' : (k.current.files fd.toNat).fops = some .term → buf ≠ 0 := fun h h' =>
    hterm ⟨h, h'⟩
  by_cases hdir : (k.current.files fd.toNat).fops = some .dir
  · rw [readBounded_dir buf hw hfd h0 hn h1 hdir]
    exact ⟨fun h => ⟨h1, hterm', fun _ => h⟩, fun h => h.2.2 hdir⟩
  · exact ⟨fun _ => ⟨h1, hterm', fun h => absurd h hdir⟩,
      fun _ => readBounded_of_ne_dir hfd h0 hn h1 hterm' hdir⟩

end Contract

/-! ### A directory read that overruns its buffer -/

theorem smallImg_wellFormed : WellFormed small.img where
  entries := by decide
  name_nonempty := by decide +kernel
  padded := by decide +kernel
  distinct := by decide +kernel
  types := by decide +kernel

/-- The first shell of the small machine after it has opened the directory. -/
def dirOpened : Kernel := smallState [.key 0, .openFile dotName]

theorem dirOpened_liveFd : LiveFd dirOpened.current.files 2 where
  nonneg := by decide
  lt := by decide
  live := by decide +kernel
  fops := by decide +kernel
  pos := by decide +kernel

theorem dirOpened_fops : (dirOpened.current.files (2 : ℤ).toNat).fops = some .dir := by
  decide +kernel

/-- A read of one byte of the directory whose first entry is `.` overwrites the byte behind it. -/
theorem dirRead_overruns :
    WellFormed small.img ∧ Reachable small dirOpened ∧ LiveFd dirOpened.current.files 2 ∧
      ¬ ReadBounded small dirOpened 2 0x8000000 1 := by
  have hreach : (run (step small) (boot small) [.key 0, .openFile dotName]).isSome = true := by
    decide +kernel
  have hroom : ¬ DirRoom small.img (dirOpened.current.files (2 : ℤ).toNat).pos 1 := by
    decide +kernel
  have h01 : (0 : ℤ) ≤ 1 := by decide
  have hiff := readBounded_dir 0x8000000 smallImg_wellFormed dirOpened_liveFd h01 (by decide)
    (by decide) dirOpened_fops
  exact ⟨smallImg_wellFormed, smallState_reachable hreach, dirOpened_liveFd, mt hiff.1 hroom⟩

theorem dirOpened_readBounded_iff :
    ReadBounded small dirOpened 2 0x8000000 1 ↔
      ReadCondition small.img dirOpened.current.files 2 0x8000000 1 :=
  readBounded_iff smallImg_wellFormed dirOpened_liveFd (by decide) (by decide)

end LinuxIsLove
