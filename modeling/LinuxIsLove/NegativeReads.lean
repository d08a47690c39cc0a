import LinuxIsLove.DirReading

/-!
# Reads of a negative number of bytes

No routine on the way of a `read` looks at the sign of `nbytes`.  The drivers convert it to an
unsigned length: a file is read to its end, a directory gives out an entry, and a terminal copies
from its line buffer without end.  `NothingTransferred` is what one would expect of such a call;
only the calls that are refused for another reason meet it (`nothingTransferred_iff`).
-/

namespace LinuxIsLove

open Bytes EventMachine

/-- There is a typed line, a byte or an entry for a read of the descriptor. -/
inductive Available (E : Env) (k : Kernel) (fd : ℤ) : Prop
  | term (hfops : (k.current.files fd.toNat).fops = some .term)
      (henter : (k.terminals k.current.termNum.toNat).hitEnter = true)
      (hcount : 0 < (k.terminals k.current.termNum.toNat).bufCount)
  | file (hfops : (k.current.files fd.toNat).fops = some .file)
      (hinode : (k.current.files fd.toNat).inodeNum < inodeCnt E.img)
      (hleft : (k.current.files fd.toNat).pos <
        inodeLength E.img (k.current.files fd.toNat).inodeNum)
  | dir (hfops : (k.current.files fd.toNat).fops = some .dir)
      (hentry : (k.current.files fd.toNat).pos < dirEntriesCnt E.img)

/-- A read transfers nothing, whatever memory holds. -/
def NothingTransferred (E : Env) (k : Kernel) (fd : ℤ) (buf : ℕ) (nbytes : ℤ) : Prop :=
  ∀ mem r k', readFile E fd buf nbytes (k.setMem mem) = some (r, k') →
    r ≤ 0 ∧ k'.userMem = (k.setMem mem).userMem ∧
      ((k'.pcb k.running).files fd.toNat).pos = (k.current.files fd.toNat).pos ∧
      (∀ i, (k'.terminals i).lineBuf = (k.terminals i).lineBuf ∧
        (k'.terminals i).bufCount = (k.terminals i).bufCount)

/-- The calls that are refused before a driver looks for data. -/
def Refused (k : Kernel) (fd : ℤ) (buf : ℕ) : Prop :=
  fd = 1 ∨ ((k.current.files fd.toNat).fops = some .term ∧ buf = 0)

section Drivers

variable {E : Env} {k : Kernel} {i buf : ℕ} {fd nbytes : ℤ}

/-- The length that a driver makes of a negative number of bytes. -/
theorem u32_of_neg (hlo : -2 ^ 31 ≤ nbytes) (hneg : nbytes < 0) : 2 ^ 31 ≤ u32 nbytes := by
  unfold u32
  omega

/-- A read of a file with a byte left moves the position. -/
theorem fsRead_negative (hlo : -2 ^ 31 ≤ nbytes) (hneg : nbytes < 0)
    (hinode : (k.current.files i).inodeNum < inodeCnt E.img)
    (hleft : (k.current.files i).pos < inodeLength E.img (k.current.files i).inodeNum) :
    (((fsRead E i buf nbytes k).2.pcb k.running).files i).pos ≠ (k.current.files i).pos := by
  have hlen : inodeLength E.img (k.current.files i).inodeNum < 2 ^ 32 := word32_lt _ _
  have hpos : (k.current.files i).pos < 2 ^ 32 := by omega
  have hu := u32_of_neg hlo hneg
  have hread := readData_eq (window k.mem buf) (u32 nbytes) hinode hpos
  generalize hn : min (u32 nbytes)
    (inodeLength E.img (k.current.files i).inodeNum - (k.current.files i).pos) = n at hread
  have hun : u32 (n : ℤ) = n := by rw [u32_of_nonneg (by omega) (by omega), Int.toNat_natCast]
  simp only [fsRead, hread, hun]
  have hfiles := advance_files_self (k.setMem (splice k.mem buf
    (copy (window k.mem buf) (fun j => fileByte E.img (k.current.files i).inodeNum
      ((k.current.files i).pos + j)) n))) i n
  rw [setMem_running, setMem_current] at hfiles
  rw [hfiles]
  -- something between 0 and `2 ^ 32` is added
  show ((k.current.files i).pos + n) % 2 ^ 32 ≠ (k.current.files i).pos
  omega

/-- A terminal copies to the caller's buffer. -/
theorem terminalRead_negative (hlo : -2 ^ 31 ≤ nbytes) (hneg : nbytes < 0) (hbuf : buf ≠ 0)
    (henter : (k.terminals k.current.termNum.toNat).hitEnter = true) :
    ∃ r k', terminalRead buf nbytes k = some (r, k') ∧
      k'.userMem k.running buf = (k.terminals k.current.termNum.toNat).lineBuf 0 := by
  have hu := u32_of_neg hlo hneg
  have hmax : lineBufMax = 128 := rfl
  have hclamp : (if nbytes > lineBufMax then (lineBufMax : ℤ) else nbytes) = nbytes :=
    if_neg (by omega)
  have hcopied : (drain (k.terminals k.current.termNum.toNat) nbytes (window k.mem buf)).2.1 =
      copy (window k.mem buf) (fun j => (k.terminals k.current.termNum.toNat).lineBuf j)
        (u32 nbytes) := by
    simp only [drain, hclamp]
  simp only [terminalRead, if_neg hbuf, if_pos henter, hcopied]
  refine ⟨_, _, rfl, ?_⟩
  simp only [Kernel.setMem, Function.update_self]
  rw [splice_copy, if_pos ⟨le_rfl, by omega⟩, Nat.sub_self]
  rfl

end Drivers

/-! ### What a negative length does -/

section Reads

variable {E : Env} {k : Kernel} {buf : ℕ} {fd nbytes : ℤ}

/-- A call that is refused changes nothing. -/
theorem readFile_refused (hfd : LiveFd k.current.files fd) (h : Refused k fd buf) (mem : Memory) :
    readFile E fd buf nbytes (k.setMem mem) = some (-1, k.setMem mem) := by
  rcases h with rfl | ⟨hterm, rfl⟩
  · rfl
  · by_cases h1 : fd = 1
    · subst h1
      rfl
    · rw [readFile_of_live (k := k.setMem mem) hfd h1, readDevice]
      simp only [setMem_current, hterm]
      rfl

theorem nothingTransferred_of_refused (hfd : LiveFd k.current.files fd) (h : Refused k fd buf) :
    NothingTransferred E k fd buf nbytes := by
  intro mem r k' hread
  rw [readFile_refused hfd h mem, Option.some.injEq, Prod.mk.injEq] at hread
  obtain ⟨rfl, rfl⟩ := hread
  exact ⟨by decide, rfl, rfl, fun i => ⟨rfl, rfl⟩⟩

/-- A call returns, and transfers something. -/
def Transfers (E : Env) (k : Kernel) (fd : ℤ) (buf : ℕ) (nbytes : ℤ) : Prop :=
  (∀ mem, (readFile E fd buf nbytes (k.setMem mem)).isSome = true) ∧
    ¬ NothingTransferred E k fd buf nbytes

/-- The position of a directory moves to the next entry. -/
theorem transfers_dir (hfd : LiveFd k.current.files fd) (h1 : fd ≠ 1)
    (hfops : (k.current.files fd.toNat).fops = some .dir) : Transfers E k fd buf nbytes := by
  have hdir : ∀ mem, readFile E fd buf nbytes (k.setMem mem) =
      some (dirRead E fd.toNat buf nbytes (k.setMem mem)) := by
    intro mem
    rw [readFile_of_live (k := k.setMem mem) hfd h1, readDevice, setMem_current, hfops]
  refine ⟨fun mem => by rw [hdir mem]; rfl, fun hnone => ?_⟩
  obtain ⟨-, -, hpos, -⟩ := hnone k.mem (dirRead E fd.toNat buf nbytes (k.setMem k.mem)).1
    (dirRead E fd.toNat buf nbytes (k.setMem k.mem)).2 (hdir k.mem)
  have hfiles := dirRead_files E fd.toNat buf nbytes (k.setMem k.mem)
  rw [setMem_running, setMem_current] at hfiles
  rw [hfiles] at hpos
  have hlt := hfd.pos
  simp only at hpos
  omega

/-- The position of a file moves behind what was read. -/
theorem transfers_file (hfd : LiveFd k.current.files fd) (h1 : fd ≠ 1) (hlo : -2 ^ 31 ≤ nbytes)
    (hneg : nbytes < 0) (hfops : (k.current.files fd.toNat).fops = some .file)
    (hinode : (k.current.files fd.toNat).inodeNum < inodeCnt E.img)
    (hleft : (k.current.files fd.toNat).pos <
      inodeLength E.img (k.current.files fd.toNat).inodeNum) : Transfers E k fd buf nbytes := by
  have hfile : ∀ mem, readFile E fd buf nbytes (k.setMem mem) =
      some (fsRead E fd.toNat buf nbytes (k.setMem mem)) := by
    intro mem
    rw [readFile_of_live (k := k.setMem mem) hfd h1, readDevice, setMem_current, hfops]
  refine ⟨fun mem => by rw [hfile mem]; rfl, fun hnone => ?_⟩
  obtain ⟨-, -, hpos, -⟩ := hnone k.mem (fsRead E fd.toNat buf nbytes (k.setMem k.mem)).1
    (fsRead E fd.toNat buf nbytes (k.setMem k.mem)).2 (hfile k.mem)
  exact fsRead_negative (k := k.setMem k.mem) hlo hneg hinode hleft hpos

/-- A typed byte reaches the caller's buffer. -/
theorem transfers_term (hfd : LiveFd k.current.files fd) (h1 : fd ≠ 1) (hlo : -2 ^ 31 ≤ nbytes)
    (hneg : nbytes < 0) (hfops : (k.current.files fd.toNat).fops = some .term) (hbuf : buf ≠ 0)
    (henter : (k.terminals k.current.termNum.toNat).hitEnter = true) :
    Transfers E k fd buf nbytes := by
  have hterm : ∀ mem, readFile E fd buf nbytes (k.setMem mem) =
      terminalRead buf nbytes (k.setMem mem) := by
    intro mem
    rw [readFile_of_live (k := k.setMem mem) hfd h1, readDevice, setMem_current, hfops]
  have hcopy : ∀ mem, ∃ r k', terminalRead buf nbytes (k.setMem mem) = some (r, k') ∧
      k'.userMem k.running buf = (k.terminals k.current.termNum.toNat).lineBuf 0 :=
    fun mem => terminalRead_negative (k := k.setMem mem) hlo hneg hbuf henter
  refine ⟨fun mem => ?_, fun hnone => ?_⟩
  · obtain ⟨r, k', hret, -⟩ := hcopy mem
    rw [hterm mem, hret]
    rfl
  · -- a memory that does not hold the typed byte already
    obtain ⟨r, k', hret, hbyte⟩ :=
      hcopy fun _ => (k.terminals k.current.termNum.toNat).lineBuf 0 + 1
    obtain ⟨-, hmem, -⟩ := hnone _ r k' (by rw [hterm, hret])
    rw [hmem] at hbyte
    simp only [Kernel.setMem, Function.update_self] at hbyte
    exact absurd hbyte (by simp)

/-- Every call that is not refused returns, and transfers something. -/
theorem transfers_of_not_refused (hfd : LiveFd k.current.files fd) (hav : Available E k fd)
    (hlo : -2 ^ 31 ≤ nbytes) (hneg : nbytes < 0) (h : ¬ Refused k fd buf) :
    Transfers E k fd buf nbytes := by
  have h1 : fd ≠ 1 := fun h1 => h (Or.inl h1)
  cases hav with
  | dir hfops hentry => exact transfers_dir hfd h1 hfops
  | file hfops hinode hleft => exact transfers_file hfd h1 hlo hneg hfops hinode hleft
  | term hfops henter hcount =>
    have hbuf : buf ≠ 0 := fun hbuf => h (Or.inr ⟨hfops, hbuf⟩)
    exact transfers_term hfd h1 hlo hneg hfops hbuf henter

/-- **A negative length transfers nothing exactly if the call is refused for another reason.**  The
call returns in any case; `read` refuses the standard output and the terminal the null pointer. -/
theorem nothingTransferred_iff (hfd : LiveFd k.current.files fd) (hav : Available E k fd)
    (hlo : -2 ^ 31 ≤ nbytes) (hneg : nbytes < 0) :
    (∀ mem, (readFile E fd buf nbytes (k.setMem mem)).isSome = true) ∧
      (NothingTransferred E k fd buf nbytes ↔ Refused k fd buf) := by
  by_cases h : Refused k fd buf
  · refine ⟨fun mem => ?_, fun _ => h, fun _ => nothingTransferred_of_refused hfd h⟩
    rw [readFile_refused hfd h mem]
    rfl
  · obtain ⟨hsome, hnot⟩ := transfers_of_not_refused hfd hav hlo hneg h
    exact ⟨hsome, fun hnone => absurd hnone hnot, fun href => absurd href h⟩

end Reads

/-! ### A file read of -1 bytes -/

/-- The first shell of the small machine after it has opened the file `shell`. -/
def shellOpened : Kernel := smallState [.key 0, .openFile shell]

theorem shellOpened_liveFd : LiveFd shellOpened.current.files 2 where
  nonneg := by decide
  lt := by decide
  live := by decide +kernel
  fops := by decide +kernel
  pos := by decide +kernel

theorem shellOpened_available : Available small shellOpened 2 :=
  .file (by decide +kernel) (by decide +kernel) (by decide +kernel)

/-- The whole file is read. -/
theorem negativeRead_transfers :
    Reachable small shellOpened ∧ LiveFd shellOpened.current.files 2 ∧
      Available small shellOpened 2 ∧
        ¬ NothingTransferred small shellOpened 2 0x8000000 (-1) := by
  have hreach : (run (step small) (boot small) [.key 0, .openFile shell]).isSome = true := by
    decide +kernel
  have hserved : ¬ Refused shellOpened 2 0x8000000 := by
    rintro (h | ⟨-, h⟩)
    · exact absurd h (by decide)
    · exact absurd h (by decide)
  have hlo : -2 ^ 31 ≤ (-1 : ℤ) := by norm_num
  have htransferred := transfers_of_not_refused shellOpened_liveFd shellOpened_available hlo
    (by decide) hserved
  exact ⟨smallState_reachable hreach, shellOpened_liveFd, shellOpened_available, htransferred.2⟩

theorem shellOpened_nothingTransferred_iff :
    (∀ mem, (readFile small 2 0x8000000 (-1) (shellOpened.setMem mem)).isSome = true) ∧
      (NothingTransferred small shellOpened 2 0x8000000 (-1) ↔
        Refused shellOpened 2 0x8000000) :=
  nothingTransferred_iff shellOpened_liveFd shellOpened_available (by norm_num) (by norm_num)

end LinuxIsLove
