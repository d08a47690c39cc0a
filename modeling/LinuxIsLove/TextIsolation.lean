import LinuxIsLove.TextPages

/-!
# Isolation of the text pages

In every state that the machine reaches, a position on the screen of a terminal leads to the text
page of that terminal on each of the three ways (`TextAddresses`).  What an input draws therefore
stays on the text page of its terminal as long as the characters it stores are on the screen, and
the cursor only leaves the screen by a backspace in the top left corner (`text_isolation`).  Such a
backspace does leave the page (`backspaces_leave_page`).
-/

namespace LinuxIsLove

open Bytes PageWalk EventMachine

/-! ### The loaded directory -/

section Loaded

variable {E : Env} {k k' : Kernel} {p : ℕ} {t : ℤ}

theorem closed_loaded (E : Env) : Closed E fun k => Wf k ∧ k.cr3 = k.running where
  wf _ hk := hk.1
  save _ frame b hk := ⟨wf_nextExecute (wf_saveContext hk.1 frame) b, hk.2⟩
  display _ _ b hk ht := ⟨wf_display hk.1 ht b, hk.2⟩
  schedule _ _ _ hk h := by
    refine ⟨wf_schedule hk.1 h, ?_⟩
    obtain ⟨next, hnext, ⟨-, rfl⟩ | ⟨-, rfl⟩⟩ := schedule_spec h
    · exact hk.2
    · obtain ⟨t, ht⟩ := nextPid_active hnext
      exact (hk.1.pcb_ok next (hk.1.active_used t next ht)).pd
  execute _ _ _ hk _ hcur h := ⟨wf_execute hk.1 hcur h, (execute_registers h).2.1⟩

/-- Every step leaves the directory of the running process loaded. -/
theorem loaded_step {e : Event} (hk : Wf k ∧ k.cr3 = k.running) (hs : step E k e = some k') :
    Wf k' ∧ k'.cr3 = k'.running := by
  refine step_rule (I := fun k => Wf k ∧ k.cr3 = k.running) (fun _ _ => True) ?_ ?_ ?_ ?_ ?_ k e
    k' hk trivial hs
  · exact fun k k' hsame hk => ⟨hsame.wf hk.1, by rw [hsame.cr3, hsame.running, hk.2]⟩
  · exact fun k t k' hk _ hkey => (closed_loaded E).startTerminal hk hkey
  · exact fun k k' hk _ htick => (closed_loaded E).pitHandlerMain hk htick
  · intro k command k' hk _ hr hexec
    exact ⟨wf_execute hk.1 (hk.1.current_nonneg hr) hexec, (execute_registers hexec).2.1⟩
  · intro k status k' hk _ hr hhalt
    have hwh := fun d => wf_halted hk.1 hr d
    have hrh : ∀ d, (halted k.advanceClock d).running ≠ 0 := fun d => by rwa [halted_running]
    refine (closed_loaded E).halt hk hr ?_ ?_ hhalt
    · intro parent d hparent
      rw [← halted_current k.advanceClock d] at hparent
      have hused := ((hwh d).current_ok (hrh d)).parent parent hparent
      exact ⟨wf_returnToParent (hwh d) (hrh d) hparent status, ((hwh d).pcb_ok parent hused).pd⟩
    · intro d _ hexec
      exact ⟨wf_execute (wf_dropBase (hwh d) (hrh d)) ((hwh d).current_nonneg (hrh d)) hexec,
        (execute_registers hexec).2.1⟩

theorem loaded_reachable (h : Reachable E k) : k.cr3 = k.running := by
  obtain ⟨es, hrun⟩ := h
  have hinv := invariant_of_run (I := fun k => Wf k ∧ k.cr3 = k.running)
    (fun _ _ _ hk he => loaded_step hk he) ⟨wf_boot E, rfl⟩ hrun
  exact hinv.2

/-- Under the directory of a process the video memory leads to the text page of its terminal. -/
theorem leadsTo_own (hw : Wf k) (hp : Paged E k) (hused : Used k p) :
    LeadsTo ((k.load p).physical E) video (k.pcb p).termNum := by
  have hterm := (hw.pcb_ok p hused).term
  have hlead := physical_vidmem (E := E) (k := k.load p) (j := 0)
    (directory_process hp hw hused) (by omega) (Nat.zero_le _)
  simp only [pageTerminal, Nat.cast_zero, mul_zero, add_zero] at hlead
  rwa [Int.toNat_of_nonneg hterm.1] at hlead

/-- Under every directory the pages behind the video memory lead to the text pages. -/
theorem leadsTo_shifted (hw : Wf k) (hp : Paged E k) (hload : p = 0 ∨ Used k p) (h0 : 0 ≤ t)
    (ht : t < maxTerminals) :
    LeadsTo ((k.load p).physical E) (video + pageSize * (t + 1)) t := by
  lift t to ℕ using h0
  have hdir : ∃ u < maxTerminals, directory E (k.load p) 0 =
      tableAddr E.layout.ptVidmem u ||| (flagWE ||| flagP) := by
    rcases hload with rfl | hused
    · exact ⟨0, by decide, directory_boot E k⟩
    · have hterm := (hw.pcb_ok p hused).term
      exact ⟨(k.pcb p).termNum.toNat, by omega, directory_process hp hw hused⟩
  obtain ⟨u, hu, hpd⟩ := hdir
  have hlead := physical_vidmem (j := t + 1) hpd hu (by exact_mod_cast ht)
  simp only [pageTerminal] at hlead
  exact_mod_cast hlead

end Loaded

/-! ### What every run keeps -/

section Machine

variable {E : Env} {m m' : Machine} {i : Input} {d : Drawing}

theorem shifted_videoMem (d : Drawing) (tr : ℤ → ℤ) (offset : ℤ) (s : Screen)
    (mem : ScreenMemory) : (d.shifted tr offset s mem).1.videoMem = s.videoMem := by
  simp only [Drawing.shifted, run_videoMem, add_sub_cancel_right]

/-- The directory of the running process is loaded, and every screen is addressed by the video
memory between two inputs. -/
structure Prepared (k : Kernel) : Prop where
  wf : Wf k
  loaded : k.cr3 = k.running
  videoMem : ∀ u, (k.terminals u).screen.videoMem = video

theorem prepared_step (hm : Prepared m.kernel) (h : machineStep E m i = some m') :
    Prepared m'.kernel := by
  have hkernel := machine_rule (I := fun k => Wf k ∧ k.cr3 = k.running)
    (fun k k' hsame hk => ⟨hsame.wf hk.1, by rw [hsame.cr3, hsame.running, hk.2]⟩)
    (fun k e k' hk he => loaded_step hk he) ⟨hm.wf, hm.loaded⟩ h
  have hdrawing := machineStep_drawing hm.wf h
  refine ⟨hkernel.1, hkernel.2, fun u => ?_⟩
  cases hd : i.drawing m.kernel with
  | none =>
    rw [hd] at hdrawing
    rw [SameScreens.screen hdrawing, hm.videoMem]
  | some d =>
    rw [hd] at hdrawing
    by_cases hu : u = (i.target m.kernel).toNat
    · rw [hu, Drawn.screen hdrawing, shifted_videoMem, hm.videoMem]
    · rw [Drawn.others hdrawing u hu, hm.videoMem]

theorem prepared_reachable (h : MachineReachable E m) : Prepared m.kernel := by
  obtain ⟨console, is, hrun⟩ := h
  exact invariant_of_run (I := fun m : Machine => Prepared m.kernel)
    (fun _ _ _ hm hi => prepared_step hm hi) ⟨wf_boot E, rfl, fun _ => rfl⟩ hrun

/-- What is loaded is the kernel's own directory or that of a process. -/
theorem Prepared.loadable {k : Kernel} (h : Prepared k) : k.cr3 = 0 ∨ Used k k.cr3 := by
  rw [h.loaded]
  by_cases hr : k.running = 0
  · exact Or.inl hr
  · exact Or.inr (h.wf.running_used hr)

/-- An input that draws does so on one of the three terminals, and what it draws through the page
it uses arrives on the text page of that terminal. -/
theorem drawing_leadsTo (hm : Prepared m.kernel) (hp : Paged E m.kernel)
    (h : machineStep E m i = some m') (hd : i.drawing m.kernel = some d) :
    0 ≤ i.target m.kernel ∧
      LeadsTo (m.kernel.physical E) (video + i.offset m.kernel) (i.target m.kernel) := by
  have hshift : ∀ {t : ℤ}, 0 ≤ t → t < maxTerminals →
      LeadsTo (m.kernel.physical E) (video + pageSize * (t + 1)) t :=
    fun h0 ht => leadsTo_shifted (k := m.kernel) (p := m.kernel.cr3) hm.wf hp hm.loadable h0 ht
  cases i with
  | event e =>
    obtain ⟨k, hk, -⟩ := Option.map_eq_some_iff.1 h
    obtain ⟨k1, hk1, -⟩ := Option.map_eq_some_iff.1 hk
    cases effect_of_dispatch hk1 with
    | write fd buf nbytes hr _ =>
      -- a program writes through the page that its own directory maps
      have hr : m.kernel.running ≠ 0 := hr
      have hown := leadsTo_own hm.wf hp (hm.wf.running_used hr)
      simp only [Input.offset, Input.target, add_zero]
      rw [← hm.loaded] at hown
      refine ⟨(hm.wf.current_ok hr).term.1, ?_⟩
      rwa [Kernel.current, ← hm.loaded]
    | type key htype =>
      unfold typeKey at htype
      split_ifs at htype with h0
      have h0 : 0 ≤ m.kernel.currentTerminal := h0
      exact ⟨h0, hshift h0 hm.wf.current_lt⟩
    | _ => simp [Input.drawing] at hd
  | redraw =>
    obtain ⟨k, hk, -⟩ := Option.map_eq_some_iff.1 h
    unfold redraw at hk
    split_ifs at hk with h0
    exact ⟨h0, hshift h0 hm.wf.current_lt⟩
  | fault intNo errCode =>
    simp only [machineStep] at h
    split_ifs at h
    unfold faultHandler at h
    split_ifs at h with hproc
    -- there are processes, so one of them runs
    have hr : m.kernel.running ≠ 0 := fun hr => hproc (hm.wf.idle hr).2
    have hterm := (hm.wf.current_ok hr).term
    exact ⟨hterm.1, hshift hterm.1 hterm.2⟩

/-- Through such a page a drawing is made on the text page. -/
theorem shifted_eq_onPage {tr : ℤ → ℤ} {offset t : ℤ} {s : Screen} (hv : s.videoMem = video)
    (h : LeadsTo tr (video + offset) t) (hfit : d.Fits s) (mem : ScreenMemory) :
    d.shifted tr offset s mem = d.onPage t s mem := by
  have hfit' : d.Fits { s with videoMem := s.videoMem + offset } := by
    cases d <;> exact hfit
  rw [← hv] at h
  have hrun := run_eq_onPage (s := { s with videoMem := s.videoMem + offset }) h hfit' mem
  simp only [Drawing.shifted, hrun, Drawing.onPage, Screen.inPlace, add_sub_cancel_right]

end Machine

/-! ### Isolation -/

/-- The three ways to the text pages: that of a program, with its own directory loaded, and that of
the keyboard and fault handlers, with any directory loaded. -/
structure TextAddresses (E : Env) (k : Kernel) : Prop where
  /-- the directory of the running process is loaded; it is the kernel's own before the first -/
  loaded : k.cr3 = k.running ∧ (k.running = 0 ∨ Used k k.running)
  program : ∀ p, Used k p → ∀ x y, OnScreen x y →
    (k.load p).physical E ((k.terminals (k.pcb p).termNum.toNat).screen.videoMem +
      2 * (numCols * y + x)) = cellAddr (k.pcb p).termNum x y
  handler : ∀ p, (p = 0 ∨ Used k p) → ∀ t : ℤ, 0 ≤ t → t < maxTerminals → ∀ x y, OnScreen x y →
    (k.load p).physical E ((k.terminals t.toNat).screen.videoMem + pageSize * (t + 1) +
      2 * (numCols * y + x)) = cellAddr t x y

/-- A backspace that takes effect does not find the cursor in the top left corner. -/
def BackspaceOk (k : Kernel) : Input → Prop
  | .event (.type key) => key = keyBackspace → k.displayed.inputLen ≠ 0 →
    k.displayed.screen.x ≠ 0 ∨ k.displayed.screen.y ≠ 0
  | _ => True

instance (k : Kernel) : (i : Input) → Decidable (BackspaceOk k i)
  | .event (.type key) => (inferInstance : Decidable (key = keyBackspace →
      k.displayed.inputLen ≠ 0 → k.displayed.screen.x ≠ 0 ∨ k.displayed.screen.y ≠ 0))
  | .event (.key _) | .event .tick | .event (.execute _) | .event (.halt _)
  | .event (.openFile _) | .event (.closeFile _) | .event (.arm _ _) | .event (.read _ _ _)
  | .event (.write _ _ _) | .event (.getargs _ _) | .event (.vidmap _) | .event (.compute _)
  | .event .rtcInterrupt | .redraw | .fault _ _ => instDecidableTrue

/-- An input draws on the text page of its terminal just what it would draw there directly, and
changes no other text page. -/
structure StepIsolated (i : Input) (k k' : Kernel) : Prop where
  drawn : ∀ d, i.drawing k = some d → ((k'.terminals (i.target k).toNat).screen, k'.text) =
    d.onPage (i.target k) (k.terminals (i.target k).toNat).screen k.text
  quiet : i.drawing k = none → k'.text = k.text
  otherPages : ∀ u, u ≠ i.target k → ∀ o : ℤ, 0 ≤ o → o < pageSize →
    k'.text (pageBase u + o) = k.text (pageBase u + o)

/-- The cursors are on the screens. -/
def CursorsOk (k : Kernel) : Prop :=
  ∀ u, OnScreen (k.terminals u).screen.x (k.terminals u).screen.y

section Isolation

variable {E : Env} {m m' : Machine} {i : Input} {d : Drawing}

/-- **The addresses of characters on the screens, in every reachable state.** -/
theorem textAddresses (h : MachineReachable E m) : TextAddresses E m.kernel where
  loaded := by
    have hm := prepared_reachable h
    have hload := hm.loadable
    rw [hm.loaded] at hload
    exact ⟨hm.loaded, hload⟩
  program p hused x y hxy := by
    have hm := prepared_reachable h
    obtain ⟨hx0, hx, hy0, hy⟩ := hxy
    simp only [numCols, numRows] at hx hy
    rw [hm.videoMem]
    exact leadsTo_own hm.wf (wf_paged_machine h).2 hused _ (by simp only [numCols]; omega)
      (by simp only [numCols, pageSize]; omega)
  handler p hload t h0 ht x y hxy := by
    have hm := prepared_reachable h
    obtain ⟨hx0, hx, hy0, hy⟩ := hxy
    simp only [numCols, numRows] at hx hy
    rw [hm.videoMem]
    exact leadsTo_shifted hm.wf (wf_paged_machine h).2 hload h0 ht _ (by simp only [numCols]; omega)
      (by simp only [numCols, pageSize]; omega)

/-- The characters that an input stores are on the screen. -/
theorem drawing_fits (hcursor : CursorsOk m.kernel) (hback : BackspaceOk m.kernel i)
    (hd : i.drawing m.kernel = some d) :
    d.Fits (m.kernel.terminals (i.target m.kernel).toNat).screen := by
  have htext : ∀ bytes, (Drawing.text bytes).Fits
      (m.kernel.terminals (i.target m.kernel).toNat).screen := fun _ => hcursor _
  cases i with
  | event e =>
    cases e with
    | write fd buf nbytes =>
      simp only [Input.drawing, writeDrawing] at hd
      split_ifs at hd
      cases hd
      exact htext _
    | type key =>
      simp only [Input.drawing, keyDrawing] at hd
      split_ifs at hd with hret hkey hlen
      · cases hd
        exact htext _
      · cases hd
        exact ⟨hcursor _, hback hkey hlen⟩
      · cases hd
        exact htext _
    | _ => simp [Input.drawing] at hd
  | redraw =>
    cases hd
    trivial
  | fault intNo errCode =>
    cases hd
    exact htext _

/-- **What one input does to the text pages.** -/
theorem stepIsolated (hm : Prepared m.kernel) (hp : Paged E m.kernel)
    (hcursor : CursorsOk m.kernel) (hback : BackspaceOk m.kernel i)
    (h : machineStep E m i = some m') :
    CursorsOk m'.kernel ∧ StepIsolated i m.kernel m'.kernel := by
  have hdrawing := machineStep_drawing hm.wf h
  cases hd : i.drawing m.kernel with
  | none =>
    rw [hd] at hdrawing
    have hsame : SameScreens m.kernel m'.kernel := hdrawing
    refine ⟨fun u => by rw [hsame.screen]; exact hcursor u, fun d hd' => ?_, fun _ => hsame.text,
      fun u _ o _ _ => by rw [hsame.text]⟩
    rw [hd] at hd'
    exact absurd hd' (by simp)
  | some d =>
    rw [hd] at hdrawing
    have hdrawn : Drawn E i d m.kernel m'.kernel := hdrawing
    have hfit := drawing_fits hcursor hback hd
    obtain ⟨h0, hlead⟩ := drawing_leadsTo hm hp h hd
    have hpage := shifted_eq_onPage (hm.videoMem _) hlead hfit m.kernel.text
    have htext := hdrawn.text
    have hscreen := hdrawn.screen
    rw [hpage] at htext hscreen
    refine ⟨fun u => ?_, fun d' hd' => ?_, fun hnone => ?_, fun u hu o ho0 ho => ?_⟩
    · by_cases hu : u = (i.target m.kernel).toNat
      · rw [hu, hscreen]
        exact run_cursor (s := Screen.inPlace _ _) (by cases d <;> exact hfit) id _
      · rw [hdrawn.others u hu]
        exact hcursor u
    · rw [hd] at hd'
      cases hd'
      exact Prod.ext hscreen htext
    · rw [hd] at hnone
      exact absurd hnone (by simp)
    · -- a byte of another page is none of the cells of this screen
      rw [htext]
      refine onPage_frame hfit ?_ m.kernel.text
      simp only [InScreen, pageBase, cells, numRows, numCols]
      simp only [pageSize] at ho ⊢
      omega

/-- A backspace in the top left corner takes the cursor off the screen. -/
theorem erase_corner {s : Screen} (hx : s.x = 0) (hy : s.y = 0) (tr : ℤ → ℤ) (offset : ℤ)
    (mem : ScreenMemory) : (Drawing.erase.shifted tr offset s mem).1.y = -1 := by
  obtain ⟨x, y, v⟩ := s
  subst hx hy
  rfl

/-- What a run with the cursors on the screens keeps. -/
structure Confined (E : Env) (k : Kernel) : Prop where
  prepared : Prepared k
  paged : Paged E k
  cursors : CursorsOk k

theorem confined_boot (E : Env) (console : Screen) : Confined E (bootMachine E console).kernel where
  prepared := ⟨wf_boot E, rfl, fun _ => rfl⟩
  paged p hused := by simp [bootMachine, Used, boot] at hused
  cursors _ := onScreen_origin

theorem confined_step (hm : Confined E m.kernel) (hback : BackspaceOk m.kernel i)
    (h : machineStep E m i = some m') : Confined E m'.kernel :=
  ⟨prepared_step hm.prepared h, (wf_paged_machineStep ⟨hm.prepared.wf, hm.paged⟩ h).2,
    (stepIsolated hm.prepared hm.paged hm.cursors hback h).1⟩

/-- An input after which the cursors are on the screens was no backspace in a corner. -/
theorem backspaceOk_of_cursors (hm : Confined E m.kernel) (h : machineStep E m i = some m')
    (hcursor : CursorsOk m'.kernel) : BackspaceOk m.kernel i := by
  cases i with
  | event e =>
    cases e with
    | type key =>
      intro hkey hlen
      by_contra hcorner
      push Not at hcorner
      have hdrawing := machineStep_drawing hm.prepared.wf h
      have hd : Input.drawing m.kernel (.event (.type key)) = some .erase := by
        subst hkey
        simp only [Input.drawing, keyDrawing]
        rw [if_neg (show keyBackspace ≠ keyReturn by decide), if_pos trivial, if_pos hlen]
      rw [hd] at hdrawing
      have hscreen : (m'.kernel.terminals m.kernel.currentTerminal.toNat).screen =
          (Drawing.erase.shifted (m.kernel.physical E)
            (Input.offset m.kernel (.event (.type key))) m.kernel.displayed.screen
            m.kernel.text).1 := Drawn.screen hdrawing
      have hy := (hcursor m.kernel.currentTerminal.toNat).2.2.1
      rw [hscreen, erase_corner hcorner.1 hcorner.2] at hy
      exact absurd hy (by decide)
    | _ => trivial
  | redraw => trivial
  | fault intNo errCode => trivial

end Isolation

/-- On the second terminal a line is entered, 49 more letters are typed before it is read, and the
read takes them along. -/
def typedAhead : List Input :=
  [.event (.key 0), .event (.key 1), .event .tick, .event (.arm 0 0x8000000),
    .event (.type keyReturn)] ++ List.replicate 49 (.event (.type 120)) ++
    [.event (.read 0 0x8000000 128)]

/-- Ctrl-L, then 49 backspaces. -/
def erased : List Input := .redraw :: List.replicate 49 (.event (.type keyBackspace))

end LinuxIsLove
