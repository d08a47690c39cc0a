import LinuxIsLove.LineBuffer

/-!
# The handshake between Enter and `terminal_read`

Before it waits, `terminal_read` sets `reading` and then clears `hit_enter`; after it has taken the
buffer it clears `reading` and then `hit_enter` again.  Here these are steps of their own, taken by
any number of readers of one terminal, and keys are handled between any two of them.

`pending` is not part of the source.  It records that Enter was handled while `reading` was set and
that no reader has taken the buffer since.  A line is lost to a reader exactly when `hit_enter` is
cleared over a pending Enter, either by a reader that is about to wait or by one that has finished
while another waits: `noLostEnter_iff`.
-/

namespace LinuxIsLove

open Bytes EventMachine

/-! ### The assignments of `terminal_read` -/

def setReading (t : Terminal) (b : Bool) : Terminal := { t with reading := b }

def clearEnter (t : Terminal) : Terminal := { t with hitEnter := false }

theorem clearEnter_armed (t : Terminal) : clearEnter (setReading t true) = armRead t := rfl

theorem clearEnter_disarmed (t : Terminal) : clearEnter (setReading t false) = disarmRead t := rfl

/-- Where a reader is: behind the assignment, the loop or the section that the name tells. -/
inductive ReadStage
  | idle
  | armed (nbytes : ℤ)
  | spinning (nbytes : ℤ)
  | released (nbytes : ℤ)
  | drained
  | disarmed

structure Handshake where
  term : Terminal
  text : ScreenMemory
  stage : ℕ → ReadStage
  pending : Bool

inductive HandshakeOp
  | key (key : ℕ)
  /-- `reading = 1`, in a read of `nbytes` bytes -/
  | setReading (r : ℕ) (nbytes : ℤ)
  /-- `hit_enter = 0` before the loop -/
  | clearEnter (r : ℕ)
  /-- the loop sees that `hit_enter` is set -/
  | leave (r : ℕ)
  /-- the `cli`..`sti` section -/
  | drain (r : ℕ)
  /-- `reading = 0` -/
  | unsetReading (r : ℕ)
  /-- `hit_enter = 0` at the end -/
  | finish (r : ℕ)

namespace Handshake

/-- A reader goes on. -/
def move (s : Handshake) (r : ℕ) (stage : ReadStage) (term : Terminal) : Handshake :=
  { s with term := term, stage := Function.update s.stage r stage }

/-- A key is handled on the terminal. -/
def typed (D : Display) (s : Handshake) (key : ℕ) : Handshake :=
  let r := update D.tr D.currentTerminal 4096 key s.term s.text
  { s with
    term := r.1
    text := r.2
    pending := s.pending || (decide (key = keyReturn) && s.term.reading) }

end Handshake

def handshakeStep (D : Display) (s : Handshake) : HandshakeOp → Option Handshake
  | .key key => some (s.typed D key)
  | .setReading r nbytes =>
    match s.stage r with
    | .idle => some (s.move r (.armed nbytes) (setReading s.term true))
    | _ => none
  | .clearEnter r =>
    match s.stage r with
    | .armed nbytes => some (s.move r (.spinning nbytes) (clearEnter s.term))
    | _ => none
  | .leave r =>
    match s.stage r with
    | .spinning nbytes =>
      if s.term.hitEnter then some (s.move r (.released nbytes) s.term) else none
    | _ => none
  | .drain r =>
    match s.stage r with
    | .released nbytes =>
      some { s.move r .drained (drain s.term nbytes fun _ => 0).2.2 with pending := false }
    | _ => none
  | .unsetReading r =>
    match s.stage r with
    | .drained => some (s.move r .disarmed (setReading s.term false))
    | _ => none
  | .finish r =>
    match s.stage r with
    | .disarmed => some (s.move r .idle (clearEnter s.term))
    | _ => none

/-- A terminal as the initialization leaves it, with no reader. -/
def handshakeInit (D : Display) : Handshake := ⟨kybdInit D.videoMem, D.text, fun _ => .idle, false⟩

/-- A pending Enter releases every reader that waits. -/
def NoLostEnter (s : Handshake) : Prop :=
  s.pending = true → ∀ r nbytes, s.stage r = .spinning nbytes → s.term.hitEnter = true

/-- `hit_enter` is not cleared over a pending Enter by a reader that is about to wait, nor by one
that has finished while another one waits. -/
def HandshakeOk (s : Handshake) : HandshakeOp → Prop
  | .clearEnter _ => s.pending = false
  | .finish _ => s.pending = true → ∀ q nbytes, s.stage q ≠ .spinning nbytes
  | _ => True

/-! ### Keys and drains -/

section Keys

variable {D : Display} {s : Handshake} {key : ℕ}

/-- Enter sets `hit_enter`; no other key changes it. -/
theorem hitEnter_update (tr : ℤ → ℤ) (currentTerminal pageSize : ℤ) (key : ℕ) (t : Terminal)
    (mem : ScreenMemory) :
    (update tr currentTerminal pageSize key t mem).1.hitEnter =
      (decide (key = keyReturn) || t.hitEnter) := by
  obtain ⟨screen, hscreen⟩ := updateScreen_eq tr currentTerminal pageSize key t mem
  have hupdate : (update tr currentTerminal pageSize key t mem).1 =
      updateBuffer key (updateScreen tr currentTerminal pageSize key t mem).1 := rfl
  rw [hupdate, hscreen, updateBuffer_screen]
  show (updateBuffer key t).hitEnter = _
  by_cases hkey : key = keyReturn
  · subst hkey
    rw [decide_eq_true rfl, Bool.true_or]
    simp only [updateBuffer, if_true]
    split_ifs <;> simp only [Terminal.clearBytes]
  · rw [decide_eq_false hkey, updateBuffer, if_neg hkey, Bool.false_or]
    split_ifs <;>
      simp only [Terminal.storeByte, Terminal.incrBufCount, Terminal.decrBufCount]

/-- A key never loses an Enter. -/
theorem noLostEnter_typed (hs : NoLostEnter s) : NoLostEnter (s.typed D key) := by
  intro hpending r nbytes hspin
  show (update D.tr D.currentTerminal 4096 key s.term s.text).1.hitEnter = true
  rw [hitEnter_update, Bool.or_eq_true, decide_eq_true_eq]
  have hcases : s.pending = true ∨ key = keyReturn ∧ s.term.reading = true := by
    simpa only [Handshake.typed, Bool.or_eq_true, Bool.and_eq_true, decide_eq_true_eq]
      using hpending
  rcases hcases with hold | ⟨hkey, -⟩
  · exact Or.inr (hs hold r nbytes hspin)
  · exact Or.inl hkey

end Keys

/-! ### Steps and runs -/

section Steps

variable {D : Display} {s s' : Handshake} {r : ℕ} {stage : ReadStage} {term : Terminal}

/-- A reader that goes on to a place outside the loop loses no Enter if `hit_enter` stays. -/
theorem noLostEnter_move (hs : NoLostEnter s) (hstage : ∀ nbytes, stage ≠ .spinning nbytes)
    (hterm : term.hitEnter = s.term.hitEnter) : NoLostEnter (s.move r stage term) := by
  intro hpending q nbytes hspin
  show term.hitEnter = true
  by_cases hq : q = r
  · subst hq
    simp only [Handshake.move, Function.update_self] at hspin
    exact absurd hspin (hstage nbytes)
  · simp only [Handshake.move, Function.update_of_ne hq] at hspin
    rw [hterm]
    exact hs hpending q nbytes hspin

/-- A reader that is about to wait loses an Enter exactly if one is pending. -/
theorem noLostEnter_clearEnter (nbytes : ℤ) :
    NoLostEnter (s.move r (.spinning nbytes) (clearEnter s.term)) ↔ s.pending = false := by
  constructor
  · intro h
    by_contra hpending
    have henter := h (Bool.not_eq_false _ ▸ hpending) r nbytes (Function.update_self ..)
    exact Bool.false_ne_true henter
  · intro h hpending
    have hp : s.pending = true := hpending
    rw [h] at hp
    exact absurd hp (by decide)

/-- A reader that has finished loses an Enter exactly if one is pending that another reader waits
for. -/
theorem noLostEnter_finish (hr : s.stage r = .disarmed) :
    NoLostEnter (s.move r .idle (clearEnter s.term)) ↔
      (s.pending = true → ∀ q nbytes, s.stage q ≠ .spinning nbytes) := by
  constructor
  · intro h hpending q nbytes hspin
    -- a reader that waits is another one
    have hq : q ≠ r := by
      rintro rfl
      rw [hr] at hspin
      exact absurd hspin (by simp)
    have henter := h hpending q nbytes ((Function.update_of_ne hq ..).trans hspin)
    exact Bool.false_ne_true henter
  · intro h hpending q nbytes hspin
    by_cases hq : q = r
    · subst hq
      simp only [Handshake.move, Function.update_self] at hspin
      exact absurd hspin (by simp)
    · simp only [Handshake.move, Function.update_of_ne hq] at hspin
      exact absurd hspin (h hpending q nbytes)

/-- A step loses an Enter exactly if it does not meet the condition. -/
theorem handshakeStep_noLostEnter {e : HandshakeOp} (hs : NoLostEnter s)
    (h : handshakeStep D s e = some s') : NoLostEnter s' ↔ HandshakeOk s e := by
  cases e with
  | key key =>
    cases h
    exact iff_of_true (noLostEnter_typed hs) trivial
  | setReading r nbytes =>
    simp only [handshakeStep] at h
    split at h
    next =>
      cases h
      exact iff_of_true (noLostEnter_move hs (by simp) rfl) trivial
    next => exact absurd h (by simp)
  | clearEnter r =>
    simp only [handshakeStep] at h
    split at h
    next nbytes hr =>
      cases h
      exact noLostEnter_clearEnter nbytes
    next => exact absurd h (by simp)
  | leave r =>
    simp only [handshakeStep] at h
    split at h
    next nbytes hr =>
      split_ifs at h
      cases h
      exact iff_of_true (noLostEnter_move hs (by simp) rfl) trivial
    next => exact absurd h (by simp)
  | drain r =>
    simp only [handshakeStep] at h
    split at h
    next nbytes hr =>
      cases h
      exact iff_of_true (fun hpending => absurd hpending Bool.false_ne_true) trivial
    next => exact absurd h (by simp)
  | unsetReading r =>
    simp only [handshakeStep] at h
    split at h
    next =>
      cases h
      exact iff_of_true (noLostEnter_move hs (by simp) rfl) trivial
    next => exact absurd h (by simp)
  | finish r =>
    simp only [handshakeStep] at h
    split at h
    next hr =>
      cases h
      exact noLostEnter_finish hr
    next => exact absurd h (by simp)

/-- **No Enter is lost exactly along the runs that meet the condition.**  In every interleaving of
keys with the assignments of any number of readers, an Enter that was handled while `reading` was
set releases the readers that wait, until one of them takes the buffer, if and only if `hit_enter`
is never cleared over a pending Enter by a reader that is about to wait, or by one that has finished
while another waits. -/
theorem noLostEnter_iff (D : Display) (es : List HandshakeOp) :
    (∀ fs s, fs <+: es → run (handshakeStep D) (handshakeInit D) fs = some s → NoLostEnter s) ↔
      Guarded (handshakeStep D) HandshakeOk (handshakeInit D) es := by
  apply guarded_iff_forall_prefix (I := NoLostEnter) (fun _ hs => hs)
  · intro s e s' hs hgood h
    exact (handshakeStep_noLostEnter hs h).2 hgood
  · intro s e s' hs h hs'
    exact (handshakeStep_noLostEnter hs h).1 hs'
  · exact fun hpending => absurd hpending Bool.false_ne_true

/-- Enter is typed between the two assignments before the loop. -/
def enterAtOnce : List HandshakeOp := [.setReading 0 128, .key keyReturn, .clearEnter 0]

/-- A line is read, and Enter is typed between the drain and `reading = 0`; then the next read
begins. -/
def enterAfterDrain : List HandshakeOp :=
  [.setReading 0 128, .clearEnter 0, .key keyReturn, .leave 0, .drain 0, .key keyReturn,
    .unsetReading 0, .finish 0, .setReading 0 128, .clearEnter 0]

/-- A reader waits with `hit_enter` cleared for a line that has been committed. -/
structure LostEnter (s : Handshake) : Prop where
  pending : s.pending = true
  waiting : s.stage 0 = .spinning 128
  cleared : s.term.hitEnter = false
  committed : 0 < s.term.bufCount

theorem LostEnter.not_noLostEnter (h : LostEnter s) : ¬ NoLostEnter s := by
  intro hno
  have henter := hno h.pending 0 128 h.waiting
  rw [h.cleared] at henter
  exact absurd henter (by decide)

/-- In both runs a line is lost to the only reader. -/
theorem lostEnter :
    (∃ s, run (handshakeStep ⟨id, 0, 0, fun _ => 0⟩) (handshakeInit ⟨id, 0, 0, fun _ => 0⟩)
      enterAtOnce = some s ∧ LostEnter s ∧ ¬ NoLostEnter s) ∧
    (∃ s, run (handshakeStep ⟨id, 0, 0, fun _ => 0⟩) (handshakeInit ⟨id, 0, 0, fun _ => 0⟩)
      enterAfterDrain = some s ∧ LostEnter s ∧ ¬ NoLostEnter s) := by
  have hno : ∀ s, LostEnter s → LostEnter s ∧ ¬ NoLostEnter s := fun s hs =>
    ⟨hs, hs.not_noLostEnter⟩
  exact ⟨⟨_, rfl, hno _ ⟨rfl, rfl, rfl, by decide⟩⟩,
    ⟨_, rfl, hno _ ⟨rfl, rfl, rfl, by decide +kernel⟩⟩⟩

end Steps

end LinuxIsLove
