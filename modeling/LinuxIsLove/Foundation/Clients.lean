import LinuxIsLove.Foundation.Runs

/-!
# Programs that make calls

A `Client ι ω α` hands out requests in `ι`, goes on with the answers in `ω`, and returns a value in
`α` at the end; `stuck` is a loop that has used up its fuel.  `Follows` says that a list of
exchanges was made by a client, and what is left of the client then.

A server is a relation `srv s i w s'`: in state `s` it may answer the request `i` with `w` and go
to `s'`.  `Meets` is total correctness: whatever the server answers, every request is allowed in the
state where it is made, no loop gets stuck, and the returned value meets the postcondition.

`meets_of_run` puts the two together for a client that runs on a machine beside other things: if
every step of the machine that makes an exchange is one of the server, the client meets its
postcondition there.
-/

namespace Clients

variable {ι ω α β σ τ : Type*}

/-- A program that makes calls. -/
inductive Client (ι ω α : Type*)
  | ret (a : α)
  | call (i : ι) (k : ω → Client ι ω α)
  | stuck

namespace Client

def bind : Client ι ω α → (α → Client ι ω β) → Client ι ω β
  | ret a, f => f a
  | call i k, f => call i fun w => (k w).bind f
  | stuck, _ => stuck

instance : Monad (Client ι ω) where
  pure := ret
  bind := bind

/-- Make a request and return the answer. -/
def ask (i : ι) : Client ι ω ω := call i ret

/-- Repeat the body until it returns a value, at most `fuel` times. -/
def loop (body : τ → Client ι ω (τ ⊕ α)) : ℕ → τ → Client ι ω α
  | 0, _ => stuck
  | fuel + 1, x => (body x).bind fun r =>
    match r with
    | .inl y => loop body fuel y
    | .inr a => ret a

/-- The body for `i`, `i + 1`, … in turn, `n` times. -/
def forRange (body : ℤ → τ → Client ι ω τ) : ℕ → ℤ → τ → Client ι ω τ
  | 0, _, x => ret x
  | n + 1, i, x => (body i x).bind fun y => forRange body n (i + 1) y

@[simp] theorem pure_eq (a : α) : (pure a : Client ι ω α) = ret a := rfl

@[simp] theorem bind_eq {β : Type _} (p : Client ι ω α) (f : α → Client ι ω β) :
    p >>= f = p.bind f := rfl

@[simp] theorem ret_bind (a : α) (f : α → Client ι ω β) : (ret a).bind f = f a := rfl

@[simp] theorem call_bind (i : ι) (k : ω → Client ι ω α) (f : α → Client ι ω β) :
    (call i k).bind f = call i fun w => (k w).bind f := rfl

@[simp] theorem ask_bind (i : ι) (f : ω → Client ι ω β) : (ask i).bind f = call i f := rfl

end Client

open Client

/-! ### What a client has done -/

/-- The client makes the exchanges one after the other and is then `q`. -/
def Follows : List (ι × ω) → Client ι ω α → Client ι ω α → Prop
  | [], p, q => p = q
  | x :: t, call i k, q => i = x.1 ∧ Follows t (k x.2) q
  | _ :: _, _, _ => False

/-- Whether a client has returned a value can be found out by following it. -/
instance followsDecidable [DecidableEq ι] [DecidableEq α] (a : α) :
    ∀ (t : List (ι × ω)) (p : Client ι ω α), Decidable (Follows t p (ret a))
  | [], ret b => decidable_of_iff (b = a) ⟨fun h => congrArg ret h, fun h => ret.inj h⟩
  | [], call _ _ => isFalse fun h => by cases h
  | [], stuck => isFalse fun h => by cases h
  | _ :: _, ret _ => isFalse fun h => h
  | _ :: _, stuck => isFalse fun h => h
  | x :: t, call i k =>
    have := followsDecidable a t (k x.2)
    inferInstanceAs (Decidable (i = x.1 ∧ Follows t (k x.2) (ret a)))

/-! ### Servers -/

/-- The server makes the exchanges one after the other. -/
def Serves (srv : σ → ι → ω → σ → Prop) : σ → List (ι × ω) → σ → Prop
  | s, [], s' => s = s'
  | s, x :: t, s' => ∃ m, srv s x.1 x.2 m ∧ Serves srv m t s'

/-- Total correctness: every request is allowed where it is made, and what is returned meets the
postcondition. -/
def Meets (srv : σ → ι → ω → σ → Prop) (allowed : σ → ι → Prop) :
    Client ι ω α → (σ → α → Prop) → σ → Prop
  | ret a, post, s => post s a
  | call i k, post, s => allowed s i ∧ ∀ w s', srv s i w s' → Meets srv allowed (k w) post s'
  | stuck, _, _ => False

section Rules

variable {srv : σ → ι → ω → σ → Prop} {allowed : σ → ι → Prop} {s s' : σ}

@[simp] theorem meets_ret {post : σ → α → Prop} {a : α} :
    Meets srv allowed (ret a) post s ↔ post s a := Iff.rfl

/-- **The rule of consequence.** -/
theorem Meets.mono {post post' : σ → α → Prop} {p : Client ι ω α}
    (h : Meets srv allowed p post s) (himp : ∀ s a, post s a → post' s a) :
    Meets srv allowed p post' s := by
  induction p generalizing s with
  | ret a => exact himp s a h
  | call i k ih => exact ⟨h.1, fun w s' hs => ih w (h.2 w s' hs)⟩
  | stuck => exact h.elim

/-- **The rule of sequential composition.** -/
theorem meets_bind {post : σ → β → Prop} {p : Client ι ω α} {f : α → Client ι ω β} :
    Meets srv allowed (p.bind f) post s ↔
      Meets srv allowed p (fun s a => Meets srv allowed (f a) post s) s := by
  induction p generalizing s with
  | ret a => exact Iff.rfl
  | call i k ih =>
    exact and_congr_right fun _ =>
      forall_congr' fun w => forall_congr' fun s' => imp_congr_right fun _ => ih w
  | stuck => exact Iff.rfl

/-- **The rule for loops.**  `I n` is the invariant with at most `n` rounds to go. -/
theorem meets_loop {I : ℕ → σ → τ → Prop} {post : σ → α → Prop} {body : τ → Client ι ω (τ ⊕ α)}
    (hbody : ∀ n s x, I n s x → Meets srv allowed (body x)
      (fun s' r => match r with
        | .inl y => ∃ m < n, I m s' y
        | .inr a => post s' a) s)
    {n fuel : ℕ} {x : τ} (hx : I n s x) (hfuel : n < fuel) :
    Meets srv allowed (loop body fuel x) post s := by
  induction fuel generalizing n s x with
  | zero => omega
  | succ fuel ih =>
    rw [loop, meets_bind]
    refine (hbody n s x hx).mono fun s' r hr => ?_
    cases r with
    | inl y =>
      obtain ⟨m, hm, hy⟩ := hr
      exact ih hy (by omega)
    | inr a => exact hr

/-- **The rule for counting loops.**  `I j` is the invariant after `j` rounds. -/
theorem meets_forRange {I : ℕ → σ → τ → Prop} {post : σ → τ → Prop}
    {body : ℤ → τ → Client ι ω τ} {n : ℕ} {first : ℤ}
    (hbody : ∀ j < n, ∀ s x, I j s x → Meets srv allowed (body (first + j) x) (I (j + 1)) s)
    (hpost : ∀ s x, I n s x → post s x) {x : τ} (hx : I 0 s x) :
    Meets srv allowed (forRange body n first x) post s := by
  induction n generalizing I first s x with
  | zero => exact hpost s x hx
  | succ n ih =>
    rw [forRange, meets_bind]
    have hfirst := hbody 0 (Nat.succ_pos n) s x hx
    rw [Nat.cast_zero, add_zero] at hfirst
    refine hfirst.mono fun s' y hy => ih (I := fun j => I (j + 1)) (fun j hj s x h => ?_) hpost hy
    have hnext := hbody (j + 1) (Nat.succ_lt_succ hj) s x h
    have hshift : first + ((j + 1 : ℕ) : ℤ) = first + 1 + j := by omega
    rwa [hshift] at hnext

/-- With a server that answers every allowed request, a client comes to its end. -/
theorem Meets.ends {post : σ → α → Prop} {p : Client ι ω α} (grows : σ → σ → Prop)
    (hrefl : ∀ s, grows s s) (htrans : ∀ {a b c}, grows a b → grows b c → grows a c)
    (hgrows : ∀ {s i w s'}, srv s i w s' → grows s s')
    (htotal : ∀ {s i}, allowed s i → ∃ w s', srv s i w s') (h : Meets srv allowed p post s) :
    ∃ s' a, grows s s' ∧ post s' a := by
  induction p generalizing s with
  | ret a => exact ⟨s, a, hrefl s, h⟩
  | call i k ih =>
    obtain ⟨w, m, hm⟩ := htotal h.1
    obtain ⟨s', a, hs', ha⟩ := ih w (h.2 w m hm)
    exact ⟨s', a, htrans (hgrows hm) hs', ha⟩
  | stuck => exact h.elim

/-- The requests of a list of exchanges are allowed where they are made, as far as the server gives
the answers. -/
def AllowedAlong (srv : σ → ι → ω → σ → Prop) (allowed : σ → ι → Prop) : σ → List (ι × ω) → Prop
  | _, [] => True
  | s, x :: t => allowed s x.1 ∧ ∀ m, srv s x.1 x.2 m → AllowedAlong srv allowed m t

/-- Requests that are allowed in every state. -/
theorem allowedAlong_of_forall {t : List (ι × ω)} (h : ∀ x ∈ t, ∀ s, allowed s x.1) :
    AllowedAlong srv allowed s t := by
  induction t generalizing s with
  | nil => trivial
  | cons x t ih =>
    rw [List.forall_mem_cons] at h
    exact ⟨h.1 s, fun m _ => ih h.2⟩

/-- What a client that meets its postcondition asks for is allowed. -/
theorem Meets.allowedAlong {post : σ → α → Prop} {p q : Client ι ω α} {t : List (ι × ω)}
    (h : Meets srv allowed p post s) (hp : Follows t p q) : AllowedAlong srv allowed s t := by
  induction t generalizing p s with
  | nil => trivial
  | cons x t ih =>
    cases p with
    | ret a => exact hp.elim
    | stuck => exact hp.elim
    | call i k =>
      obtain ⟨rfl, hk⟩ := hp
      exact ⟨h.1, fun m hm => ih (h.2 x.2 m hm) hk⟩

/-- The exchanges of a client that meets its postcondition lead to one that does. -/
theorem Meets.of_follows {post : σ → α → Prop} {p q : Client ι ω α} {t : List (ι × ω)}
    (h : Meets srv allowed p post s) (hp : Follows t p q) (hs : Serves srv s t s') :
    Meets srv allowed q post s' := by
  induction t generalizing p s with
  | nil =>
    obtain rfl := hs
    obtain rfl := hp
    exact h
  | cons x t ih =>
    obtain ⟨m, hm, hrest⟩ := hs
    cases p with
    | ret a => exact hp.elim
    | stuck => exact hp.elim
    | call i k =>
      obtain ⟨rfl, hk⟩ := hp
      exact ih (h.2 x.2 m hm) hk hrest

end Rules

/-! ### A client on a machine -/

section Machine

variable {κ ε : Type*} {step : κ → ε → Option κ} {exchange : κ → ε → Option (ι × ω)}
  {srv : σ → ι → ω → σ → Prop} {allowed : σ → ι → Prop} {R : κ → σ → Prop}

/-- The exchanges of a run. -/
def exchanges (step : κ → ε → Option κ) (exchange : κ → ε → Option (ι × ω)) (k : κ)
    (es : List ε) : List (ι × ω) :=
  EventMachine.outputs step (fun k e => (exchange k e).toList) k es

/-- A step without an exchange keeps the server where it is, and a step with an allowed exchange is
one of the server. -/
structure Simulates (step : κ → ε → Option κ) (exchange : κ → ε → Option (ι × ω))
    (srv : σ → ι → ω → σ → Prop) (allowed : σ → ι → Prop) (R : κ → σ → Prop) : Prop where
  quiet : ∀ {k s e k'}, R k s → step k e = some k' → exchange k e = none → R k' s
  served : ∀ {k s e k' i w}, R k s → step k e = some k' → exchange k e = some (i, w) →
    allowed s i → ∃ s', srv s i w s' ∧ R k' s'

theorem exchanges_cons {k k' : κ} {e : ε} (h : step k e = some k') (es : List ε) :
    exchanges step exchange k (e :: es) =
      (exchange k e).toList ++ exchanges step exchange k' es :=
  EventMachine.outputs_cons h es

/-- **Refinement over runs.**  Whatever happens between the exchanges, they are those of the server
as long as they are allowed. -/
theorem serves_of_run (hR : Simulates step exchange srv allowed R) {k k' : κ} {s : σ} {es : List ε}
    (hk : R k s) (hrun : EventMachine.run step k es = some k')
    (hallowed : AllowedAlong srv allowed s (exchanges step exchange k es)) :
    ∃ s', Serves srv s (exchanges step exchange k es) s' ∧ R k' s' := by
  induction es generalizing k s with
  | nil =>
    cases hrun
    exact ⟨s, rfl, hk⟩
  | cons e es ih =>
    obtain ⟨k1, hk1, hrest⟩ := EventMachine.run_cons_eq_some.1 hrun
    rw [exchanges_cons hk1] at hallowed ⊢
    cases hx : exchange k e with
    | none =>
      rw [hx] at hallowed
      exact ih (hR.quiet hk hk1 hx) hrest hallowed
    | some x =>
      rw [hx] at hallowed
      obtain ⟨hx0, htail⟩ := hallowed
      obtain ⟨s1, hs1, hk1'⟩ := hR.served (i := x.1) (w := x.2) hk hk1 hx hx0
      obtain ⟨s', hs', hend⟩ := ih hk1' hrest (htail s1 hs1)
      exact ⟨s', ⟨s1, hs1, hs'⟩, hend⟩

/-- **A client on a machine.**  Whatever happens between its calls, a client that meets its
postcondition with the server does so on the machine, and its exchanges are those of the server. -/
theorem meets_of_run (hR : Simulates step exchange srv allowed R) {post : σ → α → Prop}
    {p q : Client ι ω α} {k k' : κ} {s : σ} {es : List ε} (hk : R k s)
    (hp : Meets srv allowed p post s) (hrun : EventMachine.run step k es = some k')
    (hfollows : Follows (exchanges step exchange k es) p q) :
    ∃ s', Serves srv s (exchanges step exchange k es) s' ∧ R k' s' ∧
      Meets srv allowed q post s' := by
  obtain ⟨s', hs', hk'⟩ := serves_of_run hR hk hrun (hp.allowedAlong hfollows)
  exact ⟨s', hs', hk', hp.of_follows hfollows hs'⟩

end Machine

end Clients
