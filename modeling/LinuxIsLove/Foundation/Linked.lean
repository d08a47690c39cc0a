import LinuxIsLove.Foundation.Loops

/-!
# Linked chains and families of disjoint stacks

`Linked.Chain next h l`: following the pointers `next` from the head pointer `h` visits exactly the
nodes of `l`, in this order, and then ends.  The list is determined by `next` and `h`.  A search
along a chain ends (`search_eq`).

A `StackFamily ι α` is a stack of nodes for every index, no node standing twice in one stack or in
two of them; both facts are fields, so they need no proof where a family is used.  `push` puts a
node that occurs nowhere on one stack, `pop` takes the top of one stack away.
-/

namespace Linked

variable {α : Type*} {next next' : α → Option α}

/-- The nodes visited by following `next` from a head pointer until it is null. -/
def Chain (next : α → Option α) : Option α → List α → Prop
  | h, [] => h = none
  | h, a :: l => h = some a ∧ Chain next (next a) l

@[simp] theorem chain_nil {h : Option α} : Chain next h [] ↔ h = none := Iff.rfl

@[simp] theorem chain_cons {h : Option α} {a : α} {l : List α} :
    Chain next h (a :: l) ↔ h = some a ∧ Chain next (next a) l := Iff.rfl

/-- The head pointer of a chain is its first node. -/
theorem Chain.head {h : Option α} {l : List α} (hc : Chain next h l) : h = l.head? := by
  cases l with
  | nil => exact hc
  | cons a l => exact hc.1

/-- Two pointer maps that agree on the nodes of a chain have it in common. -/
theorem Chain.congr {h : Option α} {l : List α} (hn : ∀ a ∈ l, next' a = next a)
    (hc : Chain next h l) : Chain next' h l := by
  induction l generalizing h with
  | nil => exact hc
  | cons a l ih =>
    refine ⟨hc.1, ?_⟩
    rw [hn a List.mem_cons_self]
    exact ih (fun b hb => hn b (List.mem_cons_of_mem a hb)) hc.2

/-- The pointer of a node of a chain is null or leads to another node of the chain. -/
theorem Chain.next_mem {h : Option α} {l : List α} (hc : Chain next h l) {a b : α} (ha : a ∈ l)
    (hb : next a = some b) : b ∈ l := by
  induction l generalizing h with
  | nil => simp at ha
  | cons c l ih =>
    rcases List.mem_cons.1 ha with rfl | ha
    · have hhead := hc.2.head
      rw [hb] at hhead
      cases l with
      | nil => simp at hhead
      | cons d l =>
        cases hhead
        simp
    · exact List.mem_cons_of_mem c (ih hc.2 ha)

/-- Behind its first node a chain has all that the pointers of its nodes lead to. -/
theorem Chain.next_mem_tail {h : Option α} {a b c : α} {l : List α} (hc : Chain next h (a :: l))
    (hb : b ∈ a :: l) (hnext : next b = some c) : c ∈ l := by
  rcases List.mem_cons.1 hb with rfl | hb
  · have hhead := hc.2.head
    rw [hnext] at hhead
    exact List.mem_of_head? hhead.symm
  · exact hc.2.next_mem hb hnext

/-- Following pointers from a node of a chain leads behind the first node. -/
theorem Chain.transGen_mem_tail {h : Option α} {a b c : α} {l : List α}
    (hc : Chain next h (a :: l)) (hb : b ∈ a :: l)
    (hreach : Relation.TransGen (fun x y => next x = some y) b c) : c ∈ l := by
  induction hreach with
  | single hnext => exact hc.next_mem_tail hb hnext
  | tail _ hnext ih => exact hc.next_mem_tail (List.mem_cons_of_mem a ih) hnext

theorem Chain.transGen_mem {h : Option α} {a b : α} {l : List α} (hc : Chain next h l)
    (ha : a ∈ l) (hreach : Relation.TransGen (fun x y => next x = some y) a b) : b ∈ l := by
  induction hreach with
  | single hnext => exact hc.next_mem ha hnext
  | tail _ hnext ih => exact hc.next_mem ih hnext

/-- The part of a chain from one of its nodes on. -/
theorem Chain.of_append {h : Option α} {a : α} {l l' : List α}
    (hc : Chain next h (l ++ a :: l')) : Chain next (some a) (a :: l') := by
  induction l generalizing h with
  | nil => exact ⟨rfl, hc.2⟩
  | cons b l ih => exact ih hc.2

/-- A node whose pointer leads back to itself lies on no chain without repetition. -/
theorem Chain.next_ne_self {h : Option α} {l : List α} (hc : Chain next h l) (hd : l.Nodup)
    {a : α} (ha : a ∈ l) : next a ≠ some a := by
  induction l generalizing h with
  | nil => simp at ha
  | cons b l ih =>
    rw [List.nodup_cons] at hd
    rcases List.mem_cons.1 ha with rfl | ha
    · intro hself
      have hhead := hc.2.head
      rw [hself] at hhead
      cases l with
      | nil => simp at hhead
      | cons c l =>
        cases hhead
        exact hd.1 List.mem_cons_self
    · exact ih hc.2 hd.2 ha

/-- No pointer of a chain without repetition leads to its first node. -/
theorem Chain.next_ne_head {h : Option α} {a b : α} {l : List α} (hc : Chain next h (a :: l))
    (hd : (a :: l).Nodup) (hb : b ∈ a :: l) : next b ≠ some a := by
  intro hback
  rcases List.mem_cons.1 hb with rfl | hb
  · exact hc.next_ne_self hd List.mem_cons_self hback
  · exact (List.nodup_cons.1 hd).1 (hc.2.next_mem hb hback)

/-- A pointer map that is changed at nodes off the chain only has the same chain. -/
theorem Chain.update [DecidableEq α] {h : Option α} {l : List α} (hc : Chain next h l) {a : α}
    (ha : a ∉ l) (v : Option α) : Chain (Function.update next a v) h l := by
  refine hc.congr fun b hb => ?_
  have hne : b ≠ a := by
    rintro rfl
    exact ha hb
  exact Function.update_of_ne hne v next

/-- Every node of a chain is reached from its head pointer. -/
theorem Chain.reach {h : Option α} {l : List α} (hc : Chain next h l) {a : α} (ha : a ∈ l) :
    ∃ b, h = some b ∧ Relation.ReflTransGen (fun x y => next x = some y) b a := by
  induction l generalizing h with
  | nil => simp at ha
  | cons c l ih =>
    refine ⟨c, hc.1, ?_⟩
    rcases List.mem_cons.1 ha with rfl | ha
    · exact .refl
    · obtain ⟨b, hb, hreach⟩ := ih hc.2 ha
      exact .head hb hreach

/-- Nothing else is reached. -/
theorem Chain.mem_of_reach {l : List α} {a b : α} (hc : Chain next (some b) l)
    (hreach : Relation.ReflTransGen (fun x y => next x = some y) b a) : a ∈ l := by
  induction hreach with
  | refl => exact List.mem_of_head? hc.head.symm
  | tail _ hnext ih => exact hc.next_mem ih hnext

/-- Taking a node out by letting its predecessor point behind it. -/
theorem Chain.unlink [DecidableEq α] {h : Option α} {l l' : List α} {p a : α}
    (hc : Chain next h (l ++ p :: a :: l')) (hd : (l ++ p :: a :: l').Nodup) :
    Chain (Function.update next p (next a)) h (l ++ p :: l') := by
  induction l generalizing h with
  | nil =>
    obtain ⟨hp, -, hrest⟩ := hc
    have hpl : p ∉ l' := fun hmem =>
      (List.nodup_cons.1 hd).1 (List.mem_cons_of_mem a hmem)
    refine ⟨hp, ?_⟩
    rw [Function.update_self]
    exact hrest.update hpl _
  | cons b l ih =>
    rw [List.cons_append, List.nodup_cons] at hd
    have hbp : b ≠ p := by
      rintro rfl
      exact hd.1 (List.mem_append_right l List.mem_cons_self)
    refine ⟨hc.1, ?_⟩
    rw [Function.update_of_ne hbp]
    exact ih hc.2 hd.2

/-- `while (p && !stop(p)) p = p->next;` finds the first node of the chain that meets the
condition. -/
theorem search_eq {stop : α → Bool} {h : Option α} {l : List α} {fuel : ℕ} (hc : Chain next h l)
    (hfuel : l.length ≤ fuel) :
    Loops.loopWhile (fun p => p.any fun a => !stop a) (fun p => p.bind next) fuel h =
      some (l.find? stop) := by
  induction l generalizing h fuel with
  | nil =>
    obtain rfl : h = none := hc
    exact Loops.loopWhile_stop rfl fuel
  | cons a l ih =>
    obtain ⟨rfl, hrest⟩ := hc
    cases hstop : stop a with
    | true =>
      rw [List.find?_cons_of_pos hstop]
      exact Loops.loopWhile_stop (by simp [hstop]) fuel
    | false =>
      rw [List.find?_cons_of_neg (by simp [hstop])]
      obtain ⟨f, rfl⟩ : ∃ f, fuel = f + 1 := ⟨fuel - 1, by simp at hfuel; omega⟩
      rw [Loops.loopWhile_go (by simp [hstop])]
      exact ih hrest (by simpa using hfuel)

end Linked

/-- A stack for every index, no element standing twice in one stack or in two of them. -/
structure StackFamily (ι α : Type*) where
  stack : ι → List α
  nodup : ∀ i, (stack i).Nodup
  disjoint : ∀ i j, i ≠ j → List.Disjoint (stack i) (stack j)

namespace StackFamily

variable {ι α : Type*}

/-- The elements of all stacks together. -/
def members (F : StackFamily ι α) : Set α := {a | ∃ i, a ∈ F.stack i}

/-- The family of empty stacks. -/
def empty : StackFamily ι α where
  stack := fun _ => []
  nodup := fun _ => List.nodup_nil
  disjoint := fun _ _ _ => List.disjoint_nil_left _

/-- An element stands in one stack only. -/
theorem index_unique (F : StackFamily ι α) {i j : ι} {a : α} (hi : a ∈ F.stack i)
    (hj : a ∈ F.stack j) : i = j := by
  by_contra hne
  exact F.disjoint i j hne hi hj

variable [DecidableEq ι]

/-- Put an element that occurs nowhere on the top of stack `i`. -/
def push (F : StackFamily ι α) (i : ι) (a : α) (ha : a ∉ F.members) : StackFamily ι α where
  stack := Function.update F.stack i (a :: F.stack i)
  nodup j := by
    by_cases hj : j = i
    · subst hj
      rw [Function.update_self]
      exact List.nodup_cons.2 ⟨fun h => ha ⟨j, h⟩, F.nodup j⟩
    · rw [Function.update_of_ne hj]
      exact F.nodup j
  disjoint j k hjk := by
    have hfresh : ∀ m, a ∉ F.stack m := fun m h => ha ⟨m, h⟩
    by_cases hj : j = i
    · subst hj
      rw [Function.update_self, Function.update_of_ne (Ne.symm hjk), List.disjoint_cons_left]
      exact ⟨hfresh k, F.disjoint j k hjk⟩
    · rw [Function.update_of_ne hj]
      by_cases hk : k = i
      · subst hk
        rw [Function.update_self, List.disjoint_cons_right]
        exact ⟨hfresh j, F.disjoint j k hjk⟩
      · rw [Function.update_of_ne hk]
        exact F.disjoint j k hjk

/-- Take the top of stack `i` away. -/
def pop (F : StackFamily ι α) (i : ι) : StackFamily ι α where
  stack := Function.update F.stack i (F.stack i).tail
  nodup j := by
    by_cases hj : j = i
    · subst hj
      rw [Function.update_self]
      exact (F.nodup j).tail
    · rw [Function.update_of_ne hj]
      exact F.nodup j
  disjoint j k hjk := by
    have hsub : ∀ m, Function.update F.stack i (F.stack i).tail m ⊆ F.stack m := by
      intro m
      by_cases hm : m = i
      · subst hm
        rw [Function.update_self]
        exact fun b hb => List.mem_of_mem_tail hb
      · rw [Function.update_of_ne hm]
        exact List.Subset.refl _
    exact fun b hb hb' => F.disjoint j k hjk (hsub j hb) (hsub k hb')

@[simp] theorem push_stack_self (F : StackFamily ι α) {i : ι} {a : α} (ha : a ∉ F.members) :
    (F.push i a ha).stack i = a :: F.stack i := Function.update_self ..

theorem push_stack_of_ne (F : StackFamily ι α) {i j : ι} {a : α} (ha : a ∉ F.members)
    (hj : j ≠ i) : (F.push i a ha).stack j = F.stack j := Function.update_of_ne hj ..

@[simp] theorem pop_stack_self (F : StackFamily ι α) (i : ι) :
    (F.pop i).stack i = (F.stack i).tail := Function.update_self ..

theorem pop_stack_of_ne (F : StackFamily ι α) {i j : ι} (hj : j ≠ i) :
    (F.pop i).stack j = F.stack j := Function.update_of_ne hj ..

/-- A push adds exactly the pushed element. -/
theorem mem_members_push (F : StackFamily ι α) {i : ι} {a b : α} (ha : a ∉ F.members) :
    b ∈ (F.push i a ha).members ↔ b = a ∨ b ∈ F.members := by
  constructor
  · rintro ⟨j, hj⟩
    by_cases hji : j = i
    · subst hji
      rw [push_stack_self] at hj
      exact (List.mem_cons.1 hj).imp_right fun h => ⟨j, h⟩
    · rw [push_stack_of_ne F ha hji] at hj
      exact Or.inr ⟨j, hj⟩
  · rintro (rfl | ⟨j, hj⟩)
    · exact ⟨i, by rw [push_stack_self]; exact List.mem_cons_self⟩
    · refine ⟨j, ?_⟩
      by_cases hji : j = i
      · subst hji
        rw [push_stack_self]
        exact List.mem_cons_of_mem a hj
      · rwa [push_stack_of_ne F ha hji]

/-- A pop takes exactly the top away. -/
theorem mem_members_pop (F : StackFamily ι α) {i : ι} {a b : α} {l : List α}
    (hi : F.stack i = a :: l) : b ∈ (F.pop i).members ↔ b ∈ F.members ∧ b ≠ a := by
  have htail : (F.pop i).stack i = l := by rw [pop_stack_self, hi, List.tail_cons]
  have hnodup := F.nodup i
  rw [hi, List.nodup_cons] at hnodup
  constructor
  · rintro ⟨j, hj⟩
    by_cases hji : j = i
    · subst hji
      rw [htail] at hj
      refine ⟨⟨j, by rw [hi]; exact List.mem_cons_of_mem a hj⟩, ?_⟩
      rintro rfl
      exact hnodup.1 hj
    · rw [pop_stack_of_ne F hji] at hj
      refine ⟨⟨j, hj⟩, ?_⟩
      rintro rfl
      exact hji (F.index_unique hj (by rw [hi]; exact List.mem_cons_self))
  · rintro ⟨⟨j, hj⟩, hne⟩
    refine ⟨j, ?_⟩
    by_cases hji : j = i
    · subst hji
      rw [htail]
      rw [hi] at hj
      exact (List.mem_cons.1 hj).resolve_left hne
    · rwa [pop_stack_of_ne F hji]

end StackFamily
