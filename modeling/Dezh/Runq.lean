import Dezh.RingBuffer

/-!
# The run queue

`RunQueue<N>`: a ring of `n` handles with free-running indices, which are reduced only to
access a slot. Indices are machine words. A reduction modulo zero stops the kernel.
-/
namespace Dezh.Runq

structure RunQueue (n : ℕ) where
  buf : ℕ → UInt32
  head : ℕ
  tail : ℕ

inductive Op where
  | push (value : UInt32)
  | pop
  deriving DecidableEq, Repr

inductive Reply where
  | pushed (ok : Bool)
  | popped (value : Option UInt32)
  deriving DecidableEq, Repr

section
variable {n : ℕ}

def new (n : ℕ) : RunQueue n := ⟨fun _ => 0, 0, 0⟩

def len (q : RunQueue n) : ℕ := (q.tail + 2 ^ 64 - q.head) % 2 ^ 64

def isEmpty (q : RunQueue n) : Bool := q.head == q.tail

def isFull (q : RunQueue n) : Bool := n ≤ len q

def push (q : RunQueue n) (value : UInt32) : Option (Bool × RunQueue n) :=
  if isFull q then some (false, q)
  else if n = 0 then none
  else some (true, ⟨Function.update q.buf (q.tail % n) value, q.head, (q.tail + 1) % 2 ^ 64⟩)

def pop (q : RunQueue n) : Option (Option UInt32 × RunQueue n) :=
  if isEmpty q then some (none, q)
  else if n = 0 then none
  else some (some (q.buf (q.head % n)), { q with head := (q.head + 1) % 2 ^ 64 })

def step (q : RunQueue n) : Op → Option (Reply × RunQueue n)
  | .push v => (push q v).map fun r => (.pushed r.1, r.2)
  | .pop => (pop q).map fun r => (.popped r.1, r.2)

/-- The replies of a history, each with the length reported after it. -/
def run (q : RunQueue n) : List Op → Option (List (Reply × ℕ) × RunQueue n)
  | [] => some ([], q)
  | op :: ops => do
    let (reply, q) ← step q op
    let (replies, q') ← run q ops
    pure ((reply, len q) :: replies, q')

end

/-! ### The queue it stands for -/

def specStep (n : ℕ) (l : List UInt32) : Op → Reply × List UInt32
  | .push v => if l.length < n then (.pushed true, l ++ [v]) else (.pushed false, l)
  | .pop => (.popped l.head?, l.tail)

def specRun (n : ℕ) : List UInt32 → List Op → List (Reply × ℕ) × List UInt32
  | l, [] => ([], l)
  | l, op :: ops =>
    let (reply, l) := specStep n l op
    let (replies, l') := specRun n l ops
    ((reply, l.length) :: replies, l')

/-- The values of the accepted pushes. -/
def accepted : List (Op × Reply × ℕ) → List UInt32
  | [] => []
  | (.push v, .pushed true, _) :: h => v :: accepted h
  | _ :: h => accepted h

/-- The values that were popped. -/
def delivered : List (Reply × ℕ) → List UInt32
  | [] => []
  | (.popped (some v), _) :: h => v :: delivered h
  | _ :: h => delivered h

section
variable {n k : ℕ} {q q' : RunQueue n} {l : List UInt32}

/-- The slots between the indices hold the queue; after `k` operations the indices are
at most `k`. -/
structure Holds (q : RunQueue n) (l : List UInt32) (k : ℕ) : Prop where
  tail_eq : q.tail = q.head + l.length
  tail_le : q.tail ≤ k
  length_le : l.length ≤ n
  slots : ∀ i (h : i < l.length), q.buf ((q.head + i) % n) = l[i]

theorem holds_new : Holds (new n) [] 0 :=
  ⟨rfl, le_rfl, Nat.zero_le n, fun _ h => absurd h (Nat.not_lt_zero _)⟩

theorem Holds.len_eq (h : Holds q l k) (hk : k < 2 ^ 64) : len q = l.length := by
  have := h.tail_eq
  have := h.tail_le
  rw [len]
  omega

theorem Holds.push (h : Holds q l k) (hk : k + 1 < 2 ^ 64) (v : UInt32) :
    ∃ q', step q (.push v) = some ((specStep n l (.push v)).1, q') ∧
      Holds q' (specStep n l (.push v)).2 (k + 1) := by
  have htail := h.tail_eq
  have hle := h.tail_le
  have hlen := h.len_eq (by omega)
  by_cases hroom : l.length < n
  · have hfull : isFull q = false := by simp [isFull, hlen, hroom]
    have hn : n ≠ 0 := by omega
    refine ⟨_, by simp [step, Runq.push, hfull, hn, specStep, hroom]; rfl, ?_⟩
    rw [specStep, if_pos hroom]
    refine ⟨?_, ?_, ?_, ?_⟩
    · simp only [List.length_append, List.length_singleton]
      omega
    · dsimp only
      omega
    · rw [List.length_append]
      exact hroom
    · rw [htail]
      exact (RingBuffer.Slots.update h.slots hroom).push (Function.update_self _ _ _)
  · have hfull : isFull q = true := by simp [isFull, hlen, Nat.le_of_not_lt hroom]
    refine ⟨q, by simp [step, Runq.push, hfull, specStep, hroom], ?_⟩
    rw [specStep, if_neg hroom]
    exact ⟨htail, by omega, h.length_le, h.slots⟩

theorem Holds.pop (h : Holds q l k) (hk : k + 1 < 2 ^ 64) :
    ∃ q', step q .pop = some ((specStep n l .pop).1, q') ∧
      Holds q' (specStep n l .pop).2 (k + 1) := by
  have htail := h.tail_eq
  have hle := h.tail_le
  have hcap := h.length_le
  cases l with
  | nil =>
    have hempty : isEmpty q = true := by
      rw [isEmpty, htail]
      exact beq_self_eq_true _
    exact ⟨q, by simp [step, Runq.pop, hempty, specStep], htail, by omega, hcap, h.slots⟩
  | cons v l =>
    rw [List.length_cons] at htail hcap
    have hempty : isEmpty q = false := by
      rw [isEmpty, htail]
      exact beq_false_of_ne (by omega)
    have hn : n ≠ 0 := by omega
    obtain ⟨hfront, hslots⟩ := RingBuffer.Slots.pop h.slots
    refine ⟨{ q with head := (q.head + 1) % 2 ^ 64 },
      by simp [step, Runq.pop, hempty, hn, specStep, hfront], ?_, ?_, ?_, ?_⟩
    · simp only [specStep, List.tail_cons]
      omega
    · dsimp only
      omega
    · simp only [specStep, List.tail_cons]
      omega
    · dsimp only
      rw [Nat.mod_eq_of_lt (show q.head + 1 < 2 ^ 64 by omega)]
      exact hslots

theorem Holds.step (h : Holds q l k) (hk : k + 1 < 2 ^ 64) (op : Op) :
    ∃ q', Runq.step q op = some ((specStep n l op).1, q') ∧
      Holds q' (specStep n l op).2 (k + 1) := by
  cases op with
  | push v => exact h.push hk v
  | pop => exact h.pop hk

theorem Holds.run (h : Holds q l k) {ops : List Op} (hk : k + ops.length < 2 ^ 64) :
    ∃ q', Runq.run q ops = some ((specRun n l ops).1, q') ∧
      Holds q' (specRun n l ops).2 (k + ops.length) := by
  induction ops generalizing q l k with
  | nil => exact ⟨q, rfl, h⟩
  | cons op ops ih =>
    rw [List.length_cons] at hk ⊢
    obtain ⟨q₁, hstep, h₁⟩ := h.step (by omega) op
    obtain ⟨q₂, hrun, h₂⟩ := ih h₁ (by omega)
    refine ⟨q₂, ?_, ?_⟩
    · simp only [Runq.run, hstep, Option.bind_eq_bind, Option.bind_some, hrun, specRun,
        h₁.len_eq (by omega)]
      rfl
    · rw [Nat.add_comm ops.length, ← Nat.add_assoc]
      exact h₂

theorem specRun_fifo (n : ℕ) (l : List UInt32) (ops : List Op) :
    l ++ accepted (ops.zip (specRun n l ops).1) =
      delivered (specRun n l ops).1 ++ (specRun n l ops).2 := by
  induction ops generalizing l with
  | nil => simp [accepted, delivered, specRun]
  | cons op ops ih =>
    cases op with
    | push v =>
      by_cases hroom : l.length < n
      · have := ih (l ++ [v])
        simpa [specRun, specStep, hroom, accepted, delivered] using this
      · have := ih l
        simpa [specRun, specStep, hroom, accepted, delivered] using this
    | pop =>
      cases l with
      | nil => simpa [specRun, specStep, accepted, delivered] using ih []
      | cons v l => simpa [specRun, specStep, accepted, delivered] using ih l

end

/-- Every history is answered as by a queue of the capacity. The accepted values come out
in their order, each once, or are still in the queue; and a refused push changes nothing. -/
theorem run_queue_refines (n : ℕ) (ops : List Op) (h : ops.length < 2 ^ 64) :
    (∃ q, run (new n) ops = some ((specRun n [] ops).1, q)) ∧
      accepted (ops.zip (specRun n [] ops).1) =
        delivered (specRun n [] ops).1 ++ (specRun n [] ops).2 ∧
      ∀ (q q' : RunQueue n) v, push q v = some (false, q') → q' = q := by
  refine ⟨?_, specRun_fifo n [] ops, fun q q' v hpush => ?_⟩
  · obtain ⟨q, hrun, -⟩ := holds_new.run (by rwa [Nat.zero_add])
    exact ⟨q, hrun⟩
  · unfold push at hpush
    split_ifs at hpush
    · cases hpush
      rfl
    · cases hpush

theorem run_queue_refines_full :
    ∃ q, run (new 1) [.push 7, .push 8, .pop, .pop] =
      some ([(.pushed true, 1), (.pushed false, 1), (.popped (some 7), 0), (.popped none, 0)], q) :=
  (run_queue_refines 1 [.push 7, .push 8, .pop, .pop] (by decide)).1

end Dezh.Runq
