import Mathlib.Algebra.Group.Nat.Defs
import Mathlib.Data.Fintype.Card
import Mathlib.Data.List.Nodup

/-!
# The ticket lock

Any number of threads take turns at one lock. Every access to one of its two
counters is a step of its own: a ticket is drawn in one, each turn of the spin loop
is another, and a release reads the counter in one step and stores its successor in
the next. The counters are 32 bits wide and wrap.
-/
namespace Dezh.TicketLock
open Function

/-- Where a thread stands between two steps. -/
inductive Phase where
  | outside
  | spinning (ticket : UInt32)
  | holding (ticket : UInt32)
  | releasing (ticket served : UInt32)
  deriving DecidableEq, Repr

namespace Phase

def ticket : Phase → Option UInt32
  | outside => none
  | spinning k | holding k | releasing k _ => some k

def Holds : Phase → Prop
  | holding _ | releasing _ _ => True
  | _ => False

instance (p : Phase) : Decidable p.Holds := by
  cases p
  all_goals
    unfold Holds
    infer_instance

end Phase

variable {T : Type}

structure Ticket (T : Type) where
  next : UInt32
  serving : UInt32
  thread : T → Phase
  /-- The tickets in the order in which they were drawn. -/
  drawn : List (T × UInt32)
  /-- The tickets in the order in which their threads were let in. -/
  served : List (T × UInt32)

/-- One access of a thread to the counters. -/
inductive Step (T : Type) where
  | fetchAdd (t : T)
  | test (t : T)
  | load (t : T)
  | store (t : T)

namespace Ticket

def withCounters (next serving : UInt32) : Ticket T := ⟨next, serving, fun _ => .outside, [], []⟩

section
variable [DecidableEq T]

def setPhase (s : Ticket T) (t : T) (p : Phase) : Ticket T :=
  { s with thread := update s.thread t p }

def step (s : Ticket T) : Step T → Ticket T
  | .fetchAdd t =>
    match s.thread t with
    | .outside =>
      { s.setPhase t (.spinning s.next) with
        next := s.next + 1, drawn := s.drawn ++ [(t, s.next)] }
    | _ => s
  | .test t =>
    match s.thread t with
    | .spinning k =>
      if s.serving = k then
        { s.setPhase t (.holding k) with served := s.served ++ [(t, k)] }
      else s
    | _ => s
  | .load t =>
    match s.thread t with
    | .holding k => s.setPhase t (.releasing k s.serving)
    | _ => s
  | .store t =>
    match s.thread t with
    | .releasing _ v => { s.setPhase t .outside with serving := v + 1 }
    | _ => s

def run (s : Ticket T) (steps : List (Step T)) : Ticket T := steps.foldl step s

end

end Ticket

/-- What the lock is for: a queue of threads, whose front may have been let in. -/
structure Queue (T : Type) where
  threads : List T
  entered : Bool

namespace Queue

def waiting (q : Queue T) : List T := if q.entered then q.threads.tail else q.threads

end Queue

/-- The counters and the phases stand for the queue. -/
structure Stands (s : Ticket T) (q : Queue T) : Prop where
  nodup : q.threads.Nodup
  front : q.entered = true → q.threads ≠ []
  next_eq : s.next = s.serving + UInt32.ofNat q.threads.length
  ticket : ∀ i t, q.threads[i]? = some t → (s.thread t).ticket = some (s.serving + UInt32.ofNat i)
  outside : ∀ t, t ∉ q.threads → s.thread t = .outside
  inside : ∀ t, (s.thread t).Holds ↔ q.entered = true ∧ q.threads.head? = some t
  loaded : ∀ t k v, s.thread t = .releasing k v → v = s.serving
  logged : ∃ l : List (T × UInt32), s.drawn = s.served ++ l ∧ l.map Prod.fst = q.waiting ∧
    ∀ e ∈ l, (s.thread e.1).ticket = some e.2

theorem add_ofNat_inj {c : UInt32} {i j : ℕ} (hi : i < 2 ^ 32) (hj : j < 2 ^ 32)
    (h : c + UInt32.ofNat i = c + UInt32.ofNat j) : i = j := by
  have h' := congrArg UInt32.toNat h
  rw [UInt32.toNat_add, UInt32.toNat_add, UInt32.toNat_ofNat_of_lt' hi,
    UInt32.toNat_ofNat_of_lt' hj] at h'
  have := c.toNat_lt
  omega

theorem add_ofNat_succ (c : UInt32) (i : ℕ) :
    c + UInt32.ofNat (i + 1) = c + 1 + UInt32.ofNat i := by
  rw [UInt32.ofNat_add, UInt32.add_assoc, UInt32.add_comm (UInt32.ofNat i)]
  rfl

theorem add_ofNat_zero (c : UInt32) : c + UInt32.ofNat 0 = c := UInt32.add_zero c

section
variable {s : Ticket T} {q : Queue T} {t t' : T}

theorem Stands.mem_iff (h : Stands s q) : t ∈ q.threads ↔ s.thread t ≠ .outside := by
  constructor
  · intro hmem hout
    obtain ⟨i, hi⟩ := List.mem_iff_getElem?.mp hmem
    have hticket := h.ticket i t hi
    rw [hout] at hticket
    cases hticket
  · intro hin
    by_contra hmem
    exact hin (h.outside t hmem)

theorem Stands.length_le [Fintype T] (h : Stands s q) : q.threads.length ≤ Fintype.card T :=
  h.nodup.length_le_card

theorem Stands.head_of_ticket [Fintype T] (hcard : Fintype.card T < 2 ^ 32) (h : Stands s q)
    (hticket : (s.thread t).ticket = some s.serving) : q.threads.head? = some t := by
  have hmem : t ∈ q.threads := by
    rw [h.mem_iff]
    intro hout
    rw [hout] at hticket
    cases hticket
  obtain ⟨i, hi⟩ := List.mem_iff_getElem?.mp hmem
  have hlt := (List.getElem?_eq_some_iff.mp hi).1
  have hlen := h.length_le
  have heq := Option.some.inj ((h.ticket i t hi).symm.trans hticket)
  have hzero : i = 0 :=
    add_ofNat_inj (by omega) (by decide) (heq.trans (add_ofNat_zero s.serving).symm)
  rw [List.head?_eq_getElem?, ← hzero]
  exact hi

theorem Stands.ticket_unique [Fintype T] (hcard : Fintype.card T < 2 ^ 32) (h : Stands s q)
    {k : UInt32} (ht : (s.thread t).ticket = some k) (ht' : (s.thread t').ticket = some k) :
    t = t' := by
  have hmem : ∀ u, (s.thread u).ticket = some k → u ∈ q.threads := by
    intro u hu
    rw [h.mem_iff]
    intro hout
    rw [hout] at hu
    cases hu
  obtain ⟨i, hi⟩ := List.mem_iff_getElem?.mp (hmem t ht)
  obtain ⟨j, hj⟩ := List.mem_iff_getElem?.mp (hmem t' ht')
  have hlt := (List.getElem?_eq_some_iff.mp hi).1
  have hlt' := (List.getElem?_eq_some_iff.mp hj).1
  have hlen := h.length_le
  have heq : s.serving + UInt32.ofNat i = s.serving + UInt32.ofNat j :=
    Option.some.inj ((h.ticket i t hi).symm.trans (ht.trans (ht'.symm.trans (h.ticket j t' hj))))
  obtain rfl := add_ofNat_inj (by omega) (by omega) heq
  exact Option.some.inj (hi.symm.trans hj)

theorem Stands.holder_unique (h : Stands s q) (ht : (s.thread t).Holds)
    (ht' : (s.thread t').Holds) : t = t' :=
  Option.some.inj (((h.inside t).mp ht).2.symm.trans ((h.inside t').mp ht').2)

theorem Stands.served_first (h : Stands s q) : s.served <+: s.drawn := by
  obtain ⟨l, hl, -⟩ := h.logged
  exact ⟨l, hl.symm⟩

end

theorem stands_withCounters (c : UInt32) :
    Stands (Ticket.withCounters c c : Ticket T) ⟨[], false⟩ where
  nodup := List.nodup_nil
  front := fun h => by cases h
  next_eq := (add_ofNat_zero c).symm
  ticket := fun _ _ h => by cases h
  outside := fun _ _ => rfl
  inside := fun _ => iff_of_false (fun h => h) fun h => Bool.false_ne_true h.1
  loaded := fun _ _ _ h => by cases h
  logged := ⟨[], rfl, rfl, fun _ h => by cases h⟩

section
variable [DecidableEq T] {s : Ticket T} {q : Queue T} {t : T} {k v : UInt32}

theorem ticket_update {p : Phase} (h : (s.thread t).ticket = p.ticket) (u : T) :
    (update s.thread t p u).ticket = (s.thread u).ticket := by
  by_cases hu : u = t
  · rw [hu, update_self, h]
  · rw [update_of_ne hu]

/-- A thread that begins no release leaves what was loaded as it is. -/
theorem Stands.loaded_update {p : Phase} (h : Stands s q) (hp : ∀ k v, p ≠ .releasing k v) (u : T)
    (k v : UInt32) (hu : update s.thread t p u = .releasing k v) : v = s.serving := by
  by_cases hut : u = t
  · rw [hut, update_self] at hu
    exact absurd hu (hp k v)
  · rw [update_of_ne hut] at hu
    exact h.loaded u k v hu

theorem Stands.fetchAdd (h : Stands s q) (ht : s.thread t = .outside) :
    Stands (s.step (.fetchAdd t)) ⟨q.threads ++ [t], q.entered⟩ := by
  have hnot : t ∉ q.threads := fun hmem => h.mem_iff.mp hmem ht
  have hne : ∀ u ∈ q.threads, u ≠ t := fun u hu hut => hnot (hut ▸ hu)
  simp only [Ticket.step, ht, Ticket.setPhase]
  constructor
  case nodup =>
    rw [List.nodup_append_comm, List.singleton_append]
    exact List.nodup_cons.mpr ⟨hnot, h.nodup⟩
  case front => exact fun _ => List.append_ne_nil_of_right_ne_nil _ (List.cons_ne_nil _ _)
  case next_eq =>
    rw [List.length_append, List.length_singleton, UInt32.ofNat_add, ← UInt32.add_assoc,
      ← h.next_eq]
    rfl
  case ticket =>
    intro i u hu
    rcases Nat.lt_or_ge i q.threads.length with hi | hi
    · rw [List.getElem?_append_left hi] at hu
      dsimp only
      rw [update_of_ne (hne u (List.mem_of_getElem? hu))]
      exact h.ticket i u hu
    · rw [List.getElem?_append_right hi, List.getElem?_singleton] at hu
      split_ifs at hu with hzero
      cases hu
      dsimp only
      rw [update_self, Phase.ticket, h.next_eq]
      congr 3
      omega
  case outside =>
    intro u hu
    rw [List.mem_append, not_or, List.mem_singleton] at hu
    exact (update_of_ne hu.2 _ _).trans (h.outside u hu.1)
  case inside =>
    intro u
    by_cases hu : u = t
    · subst hu
      dsimp only
      rw [update_self]
      refine iff_of_false (fun hfalse => hfalse) fun hin => ?_
      obtain ⟨a, l, hl⟩ := List.exists_cons_of_ne_nil (h.front hin.1)
      have hmem := hin.2
      rw [hl] at hmem
      cases hmem
      exact hnot (hl ▸ List.mem_cons_self)
    · dsimp only
      rw [update_of_ne hu, h.inside u]
      refine and_congr_right fun hentered => ?_
      obtain ⟨a, l, hl⟩ := List.exists_cons_of_ne_nil (h.front hentered)
      rw [hl]
      rfl
  case loaded => exact h.loaded_update nofun
  case logged =>
    obtain ⟨l, hl, hwaiting, htickets⟩ := h.logged
    refine ⟨l ++ [(t, s.next)], ?_, ?_, ?_⟩
    · dsimp only
      rw [hl, List.append_assoc]
    · rw [List.map_append, hwaiting, Queue.waiting, Queue.waiting]
      dsimp only
      split_ifs with hentered
      · rw [List.tail_append_of_ne_nil (h.front hentered)]
        rfl
      · rfl
    · intro e he
      dsimp only
      rcases List.mem_append.mp he with he | he
      · have hout : e.1 ≠ t := by
          intro het
          have hticket := htickets e he
          rw [het, ht] at hticket
          cases hticket
        rw [update_of_ne hout]
        exact htickets e he
      · rw [List.mem_singleton.mp he, update_self]
        rfl

theorem Stands.enter (h : Stands s q) (ht : s.thread t = .spinning k) (hk : s.serving = k)
    (hhead : q.threads.head? = some t) : Stands (s.step (.test t)) ⟨q.threads, true⟩ := by
  have hnot : q.entered = false := by
    by_contra hentered
    have hholds := (h.inside t).mpr ⟨Bool.eq_true_of_not_eq_false hentered, hhead⟩
    rw [ht] at hholds
    exact hholds
  have hphase := ticket_update (s := s) (t := t) (p := .holding k) (by rw [ht]; rfl)
  obtain ⟨rest, hrest⟩ : ∃ rest, q.threads = t :: rest := List.head?_eq_some_iff.mp hhead
  simp only [Ticket.step, ht, if_pos hk, Ticket.setPhase]
  constructor
  case nodup => exact h.nodup
  case front => exact fun _ => by rw [hrest]; exact List.cons_ne_nil _ _
  case next_eq => exact h.next_eq
  case ticket => exact fun i u hu => (hphase u).trans (h.ticket i u hu)
  case outside =>
    intro u hu
    have hut : u ≠ t := fun hut => hu (by rw [hut, hrest]; exact List.mem_cons_self)
    exact (update_of_ne hut _ _).trans (h.outside u hu)
  case inside =>
    intro u
    dsimp only
    by_cases hu : u = t
    · rw [hu, update_self]
      exact iff_of_true trivial ⟨rfl, hhead⟩
    · rw [update_of_ne hu]
      refine iff_of_false (fun hin => ?_) fun hin => ?_
      · exact absurd ((h.inside u).mp hin).1 (by rw [hnot]; decide)
      · exact hu (Option.some.inj (hin.2.symm.trans hhead))
  case loaded => exact h.loaded_update nofun
  case logged =>
    obtain ⟨l, hl, hwaiting, htickets⟩ := h.logged
    rw [Queue.waiting, hnot, hrest] at hwaiting
    obtain ⟨e, l', rfl, he, hl'⟩ := List.map_eq_cons_iff.mp hwaiting
    have hticket := htickets e List.mem_cons_self
    rw [he, ht] at hticket
    refine ⟨l', ?_, ?_, ?_⟩
    · have hpair : e = (t, k) := Prod.ext he (Option.some.inj hticket).symm
      dsimp only
      rw [hl, hpair, List.append_assoc]
      rfl
    · rw [hl', Queue.waiting, hrest]
      rfl
    · exact fun e' he' => (hphase e'.1).trans (htickets e' (List.mem_cons_of_mem _ he'))

theorem Stands.load (h : Stands s q) (ht : s.thread t = .holding k) :
    Stands (s.step (.load t)) q := by
  have hphase := ticket_update (s := s) (t := t) (p := .releasing k s.serving) (by rw [ht]; rfl)
  have hmem : t ∈ q.threads := h.mem_iff.mpr (by rw [ht]; intro hout; cases hout)
  simp only [Ticket.step, ht, Ticket.setPhase]
  constructor
  case nodup => exact h.nodup
  case front => exact h.front
  case next_eq => exact h.next_eq
  case ticket => exact fun i u hu => (hphase u).trans (h.ticket i u hu)
  case outside =>
    intro u hu
    have hut : u ≠ t := fun hut => hu (hut ▸ hmem)
    exact (update_of_ne hut _ _).trans (h.outside u hu)
  case inside =>
    intro u
    dsimp only
    rw [← h.inside u]
    by_cases hu : u = t
    · rw [hu, update_self, ht]
      exact Iff.rfl
    · rw [update_of_ne hu]
  case loaded =>
    intro u k v hu
    dsimp only at hu ⊢
    by_cases hut : u = t
    · rw [hut, update_self] at hu
      cases hu
      rfl
    · rw [update_of_ne hut] at hu
      exact h.loaded u k v hu
  case logged =>
    obtain ⟨l, hl, hwaiting, htickets⟩ := h.logged
    exact ⟨l, hl, hwaiting, fun e he => (hphase e.1).trans (htickets e he)⟩

theorem Stands.store (h : Stands s q) (ht : s.thread t = .releasing k v) :
    Stands (s.step (.store t)) ⟨q.threads.tail, false⟩ := by
  have hv := h.loaded t k v ht
  have hholds : (s.thread t).Holds := by rw [ht]; trivial
  obtain ⟨hentered, hhead⟩ := (h.inside t).mp hholds
  obtain ⟨rest, hrest⟩ : ∃ rest, q.threads = t :: rest := List.head?_eq_some_iff.mp hhead
  have hnodup := h.nodup
  rw [hrest] at hnodup
  have hnot : t ∉ rest := (List.nodup_cons.mp hnodup).1
  have hne : ∀ u ∈ rest, u ≠ t := fun u hu hut => hnot (hut ▸ hu)
  simp only [Ticket.step, ht, Ticket.setPhase, hrest, List.tail_cons]
  constructor
  case nodup => exact (List.nodup_cons.mp hnodup).2
  case front => exact fun hfalse => by cases hfalse
  case next_eq =>
    dsimp only
    rw [hv, ← add_ofNat_succ, h.next_eq, hrest, List.length_cons]
  case ticket =>
    intro i u hu
    dsimp only
    rw [update_of_ne (hne u (List.mem_of_getElem? hu)), hv, ← add_ofNat_succ]
    exact h.ticket (i + 1) u (by rw [hrest]; exact hu)
  case outside =>
    intro u hu
    dsimp only
    by_cases hut : u = t
    · rw [hut, update_self]
    · rw [update_of_ne hut]
      refine h.outside u ?_
      rw [hrest]
      exact fun hmem => (List.mem_cons.mp hmem).elim hut hu
  case inside =>
    intro u
    dsimp only
    refine iff_of_false (fun hin => ?_) fun hin => by cases hin.1
    by_cases hut : u = t
    · rw [hut, update_self] at hin
      exact hin
    · rw [update_of_ne hut] at hin
      exact hut (h.holder_unique hin hholds)
  case loaded =>
    intro u k' v' hu
    dsimp only at hu ⊢
    by_cases hut : u = t
    · rw [hut, update_self] at hu
      cases hu
    · rw [update_of_ne hut] at hu
      have hin : (s.thread u).Holds := by rw [hu]; trivial
      exact absurd (h.holder_unique hin hholds) hut
  case logged =>
    obtain ⟨l, hl, hwaiting, htickets⟩ := h.logged
    rw [Queue.waiting, hentered, hrest] at hwaiting
    refine ⟨l, hl, hwaiting, fun e he => ?_⟩
    have hmem : e.1 ∈ rest := by
      have : e.1 ∈ l.map Prod.fst := List.mem_map_of_mem he
      rwa [hwaiting] at this
    dsimp only
    rw [update_of_ne (hne _ hmem)]
    exact htickets e he

theorem Stands.step [Fintype T] (hcard : Fintype.card T < 2 ^ 32) (h : Stands s q)
    (a : Step T) : ∃ q', Stands (s.step a) q' := by
  cases a with
  | fetchAdd t =>
    cases ht : s.thread t with
    | outside => exact ⟨_, h.fetchAdd ht⟩
    | spinning | holding | releasing => exact ⟨q, by simpa only [Ticket.step, ht] using h⟩
  | test t =>
    cases ht : s.thread t with
    | spinning k =>
      by_cases hk : s.serving = k
      · have hticket : (s.thread t).ticket = some s.serving := by rw [ht, hk]; rfl
        exact ⟨_, h.enter ht hk (h.head_of_ticket hcard hticket)⟩
      · exact ⟨q, by simpa only [Ticket.step, ht, if_neg hk] using h⟩
    | outside | holding | releasing => exact ⟨q, by simpa only [Ticket.step, ht] using h⟩
  | load t =>
    cases ht : s.thread t with
    | holding k => exact ⟨q, h.load ht⟩
    | outside | spinning | releasing => exact ⟨q, by simpa only [Ticket.step, ht] using h⟩
  | store t =>
    cases ht : s.thread t with
    | releasing k v => exact ⟨_, h.store ht⟩
    | outside | spinning | holding => exact ⟨q, by simpa only [Ticket.step, ht] using h⟩

theorem Stands.run [Fintype T] (hcard : Fintype.card T < 2 ^ 32) (h : Stands s q)
    (steps : List (Step T)) : ∃ q', Stands (s.run steps) q' := by
  induction steps generalizing s q with
  | nil => exact ⟨q, h⟩
  | cons a steps ih =>
    obtain ⟨q', h'⟩ := h.step hcard a
    exact ih h'

end

/-- At most one thread holds the lock, threads are let in in the order in which they
drew their tickets, and no two tickets that are out are equal. -/
theorem ticket_lock_fair [Fintype T] [DecidableEq T] (hcard : Fintype.card T < 2 ^ 32)
    (c : UInt32) (steps : List (Step T)) :
    let s := (Ticket.withCounters c c).run steps
    (∀ t t', (s.thread t).Holds → (s.thread t').Holds → t = t') ∧
      s.served <+: s.drawn ∧
      ∀ t t' k, (s.thread t).ticket = some k → (s.thread t').ticket = some k → t = t' := by
  intro s
  obtain ⟨q, h⟩ := (stands_withCounters c).run hcard steps
  refine ⟨?_, h.served_first, ?_⟩
  · exact fun t t' ht ht' => h.holder_unique ht ht'
  · exact fun t t' k ht ht' => h.ticket_unique hcard ht ht'

/-- Three threads across the wrap of the counters: the first holds, the others wait. -/
theorem ticket_lock_fair_wrap :
    let s := (Ticket.withCounters 0xFFFFFFFF 0xFFFFFFFF : Ticket (Fin 3)).run
      [.fetchAdd 1, .fetchAdd 0, .test 1, .fetchAdd 2, .test 0]
    Fintype.card (Fin 3) < 2 ^ 32 ∧ s.next = 2 ∧ (s.thread 1).Holds ∧
      (∀ t t', (s.thread t).Holds → (s.thread t').Holds → t = t') ∧
      s.served <+: s.drawn ∧
      ∀ t t' k, (s.thread t).ticket = some k → (s.thread t').ticket = some k → t = t' := by
  intro s
  exact ⟨by decide, by decide, by decide, ticket_lock_fair (by decide) _ _⟩

end Dezh.TicketLock
