/-
A worker and its connections.

`RunWorker` accepts connections in a loop and serves each of them in a goroutine. The loop holds the worker's lock three
times for each connection: to look at `nRPC`, to count it down once a connection is accepted, and to count `nTasks` up
once the goroutine is started. `Shutdown` runs in such a goroutine, between any two of these: it reports `nTasks`, sets
`nRPC` to 1 and takes one off `nTasks`.

- `Counters`, `run_counters`: the two counters and the connections, read off the history.
- `shutdown_reply`: `Shutdown` reports the connections that were counted, which its own may be among.
- `connections_limited`: how many connections the loop accepts.
- `shutdown_lingers`: after `Shutdown` the loop waits for one more connection.
-/
import CS240.MapReduce.Distributed

namespace CS240.MapReduce

open Lib

/-- a connection carries one call -/
inductive Rpc where
  | doTask (arg : DoTaskArgs)
  | shutdown
deriving DecidableEq, Repr

/-- where the loop of `RunWorker` stands -/
inductive Loop where
  | checking
  | accepting
  | deducting (conn : Rpc)
  | serving (conn : Rpc)
  | counting
  | stopped
deriving DecidableEq, Repr

/-- the connection that the loop has in hand -/
def Loop.conn : Loop → Option Rpc
  | .deducting conn | .serving conn => some conn
  | _ => none

/-- a connection is accepted and not deducted yet -/
def Loop.undeducted : Loop → ℕ
  | .deducting _ => 1
  | _ => 0

/-- a connection is accepted and not counted yet -/
def Loop.uncounted : Loop → ℕ
  | .deducting _ | .serving _ | .counting => 1
  | _ => 0

structure Worker where
  nRPC : ℤ
  nTasks : ℤ
  loop : Loop
  /-- connections that wait for `Accept` -/
  backlog : List Rpc
  /-- connections that a goroutine serves -/
  served : List Rpc
deriving DecidableEq, Repr

namespace Worker

inductive Action where
  /-- somebody connects to the worker -/
  | dial (conn : Rpc)
  | check
  | accept
  | acceptError
  | deduct
  | serve
  | count
  /-- the call of the `i`-th connection that is served -/
  | handle (i : ℕ)
deriving DecidableEq, Repr

inductive Event where
  /-- the listener is closed -/
  | refused (conn : Rpc)
  | accepted (conn : Rpc)
  | deducted
  | counted
  | didTask (arg : DoTaskArgs)
  /-- the reply of `Shutdown` -/
  | replied (ntasks : ℤ)
  /-- the loop ends because `nRPC` is 0, or because `Accept` fails -/
  | stopped
  | broken
deriving DecidableEq, Repr

def step (s : Worker) : Action → Option (Worker × List Event)
  | .dial conn =>
    if s.loop = .stopped then some (s, [.refused conn]) else some ({ s with backlog := s.backlog ++ [conn] }, [])
  | .check =>
    match s.loop with
    | .checking =>
      if s.nRPC = 0 then some ({ s with loop := .stopped, backlog := [] }, [.stopped])
      else some ({ s with loop := .accepting }, [])
    | _ => none
  | .accept =>
    match s.loop, s.backlog with
    | .accepting, conn :: rest => some ({ s with loop := .deducting conn, backlog := rest }, [.accepted conn])
    | _, _ => none
  | .acceptError =>
    match s.loop with
    | .accepting => some ({ s with loop := .stopped, backlog := [] }, [.broken])
    | _ => none
  | .deduct =>
    match s.loop with
    | .deducting conn => some ({ s with nRPC := s.nRPC - 1, loop := .serving conn }, [.deducted])
    | _ => none
  | .serve =>
    match s.loop with
    | .serving conn => some ({ s with loop := .counting, served := s.served ++ [conn] }, [])
    | _ => none
  | .count =>
    match s.loop with
    | .counting => some ({ s with nTasks := s.nTasks + 1, loop := .checking }, [.counted])
    | _ => none
  | .handle i =>
    match s.served[i]? with
    | some (.doTask arg) => some ({ s with served := s.served.eraseIdx i }, [.didTask arg])
    | some .shutdown =>
      some ({ s with nRPC := 1, nTasks := s.nTasks - 1, served := s.served.eraseIdx i }, [.replied s.nTasks])
    | none => none

/-- a worker that `RunWorker` starts with `nRPC` -/
def machine (nRPC : ℤ) : Machine Worker Action Event where
  init := ⟨nRPC, 0, .checking, [], []⟩
  step := step

variable {nRPC n : ℤ} {s s' : Worker} {a : Action} {h evs : List Event}

/-! ## The history -/

def conn? : Event → Option Rpc
  | .accepted conn => some conn
  | _ => none

/-- the connections that were accepted -/
def conns (h : List Event) : List Rpc := h.filterMap conn?

def isReply : Event → Bool
  | .replied _ => true
  | _ => false

/-- how often `Shutdown` has run -/
def replies (h : List Event) : ℕ := h.countP isReply

def isTask : Rpc → Bool
  | .doTask _ => true
  | .shutdown => false

/-- what is left of `nRPC` -/
def deduction (left : ℤ) : Event → ℤ
  | .replied _ => 1
  | .deducted => left - 1
  | _ => left

def left (nRPC : ℤ) (h : List Event) : ℤ := h.foldl deduction nRPC

@[simp]
theorem conns_append (h evs : List Event) : conns (h ++ evs) = conns h ++ conns evs := List.filterMap_append

@[simp]
theorem replies_append (h evs : List Event) : replies (h ++ evs) = replies h + replies evs := List.countP_append

@[simp]
theorem left_append (nRPC : ℤ) (h evs : List Event) : left nRPC (h ++ evs) = left (left nRPC h) evs := List.foldl_append

@[simp]
theorem conns_singleton (e : Event) : conns [e] = (conn? e).toList := by cases e <;> rfl

@[simp]
theorem replies_singleton (e : Event) : replies [e] = if isReply e then 1 else 0 := List.countP_singleton

@[simp]
theorem left_singleton (nRPC : ℤ) (e : Event) : left nRPC [e] = deduction nRPC e := rfl

/-- until `Shutdown` runs, every deduction counts -/
theorem left_of_no_reply (hno : replies h = 0) : left nRPC h = nRPC - h.count .deducted := by
  induction h generalizing nRPC with
  | nil => simp [left]
  | cons e h ih =>
    have hrest : left nRPC (e :: h) = left (deduction nRPC e) h := rfl
    cases e with
    | replied m => simp [replies, isReply] at hno
    | deducted =>
      rw [hrest, ih (by simpa [replies, isReply] using hno), List.count_cons_self, deduction]
      push_cast
      ring
    | _ =>
      rw [hrest, ih (by simpa [replies, isReply] using hno), List.count_cons_of_ne (by simp)]
      rfl

/-- and after it has run those since then -/
theorem left_of_last_reply (nRPC m : ℤ) (h₁ : List Event) {h₂ : List Event} (hno : replies h₂ = 0) :
    left nRPC (h₁ ++ .replied m :: h₂) = 1 - h₂.count .deducted := by
  rw [left_append]
  exact left_of_no_reply hno

/-- the last run of `Shutdown` -/
theorem exists_last_reply (hsome : replies h ≠ 0) : ∃ h₁ m h₂, h = h₁ ++ .replied m :: h₂ ∧ replies h₂ = 0 := by
  induction h using List.reverseRecOn with
  | nil => exact absurd rfl hsome
  | append_singleton h e ih =>
    by_cases he : replies [e] = 0
    · rw [replies_append, he] at hsome
      obtain ⟨h₁, m, h₂, rfl, hno⟩ := ih hsome
      exact ⟨h₁, m, h₂ ++ [e], by simp, by rw [replies_append, hno, he]⟩
    · cases e with
      | replied m => exact ⟨h, m, [], rfl, rfl⟩
      | _ => exact absurd rfl he

/-! ## Steps -/

inductive Stepped (s : Worker) : Worker → List Event → Prop
  | refused (conn : Rpc) : Stepped s s [.refused conn]
  | dialled (conn : Rpc) : Stepped s { s with backlog := s.backlog ++ [conn] } []
  | stopped : s.loop = .checking → s.nRPC = 0 → Stepped s { s with loop := .stopped, backlog := [] } [.stopped]
  | passed : s.loop = .checking → s.nRPC ≠ 0 → Stepped s { s with loop := .accepting } []
  | accepted {conn : Rpc} {rest : List Rpc} : s.loop = .accepting →
      Stepped s { s with loop := .deducting conn, backlog := rest } [.accepted conn]
  | broken : s.loop = .accepting → Stepped s { s with loop := .stopped, backlog := [] } [.broken]
  | deducted {conn : Rpc} : s.loop = .deducting conn →
      Stepped s { s with nRPC := s.nRPC - 1, loop := .serving conn } [.deducted]
  | serving {conn : Rpc} : s.loop = .serving conn →
      Stepped s { s with loop := .counting, served := s.served ++ [conn] } []
  | counted : s.loop = .counting → Stepped s { s with nTasks := s.nTasks + 1, loop := .checking } [.counted]
  | didTask {i : ℕ} {arg : DoTaskArgs} : s.served[i]? = some (.doTask arg) →
      Stepped s { s with served := s.served.eraseIdx i } [.didTask arg]
  | shutdown {i : ℕ} : s.served[i]? = some .shutdown →
      Stepped s { s with nRPC := 1, nTasks := s.nTasks - 1, served := s.served.eraseIdx i } [.replied s.nTasks]

theorem step_cases (hs : step s a = some (s', evs)) : Stepped s s' evs := by
  cases a with
  | dial conn =>
    simp only [step] at hs
    split_ifs at hs <;> cases hs
    · exact .refused conn
    · exact .dialled conn
  | check =>
    simp only [step] at hs
    split at hs
    · split_ifs at hs <;> cases hs
      · exact .stopped ‹_› ‹_›
      · exact .passed ‹_› ‹_›
    · cases hs
  | accept | acceptError | deduct | serve | count =>
    simp only [step] at hs
    split at hs <;> cases hs
    constructor
    assumption
  | handle i =>
    simp only [step] at hs
    split at hs <;> cases hs
    · exact .didTask ‹_›
    · exact .shutdown ‹_›

theorem step_length (s : Worker) (a : Action) (s' : Worker) (evs : List Event) (hs : step s a = some (s', evs)) :
    evs.length ≤ 1 := by
  cases step_cases hs <;> simp

/-! ## The counters -/

structure Counters (nRPC : ℤ) (s : Worker) (h : List Event) : Prop where
  left : s.nRPC = left nRPC h
  nTasks : s.nTasks = (h.count .counted : ℤ) - replies h
  uncounted : (conns h).length = h.count .counted + s.loop.uncounted
  undeducted : (conns h).length = h.count .deducted + s.loop.undeducted
  inHand : ∀ conn, s.loop.conn = some conn → ∃ l, conns h = l ++ [conn]
  shutdowns : (conns h).count .shutdown = replies h + s.served.count .shutdown + s.loop.conn.toList.count .shutdown
  /-- once `nRPC` is not negative, a connection is accepted only while it is positive -/
  room : 0 ≤ nRPC ∨ replies h ≠ 0 → (s.loop.undeducted : ℤ) ≤ s.nRPC ∧ (s.loop = .accepting → 1 ≤ s.nRPC)

theorem count_served {i : ℕ} {conn : Rpc} (hi : s.served[i]? = some conn) :
    s.served.count .shutdown = (s.served.eraseIdx i).count .shutdown + [conn].count .shutdown := by
  obtain ⟨hlt, rfl⟩ := List.getElem?_eq_some_iff.1 hi
  rw [← (List.getElem_cons_eraseIdx_perm hlt).count_eq, ← List.singleton_append, List.count_append, Nat.add_comm]

theorem Counters.init (nRPC : ℤ) : Counters nRPC ⟨nRPC, 0, .checking, [], []⟩ [] := by
  constructor <;> simp [Worker.left, replies, conns, Loop.conn, Loop.uncounted, Loop.undeducted]

theorem Counters.step (hc : Counters nRPC s h) (hs : Stepped s s' evs) : Counters nRPC s' (h ++ evs) := by
  obtain ⟨hleft, htasks, huncounted, hundeducted, hhand, hshutdowns, hroom⟩ := hc
  cases hs with
  | refused | dialled => constructor <;> simp [conn?, isReply, deduction] <;> assumption
  | stopped hloop | accepted hloop | broken hloop | deducted hloop | serving hloop | counted hloop =>
    simp only [hloop, Loop.conn, Loop.uncounted, Loop.undeducted] at huncounted hundeducted hhand hshutdowns hroom
    refine ⟨?_, ?_, ?_, ?_, ?_, ?_, ?_⟩
    · simp [hleft, deduction]
    · simp [htasks, isReply] <;> omega
    · simp [huncounted, Loop.uncounted, conn?]
    · simp [hundeducted, Loop.undeducted, conn?]
    · simp [Loop.conn, conn?, hhand]
    · simp [hshutdowns, Loop.conn, conn?, isReply] <;> omega
    · intro hlimit
      have hbound := hroom (by simpa [isReply] using hlimit)
      simp [Loop.undeducted] at hbound ⊢
      omega
  | passed hloop hne =>
    have hpos : 0 ≤ nRPC ∨ replies h ≠ 0 → 1 ≤ s.nRPC := by
      intro hlimit
      have hnonneg := (hroom hlimit).1
      rw [hloop] at hnonneg
      simp only [Loop.undeducted] at hnonneg
      omega
    constructor <;> simp_all [Loop.conn, Loop.uncounted, Loop.undeducted]
  | @didTask i arg hi =>
    have hconns : conns (h ++ [.didTask arg]) = conns h := by simp [conn?]
    have hreplies : replies (h ++ [.didTask arg]) = replies h := by simp [isReply]
    refine ⟨by simpa [deduction] using hleft, ?_, ?_, ?_, ?_, ?_, ?_⟩
    · simpa [hreplies] using htasks
    · simpa [hconns] using huncounted
    · simpa [hconns] using hundeducted
    · rwa [hconns]
    · rw [hconns, hreplies, hshutdowns, count_served hi]
      simp
    · rwa [hreplies]
  | @shutdown i hi =>
    have hconns : conns (h ++ [.replied s.nTasks]) = conns h := by simp [conn?]
    have hreplies : replies (h ++ [.replied s.nTasks]) = replies h + 1 := by simp [isReply]
    refine ⟨by simp [deduction], ?_, ?_, ?_, ?_, ?_, ?_⟩
    · have hcount : (h ++ [Event.replied s.nTasks]).count .counted = h.count .counted := by simp
      rw [hcount, hreplies]
      push_cast
      show s.nTasks - 1 = _
      omega
    · simpa [hconns] using huncounted
    · simpa [hconns] using hundeducted
    · rwa [hconns]
    · rw [hconns, hreplies, hshutdowns, count_served hi, List.count_singleton_self]
      show _ = replies h + 1 + (s.served.eraseIdx i).count .shutdown + s.loop.conn.toList.count .shutdown
      omega
    · intro _
      exact ⟨by cases s.loop <;> simp [Loop.undeducted], fun _ => le_rfl⟩

theorem run_counters (hr : (machine nRPC).Run Machine.free s h) : Counters nRPC s h :=
  hr.invariant (I := Counters nRPC) (Counters.init nRPC) fun _ _ _ _ _ hc _ hs => hc.step (step_cases hs)

/-! ## What `Shutdown` reports -/

theorem length_rpcs (l : List Rpc) : l.length = l.countP isTask + l.count .shutdown := by
  rw [List.length_eq_countP_add_countP isTask, List.count]
  congr 2
  funext conn
  cases conn <;> rfl

/-- the connections that were counted: the loop is through with one before it accepts the next -/
def countedConns (h : List Event) : List Rpc := (conns h).take (h.count .counted)

/-- the moment at which `Shutdown` runs -/
theorem run_replied {h₁ h₂ : List Event} (hr : (machine nRPC).Run Machine.free s h) (heq : h = h₁ ++ .replied n :: h₂) :
    ∃ t, Counters nRPC t h₁ ∧ t.nTasks = n ∧ 1 ≤ t.served.count .shutdown := by
  obtain ⟨t, a, t', hr₁, -, hs, -⟩ := hr.split step_length heq
  refine ⟨t, run_counters hr₁, ?_⟩
  cases step_cases hs with
  | shutdown hi => exact ⟨rfl, List.count_pos_iff.2 (List.mem_of_getElem? hi)⟩

/-- **The Number of Tasks.** `ShutdownReply` is to hold the number of tasks the worker has processed. `Shutdown` reports
all connections that the loop has counted, less one for each time it has run before. These are all connections that were
accepted, or all but the last one, and the connection of `Shutdown` itself may be among them or not. -/
theorem shutdown_reply (nRPC : ℤ) {s : Worker} {h h₁ h₂ : List Event} {n : ℤ} (hr : (machine nRPC).Run Machine.free s h)
    (heq : h = h₁ ++ .replied n :: h₂) :
    n = (countedConns h₁).countP isTask + (countedConns h₁).count .shutdown - replies h₁ ∧
      (conns h₁).length ≤ (countedConns h₁).length + 1 := by
  obtain ⟨t, hc, rfl, -⟩ := run_replied hr heq
  have htasks := hc.nTasks
  have huncounted := hc.uncounted
  have hsplit := length_rpcs (countedConns h₁)
  have hlength : (countedConns h₁).length = h₁.count .counted := List.length_take_of_le (by omega)
  have hloop : t.loop.uncounted ≤ 1 := by cases t.loop <;> simp [Loop.uncounted]
  constructor <;> omega

/-- one task: `Shutdown` runs before the loop has counted its connection, and after that -/
theorem shutdown_reply_oneTask :
    (∃ s h, (machine (-1)).Run Machine.free s h ∧ .replied 1 ∈ h ∧ (conns h).countP isTask = 1) ∧
    (∃ s h, (machine (-1)).Run Machine.free s h ∧ .replied 2 ∈ h ∧ (conns h).countP isTask = 1) := by
  let task : Rpc := .doTask ⟨[], [], .mapPhase, 0, 1⟩
  let before : List Event := [.accepted task, .deducted, .counted, .accepted .shutdown, .deducted]
  have hfirst : ((machine (-1)).exec Machine.free
      [.dial task, .dial .shutdown, .check, .accept, .deduct, .serve, .count,
      .check, .accept, .deduct, .serve, .handle 1]).any
        (fun r => decide (r.2 = before ++ .replied (r.1.nTasks + 1) :: [])) = true := by decide
  have hlater : ((machine (-1)).exec Machine.free
      [.dial task, .dial .shutdown, .check, .accept, .deduct, .serve, .count,
      .check, .accept, .deduct, .serve, .count, .handle 1]).any
        (fun r => decide (r.2 = (before ++ [.counted]) ++ .replied (r.1.nTasks + 1) :: [])) = true := by decide
  obtain ⟨s, h, hr, ht⟩ := Machine.exists_run_of_exec hfirst
  obtain ⟨s', h', hr', ht'⟩ := Machine.exists_run_of_exec hlater
  have heq := of_decide_eq_true ht
  have heq' := of_decide_eq_true ht'
  have hone := (shutdown_reply (-1) hr heq).1
  have htwo := (shutdown_reply (-1) hr' heq').1
  simp only at heq heq'
  refine ⟨⟨s, h, hr, ?_, ?_⟩, ⟨s', h', hr', ?_, ?_⟩⟩
  · rw [heq, hone]; decide
  · rw [heq]; rfl
  · rw [heq', htwo]; decide
  · rw [heq']; rfl

/-! ## How many connections -/

/-- the moment at which the loop ends -/
theorem run_stopped {h₁ h₂ : List Event} (hr : (machine nRPC).Run Machine.free s h) (heq : h = h₁ ++ .stopped :: h₂) :
    ∃ t, Counters nRPC t h₁ ∧ t.loop = .checking ∧ left nRPC h₁ = 0 := by
  obtain ⟨t, a, t', hr₁, -, hs, -⟩ := hr.split step_length heq
  have hc := run_counters hr₁
  cases step_cases hs with
  | stopped hloop hzero => exact ⟨t, hc, hloop, hc.left.symm.trans hzero⟩

/-- the loop ends in one of two ways -/
theorem run_ended (hr : (machine nRPC).Run Machine.free s h) (hstopped : s.loop = .stopped) :
    .stopped ∈ h ∨ .broken ∈ h := by
  refine hr.invariant (I := fun s h => s.loop = .stopped → .stopped ∈ h ∨ .broken ∈ h)
    (fun h => (by cases h)) ?_ hstopped
  intro s h a s' evs hI _ hs hstopped
  cases step_cases hs with
  | stopped => simp
  | broken => simp
  | refused | dialled | didTask | shutdown => exact (hI hstopped).imp (List.mem_append_left _) (List.mem_append_left _)
  | passed | accepted | deducted | serving | counted => cases hstopped

/-- while `nRPC` is not negative, it bounds what the loop accepts -/
theorem Counters.length_le (hc : Counters nRPC s h) (hk : 0 ≤ nRPC) (hno : replies h = 0) :
    (conns h).length ≤ nRPC := by
  have hroom := (hc.room (.inl hk)).1
  rw [hc.left, left_of_no_reply hno] at hroom
  have hundeducted := hc.undeducted
  omega

theorem Counters.deducted_le (hc : Counters nRPC s h) {h₁ h₂ : List Event} (heq : h = h₁ ++ .replied n :: h₂)
    (hno : replies h₂ = 0) : h₂.count .deducted ≤ 1 := by
  have hsome : replies h ≠ 0 := by simp [heq, replies, isReply]
  have hroom := (hc.room (.inr hsome)).1
  rw [hc.left, heq, left_of_last_reply _ _ _ hno] at hroom
  omega

/-- **Connections.** As long as `Shutdown` has not run, a worker that was started with `nRPC` accepts at most that many
connections (any number if `nRPC` is negative), and it finds `nRPC` at 0 after exactly that many. After `Shutdown` has
run, the loop takes on at most one more connection, and finds `nRPC` at 0 only when it has taken it on. The loop ends
when it finds `nRPC` at 0, or because `Accept` fails. -/
theorem connections_limited (nRPC : ℤ) {s : Worker} {h : List Event} (hr : (machine nRPC).Run Machine.free s h) :
    (replies h = 0 → (0 ≤ nRPC → (conns h).length ≤ nRPC) ∧ (.stopped ∈ h → (conns h).length = nRPC)) ∧
    (∀ h₁ n h₂, h = h₁ ++ .replied n :: h₂ → replies h₂ = 0 →
      h₂.count .deducted ≤ 1 ∧ (.stopped ∈ h₂ → h₂.count .deducted = 1)) ∧
    (s.loop = .stopped → .stopped ∈ h ∨ .broken ∈ h) := by
  have hc := run_counters hr
  refine ⟨?_, ?_, run_ended hr⟩
  · intro hno
    refine ⟨fun hk => hc.length_le hk hno, fun hstopped => ?_⟩
    obtain ⟨g₁, g₂, rfl⟩ := List.append_of_mem hstopped
    obtain ⟨t, ht, hloop, hzero⟩ := run_stopped hr rfl
    rw [replies_append] at hno
    rw [left_of_no_reply (by omega)] at hzero
    have hundeducted := ht.undeducted
    rw [hloop] at hundeducted
    have hle := hc.length_le (by omega) (by rw [replies_append]; omega)
    rw [conns_append, List.length_append] at hle ⊢
    simp only [Loop.undeducted] at hundeducted
    omega
  · intro h₁ n h₂ heq hno
    have hle := hc.deducted_le heq hno
    refine ⟨hle, fun hstopped => ?_⟩
    obtain ⟨g₁, g₂, rfl⟩ := List.append_of_mem hstopped
    obtain ⟨t, ht, -, hzero⟩ := run_stopped hr (heq.trans (by simp : _ = (h₁ ++ .replied n :: g₁) ++ .stopped :: g₂))
    rw [replies_append] at hno
    rw [left_of_last_reply _ _ _ (by omega)] at hzero
    rw [List.count_append] at hle ⊢
    omega

/-- a worker that is to serve one connection leaves after it -/
theorem connections_limited_one : ∃ s h,
    (machine 1).Run Machine.free s h ∧ .stopped ∈ h ∧ replies h = 0 ∧ ((conns h).length : ℤ) = 1 := by
  have he : ((machine 1).exec Machine.free [.dial (.doTask ⟨[], [], .mapPhase, 0, 1⟩), .check, .accept, .deduct, .serve,
      .handle 0, .count, .check]).any (fun r => decide (.stopped ∈ r.2 ∧ replies r.2 = 0)) = true := by decide
  obtain ⟨s, h, hr, ht⟩ := Machine.exists_run_of_exec he
  obtain ⟨hstopped, hno⟩ : .stopped ∈ h ∧ replies h = 0 := of_decide_eq_true ht
  exact ⟨s, h, hr, hstopped, hno, ((connections_limited 1 hr).1 hno).2 hstopped⟩

/-! ## After `killWorkers` -/

section Last

variable {tasks : List DoTaskArgs} {l : List Rpc}

/-- after its only `Shutdown` the worker gets no connection -/
theorem eq_of_shutdown_mem (hl : l <+: tasks.map .doTask ++ [.shutdown]) (hmem : .shutdown ∈ l) :
    l = tasks.map .doTask ++ [.shutdown] := by
  refine (List.prefix_concat_iff.1 hl).resolve_right fun hshort => ?_
  obtain ⟨arg, -, heq⟩ := List.mem_map.1 (hshort.subset hmem)
  cases heq

theorem count_shutdown_last (tasks : List DoTaskArgs) :
    (tasks.map .doTask ++ [.shutdown] : List Rpc).count .shutdown = 1 := by
  have hnone : (tasks.map Rpc.doTask).count .shutdown = 0 := List.count_eq_zero.2 (by simp)
  rw [List.count_append, hnone]
  rfl

/-- when `Shutdown` runs, the loop has nothing to deduct -/
theorem Counters.undeducted_eq_zero (hc : Counters nRPC s h) (hall : conns h = tasks.map .doTask ++ [.shutdown])
    (hserved : 1 ≤ s.served.count .shutdown) : s.loop.undeducted = 0 := by
  cases hloop : s.loop with
  | deducting conn =>
    obtain ⟨l, hl⟩ := hc.inHand conn (by rw [hloop]; rfl)
    obtain ⟨-, hconn⟩ := List.append_inj' (hl.symm.trans hall) rfl
    cases hconn
    have hshutdowns := hc.shutdowns
    rw [hall, count_shutdown_last, hloop] at hshutdowns
    simp only [Loop.conn, Option.toList_some, List.count_singleton_self] at hshutdowns
    omega
  | _ => rfl

end Last

/-- if `Shutdown` comes on the last connection, the loop does not find `nRPC` at 0 -/
theorem stopped_notMem (hk : nRPC < 0) (hr : (machine nRPC).Run Machine.free s h) {tasks : List DoTaskArgs}
    (hlast : conns h <+: tasks.map .doTask ++ [.shutdown]) : .stopped ∉ h := by
  intro hstopped
  obtain ⟨h₁, h₂, rfl⟩ := List.append_of_mem hstopped
  obtain ⟨t, ht, hloop, hzero⟩ := run_stopped hr rfl
  -- the loop has seen `nRPC` at 0, so `Shutdown` has run, and a connection was deducted after it
  have hreplied : replies h₁ ≠ 0 := by
    intro hno
    rw [left_of_no_reply hno] at hzero
    omega
  obtain ⟨g₁, n, g₂, rfl, hno⟩ := exists_last_reply hreplied
  rw [left_of_last_reply _ _ _ hno] at hzero
  have hmore : 1 ≤ g₂.count .deducted := by omega
  -- but all connections were deducted before
  obtain ⟨u, hu, -, hserved⟩ := run_replied hr (by simp : _ = g₁ ++ .replied n :: (g₂ ++ .stopped :: h₂))
  have hmem : .shutdown ∈ conns g₁ := by
    have hshutdowns := hu.shutdowns
    exact List.count_pos_iff.1 (by omega)
  have hpre : conns (g₁ ++ .replied n :: g₂) <+: tasks.map .doTask ++ [.shutdown] := by
    rw [conns_append] at hlast
    exact (List.prefix_append _ _).trans hlast
  have hbefore := eq_of_shutdown_mem hpre (by rw [conns_append]; exact List.mem_append_left _ hmem)
  rw [conns_append] at hpre
  have hfirst := eq_of_shutdown_mem ((List.prefix_append _ _).trans hpre) hmem
  have hnone := hu.undeducted_eq_zero hfirst hserved
  have hundeducted := hu.undeducted
  have hlater := ht.undeducted
  rw [hbefore, ← hfirst, List.count_append, List.count_cons_of_ne (by simp)] at hlater
  omega

/-- **A Worker Lingers.** `killWorkers` calls `Shutdown` when all tasks are done, on the last connection the worker
gets. It does not end the loop of a worker that was started without a limit; only an error of `Accept` does. -/
theorem shutdown_lingers (nRPC : ℤ) (hk : nRPC < 0) {s : Worker} {h : List Event}
    (hr : (machine nRPC).Run Machine.free s h) {tasks : List DoTaskArgs}
    (hlast : conns h <+: tasks.map .doTask ++ [.shutdown]) :
    .stopped ∉ h ∧ (s.loop = .stopped → .broken ∈ h) := by
  have hnone := stopped_notMem hk hr hlast
  exact ⟨hnone, fun hstopped => (run_ended hr hstopped).resolve_left hnone⟩

/-- the worker is back at `Accept`, with nobody left to connect -/
theorem shutdown_lingers_accepting : ∃ s h,
    (machine (-1)).Run Machine.free s h ∧ .replied 0 ∈ h ∧ s.loop = .accepting ∧ s.backlog = [] ∧ .stopped ∉ h := by
  have he : ((machine (-1)).exec Machine.free [.dial .shutdown, .check, .accept, .deduct, .serve, .handle 0, .count,
      .check]).any (fun r => decide (.replied 0 ∈ r.2 ∧ r.1.loop = .accepting ∧ r.1.backlog = [] ∧
        conns r.2 <+: [].map .doTask ++ [.shutdown])) = true := by decide
  obtain ⟨s, h, hr, ht⟩ := Machine.exists_run_of_exec he
  obtain ⟨hreplied, hloop, hbacklog, hlast⟩ : .replied 0 ∈ h ∧ s.loop = .accepting ∧ s.backlog = [] ∧
    conns h <+: [].map .doTask ++ [.shutdown] := of_decide_eq_true ht
  exact ⟨s, h, hr, hreplied, hloop, hbacklog, (shutdown_lingers (-1) (by decide) hr hlast).1⟩

end Worker

end CS240.MapReduce
