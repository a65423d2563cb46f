/-
What a call can rely on, whatever else happens on the network.

`Moves` says once what a step of a call can be. From it:
- `at_most_once`: a handler runs at most once for a call, a call returns at most once, and what it returns as a reply is
  what its handler replied before.
- `silent_after_death`: once the connection of a call is dead, and as long as it stays so, the call gets no reply, even
  when its handler has run or is about to. This is what config.go relies on when it deletes a server before it
  supersedes its Persister.
- `reliable_call`: on a reliable network that nobody changes, a call to a registered server never fails, and it can
  return from wherever it is.
-/
import CS240.Labrpc.Network

namespace CS240.Labrpc

open Lib

variable {E N S A R : Type} [DecidableEq S] {rn : Switch E N S} {c c' : Call E N S A R} {mv : Move R}

/-! ## What a step of a call can be -/

inductive Moves (rn : Switch E N S) (c : Call E N S A R) : Move R → Call E N S A R → Prop
  | accept {servername : N} {server : S} : c.stage = .received → rn.enabled c.endname = true →
      rn.connections c.endname = some servername → rn.servers servername = some server →
      Moves rn c .read { c with stage := .admitted, route := some ⟨servername, server, rn.reliable⟩ }
  | refuse : c.stage = .received →
      (rn.enabled c.endname = true → ∀ servername, rn.connections c.endname = some servername →
        rn.servers servername = none) → Moves rn c .read { c with stage := .answering none }
  | dropRequest {r : Route N S} : c.stage = .admitted → c.route = some r → r.reliable = false →
      Moves rn c .dropRequest { c with stage := .answering none }
  | spawn : c.stage = .admitted → Moves rn c .spawn { c with stage := .waiting, handler := .spawned }
  | dispatch : c.handler = .spawned → Moves rn c .dispatch { c with handler := .dispatched }
  | execute {reply : R} : c.handler = .dispatched → Moves rn c (.execute reply) { c with handler := .executed reply }
  | receive {reply : R} : c.stage = .waiting → c.handler = .executed reply →
      Moves rn c .receive { c with stage := .checking (some reply), handler := .handed reply }
  | quit : c.stage = .waiting → c.dead rn = true → Moves rn c .poll { c with stage := .checking none }
  | stay : c.stage = .waiting → c.dead rn = false → Moves rn c .poll c
  | giveUp {reply : Option R} : c.stage = .checking reply → (reply = none ∨ c.dead rn = true) →
      Moves rn c .recheck { c with stage := .answering none }
  | confirm {reply : R} : c.stage = .checking (some reply) → c.dead rn = false →
      Moves rn c .recheck { c with stage := .answering (some reply) }
  | dropReply {r : Route N S} {reply : R} : c.stage = .answering (some reply) → c.route = some r → r.reliable = false →
      Moves rn c .dropReply { c with stage := .answering none }
  | reply {reply : Option R} : c.stage = .answering reply → Moves rn c .reply { c with stage := .returned reply }

theorem read_moves (hm : c.move rn .read = some c') : Moves rn c .read c' := by
  simp only [Call.move] at hm
  split at hm
  · rename_i hst
    split at hm
    · rename_i hread
      cases hm
      simp only [Switch.readEndnameInfo, Prod.mk.injEq] at hread
      obtain ⟨hen, hconn, hserv, rfl⟩ := hread
      rw [hconn] at hserv
      exact .accept hst hen hconn hserv
    · rename_i hread
      cases hm
      refine .refuse hst fun hen servername hconn => ?_
      by_contra hserv
      obtain ⟨server, hserv⟩ := Option.ne_none_iff_exists'.1 hserv
      exact hread servername server rn.reliable (by simp [Switch.readEndnameInfo, hen, hconn, hserv])
  · cases hm

theorem moves_of_move (hm : c.move rn mv = some c') : Moves rn c mv c' := by
  cases mv with
  | read => exact read_moves hm
  | dropRequest =>
    simp only [Call.move] at hm
    split at hm
    · rename_i hst hr
      split_ifs at hm with hrel
      cases hm
      exact .dropRequest hst hr hrel
    · cases hm
  | spawn =>
    simp only [Call.move] at hm
    split at hm <;> cases hm
    exact .spawn ‹_›
  | dispatch =>
    simp only [Call.move] at hm
    split at hm <;> cases hm
    exact .dispatch ‹_›
  | execute reply =>
    simp only [Call.move] at hm
    split at hm <;> cases hm
    exact .execute ‹_›
  | receive =>
    simp only [Call.move] at hm
    split at hm <;> cases hm
    exact .receive ‹_› ‹_›
  | poll =>
    simp only [Call.move] at hm
    split at hm <;> cases hm
    split_ifs with hd
    · exact .quit ‹_› hd
    · exact .stay ‹_› (by simpa using hd)
  | recheck =>
    simp only [Call.move] at hm
    split at hm <;> cases hm
    · exact .giveUp ‹_› (.inl rfl)
    · split_ifs with hd
      · exact .giveUp ‹_› (.inr hd)
      · exact .confirm ‹_› (by simpa using hd)
  | dropReply =>
    simp only [Call.move] at hm
    split at hm
    · rename_i hst hr
      split_ifs at hm with hrel
      cases hm
      exact .dropReply hst hr hrel
    · cases hm
  | reply =>
    simp only [Call.move] at hm
    split at hm <;> cases hm
    exact .reply ‹_›

/-- a move leaves the request as it is -/
theorem Moves.request (hm : Moves rn c mv c') : c'.endname = c.endname ∧ c'.svcMeth = c.svcMeth ∧ c'.args = c.args := by
  cases hm <;> exact ⟨rfl, rfl, rfl⟩

/-- the route is set once -/
theorem Moves.route (hm : Moves rn c mv c') (hst : c.stage ≠ .received) : c'.route = c.route := by
  cases hm with
  | accept h => exact absurd h hst
  | _ => rfl

/-! ## Executed once, returned once -/

/-- the reply `ProcessReq` holds -/
def Stage.reply : Stage R → Option R
  | .checking reply | .answering reply | .returned reply => reply
  | _ => none

/-- the two goroutines of a call agree -/
structure Call.Ok (c : Call E N S A R) : Prop where
  unread : c.stage = .received → c.route = none
  early : c.stage = .received ∨ c.stage = .admitted → c.handler = .idle
  waiting : c.stage = .waiting → c.handler ≠ .idle ∧ ∀ reply, c.handler ≠ .handed reply
  replied : ∀ reply, c.stage.reply = some reply → c.handler = .handed reply
  routed : c.handler ≠ .idle ∨ c.stage = .admitted → c.route.isSome

omit [DecidableEq S] in
theorem Call.Ok.new (endname : E) (svcMeth : String) (args : A) : (Call.new endname svcMeth args : Call E N S A R).Ok :=
  ⟨fun _ => rfl, fun _ => rfl, nofun, nofun, by simp [Call.new]⟩

omit [DecidableEq S] in
/-- a call that leaves the loop, or does not enter it, without a reply -/
theorem Call.Ok.failing (hc : c.Ok) : ({ c with stage := .answering none } : Call E N S A R).Ok :=
  ⟨nofun, nofun, nofun, nofun, fun h => hc.routed (.inl (h.resolve_right nofun))⟩

omit [DecidableEq S] in
/-- a call that goes on with the reply it has -/
theorem Call.Ok.holding (hc : c.Ok) {st : Stage R} (hr : st.reply = c.stage.reply) (h1 : st ≠ .received)
    (h2 : st ≠ .admitted) (h3 : st ≠ .waiting) : ({ c with stage := st } : Call E N S A R).Ok :=
  ⟨fun h => absurd h h1, fun h => h.elim (absurd · h1) (absurd · h2), fun h => absurd h h3,
    fun reply h => hc.replied reply (hr ▸ h), fun h => hc.routed (.inl (h.resolve_right h2))⟩

omit [DecidableEq S] in
/-- the handler goes on after it was spawned -/
theorem Call.Ok.handling (hc : c.Ok) {hd : Handler R} (h1 : c.handler ≠ .idle) (h2 : ∀ reply, c.handler ≠ .handed reply)
    (h3 : hd ≠ .idle) (h4 : ∀ reply, hd ≠ .handed reply) : ({ c with handler := hd } : Call E N S A R).Ok :=
  ⟨hc.unread, fun h => absurd (hc.early h) h1, fun _ => ⟨h3, h4⟩, fun reply h => absurd (hc.replied reply h) (h2 reply),
    fun _ => hc.routed (.inl h1)⟩

theorem Moves.ok (hm : Moves rn c mv c') (hc : c.Ok) : c'.Ok := by
  cases hm with
  | accept hst => exact ⟨nofun, fun _ => hc.early (.inl hst), nofun, nofun, fun _ => rfl⟩
  | refuse | dropRequest | giveUp | dropReply => exact hc.failing
  | spawn hst => exact ⟨nofun, nofun, fun _ => ⟨nofun, nofun⟩, nofun, fun _ => hc.routed (.inr hst)⟩
  | dispatch hh | execute hh => exact hc.handling (by simp [hh]) (by simp [hh]) nofun nofun
  | receive hst hh =>
    exact ⟨nofun, nofun, nofun, fun r h => congrArg _ (Option.some.inj h), fun _ => hc.routed (.inl (by simp [hh]))⟩
  | quit hst => exact hc.holding (by rw [hst]; rfl) nofun nofun nofun
  | stay => exact hc
  | confirm hst | reply hst => exact hc.holding (by rw [hst]; rfl) nofun nofun nofun

/-- where and with which reply the handler of call `k` ran -/
def executions (k : ℕ) (h : List (Event S R)) : List (S × R) :=
  h.filterMap fun
    | .executed j server reply => if j = k then some (server, reply) else none
    | .returned _ _ => none

/-- what call `k` returned -/
def returns (k : ℕ) (h : List (Event S R)) : List (Option R) :=
  h.filterMap fun
    | .returned j reply => if j = k then some reply else none
    | .executed _ _ _ => none

def Call.executions (c : Call E N S A R) : List (S × R) :=
  match c.route, c.handler with
  | some r, .executed reply | some r, .handed reply => [(r.server, reply)]
  | _, _ => []

def Call.returns (c : Call E N S A R) : List (Option R) :=
  match c.stage with
  | .returned reply => [reply]
  | _ => []

omit [DecidableEq S] in
theorem executions_append (k : ℕ) (h evs : List (Event S R)) :
    executions k (h ++ evs) = executions k h ++ executions k evs := List.filterMap_append

omit [DecidableEq S] in
theorem returns_append (k : ℕ) (h evs : List (Event S R)) : returns k (h ++ evs) = returns k h ++ returns k evs :=
  List.filterMap_append

omit [DecidableEq S] in
/-- the events of one call say nothing about another -/
theorem seen_other {j k : ℕ} (hj : j ≠ k) (c : Call E N S A R) (mv : Move R) :
    executions j (Network.seen k c mv) = [] ∧ returns j (Network.seen k c mv) = [] := by
  unfold Network.seen
  split
  · cases c.route <;> simp [executions, returns, hj.symm]
  · split <;> simp [executions, returns, hj.symm]
  · exact ⟨rfl, rfl⟩

theorem Moves.executions (hm : Moves rn c mv c') (hc : c.Ok) (k : ℕ) :
    c'.executions = c.executions ++ Labrpc.executions k (Network.seen k c mv) := by
  cases hm with
  | accept hst => simp [Call.executions, hc.early (.inl hst), Network.seen, Labrpc.executions]
  | spawn hst =>
    cases hr : c.route <;> simp [Call.executions, hr, hc.early (.inr hst), Network.seen, Labrpc.executions]
  | dispatch hh => cases hr : c.route <;> simp [Call.executions, hr, hh, Network.seen, Labrpc.executions]
  | execute hh => cases hr : c.route <;> simp [Call.executions, hr, hh, Network.seen, Labrpc.executions]
  | receive _ hh => cases hr : c.route <;> simp [Call.executions, hr, hh, Network.seen, Labrpc.executions]
  | reply hst => simp [Call.executions, hst, Network.seen, Labrpc.executions]
  | _ => simp [Call.executions, Network.seen, Labrpc.executions]

theorem Moves.returns (hm : Moves rn c mv c') (k : ℕ) :
    c'.returns = c.returns ++ Labrpc.returns k (Network.seen k c mv) := by
  cases hm with
  | dispatch | stay => simp [Call.returns, Network.seen, Labrpc.returns]
  | execute => cases hr : c.route <;> simp [Call.returns, hr, Network.seen, Labrpc.returns]
  | accept hst | refuse hst | dropRequest hst | spawn hst | receive hst | quit hst | giveUp hst | confirm hst
  | dropReply hst | reply hst => simp [Call.returns, hst, Network.seen, Labrpc.returns]

section Runs

variable [DecidableEq E] [DecidableEq N] {nw nw' : Network E N S A R} {h h' evs : List (Event S R)}
  {a : Action E N S A R} {k : ℕ} {objects : S → Server}

/-- what a step of the network can be -/
inductive StepOf (nw : Network E N S A R) : Action E N S A R → Network E N S A R → List (Event S R) → Prop
  | admin {op : Admin E N S} {rn : Switch E N S} : nw.switch.apply op = some rn →
      StepOf nw (.admin op) { nw with switch := rn } []
  | call {endname : E} {svcMeth : String} {args : A} :
      StepOf nw (.call endname svcMeth args) { nw with calls := nw.calls ++ [.new endname svcMeth args] } []
  | move {k : ℕ} {mv : Move R} {c c' : Call E N S A R} {objects : S → Server} : nw.calls[k]? = some c →
      Moves nw.switch c mv c' → nw.served c mv = some objects →
      StepOf nw (.move k mv) { nw with objects := objects, calls := nw.calls.set k c' } (Network.seen k c mv)

theorem step_cases (hs : nw.step a = some (nw', evs)) : StepOf nw a nw' evs := by
  cases a with
  | admin op =>
    simp only [Network.step, Option.map_eq_some_iff] at hs
    obtain ⟨rn, hrn, heq⟩ := hs
    cases heq
    exact .admin hrn
  | call endname svcMeth args =>
    cases hs
    exact .call
  | move k mv =>
    simp only [Network.step] at hs
    split at hs
    · cases hs
    · rename_i c hc
      simp only [Option.bind_eq_bind, Option.bind_eq_some_iff] at hs
      obtain ⟨c', hc', objects, hobj, heq⟩ := hs
      cases heq
      exact .move hc (moves_of_move hc') hobj

/-- a property of every call is kept when new calls and moves keep it -/
theorem step_calls {P : Call E N S A R → Prop} (hs : nw.step a = some (nw', evs)) (hP : ∀ c ∈ nw.calls, P c)
    (hnew : ∀ endname svcMeth args, a = .call endname svcMeth args → P (.new endname svcMeth args))
    (hmove : ∀ c c' mv, P c → Moves nw.switch c mv c' → P c') : ∀ c ∈ nw'.calls, P c := by
  cases step_cases hs with
  | admin => exact hP
  | call =>
    intro c hc
    rcases List.mem_append.1 hc with hc | hc
    · exact hP c hc
    · rw [List.mem_singleton.1 hc]
      exact hnew _ _ _ rfl
  | move hk hm =>
    intro c hc
    rcases List.mem_or_eq_of_mem_set hc with hc | rfl
    · exact hP c hc
    · exact hmove _ _ _ (hP _ (List.mem_of_getElem? hk)) hm

theorem run_ok {ok : Network E N S A R → Action E N S A R → Prop} (hr : (machine E N A R objects).Run ok nw h) :
    ∀ c ∈ nw.calls, c.Ok :=
  hr.invariant (I := fun nw _ => ∀ c ∈ nw.calls, c.Ok) (by simp [machine])
    fun _ _ _ _ _ hI _ hs => step_calls hs hI (fun _ _ _ _ => Call.Ok.new _ _ _) fun _ _ _ hc hm => hm.ok hc

/-- what the history says about call `k` is what the call itself shows -/
def Accounted (nw : Network E N S A R) (h : List (Event S R)) (k : ℕ) : Prop :=
  executions k h = (nw.calls[k]?).elim [] Call.executions ∧ returns k h = (nw.calls[k]?).elim [] Call.returns

theorem step_accounted (hok : ∀ c ∈ nw.calls, c.Ok) (hA : Accounted nw h k) (hs : nw.step a = some (nw', evs)) :
    Accounted nw' (h ++ evs) k := by
  cases step_cases hs with
  | admin => simpa [Accounted] using hA
  | call =>
    rw [List.append_nil]
    rcases lt_trichotomy k nw.calls.length with hlt | rfl | hlt
    · simpa [Accounted, List.getElem?_append_left hlt] using hA
    · simpa [Accounted, Call.executions, Call.returns, Call.new] using hA
    · rw [Accounted, List.getElem?_eq_none (by simpa using hlt)]
      rwa [Accounted, List.getElem?_eq_none hlt.le] at hA
  | @move j mv c c' _ hj hm =>
    have hlt : j < nw.calls.length := (List.getElem?_eq_some_iff.1 hj).1
    rw [Accounted, executions_append, returns_append, hA.1, hA.2]
    by_cases hjk : j = k
    · subst hjk
      rw [hj, List.getElem?_set_self hlt]
      exact ⟨(hm.executions (hok c (List.mem_of_getElem? hj)) j).symm, (hm.returns j).symm⟩
    · obtain ⟨he, hret⟩ := seen_other (Ne.symm hjk) c mv
      rw [he, hret, List.append_nil, List.append_nil, List.getElem?_set_ne hjk]
      exact ⟨rfl, rfl⟩

theorem run_accounted {ok : Network E N S A R → Action E N S A R → Prop} (hr : (machine E N A R objects).Run ok nw h)
    (k : ℕ) : Accounted nw h k := by
  induction hr with
  | init => exact ⟨rfl, rfl⟩
  | step hr _ hs ih => exact step_accounted (run_ok hr) ih hs

omit [DecidableEq S] [DecidableEq E] [DecidableEq N] in
theorem Call.executions_length_le (c : Call E N S A R) : c.executions.length ≤ 1 := by
  unfold Call.executions; split <;> simp

omit [DecidableEq S] [DecidableEq E] [DecidableEq N] in
theorem Call.returns_length_le (c : Call E N S A R) : c.returns.length ≤ 1 := by
  unfold Call.returns; split <;> simp

omit [DecidableEq S] [DecidableEq E] [DecidableEq N] in
/-- a reply that is about to be returned was given by the handler -/
theorem Call.Ok.executions (hc : c.Ok) (reply : R) (hst : c.stage.reply = some reply) :
    ∃ server, c.executions = [(server, reply)] := by
  have hh := hc.replied reply hst
  obtain ⟨r, hr⟩ := Option.isSome_iff_exists.1 (hc.routed (.inl (by simp [hh])))
  exact ⟨r.server, by simp [Call.executions, hr, hh]⟩

/-- replies come after executions -/
theorem step_answered (hok : ∀ c ∈ nw.calls, c.Ok) (hA : Accounted nw h k) (hs : nw.step a = some (nw', evs))
    (hh : ∀ h₁ e h₂, h = h₁ ++ e :: h₂ → ∀ reply, e = .returned k (some reply) →
      ∃ server, executions k h₁ = [(server, reply)]) :
    ∀ h₁ e h₂, h ++ evs = h₁ ++ e :: h₂ → ∀ reply, e = .returned k (some reply) →
      ∃ server, executions k h₁ = [(server, reply)] := by
  cases step_cases hs with
  | admin | call => simpa using hh
  | @move j mv c c' _ hj hm =>
    cases hm with
    | @execute reply₀ =>
      cases hr : c.route with
      | none => simpa [Network.seen, hr] using hh
      | some r =>
        have hseen : Network.seen j c (.execute reply₀) = [.executed j r.server reply₀] := by simp [Network.seen, hr]
        rw [hseen]
        exact Machine.forall_split_snoc hh fun reply heq => by cases heq
    | @reply reply₀ hst =>
      have hseen : Network.seen j c (Move.reply : Move R) = [.returned j reply₀] := by simp [Network.seen, hst]
      rw [hseen]
      refine Machine.forall_split_snoc hh fun reply heq => ?_
      cases heq
      obtain ⟨server, he⟩ := (hok c (List.mem_of_getElem? hj)).executions reply (by rw [hst]; rfl)
      exact ⟨server, by rw [hA.1, hj]; exact he⟩
    | _ => simpa [Network.seen] using hh

/-- **At most once**: whatever the network does and however its administration changes, the handler of a call runs at
most once and the call returns at most once; and a reply that is returned is the one its handler gave before. -/
theorem at_most_once (hr : (machine E N A R objects).Run Machine.free nw h) (k : ℕ) :
    (executions k h).length ≤ 1 ∧ (returns k h).length ≤ 1 ∧
    ∀ h₁ h₂ reply, h = h₁ ++ .returned k (some reply) :: h₂ → ∃ server, executions k h₁ = [(server, reply)] := by
  obtain ⟨hex, hret⟩ := run_accounted hr k
  refine ⟨?_, ?_, ?_⟩
  · rw [hex]
    cases nw.calls[k]? with
    | none => exact Nat.zero_le _
    | some c => exact c.executions_length_le
  · rw [hret]
    cases nw.calls[k]? with
    | none => exact Nat.zero_le _
    | some c => exact c.returns_length_le
  · have hall : ∀ h₁ e h₂, h = h₁ ++ e :: h₂ → ∀ reply, e = .returned k (some reply) →
        ∃ server, executions k h₁ = [(server, reply)] := by
      clear hex hret
      induction hr with
      | init => simp
      | step hr _ hs ih => exact step_answered (run_ok hr) (run_accounted hr k) hs ih
    exact fun h₁ h₂ reply heq => hall h₁ _ h₂ heq reply rfl

end Runs

/-- servers with one service and one method -/
def oneMethod (_ : ℕ) : Server := makeServer.addService "Raft" ["RequestVote"]

/-- end 0 leads to the server object 5, registered under the name 1; a call is made over it -/
def firstCall : List (Action ℕ ℕ ℕ Unit ℕ) :=
  [.admin (.makeEnd 0), .admin (.connect 0 1), .admin (.addServer 1 5), .admin (.enable 0 true),
    .call 0 "Raft.RequestVote" ()]

/-- its handler answers 7 -/
def answered : List (Action ℕ ℕ ℕ Unit ℕ) :=
  firstCall ++ [.move 0 .read, .move 0 .spawn, .move 0 .dispatch, .move 0 (.execute 7)]

theorem at_most_once_answered : ∃ nw h, (machine ℕ ℕ Unit ℕ oneMethod).Run Machine.free nw h ∧
    .returned 0 (some 7) ∈ h ∧ executions 0 h = [(5, 7)] ∧ (executions 0 h).length ≤ 1 ∧ (returns 0 h).length ≤ 1 := by
  obtain ⟨nw, h, hr, ht⟩ := Machine.exists_run_of_exec
    (show ((machine ℕ ℕ Unit ℕ oneMethod).exec Machine.free
        (answered ++ [.move 0 .receive, .move 0 .recheck, .move 0 .reply])).any
      (fun r => decide (.returned 0 (some 7) ∈ r.2 ∧ executions 0 r.2 = [(5, 7)])) = true by decide +kernel)
  obtain ⟨hret, hex⟩ := of_decide_eq_true ht
  obtain ⟨hle, hle', -⟩ := at_most_once hr 0
  exact ⟨nw, h, hr, hret, hex, hle, hle'⟩

section Replies

variable [DecidableEq E] [DecidableEq N] {nw nw' : Network E N S A R} {h h' evs : List (Event S R)}
  {a : Action E N S A R} {k : ℕ} {objects : S → Server}

omit [DecidableEq E] [DecidableEq N] [DecidableEq S] in
theorem mem_returns {reply : Option R} : reply ∈ returns k h ↔ .returned k reply ∈ h := by
  constructor
  · intro hret
    obtain ⟨ev, hmem, hev⟩ := List.mem_filterMap.1 hret
    cases ev with
    | executed => cases hev
    | returned j r =>
      dsimp only at hev
      split_ifs at hev with hjk
      cases hev
      exact hjk ▸ hmem
  · exact fun hmem => List.mem_filterMap.2 ⟨_, hmem, if_pos rfl⟩

omit [DecidableEq E] [DecidableEq N] [DecidableEq S] in
theorem Call.mem_returns {reply : Option R} : reply ∈ c.returns ↔ c.stage = .returned reply := by
  unfold Call.returns
  split
  · rename_i r hst
    rw [List.mem_singleton, hst, Stage.returned.injEq, eq_comm]
  · rename_i hst
    exact ⟨nofun, fun h => absurd h (hst reply)⟩

/-- a call has returned when its history says so -/
theorem run_returned {ok : Network E N S A R → Action E N S A R → Prop} (hr : (machine E N A R objects).Run ok nw h)
    (hk : nw.calls[k]? = some c) {reply : Option R} : .returned k reply ∈ h ↔ c.stage = .returned reply := by
  rw [← mem_returns, (run_accounted hr k).2, hk]
  exact Call.mem_returns

/-- the history of a call that has returned a reply -/
theorem run_replied {ok : Network E N S A R → Action E N S A R → Prop} (hr : (machine E N A R objects).Run ok nw h)
    {reply : R} (hret : .returned k (some reply) ∈ h) : ∃ server, executions k h = [(server, reply)] := by
  cases hk : nw.calls[k]? with
  | none =>
    rw [← mem_returns, (run_accounted hr k).2, hk] at hret
    cases hret
  | some c =>
    have hst := (run_returned hr hk).1 hret
    rw [(run_accounted hr k).1, hk]
    exact (run_ok hr c (List.mem_of_getElem? hk)).executions _ (by rw [hst]; rfl)

/-! ## Replies of dead servers -/

/-- nobody enables the end `endname` or adds the server of `r` -/
def Buried (endname : E) (r : Route N S) (_ : Network E N S A R) (a : Action E N S A R) : Prop :=
  a ≠ .admin (.enable endname true) ∧ a ≠ .admin (.addServer r.servername r.server)

theorem apply_dead {endname : E} {r : Route N S} {op : Admin E N S} {rn' : Switch E N S}
    (hb : Buried (A := A) (R := R) endname r nw (.admin op)) (hop : rn.apply op = some rn')
    (hd : rn.isServerDead endname r.servername r.server = true) :
    rn'.isServerDead endname r.servername r.server = true := by
  by_contra hlive
  obtain ⟨hen, hserv⟩ := Switch.isServerDead_eq_false.1 (Bool.eq_false_of_not_eq_true hlive)
  have hen₀ := (Switch.enabled_apply hop hen).resolve_right fun heq => hb.1 (by rw [heq])
  have hserv₀ := (Switch.servers_apply hop hserv).resolve_right fun heq => hb.2 (by rw [heq])
  rw [Switch.isServerDead_eq_false.2 ⟨hen₀, hserv₀⟩] at hd
  cases hd

/-- call `k` goes over `r`, which is dead, and has not passed its last check -/
structure Doomed (k : ℕ) (endname : E) (r : Route N S) (nw : Network E N S A R) : Prop where
  dead : nw.switch.isServerDead endname r.servername r.server = true
  call : ∃ c, nw.calls[k]? = some c ∧ c.endname = endname ∧ c.route = some r ∧
    ∀ reply, c.stage ≠ .answering (some reply) ∧ c.stage ≠ .returned (some reply)

omit [DecidableEq E] [DecidableEq N] in
theorem Moves.doomed {r : Route N S} (hm : Moves rn c mv c') (hc : c.Ok) (hr : c.route = some r)
    (hd : rn.isServerDead c.endname r.servername r.server = true)
    (hst : ∀ reply, c.stage ≠ .answering (some reply) ∧ c.stage ≠ .returned (some reply)) :
    c'.route = some r ∧ ∀ reply, c'.stage ≠ .answering (some reply) ∧ c'.stage ≠ .returned (some reply) := by
  have hroute : c'.route = some r := by
    rw [hm.route, hr]
    intro hrec
    cases hr.symm.trans (hc.unread hrec)
  refine ⟨hroute, ?_⟩
  have hdead : c.dead rn = true := by rw [Call.dead, hr]; exact hd
  cases hm with
  | confirm _ halive => rw [hdead] at halive; cases halive
  | @reply reply₀ hans =>
    refine fun reply => ⟨nofun, fun h => ?_⟩
    cases h
    exact (hst reply).1 hans
  | dispatch | execute | stay => exact hst
  | _ => exact fun reply => ⟨nofun, nofun⟩

theorem step_doomed {endname : E} {r : Route N S} (hok : ∀ c ∈ nw.calls, c.Ok) (hD : Doomed k endname r nw)
    (ha : Buried endname r nw a) (hs : nw.step a = some (nw', evs)) : Doomed k endname r nw' := by
  obtain ⟨hdead, c, hk, he, hr, hst⟩ := hD
  have hlt : k < nw.calls.length := (List.getElem?_eq_some_iff.1 hk).1
  cases step_cases hs with
  | admin hop => exact ⟨apply_dead ha hop hdead, c, hk, he, hr, hst⟩
  | call => exact ⟨hdead, c, by simpa [List.getElem?_append_left hlt] using hk, he, hr, hst⟩
  | @move j mv c₁ c' _ hj hm =>
    refine ⟨hdead, ?_⟩
    by_cases hjk : j = k
    · subst hjk
      cases hj.symm.trans hk
      obtain ⟨hr', hst'⟩ := hm.doomed (hok c (List.mem_of_getElem? hk)) hr (he ▸ hdead) hst
      exact ⟨c', List.getElem?_set_self hlt, hm.request.1.trans he, hr', hst'⟩
    · exact ⟨c, (List.getElem?_set_ne hjk).trans hk, he, hr, hst⟩

/-- **No reply from the dead**: a call whose connection is found dead (its end is disabled or another server, or none,
has taken the place of its own) before its last check returns no reply, as long as the end is not enabled again and that
server object not added again; also when its handler has run, or runs later. -/
theorem silent_after_death (hr : (machine E N A R objects).Run Machine.free nw h) (r : Route N S)
    (hk : nw.calls[k]? = some c) (hroute : c.route = some r)
    (hdead : nw.switch.isServerDead c.endname r.servername r.server = true)
    (hst : ∀ reply, c.stage ≠ .answering (some reply) ∧ c.stage ≠ .returned (some reply))
    (hp : (machine E N A R objects).Path (Buried c.endname r) nw h nw' h') (reply : R) :
    .returned k (some reply) ∉ h' := by
  have hD : Doomed k c.endname r nw' ∧ (machine E N A R objects).Run Machine.free nw' h' := by
    clear reply
    induction hp with
    | refl => exact ⟨⟨hdead, c, hk, rfl, hroute, hst⟩, hr⟩
    | step _ ha hs ih => exact ⟨step_doomed (run_ok ih.2) ih.1 ha hs, ih.2.step trivial hs⟩
  obtain ⟨⟨-, c', hk', -, -, hst'⟩, hr'⟩ := hD
  exact fun hmem => (hst' reply).2 ((run_returned hr' hk').1 hmem)

instance (endname : E) (r : Route N S) [DecidableEq A] [DecidableEq R] :
    DecidableRel (Buried (A := A) (R := R) endname r) := fun _ _ => inferInstanceAs (Decidable (_ ∧ _))

/-- the server is deleted after the handler has answered and before its reply is taken -/
theorem silent_after_death_answered : ∃ nw h nw' h',
    (machine ℕ ℕ Unit ℕ oneMethod).Run Machine.free nw h ∧ executions 0 h = [(5, 7)] ∧
    (machine ℕ ℕ Unit ℕ oneMethod).Path (Buried 0 ⟨1, 5, true⟩) nw h nw' h' ∧ .returned 0 none ∈ h' ∧
    ∀ reply, .returned 0 (some reply) ∉ h' := by
  obtain ⟨nw, h, hr, ht⟩ := Machine.exists_run_of_exec
    (show ((machine ℕ ℕ Unit ℕ oneMethod).exec Machine.free (answered ++ [.admin (.deleteServer 1)])).any
      (fun r => decide (executions 0 r.2 = [(5, 7)] ∧ r.1.switch.isServerDead 0 1 5 = true ∧
          r.1.calls[0]? = some ⟨0, "Raft.RequestVote", (), some ⟨1, 5, true⟩, .waiting, .executed 7⟩) &&
        ((machine ℕ ℕ Unit ℕ oneMethod).execFrom (Buried 0 ⟨1, 5, true⟩) r.1 r.2
          [.move 0 .receive, .move 0 .recheck, .move 0 .reply]).any fun r' => decide (.returned 0 none ∈ r'.2)) = true
      by decide +kernel)
  obtain ⟨h1, h2⟩ := Bool.and_eq_true_iff.1 ht
  obtain ⟨hex, hdead, hk⟩ := of_decide_eq_true h1
  obtain ⟨r', hpath, hret⟩ := (Option.any_eq_true _ _).1 h2
  have hp := Machine.path_of_execFrom hpath
  exact ⟨nw, h, r'.1, r'.2, hr, hex, hp, of_decide_eq_true hret,
    silent_after_death hr ⟨1, 5, true⟩ hk rfl hdead (fun reply => ⟨nofun, nofun⟩) hp⟩

/-! ## A reliable network -/

/-- nobody changes the network -/
def Calm (_ : Network E N S A R) (a : Action E N S A R) : Prop := ∀ op, a ≠ .admin op

/-- the number of steps a call still has to make, not counting looks at a server that is alive -/
def Call.rank (c : Call E N S A R) : ℕ :=
  match c.stage with
  | .received => 7
  | .admitted => 6
  | .waiting =>
    match c.handler with
    | .dispatched => 4
    | .executed _ => 3
    | _ => 5
  | .checking _ => 2
  | .answering _ => 1
  | .returned _ => 0

/-- the end `e` leads to the server object `s`, which knows the method, over a reliable network -/
structure Served (e : E) (svcMeth : String) (n : N) (s : S) (nw : Network E N S A R) : Prop where
  reliable : nw.switch.reliable = true
  enabled : nw.switch.enabled e = true
  connected : nw.switch.connections e = some n
  registered : nw.switch.servers n = some s
  known : ((nw.objects s).dispatch svcMeth).isSome

/-- a call over a reliable route that has not failed -/
def Call.Unharmed (n : N) (s : S) (c : Call E N S A R) : Prop :=
  c.stage = .received ∨ c.route = some ⟨n, s, true⟩ ∧
    (c.stage = .admitted ∨ c.stage = .waiting ∨ ∃ reply, c.stage.reply = some reply)

variable {e : E} {svcMeth : String} {n : N} {s : S}

omit [DecidableEq S] [DecidableEq E] [DecidableEq N] in
theorem Server.services_of_dispatch {rs rs' : Server} {m : String} (hd : rs.dispatch m = some rs') :
    rs'.services = rs.services := by
  simp only [Server.dispatch, Option.bind_eq_bind, Option.bind_eq_some_iff] at hd
  obtain ⟨_, -, _, -, hd⟩ := hd
  split_ifs at hd
  cases hd
  rfl

omit [DecidableEq S] [DecidableEq E] [DecidableEq N] in
/-- whether a method is known depends on the services only -/
theorem Server.dispatch_isSome_congr {rs rs' : Server} (hs : rs'.services = rs.services) (m : String) :
    (rs'.dispatch m).isSome = (rs.dispatch m).isSome := by
  unfold Server.dispatch
  cases splitMethod m.toList with
  | none => rfl
  | some p =>
    simp only [Option.bind_eq_bind, Option.bind_some, hs]
    cases rs.services (String.ofList p.1) with
    | none => rfl
    | some methods =>
      simp only [Option.bind_some]
      split_ifs <;> rfl

omit [DecidableEq E] [DecidableEq N] in
theorem services_of_served {c : Call E N S A R} {objects : S → Server} (hs : nw.served c mv = some objects) (s : S) :
    (objects s).services = (nw.objects s).services := by
  cases mv with
  | dispatch =>
    simp only [Network.served, Option.bind_eq_bind, Option.bind_eq_some_iff] at hs
    obtain ⟨r, -, rs, hrs, heq⟩ := hs
    cases heq
    rw [Function.update_apply]
    split_ifs with hsr
    · rw [hsr]; exact Server.services_of_dispatch hrs
    · rfl
  | _ => cases hs; rfl

theorem step_served (hS : Served e svcMeth n s nw) (ha : Calm nw a) (hs : nw.step a = some (nw', evs)) :
    Served e svcMeth n s nw' := by
  cases step_cases hs with
  | admin => exact absurd rfl (ha _)
  | call => exact ⟨hS.reliable, hS.enabled, hS.connected, hS.registered, hS.known⟩
  | move _ _ hobj =>
    exact { hS with known := (Server.dispatch_isSome_congr (services_of_served hobj s) svcMeth).trans hS.known }

omit [DecidableEq E] [DecidableEq N] in
/-- a move over a reliable route does no harm -/
theorem Moves.unharmed (hm : Moves nw.switch c mv c') (hS : Served c.endname svcMeth n s nw) (hc : c.Unharmed n s) :
    c'.Unharmed n s := by
  have alive : c.route = some ⟨n, s, true⟩ → c.dead nw.switch = false := by
    intro hr
    rw [Call.dead, hr]
    exact Switch.isServerDead_eq_false.2 ⟨hS.enabled, hS.registered⟩
  have routed : c.stage ≠ .received → c.route = some ⟨n, s, true⟩ := fun hst => (hc.resolve_left hst).1
  cases hm with
  | accept hst _ hconn hserv =>
    cases hconn.symm.trans hS.connected
    cases hserv.symm.trans hS.registered
    exact .inr ⟨by rw [hS.reliable], .inl rfl⟩
  | refuse _ hno =>
    have hnone := hno hS.enabled n hS.connected
    rw [hS.registered] at hnone
    cases hnone
  | dropRequest hst hr hrel =>
    rw [routed (by simp [hst])] at hr
    cases hr
    cases hrel
  | dropReply hst hr hrel =>
    rw [routed (by simp [hst])] at hr
    cases hr
    cases hrel
  | spawn hst => exact .inr ⟨routed (by simp [hst]), .inr (.inl rfl)⟩
  | dispatch | execute | stay => exact hc
  | receive hst => exact .inr ⟨routed (by simp [hst]), .inr (.inr ⟨_, rfl⟩)⟩
  | quit hst hd =>
    rw [alive (routed (by simp [hst]))] at hd
    cases hd
  | @giveUp reply hst hd =>
    rw [alive (routed (by simp [hst]))] at hd
    obtain rfl := hd.resolve_right nofun
    rcases hc with h | ⟨-, h | h | ⟨_, h⟩⟩ <;> rw [hst] at h <;> cases h
  | confirm hst => exact .inr ⟨routed (by simp [hst]), .inr (.inr ⟨_, rfl⟩)⟩
  | @reply reply hst =>
    obtain ⟨reply, h⟩ : ∃ r, c.stage.reply = some r := by
      rcases hc with h | ⟨-, h | h | h⟩
      · rw [hst] at h; cases h
      · rw [hst] at h; cases h
      · rw [hst] at h; cases h
      · exact h
    exact .inr ⟨routed (by simp [hst]), .inr (.inr ⟨reply, by rw [hst] at h; exact h⟩)⟩

omit [DecidableEq E] [DecidableEq N] in
/-- an unharmed call that has not returned can make a step towards its return -/
theorem Call.Unharmed.next (hc : c.Unharmed n s) (hok : c.Ok) (hS : Served c.endname c.svcMeth n s nw) (answer : R) :
    c.rank = 0 ∨ ∃ mv, (c.move nw.switch mv).any (fun c' => decide (c'.rank < c.rank)) = true ∧
      (nw.served c mv).isSome = true ∧ ∀ reply, mv = .execute reply → reply = answer := by
  cases hst : c.stage with
  | received =>
    refine .inr ⟨.read, ?_, rfl, nofun⟩
    simp [Call.move, Call.rank, hst, Switch.readEndnameInfo, hS.enabled, hS.connected, hS.registered]
  | admitted => exact .inr ⟨.spawn, by simp [Call.move, Call.rank, hst], rfl, nofun⟩
  | waiting =>
    have hroute := (hc.resolve_left (by simp [hst])).1
    obtain ⟨hidle, hhanded⟩ := hok.waiting hst
    cases hh : c.handler with
    | idle => exact absurd hh hidle
    | spawned =>
      obtain ⟨rs, hrs⟩ := Option.isSome_iff_exists.1 hS.known
      exact .inr ⟨.dispatch, by simp [Call.move, Call.rank, hst, hh], by simp [Network.served, hroute, hrs],
        nofun⟩
    | dispatched =>
      exact .inr ⟨.execute answer, by simp [Call.move, Call.rank, hst, hh], rfl, fun reply h => by cases h; rfl⟩
    | executed reply => exact .inr ⟨.receive, by simp [Call.move, Call.rank, hst, hh], rfl, nofun⟩
    | handed reply => exact absurd hh (hhanded reply)
  | checking reply => cases reply <;> exact .inr ⟨.recheck, by simp [Call.move, Call.rank, hst], rfl, nofun⟩
  | answering reply => exact .inr ⟨.reply, by simp [Call.move, Call.rank, hst], rfl, nofun⟩
  | returned reply => exact .inl (by simp [Call.rank, hst])

/-- call `k` goes over the end `e` of a served network and is unharmed -/
def Safe (k : ℕ) (e : E) (svcMeth : String) (n : N) (s : S) (nw : Network E N S A R) : Prop :=
  Served e svcMeth n s nw ∧ ∃ c, nw.calls[k]? = some c ∧ c.endname = e ∧ c.svcMeth = svcMeth ∧ c.Unharmed n s

theorem step_safe (hS : Safe k e svcMeth n s nw) (ha : Calm nw a) (hs : nw.step a = some (nw', evs)) :
    Safe k e svcMeth n s nw' := by
  refine ⟨step_served hS.1 ha hs, ?_⟩
  obtain ⟨hserved, c, hk, rfl, rfl, hc⟩ := hS
  have hlt : k < nw.calls.length := (List.getElem?_eq_some_iff.1 hk).1
  cases step_cases hs with
  | admin => exact absurd rfl (ha _)
  | call => exact ⟨c, by simpa [List.getElem?_append_left hlt] using hk, rfl, rfl, hc⟩
  | @move j mv c₁ c' _ hj hm =>
    by_cases hjk : j = k
    · subst hjk
      cases hj.symm.trans hk
      exact ⟨c', List.getElem?_set_self hlt, hm.request.1, hm.request.2.1, hm.unharmed hserved hc⟩
    · exact ⟨c, (List.getElem?_set_ne hjk).trans hk, rfl, rfl, hc⟩

omit [DecidableEq E] [DecidableEq N] [DecidableEq S] in
/-- an unharmed call that has nothing left to do has returned a reply -/
theorem Call.Unharmed.returned (hc : c.Unharmed n s) (h0 : c.rank = 0) : ∃ reply, c.stage = .returned (some reply) := by
  unfold Call.rank at h0
  split at h0
  any_goals cases h0
  · split at h0 <;> cases h0
  · rename_i reply hst
    rcases hc with h | ⟨-, h | h | ⟨r, h⟩⟩ <;> rw [hst] at h
    · cases h
    · cases h
    · cases h
    · exact ⟨r, by rw [hst]; exact congrArg _ h⟩

omit [DecidableEq E] [DecidableEq N] [DecidableEq S] in
/-- only the handler's own step executes it -/
theorem executions_move {mv : Move R} (hex : executions k h = [])
    (hne : ∀ reply, mv ≠ .execute reply) : executions k (h ++ Network.seen k c mv) = [] := by
  rw [executions_append, hex, List.nil_append]
  cases mv with
  | execute reply => exact absurd rfl (hne reply)
  | reply => simp only [Network.seen]; split <;> rfl
  | _ => rfl

/-- a safe call can return, with the answer its handler gives if it has not run yet -/
theorem Safe.returns (hr : (machine E N A R objects).Run Machine.free nw h) (hS : Safe k e svcMeth n s nw)
    (answer : R) :
    ∃ nw' h' reply, (machine E N A R objects).Path Calm nw h nw' h' ∧ .returned k (some reply) ∈ h' ∧
      (executions k h = [] → reply = answer) := by
  obtain ⟨hserved, c, hk, rfl, rfl, hc⟩ := hS
  induction hrank : c.rank using Nat.strong_induction_on generalizing nw h c with
  | _ m ih =>
    subst hrank
    rcases hc.next (run_ok hr c (List.mem_of_getElem? hk)) hserved answer with h0 | ⟨mv, hnext, hobj, hans⟩
    · obtain ⟨reply, hst⟩ := hc.returned h0
      have hret := (run_returned hr hk).2 hst
      refine ⟨nw, h, reply, .refl, hret, fun hnone => ?_⟩
      obtain ⟨server, hex⟩ := run_replied hr hret
      rw [hex] at hnone
      cases hnone
    · obtain ⟨c', hmv, hlt⟩ := (Option.any_eq_true _ _).1 hnext
      obtain ⟨objs, hobj⟩ := Option.isSome_iff_exists.1 hobj
      have hcalm : Calm nw (.move k mv : Action E N S A R) := nofun
      have hs : (machine E N A R objects).step nw (.move k mv) =
          some ({ nw with objects := objs, calls := nw.calls.set k c' }, Network.seen k c mv) := by
        simp [machine, Network.step, hk, hmv, hobj]
      have hm := moves_of_move hmv
      have hlen : k < nw.calls.length := (List.getElem?_eq_some_iff.1 hk).1
      have hr' := hr.step trivial hs
      obtain ⟨nw'', h'', reply, hp, hret, hrep⟩ := ih c'.rank (of_decide_eq_true hlt) hr' c'
        (List.getElem?_set_self hlen) (hm.unharmed hserved hc)
        (by rw [hm.request.1, hm.request.2.1]; exact step_served hserved hcalm hs) rfl
      refine ⟨nw'', h'', reply, (Machine.Path.step .refl hcalm hs).trans hp, hret, fun hnone => ?_⟩
      by_cases hexe : ∃ r, mv = .execute r
      · obtain ⟨r, rfl⟩ := hexe
        -- the handler runs in this step, and what is returned in the end is its only answer
        obtain ⟨server, hex⟩ := run_replied (hr'.trans (hp.mono fun _ _ _ => trivial)) hret
        have hmem : ∃ sv, (sv, r) ∈ executions k (h ++ Network.seen k c (.execute r)) := by
          obtain ⟨rt, hrt⟩ := Option.isSome_iff_exists.1 ((run_ok hr c (List.mem_of_getElem? hk)).routed
            (.inl (by cases hm with | execute hh => simp [hh])))
          exact ⟨rt.server, by simp [executions, Network.seen, hrt]⟩
        obtain ⟨sv, hmem⟩ := hmem
        have hmem' : (sv, r) ∈ executions k h'' := (hp.history.filterMap _).subset hmem
        rw [hex] at hmem'
        cases List.mem_singleton.1 hmem'
        exact hans _ rfl
      · exact hrep (executions_move hnone fun r h => hexe ⟨r, h⟩)

/-- **A reliable network serves every call**: a call made over an enabled end that leads to a registered server knowing
its method, on a reliable network that nobody changes, never returns false, however its steps are interleaved with
those of the other calls; and from every point it can return a reply, which is the answer of its handler if that has not
run yet. -/
theorem reliable_call (hr : (machine E N A R objects).Run Machine.free nw h) (hk : nw.calls[k]? = some c)
    (hst : c.stage = .received) (hS : Served c.endname c.svcMeth n s nw)
    (hp : (machine E N A R objects).Path Calm nw h nw' h') :
    .returned k none ∉ h' ∧ ∀ answer : R, ∃ nw'' h'' reply, (machine E N A R objects).Path Calm nw' h' nw'' h'' ∧
      .returned k (some reply) ∈ h'' ∧ (executions k h' = [] → reply = answer) := by
  have hall : Safe k c.endname c.svcMeth n s nw' ∧ (machine E N A R objects).Run Machine.free nw' h' := by
    induction hp with
    | refl => exact ⟨⟨hS, c, hk, rfl, rfl, .inl hst⟩, hr⟩
    | step _ ha hs ih => exact ⟨step_safe ih.1 ha hs, ih.2.step trivial hs⟩
  obtain ⟨hsafe, hr'⟩ := hall
  refine ⟨fun hmem => ?_, fun answer => hsafe.returns hr' answer⟩
  obtain ⟨-, c', hk', -, -, hc'⟩ := hsafe
  have hst' := (run_returned hr' hk').1 hmem
  rcases hc' with h | ⟨-, h | h | ⟨_, h⟩⟩ <;> rw [hst'] at h <;> cases h

end Replies

theorem reliable_call_first : ∃ nw h, (machine ℕ ℕ Unit ℕ oneMethod).Run Machine.free nw h ∧
    .returned 0 none ∉ h ∧ ∃ nw' h', (machine ℕ ℕ Unit ℕ oneMethod).Path Calm nw h nw' h' ∧
      .returned 0 (some 7) ∈ h' := by
  obtain ⟨nw, h, hr, ht⟩ := Machine.exists_run_of_exec
    (show ((machine ℕ ℕ Unit ℕ oneMethod).exec Machine.free firstCall).any
      (fun r => decide (executions 0 r.2 = [] ∧ r.1.calls[0]? = some (.new 0 "Raft.RequestVote" ()) ∧
        r.1.switch.reliable = true ∧ r.1.switch.enabled 0 = true ∧ r.1.switch.connections 0 = some 1 ∧
        r.1.switch.servers 1 = some 5 ∧ ((r.1.objects 5).dispatch "Raft.RequestVote").isSome = true)) = true
      by decide +kernel)
  obtain ⟨hex, hk, hrel, hen, hconn, hserv, hknown⟩ := of_decide_eq_true ht
  obtain ⟨hno, hyes⟩ := reliable_call hr hk rfl ⟨hrel, hen, hconn, hserv, hknown⟩ .refl
  obtain ⟨nw', h', reply, hp, hret, hreply⟩ := hyes 7
  exact ⟨nw, h, hr, hno, nw', h', hp, hreply hex ▸ hret⟩

end CS240.Labrpc
