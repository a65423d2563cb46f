/-
A gossip node: injections, the periodic push, the handlers of the four kinds of message, and the digest of anti-entropy.

`A` are addresses; IDs and names are Go's strings, lists of bytes. What the code leaves to chance or to the environment
are arguments: the clock, the order in which a map is ranged over, the result of `rand.Perm`, and which calls of `Send`
return an error. The node ignores these errors, apart from printing them; a function that sends returns the messages
that `Send` took.

- `handle_intake`: handling a message offers its copies (`received`) to the store, and changes nothing else but the log.
- `event_core`, `event_grows`: how the store after an event depends on the store before.
- `event_keeps`: what the methods of the store keep, every event at a node keeps.
- `duplicate_absorbed`: a message handled again later changes nothing.
- `tick_forgets`: after a tick nothing of its batch is ever pending again.
-/
import CS240.Gossip.Store

namespace CS240.Gossip

open Lib

/-- the fields of `Config` that the protocol reads -/
structure Config (A : Type) where
  id : Bytes
  seeds : List A
  fanout : ℤ
  ttl : ℤ

inductive MsgType where
  | push
  | digest
  | missing
  | fetchrep
deriving DecidableEq, Repr

structure Msg where
  type : MsgType
  /-- `From` -/
  sender : Bytes
  rumors : List Rumor
  ids : List Bytes
deriving DecidableEq, Repr

structure Node (A : Type) where
  cfg : Config A
  store : Store
  peers : List A

/-- the calls of `Send` that return no error; `fails` are the numbers of those that do -/
def taken {β : Type} (fails : List ℕ) (calls : List β) : List β :=
  (calls.zipIdx.filter fun c => c.2 ∉ fails).map Prod.fst

/-- the IDs of `a` that are not in `b` -/
def diff (a b : List Bytes) : List Bytes := a.filter fun x => x ∉ b

namespace Node

variable {A : Type}

/-- `NewNode` -/
def new (cfg : Config A) (created : Bool) : Node A := ⟨cfg, .new created cfg.id, cfg.seeds⟩

/-- the rumor that `Inject` makes at time `now` -/
def newRumor (n : Node A) (id : Bytes) (body : Bytes) (ttl now : ℤ) : Rumor :=
  ⟨id, if ttl ≤ 0 then n.cfg.ttl else ttl, body, n.cfg.id, now⟩

def inject (n : Node A) (id : Bytes) (body : Bytes) (ttl now : ℤ) : Node A :=
  let r := n.newRumor id body ttl now
  { n with store := ((n.store.writeLog .inject r).add r).1 }

/-- `none` if `make([]string, 0, k)` panics -/
def pickPeers (n : Node A) (k : ℤ) (perm : Shuffle ℕ) : Option (List A) :=
  if n.peers.length = 0 then some []
  else if n.peers.length ≤ k then some n.peers
  else if k < 0 then none
  else some (((perm.order (List.range n.peers.length)).take k.toNat).filterMap fun i => n.peers[i]?)

/-- the node after the tick and the messages sent; `none` if it panics -/
def tickOnce (n : Node A) (perm : Shuffle ℕ) (fails : List ℕ) : Option (Node A × List (A × Msg)) :=
  let (store, rs) := n.store.readyToPush
  match rs with
  | [] => some ({ n with store := store }, [])
  | r :: _ =>
    (n.pickPeers n.cfg.fanout perm).map fun peers =>
      ({ n with store := peers.foldl (fun s _ => s.writeLog .send { Rumor.zero with id := r.id }) store },
        taken fails (peers.map fun p => (p, ⟨.push, n.cfg.id, rs, []⟩)))

/-- the messages sent; `none` if `pickPeers` panics -/
def sendDigest (n : Node A) (perm : Shuffle ℕ) (ρ : Shuffle Bytes) (fails : List ℕ) : Option (List (A × Msg)) :=
  (n.pickPeers 1 perm).map fun
    | [] => []
    | p :: _ =>
      match n.store.digest ρ with
      | [] => []
      | d => taken fails [(p, ⟨.digest, n.cfg.id, [], d⟩)]

def handleDigest (n : Node A) (m : Msg) (remote : A) (ρ : Shuffle Bytes) (fails : List ℕ) : List (A × Msg) :=
  match diff (n.store.digest ρ) m.ids with
  | [] => []
  | missing => taken fails [(remote, ⟨.missing, n.cfg.id, [], missing⟩)]

def handleMissing (n : Node A) (m : Msg) (remote : A) (fails : List ℕ) : List (A × Msg) :=
  match n.store.lookupMany m.ids with
  | [] => []
  | rs => taken fails [(remote, ⟨.fetchrep, n.cfg.id, rs, []⟩)]

def handleFetchRep (n : Node A) (m : Msg) : Node A :=
  { n with store := m.rumors.foldl (fun s r => if r.ttl ≤ 0 then s else (s.add r).1) n.store }

def handlePush (n : Node A) (m : Msg) : Node A :=
  { n with
    store := m.rumors.foldl (fun s r => if r.ttl ≤ 0 then s else (s.add { r with ttl := r.ttl - 1 }).1) n.store }

/-- the node after `Handle` and the messages sent -/
def handle (n : Node A) (m : Msg) (remote : A) (ρ : Shuffle Bytes) (fails : List ℕ) : Node A × List (A × Msg) :=
  let n := { n with store := n.store.writeLog .recv (m.rumors.head?.getD Rumor.zero) }
  match m.type with
  | .push => (n.handlePush m, [])
  | .digest => (n, n.handleDigest m remote ρ fails)
  | .missing => (n, n.handleMissing m remote fails)
  | .fetchrep => (n.handleFetchRep m, [])

end Node

/-! ## What a step does to the store -/

/-- the copies that `Handle` passes to `Add` -/
def Msg.received (m : Msg) : List Rumor :=
  match m.type with
  | .push => (m.rumors.filter fun r => 0 < r.ttl).map fun r => { r with ttl := r.ttl - 1 }
  | .fetchrep => m.rumors.filter fun r => 0 < r.ttl
  | _ => []

theorem Msg.mem_received {m : Msg} {r : Rumor} : r ∈ m.received ↔ ∃ r₀ ∈ m.rumors, 0 < r₀.ttl ∧
    (m.type = .push ∧ r = { r₀ with ttl := r₀.ttl - 1 } ∨ m.type = .fetchrep ∧ r = r₀) := by
  unfold Msg.received
  cases m.type with
  | push => simp [and_assoc, eq_comm]
  | digest => simp
  | missing => simp
  | fetchrep =>
    simp only [List.mem_filter, decide_eq_true_eq, reduceCtorEq, false_and, true_and, false_or]
    exact ⟨fun h => ⟨r, h.1, h.2, rfl⟩, fun ⟨_, hm, ht, he⟩ => he ▸ ⟨hm, ht⟩⟩

namespace Node

variable {A : Type} {n n' : Node A} {m : Msg} {remote : A} {ρ : Shuffle Bytes} {perm : Shuffle ℕ} {fails : List ℕ}

theorem foldl_writeLog_intake {β : Type} (l : List β) (s : Store) (ev : Ev) (r : Rumor) :
    (l.foldl (fun s _ => s.writeLog ev r) s).intake = s.intake := by
  induction l generalizing s with
  | nil => rfl
  | cons _ l ih => rw [List.foldl_cons, ih, Store.writeLog_intake]

/-- a loop that adds a copy of each rumor with hops left -/
theorem foldl_add_intake (f : Rumor → Rumor) (rs : List Rumor) (s : Store) :
    (rs.foldl (fun s r => if r.ttl ≤ 0 then s else (s.add (f r)).1) s).intake =
      s.intake.offerAll (((rs.filter fun r => 0 < r.ttl).map f).map Rumor.keyed) := by
  induction rs generalizing s with
  | nil => rfl
  | cons r rs ih =>
    rw [List.foldl_cons, ih]
    by_cases hr : r.ttl ≤ 0
    · simp [hr]
    · simp [hr, not_le.mp hr, Store.add_intake, Intake.offerAll]

theorem handle_intake (n : Node A) (m : Msg) (remote : A) (ρ : Shuffle Bytes) (fails : List ℕ) :
    (n.handle m remote ρ fails).1.store.intake = n.store.intake.offerAll (m.received.map Rumor.keyed) := by
  unfold handle Msg.received
  cases m.type with
  | push => exact foldl_add_intake _ _ _
  | digest => rfl
  | missing => rfl
  | fetchrep =>
    refine (foldl_add_intake id _ _).trans ?_
    rw [List.map_id, Store.writeLog_intake]

theorem inject_intake (id : Bytes) (body : Bytes) (ttl now : ℤ) :
    (n.inject id body ttl now).store.intake = n.store.intake.offer (n.newRumor id body ttl now).keyed := by
  rw [inject, Store.add_intake, Store.writeLog_intake]

/-- configuration, peers, and the store without its log: what the node's behaviour depends on -/
def core (n : Node A) : Config A × List A × Intake Bytes Rumor := (n.cfg, n.peers, n.store.intake)

theorem handle_core (n : Node A) (m : Msg) (remote : A) (ρ : Shuffle Bytes) (fails : List ℕ) :
    (n.handle m remote ρ fails).1.core = (n.cfg, n.peers, n.store.intake.offerAll (m.received.map Rumor.keyed)) := by
  rw [← n.handle_intake m remote ρ fails]
  unfold handle
  cases m.type <;> rfl

theorem pickPeers_core (hc : n.core = n'.core) (k : ℤ) : n.pickPeers k perm = n'.pickPeers k perm := by
  have hp : n.peers = n'.peers := congrArg (fun c => c.2.1) hc
  rw [pickPeers, pickPeers, hp]

/-- a tick empties the list of new IDs, whether or not anything is sent -/
theorem tickOnce_core (n : Node A) (perm : Shuffle ℕ) (fails : List ℕ) :
    (n.tickOnce perm fails).map (fun p => p.1.core) =
      if n.store.newIDs = [] then some n.core
      else (n.pickPeers n.cfg.fanout perm).map fun _ => (n.cfg, n.peers, n.store.intake.drain) := by
  rw [tickOnce, Store.readyToPush_eq]
  cases hids : n.store.newIDs with
  | nil => simp [core, Store.intake, hids]
  | cons id ids =>
    simp only [List.map_cons, Option.map_map, reduceCtorEq, if_false]
    congr 1
    funext peers
    simp only [Function.comp_apply, core, foldl_writeLog_intake]
    rfl

theorem core_of_tickOnce {p : Node A × List (A × Msg)} (ht : n.tickOnce perm fails = some p) :
    p.1.core = (n.cfg, n.peers, n.store.intake.drain) := by
  have hc := n.tickOnce_core perm fails
  rw [ht, Option.map_some] at hc
  split_ifs at hc with hids
  · rw [Option.some.inj hc, core, Store.intake, hids]
    rfl
  · obtain ⟨peers, -, hc⟩ := Option.map_eq_some_iff.mp hc.symm
    exact hc.symm

/-! ## What a step sends -/

theorem mem_of_mem_taken {β : Type} {calls : List β} {x : β} (hx : x ∈ taken fails calls) : x ∈ calls := by
  obtain ⟨c, hc, rfl⟩ := List.mem_map.mp hx
  exact (List.mem_zipIdx' (List.mem_of_mem_filter hc)).2 ▸ List.getElem_mem _

@[simp]
theorem taken_nil {β : Type} (calls : List β) : taken [] calls = calls := by
  simp [taken]

/-- a tick sends its whole batch, as pushes -/
theorem tickOnce_sent {p : Node A × List (A × Msg)} (ht : n.tickOnce perm fails = some p) :
    ∀ x ∈ p.2, x.2 = ⟨.push, n.cfg.id, n.store.readyToPush.2, []⟩ := by
  unfold tickOnce at ht
  split at ht
  rename_i store rs hs
  rw [hs]
  cases rs with
  | nil =>
    cases ht
    simp
  | cons r rs =>
    obtain ⟨peers, -, rfl⟩ := Option.map_eq_some_iff.mp ht
    intro x hx
    obtain ⟨q, -, rfl⟩ := List.mem_map.mp (mem_of_mem_taken hx)
    rfl

/-- with enough fanout and no failing `Send`, a non-empty batch goes to every peer -/
theorem tickOnce_sent_all {p : Node A × List (A × Msg)} (ht : n.tickOnce perm [] = some p) (hids : n.store.newIDs ≠ [])
    (hf : n.peers.length ≤ n.cfg.fanout) :
    ∀ q ∈ n.peers, (q, ⟨.push, n.cfg.id, n.store.readyToPush.2, []⟩) ∈ p.2 := by
  have hpick : n.pickPeers n.cfg.fanout perm = some n.peers := by
    unfold pickPeers
    split_ifs with h0
    · rw [List.length_eq_zero_iff] at h0
      rw [h0]
    · rfl
  unfold tickOnce at ht
  rw [Store.readyToPush_eq] at ht ⊢
  obtain ⟨id, ids, hids⟩ := List.exists_cons_of_ne_nil hids
  simp only [hids, List.map_cons, hpick, Option.map_some, taken_nil, Option.some.injEq] at ht ⊢
  subst ht
  exact fun q hq => List.mem_map.mpr ⟨q, hq, rfl⟩

theorem sendDigest_sent {sent : List (A × Msg)} (hd : n.sendDigest perm ρ fails = some sent) :
    ∀ x ∈ sent, x.2 = ⟨.digest, n.cfg.id, [], n.store.digest ρ⟩ := by
  obtain ⟨peers, -, rfl⟩ := Option.map_eq_some_iff.mp hd
  intro x hx
  split at hx
  · cases hx
  · split at hx
    · cases hx
    · rw [List.mem_singleton.mp (mem_of_mem_taken hx)]

/-- `Handle` answers a digest with the IDs that are not in it, and missing IDs with the rumors it has of them -/
theorem handle_sent {x : A × Msg} (hx : x ∈ (n.handle m remote ρ fails).2) :
    x.1 = remote ∧
      (m.type = .digest ∧ x.2.type = .missing ∧ (∀ id, id ∈ x.2.ids ↔ id ∈ n.store.seen ∧ id ∉ m.ids) ∨
        m.type = .missing ∧ x.2.type = .fetchrep ∧ x.2.rumors = n.store.lookupMany m.ids ∧ x.2.rumors ≠ []) := by
  unfold handle at hx
  cases hm : m.type with
  | push => simp [hm] at hx
  | fetchrep => simp [hm] at hx
  | digest =>
    simp only [hm, handleDigest] at hx
    split at hx
    · cases hx
    · obtain rfl := List.mem_singleton.mp (mem_of_mem_taken hx)
      refine ⟨rfl, .inl ⟨rfl, rfl, fun id => ?_⟩⟩
      simp only [diff, Store.digest, List.mem_filter, Shuffle.mem_order, decide_eq_true_eq]
      exact Iff.rfl
  | missing =>
    simp only [hm, handleMissing] at hx
    split at hx
    · cases hx
    · rename_i hrs
      obtain rfl := List.mem_singleton.mp (mem_of_mem_taken hx)
      exact ⟨rfl, .inr ⟨rfl, rfl, rfl, hrs⟩⟩

/-! ## Sequences of events -/

inductive Event (A : Type) where
  | handle (m : Msg) (remote : A) (ρ : Shuffle Bytes) (fails : List ℕ)
  | inject (id : Bytes) (body : Bytes) (ttl now : ℤ)
  | tick (perm : Shuffle ℕ) (fails : List ℕ)
  | digest (perm : Shuffle ℕ) (ρ : Shuffle Bytes) (fails : List ℕ)

/-- the node after an event, `none` if it panics -/
def event (n : Node A) : Event A → Option (Node A)
  | .handle m remote ρ fails => some (n.handle m remote ρ fails).1
  | .inject id body ttl now => some (n.inject id body ttl now)
  | .tick perm fails => (n.tickOnce perm fails).map Prod.fst
  | .digest perm ρ fails => (n.sendDigest perm ρ fails).map fun _ => n

def events (n : Node A) (es : List (Event A)) : Option (Node A) := es.foldlM event n

theorem events_append (es es' : List (Event A)) : n.events (es ++ es') = (n.events es).bind fun n => n.events es' := by
  simp [events, List.foldlM_append]

/-- two nodes that differ in their logs only stay so -/
theorem event_core (hc : n.core = n'.core) (e : Event A) : (n.event e).map core = (n'.event e).map core := by
  have hcfg : n.cfg = n'.cfg := congrArg (fun c => c.1) hc
  have hpeers : n.peers = n'.peers := congrArg (fun c => c.2.1) hc
  have hintake : n.store.intake = n'.store.intake := congrArg (fun c => c.2.2) hc
  cases e with
  | handle m remote ρ fails => simp only [event, Option.map_some, handle_core, hcfg, hpeers, hintake]
  | inject id body ttl now =>
    have hr : n.newRumor id body ttl now = n'.newRumor id body ttl now := by rw [newRumor, newRumor, hcfg]
    simp only [event, Option.map_some, core, inject_intake, hr, hintake]
    rw [inject, inject, hcfg, hpeers]
  | tick perm fails =>
    have hids : n.store.newIDs = n'.store.newIDs := congrArg Intake.fresh hintake
    have ht := n.tickOnce_core perm fails
    rw [hc, hcfg, hpeers, hintake, hids, pickPeers_core hc, ← n'.tickOnce_core perm fails] at ht
    simpa [event, Option.map_map, Function.comp_def] using ht
  | digest perm ρ fails =>
    have hd : ∀ n : Node A, (n.event (.digest perm ρ fails)).map core = (n.pickPeers 1 perm).map fun _ => n.core := by
      intro n
      simp [event, sendDigest, Option.map_map, Function.comp_def]
    rw [hd, hd, pickPeers_core hc, hc]

theorem events_core (hc : n.core = n'.core) (es : List (Event A)) :
    (n.events es).map core = (n'.events es).map core := by
  induction es generalizing n n' with
  | nil => exact congrArg some hc
  | cons e es ih =>
    have he := event_core hc e
    simp only [events, List.foldlM_cons, Option.bind_eq_bind]
    cases h : n.event e with
    | none =>
      rw [h, Option.map_none, eq_comm, Option.map_eq_none_iff] at he
      rw [he]
    | some n₁ =>
      rw [h, Option.map_some, eq_comm, Option.map_eq_some_iff] at he
      obtain ⟨n₁', h', hc'⟩ := he
      rw [h']
      exact ih hc'.symm

/-- what an event can do to the store: offer rumors, or clear the list of new IDs -/
theorem event_intake {e : Event A} (he : n.event e = some n') :
    (∃ os, n'.store.intake = n.store.intake.offerAll os) ∨ n'.store.intake = n.store.intake.drain := by
  cases e with
  | handle m remote ρ fails =>
    cases he
    exact .inl ⟨_, handle_intake _ _ _ _ _⟩
  | inject id body ttl now =>
    cases he
    exact .inl ⟨[(n.newRumor id body ttl now).keyed], inject_intake id body ttl now⟩
  | tick perm fails =>
    obtain ⟨p, hp, rfl⟩ := Option.map_eq_some_iff.mp he
    exact .inr (congrArg (fun c => c.2.2) (core_of_tickOnce hp))
  | digest perm ρ fails =>
    obtain ⟨-, -, rfl⟩ := Option.map_eq_some_iff.mp he
    exact .inl ⟨[], rfl⟩

theorem event_grows {e : Event A} (he : n.event e = some n') {id : Bytes} {r : Rumor}
    (hr : n.store.seen.lookup id = some r) : n'.store.seen.lookup id = some r := by
  rcases event_intake he with ⟨os, hi⟩ | hi
  · calc n'.store.intake.known.lookup id = (n.store.intake.offerAll os).known.lookup id := by rw [hi]
      _ = some r := Intake.lookup_offerAll_of_lookup hr
  · calc n'.store.intake.known.lookup id = n.store.intake.drain.known.lookup id := by rw [hi]
      _ = some r := hr

theorem event_mem {e : Event A} (he : n.event e = some n') {id : Bytes} (hid : id ∈ n.store.seen) :
    id ∈ n'.store.seen := by
  obtain ⟨r, hr⟩ := mem_iff_lookup.mp hid
  exact mem_iff_lookup.mpr ⟨r, event_grows he hr⟩

theorem tickOnce_mem {p : Node A × List (A × Msg)} (ht : n.tickOnce perm fails = some p) {id : Bytes}
    (hid : id ∈ n.store.seen) : id ∈ p.1.store.seen :=
  event_mem (e := .tick perm fails) (Option.map_eq_some_iff.mpr ⟨p, ht, rfl⟩) hid

/-- a rumor that is stored and not waiting to be pushed will never wait again -/
theorem event_pushed {e : Event A} (he : n.event e = some n') {id : Bytes} (hs : id ∈ n.store.seen)
    (hp : id ∉ n.store.newIDs) : id ∉ n'.store.newIDs := by
  intro hid
  change id ∈ n'.store.intake.fresh at hid
  rcases event_intake he with ⟨os, hi⟩ | hi
  · rw [hi] at hid
    exact (Intake.mem_fresh_offerAll hid).elim hp fun h => h hs
  · rw [hi] at hid
    cases hid

/-- configuration and peers are fixed -/
theorem event_cfg {e : Event A} (he : n.event e = some n') : n'.cfg = n.cfg ∧ n'.peers = n.peers := by
  cases e with
  | handle m remote ρ fails =>
    cases he
    have hc := n.handle_core m remote ρ fails
    exact ⟨congrArg (fun c => c.1) hc, congrArg (fun c => c.2.1) hc⟩
  | inject id body ttl now =>
    cases he
    exact ⟨rfl, rfl⟩
  | tick perm fails =>
    obtain ⟨p, hp, rfl⟩ := Option.map_eq_some_iff.mp he
    have hc := core_of_tickOnce hp
    exact ⟨congrArg (fun c => c.1) hc, congrArg (fun c => c.2.1) hc⟩
  | digest perm ρ fails =>
    obtain ⟨-, -, rfl⟩ := Option.map_eq_some_iff.mp he
    exact ⟨rfl, rfl⟩

theorem events_invariant {I : Node A → Prop} (hI : ∀ n n' e, I n → n.event e = some n' → I n') {es : List (Event A)}
    (h : n.events es = some n') (hn : I n) : I n' := by
  induction es generalizing n with
  | nil =>
    cases h
    exact hn
  | cons e es ih =>
    simp only [events, List.foldlM_cons, Option.bind_eq_bind] at h
    obtain ⟨n₁, he, h⟩ := Option.bind_eq_some_iff.mp h
    exact ih h (hI _ _ _ hn he)

/-- Handling a message again, after any events, does not change the rumors stored nor those waiting to be pushed, then
and after any further events. -/
theorem duplicate_absorbed (n : Node A) (m : Msg) (remote remote' : A) (ρ ρ' : Shuffle Bytes) (fails fails' : List ℕ)
    (before between after : List (Event A)) :
    (n.events (before ++ .handle m remote ρ fails :: between ++ .handle m remote' ρ' fails' :: after)).map
        (fun n => (n.store.seen, n.store.newIDs)) =
      (n.events (before ++ .handle m remote ρ fails :: between ++ after)).map
        fun n => (n.store.seen, n.store.newIDs) := by
  rw [events_append, events_append _ after]
  cases h : n.events (before ++ .handle m remote ρ fails :: between) with
  | none => rfl
  | some n₁ =>
    -- every copy of the message that could be added was added when it was first handled
    have hknown : ∀ o ∈ m.received.map Rumor.keyed, o.1 ∈ n₁.store.seen := by
      intro o ho
      rw [events_append] at h
      obtain ⟨n₀, -, h⟩ := Option.bind_eq_some_iff.mp h
      have h' : (n₀.handle m remote ρ fails).1.events between = some n₁ := h
      refine events_invariant (I := fun n => o.1 ∈ n.store.seen) (fun _ _ _ hn he => event_mem he hn) h' ?_
      change o.1 ∈ (n₀.handle m remote ρ fails).1.store.intake.known
      rw [handle_intake, Intake.mem_offerAll]
      exact .inl ⟨o, ho, rfl⟩
    have hc : (n₁.handle m remote' ρ' fails').1.core = n₁.core := by
      rw [handle_core, Intake.offerAll_of_known hknown]
      rfl
    have hview : ∀ x : Option (Node A), x.map (fun n => (n.store.seen, n.store.newIDs)) =
        (x.map core).map fun c => (c.2.2.known, c.2.2.fresh) := by
      intro x
      rw [Option.map_map]
      rfl
    calc (((some n₁).bind fun n => n.events (.handle m remote' ρ' fails' :: after)).map
          fun n => (n.store.seen, n.store.newIDs))
        = ((n₁.handle m remote' ρ' fails').1.events after).map fun n => (n.store.seen, n.store.newIDs) := rfl
      _ = (n₁.events after).map fun n => (n.store.seen, n.store.newIDs) := by
        rw [hview, hview, events_core hc]

/-! ## What holds of the stores -/

section Keeps

variable {P : Store → Prop} (hadd : ∀ s r, P s → P (s.add r).1)

theorem foldl_keeps {β : Type} {f : Store → β → Store} {s : Store} (hs : P s) (l : List β)
    (hf : ∀ s x, P s → P (f s x)) : P (l.foldl f s) :=
  List.foldlRecOn l f hs fun s hs x _ => hf s x hs

include hadd in
theorem inject_keeps (hlog : ∀ s r, P s → P (s.writeLog .inject r)) (hn : P n.store) (id body : Bytes) (ttl now : ℤ) :
    P (n.inject id body ttl now).store :=
  hadd _ _ (hlog _ _ hn)

include hadd in
theorem handle_keeps (hlog : ∀ s r, P s → P (s.writeLog .recv r)) (hn : P n.store) (m : Msg) (remote : A)
    (ρ : Shuffle Bytes) (fails : List ℕ) : P (n.handle m remote ρ fails).1.store := by
  have hrecv : P (n.store.writeLog .recv (m.rumors.head?.getD Rumor.zero)) := hlog _ _ hn
  -- both loops leave out the rumors without hops
  have hloop : ∀ f : Rumor → Rumor, ∀ s r, P s → P (if r.ttl ≤ 0 then s else (s.add (f r)).1) := by
    intro f s r hs
    split_ifs
    · exact hs
    · exact hadd _ _ hs
  unfold handle
  cases m.type with
  | push => exact foldl_keeps hrecv m.rumors (hloop fun r => { r with ttl := r.ttl - 1 })
  | digest => exact hrecv
  | missing => exact hrecv
  | fetchrep => exact foldl_keeps hrecv m.rumors (hloop id)

omit hadd in
theorem tickOnce_keeps (hlog : ∀ s r, P s → P (s.writeLog .send r)) (hpush : ∀ s, P s → P s.readyToPush.1)
    {p : Node A × List (A × Msg)} (ht : n.tickOnce perm fails = some p) (hn : P n.store) : P p.1.store := by
  unfold tickOnce at ht
  dsimp only at ht
  split at ht
  · cases ht
    exact hpush _ hn
  · obtain ⟨ps, -, rfl⟩ := Option.map_eq_some_iff.mp ht
    exact foldl_keeps (hpush _ hn) ps fun s _ hs => hlog s _ hs

include hadd in
/-- what all methods of the store keep, every event at a node keeps -/
theorem event_keeps (hlog : ∀ s ev r, P s → P (s.writeLog ev r)) (hpush : ∀ s, P s → P s.readyToPush.1) {e : Event A}
    (he : n.event e = some n') (hn : P n.store) : P n'.store := by
  cases e with
  | handle m remote ρ fails =>
    cases he
    exact handle_keeps hadd (fun s r => hlog s .recv r) hn m remote ρ fails
  | inject id body ttl now =>
    cases he
    exact inject_keeps hadd (fun s r => hlog s .inject r) hn id body ttl now
  | tick perm fails =>
    obtain ⟨p, ht, rfl⟩ := Option.map_eq_some_iff.mp he
    exact tickOnce_keeps (fun s r => hlog s .send r) hpush ht hn
  | digest perm ρ fails =>
    obtain ⟨-, -, rfl⟩ := Option.map_eq_some_iff.mp he
    exact hn

end Keeps

/-! ## Ticks whose sends fail -/

/-- A tick clears the list of new IDs, whatever `Send` returns. A rumor of its batch stays in the store, but after any
further events it is not waiting to be pushed. -/
theorem tick_forgets {n n' : Node A} {perm : Shuffle ℕ} {fails : List ℕ} {sent : List (A × Msg)}
    (ht : n.tickOnce perm fails = some (n', sent)) :
    n'.store.newIDs = [] ∧ ∀ id ∈ n.store.newIDs, ∀ r, n.store.seen.lookup id = some r →
      ∀ es n'', n'.events es = some n'' → id ∉ n''.store.newIDs ∧ n''.store.seen.lookup id = some r := by
  have hdrain : n'.store.intake = n.store.intake.drain := congrArg (fun c => c.2.2) (core_of_tickOnce ht)
  have hnew : n'.store.newIDs = [] := congrArg Intake.fresh hdrain
  have hseen : n'.store.seen = n.store.seen := congrArg Intake.known hdrain
  refine ⟨hnew, fun id _ r hr es n'' he => ?_⟩
  refine events_invariant (I := fun n => id ∉ n.store.newIDs ∧ n.store.seen.lookup id = some r) ?_ he ?_
  · rintro n₁ n₂ e ⟨hp, hl⟩ h
    exact ⟨event_pushed h (mem_iff_lookup.mpr ⟨r, hl⟩) hp, event_grows h hl⟩
  · rw [hnew, hseen]
    exact ⟨List.not_mem_nil, hr⟩

/-- a node with one rumor to push -/
def onePending (seeds : List ℕ) : Node ℕ := (new ⟨ascii ['g', '1'], seeds, 3, 8⟩ true).inject (ascii ['x']) [7] 0 1

theorem onePending_tick {seeds : List ℕ} (hs : seeds = [] ∨ seeds = [2]) :
    ∃ n', (onePending seeds).tickOnce .id [0] = some (n', []) ∧ n'.store.readyToPush.2 = [] := by
  have he : ((onePending seeds).tickOnce .id [0]).any
      (fun p => decide (p.2 = [] ∧ p.1.store.readyToPush.2 = [])) = true := by
    rcases hs with rfl | rfl <;> decide +kernel
  rw [Option.any_eq_true] at he
  obtain ⟨⟨n', sent⟩, ht, hp⟩ := he
  obtain ⟨rfl, hp⟩ := of_decide_eq_true hp
  exact ⟨n', ht, hp⟩

/-- without a peer, and with one to whom sending fails, nothing is sent and nothing is left to push -/
theorem onePending_forgotten :
    (∀ seeds, (onePending seeds).store.readyToPush.2 = [⟨ascii ['x'], 8, [7], ascii ['g', '1'], 1⟩]) ∧
    (∃ n', (onePending []).tickOnce .id [0] = some (n', []) ∧ n'.store.readyToPush.2 = []) ∧
    ∃ n', (onePending [2]).tickOnce .id [0] = some (n', []) ∧ n'.store.readyToPush.2 = [] :=
  ⟨fun _ => rfl, onePending_tick (.inl rfl), onePending_tick (.inr rfl)⟩

theorem tick_forgets_onePending : ∃ n', (onePending [2]).tickOnce .id [0] = some (n', []) ∧
    (onePending [2]).store.newIDs = [ascii ['x']] ∧ n'.store.newIDs = [] ∧
    ∀ id ∈ (onePending [2]).store.newIDs, ∀ r, (onePending [2]).store.seen.lookup id = some r →
      ∀ es n'', n'.events es = some n'' → id ∉ n''.store.newIDs ∧ n''.store.seen.lookup id = some r := by
  obtain ⟨n', ht, -⟩ := onePending_tick (.inr rfl)
  exact ⟨n', ht, rfl, tick_forgets ht⟩

end Node

end CS240.Gossip
