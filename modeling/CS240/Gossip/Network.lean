/-
Gossip nodes that exchange datagrams over a network that may lose, duplicate, delay and reorder them.

A datagram carries the message as `Listen` decodes it. `Send` writes it with `encoding/json`, which replaces what is not
UTF-8 in a string by U+FFFD: IDs and names arrive `coerced`, while a body is written in base64 and arrives as it is. The
source of a datagram is the address that the receiver sees as `remote`. Nodes are not restarted.

The history of a run says which rumors were injected where, and which copy a node learned from which datagram, that is,
when `Add` returned true. `Chain` follows a copy back through the history.

- `step_nodes`: a step is an event at one node, or leaves the nodes as they are.
- `step_networkOk`, `run_networkOk`: the invariant, if the injected IDs are valid. A fetch reply only holds rumors that
  its receiver has, because a request for missing rumors only names rumors that its sender has.
- `hop_accounting`: a stored copy was injected once, and its TTL counts the deliveries since.
- `badID_stored`: an ID that is not valid UTF-8 is stored under another one, which nobody injected.
-/
import CS240.Gossip.Node

namespace CS240.Gossip

open Lib

/-! ## What is on the wire -/

/-- the rumor that is decoded from the JSON text of `r` -/
def Rumor.coerced (r : Rumor) : Rumor := { r with id := Lib.coerced r.id, origin := Lib.coerced r.origin }

/-- the message that is decoded from the JSON text of `m` -/
def Msg.coerced (m : Msg) : Msg :=
  { m with
    sender := Lib.coerced m.sender
    rumors := m.rumors.map Rumor.coerced
    ids := m.ids.map Lib.coerced }

theorem Rumor.coerced_of_valid {r : Rumor} (hid : ValidUTF8 r.id) (ho : ValidUTF8 r.origin) : r.coerced = r := by
  rw [Rumor.coerced, Lib.coerced_of_valid hid, Lib.coerced_of_valid ho]

structure Datagram (A : Type) where
  src : A
  dst : A
  msg : Msg
deriving DecidableEq

structure Network (A : Type) where
  nodes : A → Node A
  net : List (Datagram A)

inductive Action (A : Type) where
  | inject (a : A) (id : Bytes) (body : Bytes) (ttl now : ℤ)
  | tick (a : A) (perm : Shuffle ℕ) (fails : List ℕ)
  | digest (a : A) (perm : Shuffle ℕ) (ρ : Shuffle Bytes) (fails : List ℕ)
  /-- the datagram with number `i` reaches its destination -/
  | deliver (i : ℕ) (ρ : Shuffle Bytes) (fails : List ℕ)
  | duplicate (i : ℕ)
  | lose (i : ℕ)

inductive Event (A : Type) where
  | injected (a : A) (r : Rumor)
  /-- `dst` handles a message of `src`, and `Add` returns true for `r` -/
  | learned (src dst : A) (type : MsgType) (r : Rumor)
deriving DecidableEq

namespace Network

variable {A : Type} [DecidableEq A]

/-- the calls of `Send` at `src`, as datagrams -/
def datagrams (src : A) (sent : List (A × Msg)) : List (Datagram A) := sent.map fun p => ⟨src, p.1, p.2.coerced⟩

def step (s : Network A) : Action A → Option (Network A × List (Event A))
  | .inject a id body ttl now =>
    some ({ s with nodes := Function.update s.nodes a ((s.nodes a).inject id body ttl now) },
      [.injected a ((s.nodes a).newRumor id body ttl now)])
  | .tick a perm fails =>
    ((s.nodes a).tickOnce perm fails).map fun p =>
      (⟨Function.update s.nodes a p.1, s.net ++ datagrams a p.2⟩, [])
  | .digest a perm ρ fails =>
    ((s.nodes a).sendDigest perm ρ fails).map fun sent => ({ s with net := s.net ++ datagrams a sent }, [])
  | .deliver i ρ fails =>
    (s.net[i]?).map fun d =>
      let p := (s.nodes d.dst).handle d.msg d.src ρ fails
      (⟨Function.update s.nodes d.dst p.1, s.net.eraseIdx i ++ datagrams d.dst p.2⟩,
        ((s.nodes d.dst).store.intake.accepts (d.msg.received.map Rumor.keyed)).map fun o =>
          .learned d.src d.dst d.msg.type o.2)
  | .duplicate i => (s.net[i]?).map fun d => ({ s with net := s.net ++ [d] }, [])
  | .lose i => (s.net[i]?).map fun _ => ({ s with net := s.net.eraseIdx i }, [])

/-- `cfg` are the configurations of the nodes, `created` says which could create their log files -/
def machine (cfg : A → Config A) (created : A → Bool) : Machine (Network A) (Action A) (Event A) where
  init := ⟨fun a => .new (cfg a) (created a), []⟩
  step := step

/-- what a step does to the nodes: an event at one of them, or nothing -/
theorem step_nodes {s s' : Network A} {a : Action A} {evs : List (Event A)} (hstep : s.step a = some (s', evs)) :
    s'.nodes = s.nodes ∨ ∃ b e n, (s.nodes b).event e = some n ∧ s'.nodes = Function.update s.nodes b n := by
  cases a with
  | inject a id body ttl now =>
    cases hstep
    exact .inr ⟨a, .inject id body ttl now, _, rfl, rfl⟩
  | tick a perm fails =>
    obtain ⟨p, ht, he⟩ := Option.map_eq_some_iff.mp hstep
    cases he
    exact .inr ⟨a, .tick perm fails, p.1, Option.map_eq_some_iff.mpr ⟨p, ht, rfl⟩, rfl⟩
  | deliver i ρ fails =>
    obtain ⟨d, -, he⟩ := Option.map_eq_some_iff.mp hstep
    cases he
    exact .inr ⟨d.dst, .handle d.msg d.src ρ fails, _, rfl, rfl⟩
  | _ =>
    obtain ⟨x, -, he⟩ := Option.map_eq_some_iff.mp hstep
    cases he
    exact .inl rfl

/-! ## Injections -/

/-- the injections of a run -/
def injections (h : List (Event A)) : List (A × Rumor) := h.filterMap fun
  | .injected a r => some (a, r)
  | _ => none

/-- all IDs that were injected are valid UTF-8 -/
def IdsValid (h : List (Event A)) : Prop := ∀ i ∈ injections h, ValidUTF8 i.2.id

section Injections

omit [DecidableEq A]

variable {h evs : List (Event A)}

theorem injections_append : injections (h ++ evs) = injections h ++ injections evs := List.filterMap_append

theorem mem_injected {a : A} {r : Rumor} (hi : .injected a r ∈ h) : (a, r) ∈ injections h :=
  List.mem_filterMap.mpr ⟨_, hi, rfl⟩

theorem IdsValid.of_append (hv : IdsValid (h ++ evs)) : IdsValid h :=
  fun i hi => hv i (by rw [injections_append]; exact List.mem_append_left _ hi)

theorem idsValid_of_singleton {o : A} {r : Rumor} (hinj : injections h = [(o, r)]) (hid : ValidUTF8 r.id) :
    IdsValid h := by
  rw [IdsValid, hinj, List.forall_mem_singleton]
  exact hid

end Injections

/-- a step injects nothing, or one rumor that is offered to the store of a node -/
theorem step_injections {s s' : Network A} {a : Action A} {evs : List (Event A)} (hstep : s.step a = some (s', evs)) :
    injections evs = [] ∨ ∃ b r, injections evs = [(b, r)] ∧ r.origin = (s.nodes b).cfg.id ∧
      (s'.nodes b).store.intake = (s.nodes b).store.intake.offer r.keyed := by
  cases a with
  | inject a id body ttl now =>
    cases hstep
    refine .inr ⟨a, _, rfl, rfl, ?_⟩
    simp only [Function.update_self, Node.inject_intake]
  | deliver i ρ fails =>
    obtain ⟨d, -, he⟩ := Option.map_eq_some_iff.mp hstep
    cases he
    exact .inl (by simp [injections])
  | _ =>
    obtain ⟨x, -, he⟩ := Option.map_eq_some_iff.mp hstep
    cases he
    exact .inl rfl

/-- the nodes keep their configurations, and write their names into what is injected -/
structure Configured (cfg : A → Config A) (s : Network A) (h : List (Event A)) : Prop where
  nodes : ∀ a, (s.nodes a).cfg = cfg a ∧ (s.nodes a).peers = (cfg a).seeds
  origin : ∀ i ∈ injections h, i.2.origin = (cfg i.1).id

theorem run_configured {cfg : A → Config A} {created : A → Bool} {ok : Network A → Action A → Prop} {s : Network A}
    {h : List (Event A)} (hr : (machine cfg created).Run ok s h) : Configured cfg s h := by
  refine hr.invariant ⟨fun _ => ⟨rfl, rfl⟩, fun _ hi => (by cases hi)⟩ fun s h a s' evs hs _ hstep =>
    ⟨?_, fun i hi => ?_⟩
  · rcases step_nodes hstep with hnodes | ⟨b, e, n, he, hnodes⟩
    · rw [hnodes]
      exact hs.nodes
    · obtain ⟨hcfg, hpeers⟩ := Node.event_cfg he
      rw [hnodes, Function.forall_update_iff s.nodes fun b n => n.cfg = cfg b ∧ n.peers = (cfg b).seeds, hcfg, hpeers]
      exact ⟨hs.nodes b, fun c _ => hs.nodes c⟩
  · rw [injections_append] at hi
    rcases List.mem_append.mp hi with hi | hi
    · exact hs.origin i hi
    · rcases step_injections hstep with hevs | ⟨b, r, hevs, ho, -⟩
      · rw [hevs] at hi
        cases hi
      · rw [hevs, List.mem_singleton] at hi
        rw [hi, ho, (hs.nodes b).1]

/-! ## The way of a copy -/

/-- In the history the copy `r` got to node `b` from an injection of `r₀` at `o`, over `m` nodes one after the other
that learned it from the node before. -/
inductive Chain (o : A) (r₀ : Rumor) : List (Event A) → A → Rumor → ℕ → Prop
  | injected {h : List (Event A)} : .injected o r₀ ∈ h → Chain o r₀ h o r₀ 0
  | learned {h evs : List (Event A)} {a b : A} {type : MsgType} {r r' : Rumor} {m : ℕ} :
      Chain o r₀ h a r m → .learned a b type r' ∈ evs → { r' with ttl := r.ttl } = r.coerced →
      Chain o r₀ (h ++ evs) b r' (m + 1)
  | later {h evs : List (Event A)} {b : A} {r : Rumor} {m : ℕ} : Chain o r₀ h b r m → Chain o r₀ (h ++ evs) b r m

namespace Chain

omit [DecidableEq A]

variable {o b : A} {r₀ r : Rumor} {h : List (Event A)} {m : ℕ}

theorem injected_mem (hc : Chain o r₀ h b r m) : .injected o r₀ ∈ h := by
  induction hc with
  | injected hi => exact hi
  | learned _ _ _ ih => exact List.mem_append_left _ ih
  | later _ ih => exact List.mem_append_left _ ih

/-- the copies of a rumor with a valid ID carry its ID -/
theorem id_eq (hc : Chain o r₀ h b r m) (hid : ValidUTF8 r₀.id) : r.id = r₀.id := by
  induction hc with
  | injected => rfl
  | @learned _ _ _ _ _ r r' _ _ _ hs ih =>
    calc r'.id = coerced r.id := congrArg Rumor.id hs
      _ = r₀.id := by rw [ih, coerced_of_valid hid]
  | later _ ih => exact ih

/-- the copies of a rumor with a valid ID and origin differ in their TTLs only -/
theorem same (hc : Chain o r₀ h b r m) (hvalid : r₀.coerced = r₀) : { r with ttl := r₀.ttl } = r₀ := by
  induction hc with
  | injected => rfl
  | @learned _ _ _ _ _ r r' _ _ _ hs ih =>
    calc { r' with ttl := r₀.ttl } = { ({ r' with ttl := r.ttl } : Rumor) with ttl := r₀.ttl } := rfl
      _ = ({ r with ttl := r₀.ttl } : Rumor).coerced := by rw [hs]; rfl
      _ = r₀ := by rw [ih, hvalid]
  | later _ ih => exact ih

end Chain

/-- the copy `r` at `b` was injected, and its TTL accounts for the deliveries since -/
def Sourced (h : List (Event A)) (b : A) (r : Rumor) : Prop :=
  ∃ o r₀ m, Chain o r₀ h b r m ∧ (m : ℤ) = r₀.ttl - r.ttl ∧ (m = 0 ∨ 0 ≤ r.ttl)

omit [DecidableEq A] in
theorem Sourced.later {h : List (Event A)} {b : A} {r : Rumor} (hr : Sourced h b r) (evs : List (Event A)) :
    Sourced (h ++ evs) b r := by
  obtain ⟨o, r₀, m, hc, hm⟩ := hr
  exact ⟨o, r₀, m, hc.later, hm⟩

omit [DecidableEq A] in
theorem Sourced.valid {h : List (Event A)} {b : A} {r : Rumor} (hr : Sourced h b r) (hv : IdsValid h) :
    ValidUTF8 r.id := by
  obtain ⟨o, r₀, m, hc, -⟩ := hr
  have hid : ValidUTF8 r₀.id := hv _ (mem_injected hc.injected_mem)
  rw [hc.id_eq hid]
  exact hid

/-! ## The invariant -/

/-- what is kept in a store -/
structure StoreOk (h : List (Event A)) (a : A) (i : Intake Bytes Rumor) : Prop where
  named : ∀ id r, i.known.lookup id = some r → r.id = id
  pending : ∀ id ∈ i.fresh, id ∈ i.known
  sourced : ∀ id r, i.known.lookup id = some r → Sourced h a r

/-- what is on the way: copies that the sender has, and IDs and rumors that the node at the other end knows already -/
def DatagramOk (nodes : A → Node A) (h : List (Event A)) (d : Datagram A) : Prop :=
  match d.msg.type with
  | .push => ∀ r ∈ d.msg.rumors, ∃ r₁, r = r₁.coerced ∧ Sourced h d.src r₁
  | .digest => True
  | .missing => ∀ id ∈ d.msg.ids, id ∈ (nodes d.src).store.seen
  | .fetchrep => ∀ r ∈ d.msg.rumors, r.id ∈ (nodes d.dst).store.seen

structure NetworkOk (s : Network A) (h : List (Event A)) : Prop where
  stores : ∀ a, StoreOk h a (s.nodes a).store.intake
  net : ∀ d ∈ s.net, DatagramOk s.nodes h d

namespace StoreOk

omit [DecidableEq A]

variable {h : List (Event A)} {a : A} {i : Intake Bytes Rumor}

theorem later (hi : StoreOk h a i) (evs : List (Event A)) : StoreOk (h ++ evs) a i where
  named := hi.named
  pending := hi.pending
  sourced id r hr := (hi.sourced id r hr).later evs

theorem drain (hi : StoreOk h a i) : StoreOk h a i.drain where
  named := hi.named
  pending := by simp [Intake.drain]
  sourced := hi.sourced

/-- rumors are offered under their own IDs, and those taken have a source -/
theorem offerAll (hi : StoreOk h a i) (rs : List Rumor) {evs : List (Event A)}
    (hrs : ∀ r, r.keyed ∈ i.accepts (rs.map Rumor.keyed) → Sourced (h ++ evs) a r) :
    StoreOk (h ++ evs) a (i.offerAll (rs.map Rumor.keyed)) where
  named id r hr := by
    rcases Intake.lookup_offerAll hr with hr | hr
    · exact hi.named id r hr
    · obtain ⟨r', -, he⟩ := List.mem_map.mp (Intake.mem_accepts hr).1
      cases he
      rfl
  pending := Intake.offerAll_fresh_known hi.pending
  sourced id r hr := by
    rcases Intake.lookup_offerAll hr with hr | hr
    · exact (hi.sourced id r hr).later evs
    · obtain ⟨r', -, he⟩ := List.mem_map.mp (Intake.mem_accepts hr).1
      cases he
      exact hrs _ hr

theorem valid (hi : StoreOk h a i) (hv : IdsValid h) {id : Bytes} (hid : id ∈ i.known) : ValidUTF8 id := by
  obtain ⟨r, hr⟩ := mem_iff_lookup.mp hid
  rw [← hi.named id r hr]
  exact (hi.sourced id r hr).valid hv

end StoreOk

omit [DecidableEq A] in
/-- an ID that is stored somewhere arrives as it is -/
theorem NetworkOk.coerced_id {s : Network A} {h : List (Event A)} (hs : NetworkOk s h) (hv : IdsValid h) {a : A}
    {id : Bytes} (hid : id ∈ (s.nodes a).store.seen) : coerced id = id :=
  coerced_of_valid ((hs.stores a).valid hv hid)

omit [DecidableEq A] in
theorem DatagramOk.later {nodes nodes' : A → Node A} {h : List (Event A)} {d : Datagram A} (hd : DatagramOk nodes h d)
    (hn : ∀ a id, id ∈ (nodes a).store.seen → id ∈ (nodes' a).store.seen) (evs : List (Event A)) :
    DatagramOk nodes' (h ++ evs) d := by
  unfold DatagramOk at hd ⊢
  cases ht : d.msg.type with
  | push =>
    simp only [ht] at hd ⊢
    intro r hr
    obtain ⟨r₁, he, hr₁⟩ := hd r hr
    exact ⟨r₁, he, hr₁.later evs⟩
  | digest => trivial
  | missing =>
    simp only [ht] at hd ⊢
    exact fun id hid => hn _ _ (hd id hid)
  | fetchrep =>
    simp only [ht] at hd ⊢
    exact fun r hr => hn _ _ (hd r hr)

omit [DecidableEq A] in
/-- a copy that a delivery brings to a node was pushed, and has a source there; fetch replies bring nothing -/
theorem DatagramOk.sourced {nodes : A → Node A} {h evs : List (Event A)} {d : Datagram A} (hd : DatagramOk nodes h d)
    {r : Rumor} (hr : r ∈ d.msg.received) (hnew : r.id ∉ (nodes d.dst).store.seen)
    (hlearned : .learned d.src d.dst d.msg.type r ∈ evs) : Sourced (h ++ evs) d.dst r := by
  unfold DatagramOk at hd
  obtain ⟨r₁, hmem, httl, ⟨ht, rfl⟩ | ⟨ht, rfl⟩⟩ := Msg.mem_received.mp hr
  · simp only [ht] at hd
    obtain ⟨r₂, rfl, o, r₀, m, hc, hm, -⟩ := hd r₁ hmem
    change 0 < r₂.ttl at httl
    refine ⟨o, r₀, m + 1, .learned hc hlearned rfl, ?_, .inr ?_⟩
    · change ((m + 1 : ℕ) : ℤ) = r₀.ttl - (r₂.ttl - 1)
      push_cast
      omega
    · change 0 ≤ r₂.ttl - 1
      omega
  · simp only [ht] at hd
    exact absurd (hd _ hmem) hnew

variable {cfg : A → Config A} {created : A → Bool} {s s' : Network A} {h evs : List (Event A)}

theorem init_networkOk : NetworkOk (machine cfg created).init [] where
  stores _ := ⟨fun _ _ hr => (by cases hr), fun _ hid => (by cases hid), fun _ _ hr => (by cases hr)⟩
  net _ hd := (by cases hd)

theorem seen_update {nodes : A → Node A} {a : A} {n : Node A} (hn : ∀ id ∈ (nodes a).store.seen, id ∈ n.store.seen) :
    ∀ b id, id ∈ (nodes b).store.seen → id ∈ (Function.update nodes a n b).store.seen := by
  rw [Function.forall_update_iff nodes fun b n => ∀ id, id ∈ (nodes b).store.seen → id ∈ n.store.seen]
  exact ⟨hn, fun _ _ _ hid => hid⟩

/-- a step changes one node and what is on the way -/
theorem NetworkOk.update (hs : NetworkOk s h) {a : A} {n : Node A} {net : List (Datagram A)}
    (hseen : ∀ id ∈ (s.nodes a).store.seen, id ∈ n.store.seen)
    (hstore : StoreOk (h ++ evs) a n.store.intake)
    (hnet : ∀ d ∈ net, d ∈ s.net ∨ DatagramOk (Function.update s.nodes a n) (h ++ evs) d) :
    NetworkOk ⟨Function.update s.nodes a n, net⟩ (h ++ evs) := by
  refine ⟨?_, fun d hd => ?_⟩
  · rw [Function.forall_update_iff s.nodes fun b n => StoreOk (h ++ evs) b n.store.intake]
    exact ⟨hstore, fun b _ => (hs.stores b).later evs⟩
  · exact (hnet d hd).elim (fun hd => (hs.net d hd).later (seen_update hseen) evs) id

omit [DecidableEq A] in
/-- a step that only adds or removes datagrams -/
theorem NetworkOk.setNet (hs : NetworkOk s h) {net : List (Datagram A)}
    (hnet : ∀ d ∈ net, d ∈ s.net ∨ DatagramOk s.nodes h d) : NetworkOk { s with net := net } (h ++ []) :=
  ⟨fun a => (hs.stores a).later [], fun d hd => ((hnet d hd).elim (hs.net d) id).later (fun _ _ hid => hid) []⟩

theorem inject_networkOk (hs : NetworkOk s h) (a : A) (id body : Bytes) (ttl now : ℤ) :
    NetworkOk { s with nodes := Function.update s.nodes a ((s.nodes a).inject id body ttl now) }
      (h ++ [.injected a ((s.nodes a).newRumor id body ttl now)]) := by
  set r := (s.nodes a).newRumor id body ttl now
  have hi := (s.nodes a).inject_intake id body ttl now
  have hseen : ∀ id' ∈ (s.nodes a).store.seen, id' ∈ ((s.nodes a).inject id body ttl now).store.seen :=
    fun _ hid => Node.event_mem (e := .inject id body ttl now) rfl hid
  refine hs.update hseen ?_ fun d hd => .inl hd
  rw [hi]
  refine (hs.stores a).offerAll [r] fun r' hr' => ?_
  obtain ⟨hr', -⟩ := Intake.mem_accepts hr'
  rw [List.map_singleton, List.mem_singleton] at hr'
  obtain rfl : r' = r := congrArg Prod.snd hr'
  exact ⟨a, r, 0, .injected (List.mem_append_right _ List.mem_cons_self), by simp, .inl rfl⟩

theorem tick_networkOk (hs : NetworkOk s h) {a : A} {perm : Shuffle ℕ} {fails : List ℕ} {p : Node A × List (A × Msg)}
    (ht : (s.nodes a).tickOnce perm fails = some p) :
    NetworkOk ⟨Function.update s.nodes a p.1, s.net ++ datagrams a p.2⟩ (h ++ []) := by
  have hi : p.1.store.intake = (s.nodes a).store.intake.drain := congrArg (fun c => c.2.2) (Node.core_of_tickOnce ht)
  have hseen : ∀ id ∈ (s.nodes a).store.seen, id ∈ p.1.store.seen := fun _ hid => Node.tickOnce_mem ht hid
  refine hs.update hseen ?_ ?_
  · rw [hi]
    exact ((hs.stores a).drain).later []
  · refine fun d hd => (List.mem_append.mp hd).imp id fun hd => ?_
    obtain ⟨x, hx, rfl⟩ := List.mem_map.mp hd
    -- the batch holds the stored copies of the pending IDs
    simp only [DatagramOk, Node.tickOnce_sent ht x hx, Msg.coerced, Store.readyToPush_eq, List.mem_map]
    rintro _ ⟨_, ⟨id, hid, rfl⟩, rfl⟩
    obtain ⟨r, hr⟩ := mem_iff_lookup.mp ((hs.stores a).pending id hid)
    have hr' : (s.nodes a).store.seen.lookup id = some r := hr
    rw [hr', Option.getD_some]
    exact ⟨r, rfl, ((hs.stores a).sourced id r hr).later []⟩

omit [DecidableEq A] in
/-- the answer to a digest names IDs of the node that answers, and a fetch reply holds rumors that the other node has -/
theorem handle_datagramOk (hs : NetworkOk s h) (hv : IdsValid h) {d : Datagram A} (hd : d ∈ s.net) {ρ : Shuffle Bytes}
    {fails : List ℕ} {x : A × Msg} (hx : x ∈ ((s.nodes d.dst).handle d.msg d.src ρ fails).2) :
    DatagramOk s.nodes h ⟨d.dst, x.1, x.2.coerced⟩ := by
  have hok := hs.net d hd
  obtain ⟨hto, ⟨-, ht, hids⟩ | ⟨hm, ht, hrs, -⟩⟩ := Node.handle_sent hx
  · simp only [DatagramOk, Msg.coerced, ht, List.forall_mem_map]
    intro id hid
    have hseen := ((hids id).mp hid).1
    rw [hs.coerced_id hv hseen]
    exact hseen
  · -- the IDs asked for are IDs that the node which asks has
    simp only [DatagramOk, hm] at hok
    simp only [DatagramOk, Msg.coerced, ht, hto, hrs, List.forall_mem_map]
    intro r hr
    obtain ⟨id, hid, hl⟩ := Store.mem_lookupMany.mp hr
    have hseen := hok id hid
    change coerced r.id ∈ _
    rw [(hs.stores d.dst).named id r hl, hs.coerced_id hv hseen]
    exact hseen

theorem deliver_networkOk (hs : NetworkOk s h) (hv : IdsValid h) {d : Datagram A} {net : List (Datagram A)}
    (hd : d ∈ s.net) (hnet : ∀ d ∈ net, d ∈ s.net) (ρ : Shuffle Bytes) (fails : List ℕ) :
    NetworkOk ⟨Function.update s.nodes d.dst ((s.nodes d.dst).handle d.msg d.src ρ fails).1,
        net ++ datagrams d.dst ((s.nodes d.dst).handle d.msg d.src ρ fails).2⟩
      (h ++ ((s.nodes d.dst).store.intake.accepts (d.msg.received.map Rumor.keyed)).map fun o =>
        .learned d.src d.dst d.msg.type o.2) := by
  have hi := (s.nodes d.dst).handle_intake d.msg d.src ρ fails
  have hseen : ∀ id ∈ (s.nodes d.dst).store.seen, id ∈ ((s.nodes d.dst).handle d.msg d.src ρ fails).1.store.seen :=
    fun _ hid => Node.event_mem (e := .handle d.msg d.src ρ fails) rfl hid
  refine hs.update hseen ?_ fun d' hd' => ?_
  · rw [hi]
    refine (hs.stores d.dst).offerAll d.msg.received fun r hr => ?_
    obtain ⟨hmem, hnew⟩ := Intake.mem_accepts hr
    obtain ⟨r', hrec, he⟩ := List.mem_map.mp hmem
    obtain rfl : r' = r := congrArg Prod.snd he
    exact (hs.net d hd).sourced hrec hnew (List.mem_map.mpr ⟨_, hr, rfl⟩)
  · rcases List.mem_append.mp hd' with hd' | hd'
    · exact .inl (hnet d' hd')
    · obtain ⟨x, hx, rfl⟩ := List.mem_map.mp hd'
      exact .inr ((handle_datagramOk hs hv hd hx).later (seen_update hseen) _)

theorem step_networkOk (hs : NetworkOk s h) (hv : IdsValid h) {a : Action A} (hstep : s.step a = some (s', evs)) :
    NetworkOk s' (h ++ evs) := by
  cases a with
  | inject a id body ttl now =>
    cases hstep
    exact inject_networkOk hs a id body ttl now
  | tick a perm fails =>
    obtain ⟨p, ht, he⟩ := Option.map_eq_some_iff.mp hstep
    cases he
    exact tick_networkOk hs ht
  | digest a perm ρ fails =>
    obtain ⟨sent, hd, he⟩ := Option.map_eq_some_iff.mp hstep
    cases he
    refine hs.setNet fun d hd' => (List.mem_append.mp hd').imp id fun hd' => ?_
    obtain ⟨x, hx, rfl⟩ := List.mem_map.mp hd'
    simp only [DatagramOk, Msg.coerced, Node.sendDigest_sent hd x hx]
  | deliver i ρ fails =>
    obtain ⟨d, hd, he⟩ := Option.map_eq_some_iff.mp hstep
    cases he
    exact deliver_networkOk hs hv (List.mem_of_getElem? hd) (fun _ hd => List.mem_of_mem_eraseIdx hd) ρ fails
  | duplicate i =>
    obtain ⟨d, hd, he⟩ := Option.map_eq_some_iff.mp hstep
    cases he
    refine hs.setNet fun d' hd' => .inl ?_
    rcases List.mem_append.mp hd' with hd' | hd'
    · exact hd'
    · rw [List.mem_singleton.mp hd']
      exact List.mem_of_getElem? hd
  | lose i =>
    obtain ⟨d, -, he⟩ := Option.map_eq_some_iff.mp hstep
    cases he
    exact hs.setNet fun d' hd' => .inl (List.mem_of_mem_eraseIdx hd')

theorem run_networkOk {ok : Network A → Action A → Prop} (hr : (machine cfg created).Run ok s h) (hids : IdsValid h) :
    NetworkOk s h :=
  hr.invariant_of (H := IdsValid) (fun _ _ => IdsValid.of_append) init_networkOk
    (fun _ _ _ _ _ _ hv hs _ hstep => step_networkOk hs hv.of_append hstep) hids

omit [DecidableEq A] in
/-- a stored copy was injected under the ID that it is stored under -/
theorem NetworkOk.exists_chain (hs : NetworkOk s h) (hids : IdsValid h) {a : A} {id : Bytes} {r : Rumor}
    (hstored : (s.nodes a).store.seen.lookup id = some r) :
    ∃ o r₀ m, Chain o r₀ h a r m ∧ (m : ℤ) = r₀.ttl - r.ttl ∧ (m = 0 ∨ 0 ≤ r.ttl) ∧ r₀.id = id := by
  obtain ⟨o, r₀, m, hc, hm, hle⟩ := (hs.stores a).sourced id r hstored
  refine ⟨o, r₀, m, hc, hm, hle, ?_⟩
  rw [← (hs.stores a).named id r hstored]
  exact (hc.id_eq (hids _ (mem_injected hc.injected_mem))).symm

/-- The injected IDs and the names of the nodes are valid UTF-8. Then a rumor stored under an ID was injected under this
ID at its origin; but for the TTL it is the rumor injected there. It came over a chain of as many deliveries as its TTL
has gone down, and not over more than it had at the beginning. -/
theorem hop_accounting {cfg : A → Config A} {created : A → Bool} {s : Network A} {h : List (Event A)}
    (hr : (machine cfg created).Run Machine.free s h) (hids : IdsValid h) (hnames : ∀ a, ValidUTF8 (cfg a).id)
    {a : A} {id : Bytes} {r : Rumor} (hstored : (s.nodes a).store.seen.lookup id = some r) :
    ∃ o r₀ m, .injected o r₀ ∈ h ∧ r₀.id = id ∧ r₀.origin = (cfg o).id ∧ { r with ttl := r₀.ttl } = r₀ ∧
      Chain o r₀ h a r m ∧ (m : ℤ) = r₀.ttl - r.ttl ∧ m ≤ r₀.ttl.toNat := by
  obtain ⟨o, r₀, m, hc, hm, hle, hid⟩ := (run_networkOk hr hids).exists_chain hids hstored
  have hmem := mem_injected hc.injected_mem
  have horigin : r₀.origin = (cfg o).id := (run_configured hr).origin _ hmem
  have hvalid : r₀.coerced = r₀ := Rumor.coerced_of_valid (hids _ hmem) (horigin ▸ hnames o)
  exact ⟨o, r₀, m, hc.injected_mem, hid, horigin, hc.same hvalid, hc, hm, by omega⟩

/-- three nodes in a line -/
def line (a : Fin 3) : Config (Fin 3) :=
  match a with
  | 0 => ⟨ascii ['g', '0'], [1], 1, 8⟩
  | 1 => ⟨ascii ['g', '1'], [2], 1, 8⟩
  | 2 => ⟨ascii ['g', '2'], [], 1, 8⟩

theorem line_names (a : Fin 3) : ValidUTF8 (line a).id := by
  fin_cases a <;> exact validUTF8_ascii_all rfl

/-- a rumor with two hops goes down the line; its first push arrives twice, and a digest is answered -/
def downTheLine : List (Action (Fin 3)) :=
  [.inject 0 (ascii ['x']) [7] 2 1, .tick 0 .id [], .duplicate 0, .deliver 0 .id [], .tick 1 .id [],
    .digest 1 .id .id [], .deliver 0 .id [], .deliver 0 .id [], .deliver 0 .id []]

theorem exists_downTheLine : ∃ s h, (machine line fun _ => true).Run Machine.free s h ∧ IdsValid h ∧
    (s.nodes 2).store.seen.lookup (ascii ['x']) = some ⟨ascii ['x'], 0, [7], ascii ['g', '0'], 1⟩ := by
  have he : ((machine line fun _ => true).exec Machine.free downTheLine).any (fun p => decide
      (injections p.2 = [(0, ⟨ascii ['x'], 2, [7], ascii ['g', '0'], 1⟩)] ∧
        (p.1.nodes 2).store.seen.lookup (ascii ['x']) = some ⟨ascii ['x'], 0, [7], ascii ['g', '0'], 1⟩)) = true := by
    decide +kernel
  obtain ⟨s, h, hr, ht⟩ := Machine.exists_run_of_exec he
  obtain ⟨hinj, hx⟩ := of_decide_eq_true ht
  exact ⟨s, h, hr, idsValid_of_singleton hinj (validUTF8_ascii_all rfl), hx⟩

theorem hop_accounting_downTheLine : ∃ s h, (machine line fun _ => true).Run Machine.free s h ∧ IdsValid h ∧
    (s.nodes 2).store.seen.lookup (ascii ['x']) = some ⟨ascii ['x'], 0, [7], ascii ['g', '0'], 1⟩ ∧
    ∃ o r₀ m, .injected o r₀ ∈ h ∧ r₀.id = ascii ['x'] ∧ r₀.origin = (line o).id ∧
      { (⟨ascii ['x'], 0, [7], ascii ['g', '0'], 1⟩ : Rumor) with ttl := r₀.ttl } = r₀ ∧
      Chain o r₀ h 2 ⟨ascii ['x'], 0, [7], ascii ['g', '0'], 1⟩ m ∧ (m : ℤ) = r₀.ttl - 0 ∧ m ≤ r₀.ttl.toNat := by
  obtain ⟨s, h, hr, hids, hx⟩ := exists_downTheLine
  exact ⟨s, h, hr, hids, hx, hop_accounting hr hids line_names hx⟩

/-- the ID of a request `/inject?id=%ff` -/
def badID : Bytes := [255]

/-- the next node stores the rumor under U+FFFD, an ID that nobody injected -/
theorem badID_stored : ∃ s h, (machine line fun _ => true).Run Machine.free s h ∧ (∀ a, ValidUTF8 (line a).id) ∧
    injections h = [(0, ⟨badID, 2, [7], ascii ['g', '0'], 1⟩)] ∧
    (s.nodes 1).store.seen.lookup (encodeRune runeError) =
      some ⟨encodeRune runeError, 1, [7], ascii ['g', '0'], 1⟩ ∧
    ∀ o r₀, .injected o r₀ ∈ h → r₀.id ≠ encodeRune runeError := by
  have he : ((machine line fun _ => true).exec Machine.free
      [.inject 0 badID [7] 2 1, .tick 0 .id [], .deliver 0 .id []]).any (fun p => decide
      (injections p.2 = [(0, ⟨badID, 2, [7], ascii ['g', '0'], 1⟩)] ∧
        (p.1.nodes 1).store.seen.lookup (encodeRune runeError) =
          some ⟨encodeRune runeError, 1, [7], ascii ['g', '0'], 1⟩)) = true := by
    decide +kernel
  obtain ⟨s, h, hr, ht⟩ := Machine.exists_run_of_exec he
  obtain ⟨hinj, hx⟩ := of_decide_eq_true ht
  refine ⟨s, h, hr, line_names, hinj, hx, fun o r₀ hmem => ?_⟩
  have hmem := mem_injected hmem
  rw [hinj, List.mem_singleton] at hmem
  rw [(Prod.mk.inj hmem).2]
  decide

end Network

end CS240.Gossip
