/-
Where a rumor can get to, and how often it is sent.

If the injected IDs are valid UTF-8, rumors spread by pushes only: a fetch reply holds nothing that its receiver lacks.
A push goes to a seed of the node that sends it, and a node whose fanout is 0 sends none. So a rumor gets from its
origin only as far as there are nodes that push.

A tick sends one message to each peer that it picks, at most `fanout`, and takes at least one rumor off the list of new
ones. So the messages that a node pushes are paid for by the rumors that it has learned (`Charged`).

- `spread_along_seeds`: a stored rumor came along a path of nodes that push.
- `sends_bounded`: how many messages a node pushes.
-/
import CS240.Gossip.Logs

namespace CS240.Gossip

open Lib

/-! ## Who is sent to -/

namespace Node

variable {A : Type} {n : Node A} {perm : Shuffle ℕ} {fails : List ℕ}

/-- at most `k` of the peers are picked -/
theorem pickPeers_spec {k : ℤ} {ps : List A} (hp : n.pickPeers k perm = some ps) :
    (∀ p ∈ ps, p ∈ n.peers) ∧ ps.length ≤ min n.peers.length k.toNat := by
  unfold pickPeers at hp
  split_ifs at hp with hnone hall hneg <;> cases hp
  · simp
  · exact ⟨fun p hp => hp, by omega⟩
  · refine ⟨fun p hp => ?_, ?_⟩
    · obtain ⟨i, -, hi⟩ := List.mem_filterMap.1 hp
      exact List.mem_of_getElem? hi
    · have hle := (List.length_filterMap_le (fun i => n.peers[i]?) _).trans
        (List.length_take_le k.toNat (perm.order (List.range n.peers.length)))
      omega

/-- a tick sends to peers, and to nobody if there is no fanout -/
theorem tickOnce_to {p : Node A × List (A × Msg)} (ht : n.tickOnce perm fails = some p) {x : A × Msg} (hx : x ∈ p.2) :
    x.1 ∈ n.peers ∧ 0 < n.cfg.fanout := by
  unfold tickOnce at ht
  dsimp only at ht
  split at ht
  · cases ht
    cases hx
  · obtain ⟨ps, hps, rfl⟩ := Option.map_eq_some_iff.1 ht
    obtain ⟨q, hq, rfl⟩ := List.mem_map.1 (mem_of_mem_taken hx)
    obtain ⟨hpeers, hlen⟩ := pickPeers_spec hps
    have hpos := List.length_pos_of_mem hq
    exact ⟨hpeers q hq, by omega⟩

end Node

/-! ## The way of a rumor -/

namespace Network

variable {A : Type} [DecidableEq A] {cfg : A → Config A} {created : A → Bool} {s s' : Network A}
  {h evs : List (Event A)}

omit [DecidableEq A] in
/-- `b` may be sent to when `a` pushes -/
def Pushes (cfg : A → Config A) (a b : A) : Prop := b ∈ (cfg a).seeds ∧ 0 < (cfg a).fanout

omit [DecidableEq A] in
structure PushOk (cfg : A → Config A) (s : Network A) (h : List (Event A)) : Prop where
  net : ∀ d ∈ s.net, d.msg.type = .push → Pushes cfg d.src d.dst
  learned : ∀ a b type r, .learned a b type r ∈ h → type = .push ∧ Pushes cfg a b

omit [DecidableEq A] in
theorem PushOk.setNet (hp : PushOk cfg s h) {nodes : A → Node A} {net : List (Datagram A)}
    (hnet : ∀ d ∈ net, d ∈ s.net ∨ (d.msg.type = .push → Pushes cfg d.src d.dst)) :
    PushOk cfg ⟨nodes, net⟩ (h ++ []) := by
  refine ⟨fun d hd => (hnet d hd).elim (hp.net d) id, ?_⟩
  rw [List.append_nil]
  exact hp.learned

omit [DecidableEq A] in
theorem deliver_pushOk (hp : PushOk cfg s h) (hok : NetworkOk s h) {i : ℕ} {d : Datagram A} (hd : s.net[i]? = some d)
    (ρ : Shuffle Bytes) (fails : List ℕ) {nodes : A → Node A} :
    PushOk cfg ⟨nodes, s.net.eraseIdx i ++ datagrams d.dst ((s.nodes d.dst).handle d.msg d.src ρ fails).2⟩
      (h ++ ((s.nodes d.dst).store.intake.accepts (d.msg.received.map Rumor.keyed)).map fun o =>
        .learned d.src d.dst d.msg.type o.2) := by
  have hmem := List.mem_of_getElem? hd
  refine ⟨fun d' hd' htype => ?_, fun a b type r hlearned => ?_⟩
  · rcases List.mem_append.1 hd' with hd' | hd'
    · exact hp.net d' (List.mem_of_mem_eraseIdx hd') htype
    · -- what `Handle` sends are no pushes
      obtain ⟨x, hx, rfl⟩ := List.mem_map.1 hd'
      have htype' : x.2.type = .push := htype
      obtain ⟨-, ⟨-, ht, -⟩ | ⟨-, ht, -⟩⟩ := Node.handle_sent hx <;> rw [ht] at htype' <;> cases htype'
  · rcases List.mem_append.1 hlearned with hlearned | hlearned
    · exact hp.learned a b type r hlearned
    · obtain ⟨o, ho, heq⟩ := List.mem_map.1 hlearned
      cases heq
      obtain ⟨hreceived, hnew⟩ := Intake.mem_accepts ho
      obtain ⟨r, hr, rfl⟩ := List.mem_map.1 hreceived
      obtain ⟨r₀, hr₀, -, ⟨ht, rfl⟩ | ⟨ht, rfl⟩⟩ := Msg.mem_received.1 hr
      · exact ⟨ht, hp.net d hmem ht⟩
      · have hknown := hok.net d hmem
        simp only [DatagramOk, ht] at hknown
        exact absurd (hknown _ hr₀) hnew

theorem step_pushOk (hp : PushOk cfg s h) (hcfg : Configured cfg s h) (hok : NetworkOk s h) {a : Action A}
    (hstep : s.step a = some (s', evs)) : PushOk cfg s' (h ++ evs) := by
  cases a with
  | inject a id body ttl now =>
    cases hstep
    refine ⟨hp.net, fun b c type r hr => hp.learned b c type r ?_⟩
    simpa using hr
  | tick a perm fails =>
    obtain ⟨p, ht, he⟩ := Option.map_eq_some_iff.1 hstep
    cases he
    refine hp.setNet fun d hd => (List.mem_append.1 hd).imp_right fun hd _ => ?_
    obtain ⟨x, hx, rfl⟩ := List.mem_map.1 hd
    have hto := Node.tickOnce_to ht hx
    rwa [(hcfg.nodes a).1, (hcfg.nodes a).2] at hto
  | digest a perm ρ fails =>
    obtain ⟨sent, hd, he⟩ := Option.map_eq_some_iff.1 hstep
    cases he
    refine hp.setNet fun d hd' => (List.mem_append.1 hd').imp_right fun hd' htype => ?_
    obtain ⟨x, hx, rfl⟩ := List.mem_map.1 hd'
    have htype' : x.2.type = .push := htype
    rw [Node.sendDigest_sent hd x hx] at htype'
    cases htype'
  | deliver i ρ fails =>
    obtain ⟨d, hd, he⟩ := Option.map_eq_some_iff.1 hstep
    cases he
    exact deliver_pushOk hp hok hd ρ fails
  | duplicate i =>
    obtain ⟨d, hd, he⟩ := Option.map_eq_some_iff.1 hstep
    cases he
    refine hp.setNet fun d' hd' => .inl ?_
    rcases List.mem_append.1 hd' with hd' | hd'
    · exact hd'
    · rw [List.mem_singleton.1 hd']
      exact List.mem_of_getElem? hd
  | lose i =>
    obtain ⟨d, -, he⟩ := Option.map_eq_some_iff.1 hstep
    cases he
    exact hp.setNet fun d' hd' => .inl (List.mem_of_mem_eraseIdx hd')

theorem run_pushOk {ok : Network A → Action A → Prop} (hr : (machine cfg created).Run ok s h) (hids : IdsValid h) :
    PushOk cfg s h := by
  refine hr.invariant_of (H := IdsValid) (fun _ _ => IdsValid.of_append) ?_ ?_ hids
  · exact ⟨fun _ hd => (by cases hd), fun _ _ _ _ hr => (by cases hr)⟩
  · intro s h a s' evs hr hv hp _ hstep
    exact step_pushOk hp (run_configured hr) (run_networkOk hr hv.of_append) hstep

omit [DecidableEq A] in
/-- a chain of deliveries follows the edges of the graph -/
theorem Chain.path {E : A → A → Prop} {o b : A} {r₀ r : Rumor} {m : ℕ} (hc : Chain o r₀ h b r m)
    (hE : ∀ a b type r, .learned a b type r ∈ h → E a b) :
    ∃ path : List A, (o :: path).IsChain E ∧ (o :: path).getLast? = some b ∧ path.length = m := by
  induction hc with
  | injected => exact ⟨[], .singleton o, rfl, rfl⟩
  | @learned h evs a b type r r' m hc hl _ ih =>
    obtain ⟨path, hpath, hlast, hlen⟩ := ih fun a b type r hr => hE a b type r (List.mem_append_left _ hr)
    refine ⟨path ++ [b], ?_, ?_, by simp [hlen]⟩
    · rw [← List.cons_append]
      refine List.IsChain.append hpath (.singleton b) ?_
      intro x hx y hy
      rw [hlast] at hx
      cases hx
      cases hy
      exact hE a b type r' (List.mem_append_right _ hl)
    · rw [← List.cons_append, List.getLast?_append]
      rfl
  | later _ ih => exact ih fun a b type r hr => hE a b type r (List.mem_append_left _ hr)

/-- **Rumors spread by pushes along the seeds.** The injected IDs are valid UTF-8. In every run, whatever is lost,
duplicated or reordered, a node learns rumors from pushes only, from nodes that have it among their seeds and a positive
fanout. So a rumor that is stored somewhere came there from its origin over a path of such nodes, and its TTL went down
by the length of the path. -/
theorem spread_along_seeds {cfg : A → Config A} {created : A → Bool} {s : Network A} {h : List (Event A)}
    (hr : (machine cfg created).Run Machine.free s h) (hids : IdsValid h) :
    (∀ a b type r, .learned a b type r ∈ h → type = .push ∧ Pushes cfg a b) ∧
    ∀ a id r, (s.nodes a).store.seen.lookup id = some r → ∃ o r₀ path, .injected o r₀ ∈ h ∧ r₀.id = id ∧
      (o :: path).IsChain (Pushes cfg) ∧ (o :: path).getLast? = some a ∧ (path.length : ℤ) = r₀.ttl - r.ttl := by
  have hp := run_pushOk hr hids
  refine ⟨hp.learned, fun a id r hl => ?_⟩
  obtain ⟨o, r₀, m, hc, hm, -, hid⟩ := (run_networkOk hr hids).exists_chain hids hl
  obtain ⟨path, hpath, hlast, rfl⟩ := hc.path fun b c type r hr => (hp.learned b c type r hr).2
  exact ⟨o, r₀, path, hc.injected_mem, hid, hpath, hlast, hm⟩

theorem spread_along_seeds_downTheLine : ∃ s h, (machine line fun _ => true).Run Machine.free s h ∧
    ∃ o r₀ path, .injected o r₀ ∈ h ∧ r₀.id = ascii ['x'] ∧ (o :: path).IsChain (Pushes line) ∧
      (o :: path).getLast? = some 2 ∧ (path.length : ℤ) = r₀.ttl - 0 := by
  obtain ⟨s, h, hr, hids, hx⟩ := exists_downTheLine
  exact ⟨s, h, hr, (spread_along_seeds hr hids).2 2 _ _ hx⟩

end Network

/-! ## What is sent is paid for -/

/-- the messages pushed so far, and those that the next ticks may push, at a cost of `k` for each rumor -/
def Charged (k : ℕ) (s : Store) : Prop := (s.logged .send).length + k * s.newIDs.length ≤ k * s.seen.keys.length

namespace Charged

variable {k : ℕ} {s : Store}

theorem new (k : ℕ) (created : Bool) (nodeID : Bytes) : Charged k (.new created nodeID) := by
  cases created <;> exact Nat.zero_le _

theorem writeLog (hs : Charged k s) (r : Rumor) (ev : Ev) (hev : ev ≠ .send) : Charged k (s.writeLog ev r) := by
  unfold Charged
  rw [Store.logged_writeLog, if_neg fun h => hev h.2, List.append_nil]
  exact hs

/-- a rumor that is learned brings the means to push it -/
theorem add (hs : Charged k s) (r : Rumor) : Charged k (s.add r).1 := by
  by_cases hr : r.id ∈ s.seen
  · rwa [Store.add_of_mem hr]
  · rw [Store.add_of_notMem hr]
    refine writeLog ?_ r .deliver nofun
    have hkeys : (s.seen.insert r.id r).keys.length = s.seen.keys.length + 1 := by
      rw [AList.keys, AList.entries_insert_of_notMem hr, List.keys_cons, List.length_cons]
      rfl
    unfold Charged at hs ⊢
    simp only [hkeys, List.length_append, List.length_singleton]
    calc (s.logged .send).length + k * (s.newIDs.length + 1)
        = (s.logged .send).length + k * s.newIDs.length + k := by ring
      _ ≤ k * s.seen.keys.length + k := Nat.add_le_add_right hs k
      _ = k * (s.seen.keys.length + 1) := by ring

end Charged

/-- every message has a line of its own -/
theorem foldl_writeLog_send {β : Type} (l : List β) (s : Store) (r : Rumor) :
    ((l.foldl (fun s _ => s.writeLog .send r) s).logged .send).length ≤ (s.logged .send).length + l.length := by
  induction l generalizing s with
  | nil => exact le_rfl
  | cons x l ih =>
    have hone : ((s.writeLog .send r).logged .send).length ≤ (s.logged .send).length + 1 := by
      rw [Store.logged_writeLog]
      split_ifs <;> simp
    have hrest := ih (s.writeLog .send r)
    rw [List.foldl_cons, List.length_cons]
    omega

/-- a tick that pushes takes a rumor off the list -/
theorem Charged.tickOnce {A : Type} {n : Node A} {perm : Shuffle ℕ} {fails : List ℕ} {p : Node A × List (A × Msg)}
    (hn : Charged (min n.peers.length n.cfg.fanout.toNat) n.store) (ht : n.tickOnce perm fails = some p) :
    Charged (min n.peers.length n.cfg.fanout.toNat) p.1.store := by
  have hintake : p.1.store.intake = n.store.intake.drain := congrArg (fun c => c.2.2) (Node.core_of_tickOnce ht)
  have hids : p.1.store.newIDs = [] := congrArg Intake.fresh hintake
  have hseen : p.1.store.seen = n.store.seen := congrArg Intake.known hintake
  unfold Charged at hn ⊢
  rw [hids, hseen, List.length_nil, Nat.mul_zero, Nat.add_zero]
  unfold Node.tickOnce at ht
  rw [Store.readyToPush_eq] at ht
  cases hnew : n.store.newIDs with
  | nil =>
    simp only [hnew, List.map_nil, Option.some.injEq] at ht
    subst ht
    exact (Nat.le_add_right _ _).trans hn
  | cons id ids =>
    simp only [hnew, List.map_cons] at ht
    obtain ⟨ps, hps, rfl⟩ := Option.map_eq_some_iff.1 ht
    refine (foldl_writeLog_send ps _ _).trans ?_
    have hlen := (Node.pickPeers_spec hps).2
    rw [hnew, List.length_cons, Nat.mul_succ] at hn
    change (n.store.logged .send).length + ps.length ≤ _
    omega

/-! ## The messages of a run -/

namespace Network

variable {A : Type} [DecidableEq A] {cfg : A → Config A} {created : A → Bool} {s s' : Network A}
  {h evs : List (Event A)}

omit [DecidableEq A] in
/-- the number of peers that a push of `a` goes to -/
def reach (cfg : A → Config A) (a : A) : ℕ := min (cfg a).seeds.length (cfg a).fanout.toNat

theorem step_charged (hcfg : Configured cfg s h) (hs : ∀ a, Charged (reach cfg a) (s.nodes a).store) {act : Action A}
    (hstep : s.step act = some (s', evs)) (a : A) : Charged (reach cfg a) (s'.nodes a).store := by
  rcases step_nodes hstep with hnodes | ⟨b, e, n, he, hnodes⟩
  · rw [hnodes]
    exact hs a
  · rw [hnodes]
    by_cases ha : a = b
    · subst ha
      rw [Function.update_self]
      cases e with
      | handle m remote ρ fails =>
        cases he
        exact Node.handle_keeps (fun _ r hs => hs.add r) (fun _ r hs => hs.writeLog r .recv nofun) (hs a) m remote ρ
          fails
      | inject id body ttl now =>
        cases he
        exact Node.inject_keeps (fun _ r hs => hs.add r) (fun _ r hs => hs.writeLog r .inject nofun) (hs a) id body ttl
          now
      | tick perm fails =>
        obtain ⟨p, ht, rfl⟩ := Option.map_eq_some_iff.1 he
        have hreach : reach cfg a = min (s.nodes a).peers.length (s.nodes a).cfg.fanout.toNat := by
          rw [(hcfg.nodes a).1, (hcfg.nodes a).2]
          rfl
        have hold := hs a
        rw [hreach] at hold ⊢
        exact hold.tickOnce ht
      | digest perm ρ fails =>
        obtain ⟨-, -, rfl⟩ := Option.map_eq_some_iff.1 he
        exact hs a
    · rw [Function.update_of_ne ha]
      exact hs a

theorem run_charged {ok : Network A → Action A → Prop} (hr : (machine cfg created).Run ok s h) (a : A) :
    Charged (reach cfg a) (s.nodes a).store := by
  induction hr generalizing a with
  | init => exact Charged.new _ (created a) (cfg a).id
  | step hr _ hstep ih => exact step_charged (run_configured hr) ih hstep a

omit [DecidableEq A] in
/-- a node knows at most as many rumors as were injected -/
theorem NetworkOk.length_keys (hok : NetworkOk s h) (hids : IdsValid h) (a : A) :
    (s.nodes a).store.seen.keys.length ≤ (injections h).length := by
  have hlen : ((injections h).map fun i => i.2.id).length = (injections h).length := List.length_map _
  rw [← hlen]
  refine (List.subperm_of_subset (AList.keys_nodup _) fun id hid => ?_).length_le
  obtain ⟨r, hl⟩ := mem_iff_lookup.1 (AList.mem_keys.2 hid)
  obtain ⟨o, r₀, m, hc, -, -, hid⟩ := hok.exists_chain hids hl
  exact List.mem_map.2 ⟨(o, r₀), mem_injected hc.injected_mem, hid⟩

/-- **What gossip costs.** In every run each node pushes at most one message to each of `reach` peers (its fanout, or
all its seeds) for every rumor that it knows, and if the injected IDs are valid UTF-8 it knows at most those that were
injected. -/
theorem sends_bounded {cfg : A → Config A} {created : A → Bool} {s : Network A} {h : List (Event A)}
    (hr : (machine cfg created).Run Machine.free s h) (a : A) :
    ((s.nodes a).store.logged .send).length ≤ reach cfg a * (s.nodes a).store.seen.keys.length ∧
      (IdsValid h → (s.nodes a).store.seen.keys.length ≤ (injections h).length) :=
  ⟨(Nat.le_add_right _ _).trans (run_charged hr a), fun hids => (run_networkOk hr hids).length_keys hids a⟩

theorem sends_bounded_downTheLine : ∃ s h, (machine line fun _ => true).Run Machine.free s h ∧
    ((s.nodes 0).store.logged .send).length = 1 ∧ IdsValid h ∧
      ((s.nodes 0).store.logged .send).length ≤ reach line 0 * (s.nodes 0).store.seen.keys.length ∧
      (s.nodes 0).store.seen.keys.length ≤ (injections h).length := by
  have he : ((machine line fun _ => true).exec Machine.free downTheLine).any (fun p => decide
      (injections p.2 = [(0, ⟨ascii ['x'], 2, [7], ascii ['g', '0'], 1⟩)] ∧
        ((p.1.nodes 0).store.logged .send).length = 1)) = true := by decide +kernel
  obtain ⟨s, h, hr, ht⟩ := Machine.exists_run_of_exec he
  obtain ⟨hinj, hone⟩ := of_decide_eq_true ht
  have hids : IdsValid h := idsValid_of_singleton hinj (validUTF8_ascii_all rfl)
  exact ⟨s, h, hr, hone, hids, (sends_bounded hr 0).1, (sends_bounded hr 0).2 hids⟩

end Network

end CS240.Gossip
