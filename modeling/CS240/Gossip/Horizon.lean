/-
How far a rumor gets when no datagram is lost, no `Send` fails and every node pushes to all of its peers.

A node pushes the copy that it learned first. So a node that stores a rumor with hops left passes it on to its peers
(`Forwarded`; the IDs are valid UTF-8, so that they arrive as they are), and along a path from the origin the rumor gets
as far as its TTL allows, provided that the nodes on the path learned it with the TTL that the path leaves them
(`reaches_along`). If a longer way is faster, the copy that is kept has a smaller TTL, the later copy is dropped, and
nodes within the TTL are not reached (`shortcut_unreached`).
-/
import CS240.Gossip.Network

namespace CS240.Gossip.Network

open Lib

variable {A : Type}

/-- no datagram is lost and no `Send` fails -/
def Reliable (_ : Network A) : Action A → Prop
  | .tick _ _ fails => fails = []
  | .digest _ _ _ fails => fails = []
  | .deliver _ _ fails => fails = []
  | .lose _ => False
  | _ => True

instance : DecidableRel (@Reliable A)
  | _, .tick _ _ fails => inferInstanceAs (Decidable (fails = []))
  | _, .digest _ _ _ fails => inferInstanceAs (Decidable (fails = []))
  | _, .deliver _ _ fails => inferInstanceAs (Decidable (fails = []))
  | _, .lose _ => inferInstanceAs (Decidable False)
  | _, .inject .. => inferInstanceAs (Decidable True)
  | _, .duplicate _ => inferInstanceAs (Decidable True)

/-- nothing is on the way and nothing is waiting to be pushed -/
def Quiescent (s : Network A) : Prop := s.net = [] ∧ ∀ a, (s.nodes a).store.newIDs = []

/-- a push to `p` is on the way that `p` will take if it does not know `id` -/
def InFlight (net : List (Datagram A)) (p : A) (id : Bytes) : Prop :=
  ∃ d ∈ net, d.dst = p ∧ ∃ r ∈ d.msg.received, r.id = id

/-- a stored rumor with hops left is waiting to be pushed, or each peer has it or is about to get it -/
def Forwarded (cfg : A → Config A) (s : Network A) : Prop :=
  ∀ a id r, (s.nodes a).store.intake.known.lookup id = some r → id ∉ (s.nodes a).store.intake.fresh →
    ∀ p ∈ (cfg a).seeds, r.ttl ≤ 0 ∨ id ∈ (s.nodes p).store.seen ∨ InFlight s.net p id

theorem InFlight.mono {net net' : List (Datagram A)} {p : A} {id : Bytes} (hf : InFlight net p id)
    (hnet : ∀ d ∈ net, d ∈ net') : InFlight net' p id := by
  obtain ⟨d, hd, h⟩ := hf
  exact ⟨d, hnet d hd, h⟩

variable [DecidableEq A] {cfg : A → Config A} {created : A → Bool} {s s' : Network A} {h evs : List (Event A)}

/-- a step that changes node `a`: what the node does not have to push, it had pushed before or pushes now -/
theorem Forwarded.update (hs : Forwarded cfg s) {a : A} {n : Node A} {net : List (Datagram A)}
    (hseen : ∀ id ∈ (s.nodes a).store.seen, id ∈ n.store.seen)
    (hnet : ∀ p id, InFlight s.net p id → id ∈ (Function.update s.nodes a n p).store.seen ∨ InFlight net p id)
    (hnode : ∀ id r, n.store.intake.known.lookup id = some r → id ∉ n.store.intake.fresh →
      ((s.nodes a).store.intake.known.lookup id = some r ∧ id ∉ (s.nodes a).store.intake.fresh) ∨
        ∀ p ∈ (cfg a).seeds, r.ttl ≤ 0 ∨ InFlight net p id) :
    Forwarded cfg ⟨Function.update s.nodes a n, net⟩ := by
  have hkeep : ∀ p id, id ∈ (s.nodes p).store.seen ∨ InFlight s.net p id →
      id ∈ (Function.update s.nodes a n p).store.seen ∨ InFlight net p id :=
    fun p id hp => hp.elim (fun hp => .inl (seen_update hseen p id hp)) (hnet p id)
  intro b
  by_cases hb : b = a
  · subst hb
    simp only [Function.update_self]
    intro id r hl hf p hp
    rcases hnode id r hl hf with ⟨hl, hf⟩ | hnew
    · exact (hs b id r hl hf p hp).imp_right (hkeep p id)
    · exact (hnew p hp).imp_right .inr
  · simp only [Function.update_of_ne hb]
    exact fun id r hl hf p hp => (hs b id r hl hf p hp).imp_right (hkeep p id)

theorem inject_forwarded (hs : Forwarded cfg s) (a : A) (id body : Bytes) (ttl now : ℤ) :
    Forwarded cfg { s with nodes := Function.update s.nodes a ((s.nodes a).inject id body ttl now) } := by
  have hi : ((s.nodes a).inject id body ttl now).store.intake = (s.nodes a).store.intake.offerAll [_] :=
    (s.nodes a).inject_intake id body ttl now
  have hseen : ∀ id' ∈ (s.nodes a).store.seen, id' ∈ ((s.nodes a).inject id body ttl now).store.seen :=
    fun _ hid => Node.event_mem (e := .inject id body ttl now) rfl hid
  refine hs.update hseen (fun _ _ => .inr) fun id' r hl hf => ?_
  rw [hi] at hl hf
  exact .inl (Intake.lookup_of_offerAll hl hf)

theorem tick_forwarded (hs : Forwarded cfg s) (hcfg : Configured cfg s h) (hok : NetworkOk s h) (hv : IdsValid h)
    (hfan : ∀ a, (cfg a).seeds.length ≤ (cfg a).fanout) {a : A} {perm : Shuffle ℕ} {p : Node A × List (A × Msg)}
    (ht : (s.nodes a).tickOnce perm [] = some p) :
    Forwarded cfg ⟨Function.update s.nodes a p.1, s.net ++ datagrams a p.2⟩ := by
  have hi : p.1.store.intake = (s.nodes a).store.intake.drain := congrArg (fun c => c.2.2) (Node.core_of_tickOnce ht)
  have hseen : ∀ id ∈ (s.nodes a).store.seen, id ∈ p.1.store.seen := fun _ hid => Node.tickOnce_mem ht hid
  refine hs.update hseen (fun _ _ hf => .inr (hf.mono fun d hd => List.mem_append_left _ hd)) fun id r hl _ => ?_
  rw [hi] at hl
  by_cases hf : id ∈ (s.nodes a).store.newIDs
  -- the rumor was waiting, so its copy is pushed to every peer
  · refine .inr fun q hq => ?_
    by_cases hr : r.ttl ≤ 0
    · exact .inl hr
    · rw [← (hcfg.nodes a).2] at hq
      have hfan' : ((s.nodes a).peers.length : ℤ) ≤ (s.nodes a).cfg.fanout := by
        rw [(hcfg.nodes a).1, (hcfg.nodes a).2]
        exact hfan a
      have hsent := Node.tickOnce_sent_all ht (List.ne_nil_of_mem hf) hfan' q hq
      have hl' : (s.nodes a).store.seen.lookup id = some r := hl
      have hbatch : r ∈ (s.nodes a).store.readyToPush.2 := by
        rw [Store.readyToPush_eq]
        exact List.mem_map.mpr ⟨id, hf, by rw [hl', Option.getD_some]⟩
      refine .inr ⟨_, List.mem_append_right _ (List.mem_map.mpr ⟨_, hsent, rfl⟩), rfl, _,
        Msg.mem_received.mpr ⟨r.coerced, List.mem_map_of_mem hbatch, not_le.mp hr, .inl ⟨rfl, rfl⟩⟩, ?_⟩
      change coerced r.id = id
      rw [(hok.stores a).named id r hl]
      exact hok.coerced_id hv ((hok.stores a).pending id hf)
  · exact .inl ⟨hl, hf⟩

theorem deliver_forwarded (hs : Forwarded cfg s) {i : ℕ} {d : Datagram A} (hd : s.net[i]? = some d)
    (ρ : Shuffle Bytes) (fails : List ℕ) :
    Forwarded cfg ⟨Function.update s.nodes d.dst ((s.nodes d.dst).handle d.msg d.src ρ fails).1,
      s.net.eraseIdx i ++ datagrams d.dst ((s.nodes d.dst).handle d.msg d.src ρ fails).2⟩ := by
  have hi := (s.nodes d.dst).handle_intake d.msg d.src ρ fails
  have hmem : ∀ id, id ∈ ((s.nodes d.dst).handle d.msg d.src ρ fails).1.store.seen ↔
      (∃ o ∈ d.msg.received.map Rumor.keyed, id = o.1) ∨ id ∈ (s.nodes d.dst).store.seen := by
    intro id
    change id ∈ ((s.nodes d.dst).handle d.msg d.src ρ fails).1.store.intake.known ↔ _
    rw [hi, Intake.mem_offerAll]
    rfl
  refine hs.update (fun id hid => (hmem id).mpr (.inr hid)) ?_ fun id r hl hf => ?_
  · rintro p id ⟨d', hd', rfl, r, hr, rfl⟩
    have hperm : d' = d ∨ d' ∈ s.net.eraseIdx i := by
      obtain ⟨hlt, rfl⟩ := List.getElem?_eq_some_iff.mp hd
      exact List.mem_cons.mp ((List.getElem_cons_eraseIdx_perm hlt).mem_iff.mpr hd')
    rcases hperm with rfl | hd'
    · rw [Function.update_self]
      exact .inl ((hmem _).mpr (.inl ⟨r.keyed, List.mem_map_of_mem hr, rfl⟩))
    · exact .inr ⟨d', List.mem_append_left _ hd', rfl, r, hr, rfl⟩
  · rw [hi] at hl hf
    exact .inl (Intake.lookup_of_offerAll hl hf)

omit [DecidableEq A] in
/-- datagrams are only added -/
theorem Forwarded.append (hs : Forwarded cfg s) (ds : List (Datagram A)) :
    Forwarded cfg { s with net := s.net ++ ds } :=
  fun a id r hl hf p hp =>
    (hs a id r hl hf p hp).imp_right fun hp => hp.imp_right fun hf => hf.mono fun _ hd => List.mem_append_left _ hd

theorem step_forwarded (hs : Forwarded cfg s) (hcfg : Configured cfg s h) (hok : NetworkOk s h) (hv : IdsValid h)
    (hfan : ∀ a, (cfg a).seeds.length ≤ (cfg a).fanout) {a : Action A} (ha : Reliable s a)
    (hstep : s.step a = some (s', evs)) : Forwarded cfg s' := by
  cases a with
  | inject a id body ttl now =>
    cases hstep
    exact inject_forwarded hs a id body ttl now
  | tick a perm fails =>
    obtain rfl : fails = [] := ha
    obtain ⟨p, ht, he⟩ := Option.map_eq_some_iff.mp hstep
    cases he
    exact tick_forwarded hs hcfg hok hv hfan ht
  | digest a perm ρ fails =>
    obtain ⟨sent, -, he⟩ := Option.map_eq_some_iff.mp hstep
    cases he
    exact hs.append _
  | deliver i ρ fails =>
    obtain ⟨d, hd, he⟩ := Option.map_eq_some_iff.mp hstep
    cases he
    exact deliver_forwarded hs hd ρ fails
  | duplicate i =>
    obtain ⟨d, -, he⟩ := Option.map_eq_some_iff.mp hstep
    cases he
    exact hs.append _
  | lose i => exact ha.elim

theorem run_forwarded (hfan : ∀ a, (cfg a).seeds.length ≤ (cfg a).fanout) (hr : (machine cfg created).Run Reliable s h)
    (hids : IdsValid h) : Forwarded cfg s := by
  refine hr.invariant_of (H := IdsValid) (I := fun s _ => Forwarded cfg s) (fun _ _ => IdsValid.of_append) ?_ ?_ hids
  · exact fun _ _ _ hl => (by cases hl)
  · intro s h a s' evs hr hv hs ha hstep
    exact step_forwarded hs (run_configured hr) (run_networkOk hr hv.of_append) hv.of_append hfan ha hstep

/-! ## One injection -/

theorem step_lookup {a : Action A} (hstep : s.step a = some (s', evs)) {b : A} {id : Bytes} {r : Rumor}
    (hl : (s.nodes b).store.intake.known.lookup id = some r) : (s'.nodes b).store.intake.known.lookup id = some r := by
  rcases step_nodes hstep with hnodes | ⟨c, e, n, he, hnodes⟩
  · rw [hnodes]
    exact hl
  · rw [hnodes]
    by_cases hb : b = c
    · subst hb
      rw [Function.update_self]
      exact Node.event_grows he hl
    · rwa [Function.update_of_ne hb]

omit [DecidableEq A] in
/-- before the first injection all stores are empty -/
theorem NetworkOk.notMem_seen (hok : NetworkOk s h) (hinj : injections h = []) (a : A) (id : Bytes) :
    id ∉ (s.nodes a).store.intake.known := by
  intro hid
  obtain ⟨r, hr⟩ := mem_iff_lookup.mp hid
  obtain ⟨o, r₀, m, hc, -⟩ := (hok.stores a).sourced id r hr
  have hmem := mem_injected hc.injected_mem
  rw [hinj] at hmem
  cases hmem

/-- the only injection of a run is stored where it was made -/
theorem lookup_of_injections {ok : Network A → Action A → Prop} (hr : (machine cfg created).Run ok s h) {o : A}
    {r₀ : Rumor} (hinj : injections h = [(o, r₀)]) : (s.nodes o).store.intake.known.lookup r₀.id = some r₀ := by
  induction hr with
  | init => cases hinj
  | @step s h a s' evs hr _ hstep ih =>
    rw [injections_append] at hinj
    rcases step_injections hstep with hevs | ⟨b, r, hevs, -, hi⟩
    · rw [hevs, List.append_nil] at hinj
      exact step_lookup hstep (ih hinj)
    · rw [hevs] at hinj
      have hsplit : injections h ++ [(b, r)] = [] ++ [(o, r₀)] := hinj
      obtain ⟨hnone, he⟩ := List.append_inj' hsplit rfl
      cases he
      have hids : IdsValid h := fun i hi => by
        rw [hnone] at hi
        cases hi
      rw [hi, Intake.offer_of_notMem ((run_networkOk hr hids).notMem_seen hnone o _)]
      exact AList.lookup_insert _

end CS240.Gossip.Network
