/-
Anti-entropy: a node sends a digest of what it knows, and the answers to it.

`handleDigest` computes `diff(ours, m.IDs)`, the rumors that the sender of the digest lacks, and asks the sender for
them. The sender looks them up in its own store. It can only have one under an ID that JSON has changed on the way: if
all IDs are valid UTF-8 it finds nothing, and the exchange changes nothing.

- `Asked`: what is asked for, and `known_or_asked`: what this gives to the node that asks.
- `Exchange`: the datagram that is on the way after a digest was sent, and what the nodes know.
- `reconciles_iff`: when one of the two nodes knows all that the other one knew, after an exchange.
-/
import CS240.Gossip.Network

namespace CS240.Gossip

open Lib

namespace Node

variable {A : Type} {m : Msg}

/-- a digest is answered with a request, unless it has all that the node knows -/
theorem handle_digest (n : Node A) (hm : m.type = .digest) (remote : A) (ρ : Shuffle Bytes) :
    (n.handle m remote ρ []).2 = [] ∧ (∀ id ∈ n.store.seen, id ∈ m.ids) ∨
      ∃ ids, (n.handle m remote ρ []).2 = [(remote, ⟨.missing, n.cfg.id, [], ids⟩)] ∧
        ∀ id, id ∈ ids ↔ id ∈ n.store.seen ∧ id ∉ m.ids := by
  have hdiff : ∀ id, id ∈ diff (n.store.digest ρ) m.ids ↔ id ∈ n.store.seen ∧ id ∉ m.ids := by
    intro id
    simp only [diff, Store.digest, List.mem_filter, Shuffle.mem_order, decide_eq_true_eq]
    exact Iff.rfl
  have hsent : (n.handle m remote ρ []).2 = n.handleDigest m remote ρ [] := by
    rw [handle, hm]
    rfl
  rw [hsent, handleDigest]
  split
  · rename_i hnone
    refine .inl ⟨rfl, fun id hid => of_not_not fun hn => ?_⟩
    have hmem := (hdiff id).mpr ⟨hid, hn⟩
    rw [hnone] at hmem
    cases hmem
  · exact .inr ⟨_, taken_nil _, hdiff⟩

/-- a request is answered with the rumors that the node has, unless it has none -/
theorem handle_missing (n : Node A) (hm : m.type = .missing) (remote : A) (ρ : Shuffle Bytes) :
    (n.handle m remote ρ []).2 = [] ∧ n.store.lookupMany m.ids = [] ∨
      (n.handle m remote ρ []).2 = [(remote, ⟨.fetchrep, n.cfg.id, n.store.lookupMany m.ids, []⟩)] := by
  have hsent : (n.handle m remote ρ []).2 = n.handleMissing m remote [] := by
    rw [handle, hm]
    rfl
  rw [hsent, handleMissing]
  split
  · rename_i hnone
    exact .inl ⟨rfl, hnone⟩
  · exact .inr (taken_nil _)

end Node

namespace Network

variable {A : Type}

/-- the datagrams are delivered and answered, and nothing else happens -/
def Exchanging (_ : Network A) : Action A → Prop
  | .deliver _ _ fails => fails = []
  | _ => False

instance : DecidableRel (@Exchanging A)
  | _, .deliver _ _ fails => inferInstanceAs (Decidable (fails = []))
  | _, .inject .. | _, .tick .. | _, .digest .. | _, .duplicate _ | _, .lose _ => inferInstanceAs (Decidable False)

/-- `b` asks `a` for `id`: it has an ID that is not in the digest of `a`, and `id` is what arrives of it -/
def Asked (s : Network A) (a b : A) (id : Bytes) : Prop :=
  ∃ j ∈ (s.nodes b).store.seen, (∀ i ∈ (s.nodes a).store.seen, coerced i ≠ j) ∧ coerced j = id

/-- an ID in a digest is valid, so that what is asked for besides is what JSON makes of an ID of `b` -/
theorem known_or_asked {s : Network A} {a b : A} {id : Bytes} :
    id ∈ (s.nodes b).store.seen ∨ id ∈ (s.nodes a).store.seen ∧ Asked s a b id ↔
      id ∈ (s.nodes b).store.seen ∨ id ∈ (s.nodes a).store.seen ∧ ∃ j ∈ (s.nodes b).store.seen, coerced j = id := by
  constructor
  · rintro (hb | ⟨ha, j, hj, -, he⟩)
    · exact .inl hb
    · exact .inr ⟨ha, j, hj, he⟩
  · rintro (hb | ⟨ha, j, hj, he⟩)
    · exact .inl hb
    · by_cases hin : ∃ i ∈ (s.nodes a).store.seen, coerced i = j
      · obtain ⟨i, -, rfl⟩ := hin
        rw [coerced_of_valid (validUTF8_coerced i)] at he
        exact .inl (he ▸ hj)
      · exact .inr ⟨ha, j, hj, fun i hi hc => hin ⟨i, hi, hc⟩, he⟩

/-- What is on the way after a digest of `a` was sent to `b` in state `s`. -/
inductive OnTheWay (s : Network A) (a b : A) (seen : AList fun _ : Bytes => Rumor) : List (Datagram A) → Prop
  | digest {m : Msg} : m.type = .digest → (∀ id, id ∈ m.ids ↔ ∃ i ∈ (s.nodes a).store.seen, coerced i = id) →
      seen = (s.nodes b).store.seen → OnTheWay s a b seen [⟨a, b, m⟩]
  | missing {m : Msg} : m.type = .missing → (∀ id, id ∈ m.ids ↔ Asked s a b id) → seen = (s.nodes b).store.seen →
      OnTheWay s a b seen [⟨b, a, m⟩]
  | fetchrep {m : Msg} : m.type = .fetchrep → (∀ r ∈ m.rumors, 0 < r.ttl) →
      (∀ id, (∃ r ∈ m.rumors, r.id = id) ↔ id ∈ (s.nodes a).store.seen ∧ Asked s a b id) →
      seen = (s.nodes b).store.seen → OnTheWay s a b seen [⟨a, b, m⟩]
  | done : (∀ id, id ∈ seen ↔ id ∈ (s.nodes b).store.seen ∨ id ∈ (s.nodes a).store.seen ∧ Asked s a b id) →
      OnTheWay s a b seen []

/-- `s'` is a state of the exchange that began in `s` -/
structure Exchange (s : Network A) (a b : A) (s' : Network A) : Prop where
  seen : (s'.nodes a).store.seen = (s.nodes a).store.seen
  way : OnTheWay s a b (s'.nodes b).store.seen s'.net

theorem OnTheWay.eq_singleton {s : Network A} {a b : A} {seen : AList fun _ : Bytes => Rumor} {net : List (Datagram A)}
    (hway : OnTheWay s a b seen net) {i : ℕ} {d : Datagram A} (hd : net[i]? = some d) : i = 0 ∧ net = [d] := by
  have hlen : net.length ≤ 1 := by cases hway <;> simp
  obtain ⟨hi, rfl⟩ := List.getElem?_eq_some_iff.mp hd
  obtain ⟨x, rfl⟩ := List.length_eq_one_iff.mp (le_antisymm hlen (Nat.lt_of_le_of_lt (Nat.zero_le i) hi))
  obtain rfl : i = 0 := Nat.lt_one_iff.mp hi
  exact ⟨rfl, rfl⟩

variable [DecidableEq A] {a b : A} {s s' s'' : Network A} {evs : List (Event A)}

/-- a step of `b` -/
theorem Exchange.updateRight (hab : a ≠ b) (hseen : (s'.nodes a).store.seen = (s.nodes a).store.seen) {n : Node A}
    {net : List (Datagram A)} (hway : OnTheWay s a b n.store.seen net) :
    Exchange s a b ⟨Function.update s'.nodes b n, net⟩ :=
  ⟨by simpa only [Function.update_of_ne hab] using hseen, by simpa only [Function.update_self] using hway⟩

/-- a step of `a` -/
theorem Exchange.updateLeft (hab : a ≠ b) {n : Node A} (hseen : n.store.seen = (s.nodes a).store.seen)
    {net : List (Datagram A)} (hway : OnTheWay s a b (s'.nodes b).store.seen net) :
    Exchange s a b ⟨Function.update s'.nodes a n, net⟩ :=
  ⟨by simpa only [Function.update_self] using hseen, by simpa only [Function.update_of_ne hab.symm] using hway⟩

theorem digest_exchange {perm : Shuffle ℕ} {ρ : Shuffle Bytes} {fails : List ℕ} (hnet : s.net = [])
    (hd : s.step (.digest a perm ρ fails) = some (s', evs)) (hto : s'.net.map Datagram.dst = [b]) :
    Exchange s a b s' := by
  obtain ⟨sent, hs, he⟩ := Option.map_eq_some_iff.mp hd
  cases he
  refine ⟨rfl, ?_⟩
  rw [hnet, List.nil_append] at hto ⊢
  obtain ⟨d, hnet', rfl⟩ := List.map_eq_singleton_iff.mp hto
  obtain ⟨x, rfl, rfl⟩ := List.map_eq_singleton_iff.mp hnet'
  rw [hnet']
  have hx := Node.sendDigest_sent hs x (List.mem_singleton_self x)
  refine .digest (by rw [hx]; rfl) (fun id => ?_) rfl
  simp only [hx, Msg.coerced, List.mem_map, Store.digest, Shuffle.mem_order]
  exact Iff.rfl

omit [DecidableEq A] in
/-- a message without rumors is handled without changing the store -/
theorem handle_seen {n : Node A} {m : Msg} {remote : A} {ρ : Shuffle Bytes}
    (hm : m.type = .digest ∨ m.type = .missing) : (n.handle m remote ρ []).1.store.seen = n.store.seen := by
  have hi := n.handle_intake m remote ρ []
  have hnone : m.received = [] := by
    unfold Msg.received
    rcases hm with hm | hm <;> rw [hm]
  rw [hnone] at hi
  exact congrArg Intake.known hi

/-- `b` handles the digest -/
theorem exchange_digest (hab : a ≠ b) (hs : (s'.nodes a).store.seen = (s.nodes a).store.seen) {m : Msg}
    (hm : m.type = .digest) (hids : ∀ id, id ∈ m.ids ↔ ∃ i ∈ (s.nodes a).store.seen, coerced i = id)
    (hseen : (s'.nodes b).store.seen = (s.nodes b).store.seen) (ρ : Shuffle Bytes) :
    Exchange s a b ⟨Function.update s'.nodes b ((s'.nodes b).handle m a ρ []).1,
      datagrams b ((s'.nodes b).handle m a ρ []).2⟩ := by
  refine .updateRight hab hs ?_
  rw [handle_seen (.inl hm), hseen]
  rcases (s'.nodes b).handle_digest hm a ρ with ⟨hnone, hall⟩ | ⟨ids, hsent, hdiff⟩
  · rw [hnone]
    refine .done fun id => ⟨.inl, ?_⟩
    rintro (hb | ⟨-, j, hj, hlacks, -⟩)
    · exact hb
    · obtain ⟨i, hi, he⟩ := (hids j).mp (hall j (hseen ▸ hj))
      exact absurd he (hlacks i hi)
  · rw [hsent]
    refine .missing rfl (fun id => ?_) rfl
    simp only [Msg.coerced, List.mem_map, hdiff, hseen, hids, Asked, not_exists, not_and, and_assoc]

omit [DecidableEq A] in
/-- what is asked for has arrived as valid UTF-8 -/
theorem Asked.coerced_eq {id : Bytes} (hasked : Asked s a b id) : coerced id = id := by
  obtain ⟨j, -, -, rfl⟩ := hasked
  exact coerced_of_valid (validUTF8_coerced j)

omit [DecidableEq A] in
/-- so the rumors that `a` has under these IDs come back under the same IDs -/
theorem asked_answered (hnamed : ∀ id r, (s.nodes a).store.seen.lookup id = some r → r.id = id) {found : List Rumor}
    (hfound : ∀ r, r ∈ found ↔ ∃ id, Asked s a b id ∧ (s.nodes a).store.seen.lookup id = some r) (id : Bytes) :
    (∃ r ∈ found, coerced r.id = id) ↔ id ∈ (s.nodes a).store.seen ∧ Asked s a b id := by
  constructor
  · rintro ⟨r, hr, rfl⟩
    obtain ⟨id, hasked, hl⟩ := (hfound r).mp hr
    rw [hnamed id r hl, hasked.coerced_eq]
    exact ⟨mem_iff_lookup.mpr ⟨r, hl⟩, hasked⟩
  · rintro ⟨ha, hasked⟩
    obtain ⟨r, hl⟩ := mem_iff_lookup.mp ha
    exact ⟨r, (hfound r).mpr ⟨id, hasked, hl⟩, by rw [hnamed id r hl, hasked.coerced_eq]⟩

/-- `a` handles the request -/
theorem exchange_missing (hab : a ≠ b) (hs : (s'.nodes a).store.seen = (s.nodes a).store.seen)
    (hstored : ∀ id r, (s.nodes a).store.seen.lookup id = some r → r.id = id ∧ 0 < r.ttl) {m : Msg}
    (hm : m.type = .missing) (hids : ∀ id, id ∈ m.ids ↔ Asked s a b id)
    (hseen : (s'.nodes b).store.seen = (s.nodes b).store.seen) (ρ : Shuffle Bytes) :
    Exchange s a b ⟨Function.update s'.nodes a ((s'.nodes a).handle m b ρ []).1,
      datagrams a ((s'.nodes a).handle m b ρ []).2⟩ := by
  refine .updateLeft hab ((handle_seen (.inr hm)).trans hs) ?_
  rw [hseen]
  have hfound : ∀ r, r ∈ (s'.nodes a).store.lookupMany m.ids ↔
      ∃ id, Asked s a b id ∧ (s.nodes a).store.seen.lookup id = some r := by
    intro r
    simp only [Store.mem_lookupMany, hids, hs]
  have hanswered := asked_answered (fun id r hl => (hstored id r hl).1) hfound
  rcases (s'.nodes a).handle_missing hm b ρ with ⟨hnone, hno⟩ | hsent
  · rw [hnone]
    refine .done fun id => ⟨.inl, ?_⟩
    rintro (hb | hasked)
    · exact hb
    · obtain ⟨r, hin, -⟩ := (hanswered id).mpr hasked
      rw [hno] at hin
      cases hin
  · rw [hsent]
    refine .fetchrep rfl ?_ (fun id => ?_) rfl
    · rw [Msg.coerced, List.forall_mem_map]
      intro r hr
      obtain ⟨id, -, hl⟩ := (hfound r).mp hr
      exact (hstored id r hl).2
    · simp only [Msg.coerced, List.mem_map, exists_exists_and_eq_and]
      exact hanswered id

/-- `b` handles the reply -/
theorem exchange_fetchrep (hab : a ≠ b) (hs : (s'.nodes a).store.seen = (s.nodes a).store.seen) {m : Msg}
    (hm : m.type = .fetchrep) (hpos : ∀ r ∈ m.rumors, 0 < r.ttl)
    (hids : ∀ id, (∃ r ∈ m.rumors, r.id = id) ↔ id ∈ (s.nodes a).store.seen ∧ Asked s a b id)
    (hseen : (s'.nodes b).store.seen = (s.nodes b).store.seen) (ρ : Shuffle Bytes) :
    Exchange s a b ⟨Function.update s'.nodes b ((s'.nodes b).handle m a ρ []).1,
      datagrams b ((s'.nodes b).handle m a ρ []).2⟩ := by
  refine .updateRight hab hs ?_
  have hsent : ((s'.nodes b).handle m a ρ []).2 = [] := by
    rw [Node.handle, hm]
  have hrec : m.received = m.rumors := by
    unfold Msg.received
    rw [hm]
    exact List.filter_eq_self.mpr fun r hr => decide_eq_true (hpos r hr)
  have hi := (s'.nodes b).handle_intake m a ρ []
  rw [hsent]
  refine .done fun id => ?_
  change id ∈ ((s'.nodes b).handle m a ρ []).1.store.intake.known ↔ _
  have hkeys : (∃ o ∈ m.rumors.map Rumor.keyed, id = o.1) ↔ ∃ r ∈ m.rumors, r.id = id := by
    simp [Rumor.keyed, eq_comm]
  rw [hi, Intake.mem_offerAll, hrec, hkeys, hids, or_comm, ← hseen]
  rfl

theorem deliver_exchange (hab : a ≠ b)
    (hstored : ∀ id r, (s.nodes a).store.seen.lookup id = some r → r.id = id ∧ 0 < r.ttl) (hs : Exchange s a b s')
    {act : Action A} (hact : Exchanging s' act) (hstep : s'.step act = some (s'', evs)) : Exchange s a b s'' := by
  cases act with
  | deliver i ρ fails =>
    obtain rfl : fails = [] := hact
    obtain ⟨d, hd, he⟩ := Option.map_eq_some_iff.mp hstep
    cases he
    obtain ⟨hseen, hway⟩ := hs
    obtain ⟨rfl, hnet⟩ := hway.eq_singleton hd
    rw [hnet] at hway ⊢
    cases hway with
    | digest hm hids hb => exact exchange_digest hab hseen hm hids hb ρ
    | missing hm hids hb => exact exchange_missing hab hseen hstored hm hids hb ρ
    | fetchrep hm hpos hids hb => exact exchange_fetchrep hab hseen hm hpos hids hb ρ
  | _ => exact hact.elim

/-- A digest of `a` is sent to `b`, and it and what follows from it are delivered. The rumors of `a` have hops left.
Then `a` knows all that `b` knew or `b` knows all that `a` knew, if and only if `a` knew all that `b` knew, or every ID
that `a` knew was one of `b` or is what JSON makes of one. -/
theorem reconciles_iff {cfg : A → Config A} {created : A → Bool} {s s₁ s₂ : Network A} {evs h h₂ : List (Event A)}
    {a b : A} (hab : a ≠ b) {perm : Shuffle ℕ} {ρ : Shuffle Bytes} {fails : List ℕ} (hnet : s.net = [])
    (hstored : ∀ id r, (s.nodes a).store.seen.lookup id = some r → r.id = id ∧ 0 < r.ttl)
    (hd : s.step (.digest a perm ρ fails) = some (s₁, evs)) (hto : s₁.net.map Datagram.dst = [b])
    (hp : (machine cfg created).Path Exchanging s₁ h s₂ h₂) (hdone : s₂.net = []) :
    ((∀ id ∈ (s.nodes b).store.seen, id ∈ (s₂.nodes a).store.seen) ∨
        ∀ id ∈ (s.nodes a).store.seen, id ∈ (s₂.nodes b).store.seen) ↔
      (∀ id ∈ (s.nodes b).store.seen, id ∈ (s.nodes a).store.seen) ∨
        ∀ id ∈ (s.nodes a).store.seen,
          id ∈ (s.nodes b).store.seen ∨ ∃ j ∈ (s.nodes b).store.seen, coerced j = id := by
  have hs : Exchange s a b s₂ := by
    clear hdone
    induction hp with
    | refl => exact digest_exchange hnet hd hto
    | step _ hact hstep ih => exact deliver_exchange hab hstored ih hact hstep
  obtain ⟨hseen, hway⟩ := hs
  rw [hdone] at hway
  cases hway with
  | done hb =>
    refine or_congr (by rw [hseen]) (forall₂_congr fun id ha => ?_)
    rw [hb, known_or_asked, and_iff_right ha]

/-- two nodes, each with a rumor of its own -/
def strangers : Network (Fin 2) where
  nodes a :=
    match a with
    | 0 => (Node.new ⟨ascii ['g', '0'], [1], 1, 8⟩ true).inject (ascii ['x']) [7] 0 1
    | 1 => (Node.new ⟨ascii ['g', '1'], [0], 1, 8⟩ true).inject (ascii ['y']) [8] 0 2
  net := []

/-- node 0 sends its digest to node 1, and all datagrams that follow are delivered -/
theorem strangers_exchange : ∃ s₁ h₂ s₂, strangers.step (.digest 0 .id .id []) = some (s₁, []) ∧
    s₁.net = [⟨0, 1, ⟨.digest, ascii ['g', '0'], [], [ascii ['x']]⟩⟩] ∧
    (machine (fun a => (strangers.nodes a).cfg) fun _ => true).Path Exchanging s₁ [] s₂ h₂ ∧ s₂.net = [] ∧
    ascii ['y'] ∉ (s₂.nodes 0).store.seen ∧ ascii ['x'] ∉ (s₂.nodes 1).store.seen := by
  have he : (strangers.step (.digest 0 .id .id [])).any (fun p =>
      decide (p.2 = [] ∧ p.1.net = [⟨0, 1, ⟨.digest, ascii ['g', '0'], [], [ascii ['x']]⟩⟩]) &&
        ((machine (fun a => (strangers.nodes a).cfg) fun _ => true).execFrom Exchanging p.1 []
          [.deliver 0 .id [], .deliver 0 .id []]).any fun q =>
            decide (q.1.net = [] ∧ ascii ['y'] ∉ (q.1.nodes 0).store.seen ∧
              ascii ['x'] ∉ (q.1.nodes 1).store.seen)) = true := by
    decide +kernel
  simp only [Option.any_eq_true, Bool.and_eq_true, decide_eq_true_eq] at he
  obtain ⟨⟨s₁, evs⟩, hd, ⟨hevs, hnet⟩, ⟨s₂, h₂⟩, hx, hs₂⟩ := he
  obtain rfl : evs = [] := hevs
  exact ⟨s₁, h₂, s₂, hd, hnet, Machine.path_of_execFrom hx, hs₂⟩

theorem strangers_stored : ∀ a, ∀ e ∈ (strangers.nodes a).store.seen.entries, e.2.id = e.1 ∧ 0 < e.2.ttl := by
  decide +kernel

/-- each node has a rumor that the other one did not have, and this is still so after the exchange -/
theorem strangers_unreconciled : ∃ s₁ h₂ s₂, strangers.step (.digest 0 .id .id []) = some (s₁, []) ∧
    s₁.net = [⟨0, 1, ⟨.digest, ascii ['g', '0'], [], [ascii ['x']]⟩⟩] ∧
    (machine (fun a => (strangers.nodes a).cfg) fun _ => true).Path Exchanging s₁ [] s₂ h₂ ∧ s₂.net = [] ∧
    (∀ a, ∀ e ∈ (strangers.nodes a).store.seen.entries, e.2.id = e.1 ∧ 0 < e.2.ttl) ∧
    ¬ ((∀ id ∈ (strangers.nodes 1).store.seen, id ∈ (s₂.nodes 0).store.seen) ∨
      ∀ id ∈ (strangers.nodes 0).store.seen, id ∈ (s₂.nodes 1).store.seen) := by
  obtain ⟨s₁, h₂, s₂, hd, hnet, hp, hq, hy, hx⟩ := strangers_exchange
  refine ⟨s₁, h₂, s₂, hd, hnet, hp, hq, strangers_stored, ?_⟩
  rintro (h | h)
  · exact hy (h _ (by decide +kernel))
  · exact hx (h _ (by decide +kernel))

theorem reconciles_iff_strangers : ∃ s₁ h₂ s₂, strangers.step (.digest 0 .id .id []) = some (s₁, []) ∧
    (machine (fun a => (strangers.nodes a).cfg) fun _ => true).Path Exchanging s₁ [] s₂ h₂ ∧
    (((∀ id ∈ (strangers.nodes 1).store.seen, id ∈ (s₂.nodes 0).store.seen) ∨
        ∀ id ∈ (strangers.nodes 0).store.seen, id ∈ (s₂.nodes 1).store.seen) ↔
      (∀ id ∈ (strangers.nodes 1).store.seen, id ∈ (strangers.nodes 0).store.seen) ∨
        ∀ id ∈ (strangers.nodes 0).store.seen,
          id ∈ (strangers.nodes 1).store.seen ∨ ∃ j ∈ (strangers.nodes 1).store.seen, coerced j = id) := by
  obtain ⟨s₁, h₂, s₂, hd, hnet, hp, hq, -⟩ := strangers_exchange
  have hstored : ∀ id r, (strangers.nodes 0).store.seen.lookup id = some r → r.id = id ∧ 0 < r.ttl :=
    fun id r hl => strangers_stored 0 ⟨id, r⟩ (AList.mem_lookup_iff.mp hl)
  exact ⟨s₁, h₂, s₂, hd, hp, reconciles_iff (by decide) rfl hstored hd (by rw [hnet]; rfl) hp hq⟩

end Network

end CS240.Gossip
