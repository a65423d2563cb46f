/-
How gossip is deployed: the hosts that project/topo.py starts, and the rumors that are injected over HTTP.

`start_gossipd` passes to each host the addresses of all others, joined by commas; `main` splits them again. A datagram
for an address goes to the host that is bound to it (`owner`). Addresses are texts, and names are bytes.

A request to `/inject` that names no ID gets one made of the node's ID and a counter of the process.

- `splitCSV_intercalate`, `seeds_config`: what is joined is read back, so every host has all others as its seeds.
- `mesh_reached`: with enough fanout every host gets the rumor.
- `zombie_silent`: if the host that injects is the zombie, no other host does.
- `auto_orderFree`: the IDs that nodes make up are different, so the analysis of the logs is right about each of them.
-/
import CS240.Gossip.Spread
import CS240.Lib.Text

namespace CS240.Gossip

open Lib

/-! ## Lists of seeds -/

/-- `unicode.IsSpace` -/
def isSpace (c : Char) : Bool :=
  decide (c.toNat ∈ [0x09, 0x0A, 0x0B, 0x0C, 0x0D, 0x20, 0x85, 0xA0, 0x1680, 0x2028, 0x2029, 0x202F, 0x205F, 0x3000]) ||
    decide (0x2000 ≤ c.toNat ∧ c.toNat ≤ 0x200A)

/-- `strings.TrimSpace` -/
def trimSpace (s : List Char) : List Char := ((s.dropWhile isSpace).reverse.dropWhile isSpace).reverse

def splitCSV (s : String) : List String :=
  if s = "" then []
  else (((s.toList.splitOn ',').map trimSpace).filter (· ≠ [])).map String.ofList

/-- a text that can stand in a comma-separated list -/
structure Plain (s : String) : Prop where
  nonempty : s ≠ ""
  comma : ',' ∉ s.toList
  space : ∀ c ∈ s.toList, isSpace c = false

theorem trimSpace_of_no_space {s : List Char} (hs : ∀ c ∈ s, isSpace c = false) : trimSpace s = s := by
  have hdrop : ∀ l : List Char, (∀ c ∈ l, isSpace c = false) → l.dropWhile isSpace = l := by
    intro l hl
    cases l with
    | nil => rfl
    | cons c l => exact List.dropWhile_cons_of_neg (by simp [hl c List.mem_cons_self])
  rw [trimSpace, hdrop s hs, hdrop s.reverse (fun c hc => hs c (List.mem_reverse.1 hc)), List.reverse_reverse]

/-- what was joined is read back -/
theorem splitCSV_intercalate {l : List String} (hl : ∀ x ∈ l, Plain x) : splitCSV (",".intercalate l) = l := by
  by_cases hnil : l = []
  · subst hnil
    rfl
  have hchars : (",".intercalate l).toList.splitOn ',' = l.map String.toList := by
    rw [String.toList_intercalate]
    refine List.splitOn_intercalate ',' ?_ (by simpa using hnil)
    intro cs hcs
    obtain ⟨x, hx, rfl⟩ := List.mem_map.1 hcs
    exact (hl x hx).comma
  have htrim : (l.map String.toList).map trimSpace = l.map String.toList := by
    rw [List.map_map]
    exact List.map_congr_left fun x hx => trimSpace_of_no_space (hl x hx).space
  have hfilter : (l.map String.toList).filter (· ≠ []) = l.map String.toList := by
    refine List.filter_eq_self.2 fun cs hcs => ?_
    obtain ⟨x, hx, rfl⟩ := List.mem_map.1 hcs
    simpa using (hl x hx).nonempty
  have hne : ",".intercalate l ≠ "" := by
    intro hempty
    rw [hempty] at hchars
    obtain ⟨x, l, rfl⟩ := List.exists_cons_of_ne_nil hnil
    simp only [String.toList_empty, List.splitOn_nil, List.map_cons, List.cons.injEq] at hchars
    exact (hl x List.mem_cons_self).nonempty (String.toList_inj.1 hchars.1.symm)
  rw [splitCSV, if_neg hne, hchars, htrim, hfilter, List.map_map]
  simp [Function.comp_def]

/-! ## The hosts of an experiment -/

section Hosts

variable (hosts : List String)

/-- the address a daemon is bound to, given the IP address of its host -/
def bindAddr (ip : String) : String := ip ++ ":9000"

/-- the seeds that host `i` is started with: all others -/
def seedList (i : Fin hosts.length) : List String :=
  ((List.finRange hosts.length).filter (· ≠ i)).map fun j => bindAddr (hosts.get j)

/-- the host that gets what is sent to an address -/
def owner (addr : String) : Option (Fin hosts.length) :=
  (List.finRange hosts.length).find? fun j => bindAddr (hosts.get j) = addr

/-- `start_gossipd`: the configuration of host `i`, which is the number `i + 1` -/
def config (fanout ttl : ℤ) (zombie : Option ℤ) (i : Fin hosts.length) : Config (Fin hosts.length) where
  id := itoa (i.val + 1)
  seeds := (splitCSV (",".intercalate (seedList hosts i))).filterMap (owner hosts)
  fanout := if zombie = some (i.val + 1 : ℤ) then 0 else fanout
  ttl := ttl

/-- hosts with IP addresses of their own -/
structure HostsOk : Prop where
  plain : ∀ ip ∈ hosts, Plain ip
  nodup : hosts.Nodup

variable {hosts} {fanout ttl : ℤ} {zombie : Option ℤ}

theorem Plain.bindAddr {ip : String} (hip : Plain ip) : Plain (bindAddr ip) := by
  have hport : (":9000" : String).toList = [':', '9', '0', '0', '0'] := by decide
  refine ⟨?_, ?_, ?_⟩
  · intro hempty
    have hlist := congrArg String.toList hempty
    simp [Gossip.bindAddr, String.toList_append, hport] at hlist
  · simpa [Gossip.bindAddr, String.toList_append, hport] using hip.comma
  · intro c hc
    rw [Gossip.bindAddr, String.toList_append, hport] at hc
    rcases List.mem_append.1 hc with hc | hc
    · exact hip.space c hc
    · fin_cases hc <;> decide

theorem bindAddr_injective : Function.Injective bindAddr := by
  intro a b hab
  have hlist := congrArg String.toList hab
  simp only [bindAddr, String.toList_append] at hlist
  exact String.toList_inj.1 (List.append_cancel_right hlist)

theorem owner_bindAddr (hh : HostsOk hosts) (j : Fin hosts.length) : owner hosts (bindAddr (hosts.get j)) = some j := by
  cases hfind : owner hosts (bindAddr (hosts.get j)) with
  | none =>
    rw [owner, List.find?_eq_none] at hfind
    exact absurd (hfind j (List.mem_finRange j)) (by simp)
  | some k =>
    have hk := List.find?_some hfind
    have hsame : hosts.get k = hosts.get j := bindAddr_injective (of_decide_eq_true hk)
    rw [List.nodup_iff_injective_get.1 hh.nodup hsame]

/-- every host has all others as its seeds -/
theorem seeds_config (hh : HostsOk hosts) (i : Fin hosts.length) :
    (config hosts fanout ttl zombie i).seeds = (List.finRange hosts.length).filter (· ≠ i) := by
  have hread : splitCSV (",".intercalate (seedList hosts i)) = seedList hosts i := by
    refine splitCSV_intercalate fun x hx => ?_
    obtain ⟨j, -, rfl⟩ := List.mem_map.1 hx
    exact (hh.plain _ (List.get_mem hosts j)).bindAddr
  rw [config, hread, seedList, List.filterMap_map]
  have hsome : owner hosts ∘ (fun j => bindAddr (hosts.get j)) = some := funext fun j => owner_bindAddr hh j
  rw [hsome, List.filterMap_some]

theorem config_id_injective : Function.Injective fun i => (config hosts fanout ttl zombie i).id := by
  intro i j hij
  have hnum : i.val + 1 = j.val + 1 := itoa_injective hij
  exact Fin.ext (by omega)

theorem validUTF8_config_id (i : Fin hosts.length) : ValidUTF8 (config hosts fanout ttl zombie i).id := validUTF8_itoa _

end Hosts

namespace Network

variable {hosts : List String} {fanout ttl : ℤ} {created : Fin hosts.length → Bool} {s : Network (Fin hosts.length)}
  {h : List (Event (Fin hosts.length))}

/-- **An experiment reaches everybody.** The hosts are started without a zombie, with a fanout that covers all of them,
no datagram is lost and no `Send` fails. One rumor is injected, anywhere, with a positive TTL and an ID that is valid
UTF-8. Then it is at every host when nothing is on the way any more. -/
theorem mesh_reached (hh : HostsOk hosts) (hfan : (hosts.length : ℤ) ≤ fanout + 1)
    (hr : (machine (config hosts fanout ttl none) created).Run Reliable s h) {o : Fin hosts.length} {r₀ : Rumor}
    (hinj : injections h = [(o, r₀)]) (hid : ValidUTF8 r₀.id) (hpos : 0 < r₀.ttl) (hq : Quiescent s)
    (v : Fin hosts.length) : r₀.id ∈ (s.nodes v).store.seen := by
  have ho := lookup_of_injections hr hinj
  by_cases hv : v = o
  · subst hv
    exact mem_iff_lookup.2 ⟨r₀, ho⟩
  have hall : ∀ a, ((config hosts fanout ttl none a).seeds.length : ℤ) ≤ (config hosts fanout ttl none a).fanout := by
    intro a
    have hlt : ((List.finRange hosts.length).filter (· ≠ a)).length < (List.finRange hosts.length).length :=
      List.length_filter_lt_length_iff_exists.2 ⟨a, List.mem_finRange a, by simp⟩
    rw [List.length_finRange] at hlt
    rw [seeds_config hh a]
    simp only [config, reduceCtorEq, if_false]
    omega
  have hfresh : r₀.id ∉ (s.nodes o).store.intake.fresh := by
    change r₀.id ∉ (s.nodes o).store.newIDs
    rw [hq.2 o]
    exact List.not_mem_nil
  have hseed : v ∈ (config hosts fanout ttl none o).seeds := by
    rw [seeds_config hh o]
    exact List.mem_filter.2 ⟨List.mem_finRange v, by simpa using hv⟩
  rcases run_forwarded hall hr (idsValid_of_singleton hinj hid) o r₀.id r₀ ho hfresh v hseed with
    hle | hseen | ⟨d, hd, -⟩
  · exact absurd hpos (not_lt.2 hle)
  · exact hseen
  · rw [hq.1] at hd
    cases hd

/-- two hosts of an experiment -/
abbrev twoHosts : List String := ["10.0.0.1", "10.0.0.2"]

theorem twoHosts_hostsOk : HostsOk twoHosts := by
  have hspace : ∀ {cs : List Char}, cs.all (fun c => isSpace c = false) → ∀ c ∈ cs, isSpace c = false :=
    fun hall c hc => of_decide_eq_true (List.all_eq_true.1 hall c hc)
  refine ⟨fun ip hip => ?_, by decide⟩
  fin_cases hip <;> exact ⟨by decide, by decide, hspace (by decide)⟩

/-- the rumor that the first host injects -/
def firstRumor : Rumor := ⟨ascii ['x'], 8, [7], ascii ['1'], 1⟩

/-- the rumor goes to the other host and is pushed back -/
def passedOn : List (Action (Fin twoHosts.length)) :=
  [.inject ⟨0, by decide⟩ firstRumor.id [7] 8 1, .tick ⟨0, by decide⟩ .id [], .deliver 0 .id [],
    .tick ⟨1, by decide⟩ .id [], .deliver 0 .id []]

theorem mesh_reached_passedOn : ∃ s h, (machine (config twoHosts 1 8 none) fun _ => true).Run Reliable s h ∧
    Quiescent s ∧ ∀ v, firstRumor.id ∈ (s.nodes v).store.seen := by
  have he : ((machine (config twoHosts 1 8 none) fun _ => true).exec Reliable passedOn).any (fun p => decide
      (injections p.2 = [(⟨0, by decide⟩, firstRumor)] ∧ p.1.net = [] ∧
        ∀ a, (p.1.nodes a).store.newIDs = [])) = true := by decide +kernel
  obtain ⟨s, h, hr, ht⟩ := Machine.exists_run_of_exec he
  obtain ⟨hinj, hq⟩ := of_decide_eq_true ht
  have hid : ValidUTF8 firstRumor.id := validUTF8_ascii_all rfl
  exact ⟨s, h, hr, hq, mesh_reached twoHosts_hostsOk (by decide) hr hinj hid (by decide) hq⟩

/-- **A zombie keeps its rumors.** The injected IDs are valid UTF-8. If a rumor is injected only at the host that was
made the zombie, no other host ever has it, whatever the fanout and the TTL are. (`topo.py` injects at host 1.) -/
theorem zombie_silent {o : Fin hosts.length}
    (hr : (machine (config hosts fanout ttl (some (o.val + 1 : ℤ))) created).Run Machine.free s h) (hids : IdsValid h)
    {id : Bytes} (hinj : ∀ i ∈ injections h, i.2.id = id → i.1 = o) {v : Fin hosts.length}
    (hseen : id ∈ (s.nodes v).store.seen) : v = o := by
  obtain ⟨r, hl⟩ := mem_iff_lookup.1 hseen
  have hp := run_pushOk hr hids
  obtain ⟨o', r₀, m, hc, -, -, hid⟩ := (run_networkOk hr hids).exists_chain hids hl
  obtain rfl : o' = o := hinj (o', r₀) (mem_injected hc.injected_mem) hid
  obtain ⟨path, hpath, hlast, -⟩ := hc.path fun b c type r hr => (hp.learned b c type r hr).2
  cases path with
  | nil => exact (Option.some.inj hlast).symm
  | cons w path =>
    have hpush := (List.isChain_cons_cons.1 hpath).1.2
    simp [config] at hpush

/-- the first host is the zombie; the other one injects a rumor of its own -/
theorem zombie_silent_first : ∃ s h, (machine (config twoHosts 1 8 (some 1)) fun _ => true).Run Machine.free s h ∧
    firstRumor.id ∈ (s.nodes ⟨0, by decide⟩).store.seen ∧ firstRumor.id ∉ (s.nodes ⟨1, by decide⟩).store.seen := by
  have he : ((machine (config twoHosts 1 8 (some 1)) fun _ => true).exec Machine.free
      (.inject ⟨1, by decide⟩ (ascii ['y']) [] 8 1 :: passedOn.take 2)).any (fun p => decide
      (injections p.2 = [(⟨1, by decide⟩, ⟨ascii ['y'], 8, [], ascii ['2'], 1⟩), (⟨0, by decide⟩, firstRumor)] ∧
        firstRumor.id ∈ (p.1.nodes ⟨0, by decide⟩).store.seen)) = true := by decide +kernel
  obtain ⟨s, h, hr, ht⟩ := Machine.exists_run_of_exec he
  obtain ⟨hinj, hseen⟩ := of_decide_eq_true ht
  have hids : IdsValid h := by
    rw [IdsValid, hinj, List.forall_mem_cons, List.forall_mem_singleton]
    exact ⟨validUTF8_ascii_all rfl, validUTF8_ascii_all rfl⟩
  refine ⟨s, h, hr, hseen, fun hother => ?_⟩
  have hsame := zombie_silent (o := ⟨0, by decide⟩) hr hids (by rw [hinj]; decide) hother
  exact absurd hsame (by decide)

end Network

/-! ## Requests -/

/-- the ID for the `k`-th request of a node that has none -/
def autoID (nodeID : Bytes) (k : ℕ) : Bytes := nodeID ++ byte '-' :: itoa k

/-- the query of a request to `/inject` -/
structure Request where
  id : Bytes
  body : Bytes
  ttl : Bytes

/-- the network and the counter `injected` of each process -/
structure Deployment (A : Type) where
  network : Network A
  injected : A → ℕ

namespace Deployment

variable {A : Type} [DecidableEq A]

inductive Action (A : Type) where
  | request (a : A) (q : Request) (now : ℤ)
  /-- what happens without a request -/
  | network (act : Gossip.Action A)

/-- the handler of `/inject`: the ID and the TTL of the injection, and the counter after it -/
def handleInject (n : Node A) (injected : ℕ) (q : Request) : (Bytes × ℤ) × ℕ :=
  let injected' := if q.id = [] then (injected + 1) % 2 ^ 64 else injected
  let id := if q.id = [] then autoID n.cfg.id injected' else q.id
  let ttl := if atoi q.ttl ≤ 0 then n.cfg.ttl else atoi q.ttl
  ((id, ttl), injected')

def step (s : Deployment A) : Action A → Option (Deployment A × List (Event A))
  | .request a q now =>
    let r := handleInject (s.network.nodes a) (s.injected a) q
    (s.network.step (.inject a r.1.1 q.body r.1.2 now)).map fun p =>
      (⟨p.1, Function.update s.injected a r.2⟩, p.2)
  | .network (.inject ..) => none
  | .network act => (s.network.step act).map fun p => ({ s with network := p.1 }, p.2)

def machine (cfg : A → Config A) (created : A → Bool) : Machine (Deployment A) (Action A) (Event A) where
  init := ⟨(Network.machine cfg created).init, fun _ => 0⟩
  step := step

/-- requests leave the ID to the node, and no counter overflows -/
def Auto (s : Deployment A) : Action A → Prop
  | .request a q _ => q.id = [] ∧ s.injected a + 1 < 2 ^ 64
  | .network _ => True

/-! ## Made-up IDs -/

theorem autoID_inj {a b : Bytes} {k l : ℕ} (h : autoID a k = autoID b l) : a = b ∧ k = l := by
  obtain ⟨hab, hkl⟩ := append_cons_inj_of_notMem_right (dash_notMem_itoa k) (dash_notMem_itoa l) h
  exact ⟨hab, itoa_injective hkl⟩

theorem validUTF8_autoID {a : Bytes} (ha : ValidUTF8 a) (k : ℕ) : ValidUTF8 (autoID a k) := by
  have hdash : ValidUTF8 (ascii ['-']) := validUTF8_ascii_all rfl
  exact ha.append (hdash.append (validUTF8_itoa k))

variable {cfg : A → Config A} {created : A → Bool} {s s' : Deployment A} {h evs : List (Event A)}

omit [DecidableEq A] in
/-- a request without an ID gets the next one -/
theorem handleInject_auto {n : Node A} {k : ℕ} {q : Request} (hid : q.id = []) (hlt : k + 1 < 2 ^ 64) :
    (handleInject n k q).1.1 = autoID n.cfg.id (k + 1) ∧ (handleInject n k q).2 = k + 1 := by
  simp only [handleInject, hid, if_true, Nat.mod_eq_of_lt hlt, and_self]

/-- a step of the deployment is one of the network -/
theorem step_network {act : Action A} (hs : s.step act = some (s', evs)) :
    ∃ act', s.network.step act' = some (s'.network, evs) := by
  cases act with
  | request a q now =>
    simp only [step] at hs
    obtain ⟨p, hp, he⟩ := Option.map_eq_some_iff.1 hs
    cases he
    exact ⟨_, hp⟩
  | network act =>
    cases act with
    | inject => cases hs
    | _ =>
      obtain ⟨p, hp, he⟩ := Option.map_eq_some_iff.1 hs
      cases he
      exact ⟨_, hp⟩

/-- the network of a deployment runs as it does without requests -/
theorem run_network {ok : Deployment A → Action A → Prop} (hr : (machine cfg created).Run ok s h) :
    (Network.machine cfg created).Run Machine.free s.network h := by
  induction hr with
  | init => exact .init
  | step _ _ hs ih =>
    obtain ⟨act, hact⟩ := step_network hs
    exact ih.step trivial hact

/-- the IDs that were made up so far -/
structure AutoOk (cfg : A → Config A) (s : Deployment A) (h : List (Event A)) : Prop where
  made : ∀ i ∈ Network.injections h, ∃ k, k ≤ s.injected i.1 ∧ i.2.id = autoID (cfg i.1).id k
  nodup : ((Network.injections h).map fun i => i.2.id).Nodup

omit [DecidableEq A] in
/-- nothing is injected, and the counters stay -/
theorem AutoOk.quiet (hs : AutoOk cfg s h) (hevs : Network.injections evs = []) {network : Network A} :
    AutoOk cfg { s with network := network } (h ++ evs) := by
  have hsame : Network.injections (h ++ evs) = Network.injections h := by
    rw [Network.injections_append, hevs, List.append_nil]
  exact ⟨by rw [hsame]; exact hs.made, by rw [hsame]; exact hs.nodup⟩

/-- a request gets the next ID of its node -/
theorem AutoOk.request (hs : AutoOk cfg s h) (hcfg : Function.Injective fun a => (cfg a).id) {a : A} {r : Rumor}
    {network : Network A} (hr : r.id = autoID (cfg a).id (s.injected a + 1)) :
    AutoOk cfg ⟨network, Function.update s.injected a (s.injected a + 1)⟩ (h ++ [.injected a r]) := by
  have hmore : Network.injections (h ++ [.injected a r]) = Network.injections h ++ [(a, r)] := Network.injections_append
  refine ⟨?_, ?_⟩
  · rw [hmore]
    intro i hi
    rcases List.mem_append.1 hi with hi | hi
    · obtain ⟨k, hk, hid⟩ := hs.made i hi
      refine ⟨k, ?_, hid⟩
      by_cases hia : i.1 = a
      · simp only [hia, Function.update_self] at hk ⊢
        omega
      · simpa only [Function.update_of_ne hia] using hk
    · rw [List.mem_singleton.1 hi]
      exact ⟨s.injected a + 1, by simp, hr⟩
  · rw [hmore, List.map_append]
    refine hs.nodup.append (List.nodup_singleton _) ?_
    simp only [List.map_cons, List.map_nil, List.disjoint_singleton, List.mem_map, not_exists, not_and]
    intro i hi heq
    obtain ⟨k, hk, hid⟩ := hs.made i hi
    obtain ⟨hname, hnum⟩ := autoID_inj (hid.symm.trans (heq.trans hr))
    have hia : i.1 = a := hcfg hname
    rw [hia] at hk
    omega

theorem run_autoOk (hcfg : Function.Injective fun a => (cfg a).id) (hr : (machine cfg created).Run Auto s h) :
    AutoOk cfg s h := by
  induction hr with
  | init => exact ⟨fun _ hi => (by cases hi), List.nodup_nil⟩
  | @step s h act s' evs hr ha hs ih =>
    have hconf := Network.run_configured (run_network hr)
    cases act with
    | request a q now =>
      simp only [machine, step] at hs
      obtain ⟨p, hp, he⟩ := Option.map_eq_some_iff.1 hs
      cases he
      cases hp
      obtain ⟨hid, hlt⟩ := ha
      obtain ⟨hauto, hcount⟩ := handleInject_auto (n := s.network.nodes a) hid hlt
      rw [hcount]
      refine ih.request hcfg (hauto.trans ?_)
      rw [(hconf.nodes a).1]
    | network act =>
      cases act with
      | inject => cases hs
      | deliver i ρ fails =>
        obtain ⟨p, hp, he⟩ := Option.map_eq_some_iff.1 hs
        cases he
        obtain ⟨d, -, he⟩ := Option.map_eq_some_iff.1 hp
        cases he
        exact ih.quiet (by simp [Network.injections])
      | _ =>
        obtain ⟨p, hp, he⟩ := Option.map_eq_some_iff.1 hs
        cases he
        obtain ⟨x, -, he⟩ := Option.map_eq_some_iff.1 hp
        cases he
        exact ih.quiet rfl

/-- **Made-up IDs.** Nodes with different names serve requests that leave the ID to them, fewer than 2^64 each. Then no
two injections of the whole run have the same ID, and if the names are valid UTF-8 the analysis of the log files is
right about every rumor, in whatever order the files are read. -/
theorem auto_orderFree {cfg : A → Config A} {created : A → Bool} {s : Deployment A} {h : List (Event A)}
    (hcfg : Function.Injective fun a => (cfg a).id) (hr : (machine cfg created).Run Auto s h) :
    ((Network.injections h).map fun i => i.2.id).Nodup ∧
      ((∀ a, ValidUTF8 (cfg a).id) → ∀ as times rumorID, OrderFree (s.network.logs as times) rumorID) := by
  have hauto := run_autoOk hcfg hr
  refine ⟨hauto.nodup, fun hnames as times rumorID => ?_⟩
  have hids : Network.IdsValid h := by
    intro i hi
    obtain ⟨k, -, hid⟩ := hauto.made i hi
    rw [hid]
    exact validUTF8_autoID (hnames i.1) k
  have htexts : Function.Injective fun a => text (cfg a).id :=
    fun a b hab => hcfg (text_inj (hnames a) (hnames b) hab)
  refine Network.logs_orderFree (run_network hr) hids htexts ?_ as times
  rw [← Network.count_injections]
  exact List.nodup_iff_count_le_one.1 hauto.nodup (utf8 rumorID)

instance : DecidableRel (@Auto A)
  | s, .request a q _ => inferInstanceAs (Decidable (q.id = [] ∧ s.injected a + 1 < 2 ^ 64))
  | _, .network _ => inferInstanceAs (Decidable True)

/-- both hosts are asked to inject, the first one twice -/
theorem auto_orderFree_twoHosts : ∃ s h,
    (machine (config Network.twoHosts 1 8 none) fun _ => true).Run Auto s h ∧
      (Network.injections h).map (fun i => i.2.id) =
        [ascii ['1', '-', '1'], ascii ['2', '-', '1'], ascii ['1', '-', '2']] ∧
      ∀ as times, OrderFree (s.network.logs as times) "1-2" := by
  have he : ((machine (config Network.twoHosts 1 8 none) fun _ => true).exec Auto
      [.request ⟨0, by decide⟩ ⟨[], ascii ['a'], ascii ['8']⟩ 1, .request ⟨1, by decide⟩ ⟨[], ascii ['b'], []⟩ 2,
        .network (.tick ⟨0, by decide⟩ .id []),
        .request ⟨0, by decide⟩ ⟨[], ascii ['c'], ascii ['-', '3']⟩ 3]).any (fun p => decide
          ((Network.injections p.2).map (fun i => i.2.id) =
            [ascii ['1', '-', '1'], ascii ['2', '-', '1'], ascii ['1', '-', '2']])) = true := by decide +kernel
  obtain ⟨s, h, hr, ht⟩ := Machine.exists_run_of_exec he
  have horder := (auto_orderFree config_id_injective hr).2 validUTF8_config_id
  exact ⟨s, h, hr, of_decide_eq_true ht, fun as times => horder as times "1-2"⟩

end Deployment

end CS240.Gossip
