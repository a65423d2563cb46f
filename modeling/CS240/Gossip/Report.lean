/-
What the analysis reports about a run: the convergence time, and the hosts that never got the rumor.

The report is made from the lines of the log files alone. A node whose log file was created writes a `deliver` line for
every rumor that it stores (`Recorded`), so the report can be compared with the stores. The rumor is named by a text,
and stored under its UTF-8 bytes.

- `zombies_exact`: the nodes reported as zombies are the hosts that do not have the rumor.
- `convergence_exact`: the convergence time is that of the last delivery.
-/
import CS240.Gossip.Launch

namespace CS240.Gossip

open Lib

/-! ## The report -/

/-- the node names in a list of events, as a set -/
def nodesOf (evs : List LogEvent) : List String := (evs.map fun e => e.node).dedup

/-- Python's `sorted` -/
def sorted (names : List String) : List String := names.mergeSort fun a b => decide (a ≤ b)

structure Report where
  totalHosts : ℕ
  delivered : ℕ
  zombies : List String
  noSend : List String
  noRecv : List String
deriving DecidableEq, Repr

def zombieReport (deliveryTimes : AList fun _ : String => ℤ) (sends recvs : List LogEvent) (totalHosts : ℕ) : Report :=
  let allNodes := (List.range totalHosts).map fun i => toString (i + 1)
  ⟨totalHosts, deliveryTimes.keys.length, sorted (allNodes.filter (· ∉ deliveryTimes.keys)),
    sorted (allNodes.filter (· ∉ nodesOf sends)), sorted (allNodes.filter (· ∉ nodesOf recvs))⟩

/-- how Python prints a list of names -/
def printNames (names : List String) : String := "[" ++ ", ".intercalate (names.map fun s => "'" ++ s ++ "'") ++ "]"

/-- zombie_report.txt -/
def Report.text (r : Report) : String :=
  "\n".intercalate
    ["Total hosts: " ++ toString r.totalHosts,
      "Delivered: " ++ toString r.delivered ++ "/" ++ toString r.totalHosts,
      "Zombie nodes (never delivered): " ++ printNames r.zombies,
      "Nodes that never sent: " ++ printNames r.noSend,
      "Nodes that never received: " ++ printNames r.noRecv]

/-- the latency of the slowest delivery, in nanoseconds -/
def convergence (deliveryTimes : AList fun _ : String => ℤ) (injectTS : ℤ) : ℤ :=
  ((deliveryTimes.entries.map fun e => e.2 - injectTS).max?).getD 0

/-- `main`: the convergence time and the report, or none if there is no `inject` event -/
def analyze (logs : List LogEvent) (rumorID : String) (minHosts : ℤ) : Option (ℤ × Report) :=
  let p := parseEvents logs rumorID
  p.injectTS.map fun injectTS =>
    (convergence p.deliveryTimes injectTS,
      zombieReport p.deliveryTimes p.sends p.recvs (max minHosts (nodesOf logs).length).toNat)

variable {logs : List LogEvent} {rumorID node : String}

theorem mem_sorted {names : List String} {x : String} : x ∈ sorted names ↔ x ∈ names :=
  (List.mergeSort_perm names _).mem_iff

theorem mem_deliveryTimes : node ∈ (parseEvents logs rumorID).deliveryTimes ↔
    ∃ e ∈ logs, e.id = rumorID ∧ e.ev = .deliver ∧ e.node = node := by
  rw [← AList.lookup_isSome, parseEvents_deliveryTimes, List.isSome_head?]
  simp [deliveries, List.filter_eq_nil_iff]

/-! ## What the logs record -/

/-- every rumor in the store has its `deliver` line -/
structure Recorded (s : Store) : Prop where
  opened : s.logf.isSome
  delivered : ∀ id ∈ s.seen, id ∈ s.logged .deliver

namespace Recorded

variable {s : Store}

theorem writeLog (hs : Recorded s) (ev : Ev) (r : Rumor) : Recorded (s.writeLog ev r) where
  opened := by
    have hopened := hs.opened
    simpa [Store.writeLog] using hopened
  delivered := by
    intro id hid
    rw [Store.logged_writeLog]
    exact List.mem_append_left _ (hs.delivered id hid)

theorem add (hs : Recorded s) (r : Rumor) : Recorded (s.add r).1 := by
  by_cases hr : r.id ∈ s.seen
  · rwa [Store.add_of_mem hr]
  · rw [Store.add_of_notMem hr]
    refine ⟨by simpa [Store.writeLog] using hs.opened, fun id hid => ?_⟩
    rw [Store.logged_writeLog, if_pos ⟨hs.opened, rfl⟩]
    rcases (AList.mem_insert _).1 hid with rfl | hid
    · exact List.mem_append_right _ (List.mem_singleton_self _)
    · exact List.mem_append_left _ (hs.delivered id hid)

theorem readyToPush (hs : Recorded s) : Recorded s.readyToPush.1 := by
  rw [Store.readyToPush_eq]
  exact ⟨hs.opened, hs.delivered⟩

end Recorded

theorem Store.logged_add {s : Store} {ev : Ev} {id : Bytes} (hid : id ∈ s.logged ev) (r : Rumor) :
    id ∈ (s.add r).1.logged ev := by
  by_cases hr : r.id ∈ s.seen
  · rwa [Store.add_of_mem hr]
  · rw [Store.add_of_notMem hr, Store.logged_writeLog]
    exact List.mem_append_left _ hid

namespace Network

variable {A : Type} [DecidableEq A] {cfg : A → Config A} {s s' : Network A} {h evs : List (Event A)}

/-- what all methods of a store keep, the steps of the network keep -/
theorem step_keeps {P : Store → Prop} (hadd : ∀ s r, P s → P (s.add r).1) (hlog : ∀ s ev r, P s → P (s.writeLog ev r))
    (hpush : ∀ s, P s → P s.readyToPush.1) {act : Action A} (hstep : s.step act = some (s', evs)) {a : A}
    (ha : P (s.nodes a).store) : P (s'.nodes a).store := by
  rcases step_nodes hstep with hnodes | ⟨b, e, n, he, hnodes⟩
  · rwa [hnodes]
  · rw [hnodes]
    by_cases hab : a = b
    · subst hab
      rw [Function.update_self]
      exact Node.event_keeps hadd hlog hpush he ha
    · rwa [Function.update_of_ne hab]

theorem run_recorded {ok : Network A → Action A → Prop} (hr : (machine cfg fun _ => true).Run ok s h) (a : A) :
    Recorded (s.nodes a).store := by
  refine hr.invariant (I := fun s _ => Recorded (s.nodes a).store) ⟨rfl, fun _ hid => (by cases hid)⟩ ?_
  intro s h act s' evs hs _ hstep
  exact step_keeps (fun _ r hs => hs.add r) (fun _ ev r hs => hs.writeLog ev r) (fun _ hs => hs.readyToPush) hstep hs

/-- lines stay in the log -/
theorem step_logged {act : Action A} (hstep : s.step act = some (s', evs)) {a : A} {ev : Ev} {id : Bytes}
    (hid : id ∈ (s.nodes a).store.logged ev) : id ∈ (s'.nodes a).store.logged ev := by
  refine step_keeps (P := fun s => id ∈ s.logged ev) (fun _ r hs => Store.logged_add hs r) (fun _ ev' r hs => ?_)
    (fun s hs => ?_) hstep hid
  · rw [Store.logged_writeLog]
    exact List.mem_append_left _ hs
  · rwa [Store.readyToPush_eq]

/-- every injection has its line -/
theorem run_injectLogged {ok : Network A → Action A → Prop} (hr : (machine cfg fun _ => true).Run ok s h) {a : A}
    {r : Rumor} (hi : (a, r) ∈ injections h) : r.id ∈ (s.nodes a).store.logged .inject := by
  induction hr with
  | init => cases hi
  | @step s h act s' evs hr _ hstep ih =>
    rw [injections_append] at hi
    rcases List.mem_append.1 hi with hi | hi
    · exact step_logged hstep (ih hi)
    · cases act with
      | inject b id body ttl now =>
        cases hstep
        obtain ⟨rfl, rfl⟩ : a = b ∧ r = (s.nodes b).newRumor id body ttl now := by simpa [injections] using hi
        simp only [Function.update_self]
        refine Store.logged_add ?_ _
        rw [Store.logged_writeLog, if_pos ⟨(run_recorded hr a).opened, rfl⟩]
        exact List.mem_append_right _ (List.mem_singleton_self _)
      | deliver i ρ fails =>
        obtain ⟨d, -, he⟩ := Option.map_eq_some_iff.1 hstep
        cases he
        simp [injections] at hi
      | _ =>
        obtain ⟨x, -, he⟩ := Option.map_eq_some_iff.1 hstep
        cases he
        cases hi

/-! ## What the analysis finds -/

section Lines

variable {as : List A} {times : A → List ℤ} {rumorID node : String} {ev : Ev}

theorem exists_line {st : Store} {ts : List ℤ} (hlen : (st.logf.getD []).length ≤ ts.length) {l : LogRec}
    (hl : l ∈ st.logf.getD []) : ∃ p ∈ lines st ts, p.1 = l := by
  obtain ⟨i, hi, rfl⟩ := List.getElem_of_mem hl
  refine ⟨((st.logf.getD [])[i], ts[i]), ?_, rfl⟩
  rw [lines, List.mem_iff_getElem]
  exact ⟨i, by simp; omega, List.getElem_zip⟩

/-- the lines of all files, in terms of the logs of the nodes -/
theorem exists_line_iff {created : A → Bool} (hr : (machine cfg created).Run Machine.free s h) (hids : IdsValid h)
    (hev : ev = .inject ∨ ev = .deliver)
    (htimes : ∀ a, ((s.nodes a).store.logf.getD []).length ≤ (times a).length) :
    (∃ e ∈ s.logs as times, e.id = rumorID ∧ e.ev = ev ∧ e.node = node) ↔
      ∃ a ∈ as, text (cfg a).id = node ∧ utf8 rumorID ∈ (s.nodes a).store.logged ev := by
  have hok := run_logsOk hr
  constructor
  · rintro ⟨e, he, hid, hev', hnode⟩
    obtain ⟨a, ha, p, hp, rfl⟩ := mem_logs.1 he
    have hlogged := mem_logged hp hev'
    refine ⟨a, ha, ?_, ?_⟩
    · rw [← hnode, ← (hok a).own _ (mem_of_mem_lines hp)]
      rfl
    · rwa [← hid, LogRec.read, utf8_of_logged hr hids hev hlogged]
  · rintro ⟨a, ha, rfl, hid⟩
    obtain ⟨l, hl, hlid⟩ := List.mem_map.1 hid
    obtain ⟨hl, hlev⟩ := List.mem_filter.1 hl
    obtain ⟨p, hp, rfl⟩ := exists_line (htimes a) hl
    refine ⟨_, mem_logs.2 ⟨a, ha, p, hp, rfl⟩, ?_, of_decide_eq_true hlev, ?_⟩
    · change text p.1.id = rumorID
      rw [hlid, text_utf8]
    · change text p.1.node = _
      rw [(hok a).own _ hl]

end Lines

section Hosts

variable {hosts : List String} {fanout ttl : ℤ} {zombie : Option ℤ} {s : Network (Fin hosts.length)}
  {h : List (Event (Fin hosts.length))} {as : List (Fin hosts.length)} {times : Fin hosts.length → List ℤ}
  {rumorID : String}

/-- the log files name no other nodes than the hosts -/
theorem length_nodesOf_logs {created : Fin hosts.length → Bool}
    (hr : (machine (config hosts fanout ttl zombie) created).Run Machine.free s h) :
    (nodesOf (s.logs as times)).length ≤ hosts.length := by
  have hsub : nodesOf (s.logs as times) ⊆
      (List.finRange hosts.length).map fun v => text (config hosts fanout ttl zombie v).id := by
    intro name hname
    obtain ⟨e, he, rfl⟩ := List.mem_map.1 (List.mem_dedup.1 hname)
    obtain ⟨v, -, p, hp, rfl⟩ := mem_logs.1 he
    refine List.mem_map.2 ⟨v, List.mem_finRange v, ?_⟩
    rw [← (run_logsOk hr v).own _ (mem_of_mem_lines hp)]
    rfl
  calc (nodesOf (s.logs as times)).length
      ≤ ((List.finRange hosts.length).map fun v => text (config hosts fanout ttl zombie v).id).length :=
        (List.subperm_of_subset (List.nodup_dedup _) hsub).length_le
    _ = hosts.length := by rw [List.length_map, List.length_finRange]

/-- the nodes with a delivery are the hosts that have the rumor -/
theorem mem_deliveryTimes_iff (hr : (machine (config hosts fanout ttl zombie) fun _ => true).Run Machine.free s h)
    (hids : IdsValid h) (has : ∀ v, v ∈ as)
    (htimes : ∀ v, ((s.nodes v).store.logf.getD []).length ≤ (times v).length) {name : String} :
    name ∈ (parseEvents (s.logs as times) rumorID).deliveryTimes ↔
      ∃ v : Fin hosts.length, toString (v.val + 1) = name ∧ utf8 rumorID ∈ (s.nodes v).store.seen := by
  have hiff : ∀ v, utf8 rumorID ∈ (s.nodes v).store.logged .deliver ↔ utf8 rumorID ∈ (s.nodes v).store.seen :=
    fun v => ⟨(run_logsOk hr v).seen _, (run_recorded hr v).delivered _⟩
  simp only [mem_deliveryTimes, exists_line_iff hr hids (.inr rfl) htimes, hiff, has, true_and, config, text_itoa]

theorem injective_number : Function.Injective fun v : Fin hosts.length => toString (v.val + 1) :=
  fun _ _ hvw => Fin.ext (Nat.succ_injective (toString_injective hvw))

/-- there are as many of them as hosts that have the rumor -/
theorem length_deliveryTimes (hr : (machine (config hosts fanout ttl zombie) fun _ => true).Run Machine.free s h)
    (hids : IdsValid h) (has : ∀ v, v ∈ as)
    (htimes : ∀ v, ((s.nodes v).store.logf.getD []).length ≤ (times v).length) :
    (parseEvents (s.logs as times) rumorID).deliveryTimes.keys.length =
      ((List.finRange hosts.length).filter fun v => utf8 rumorID ∈ (s.nodes v).store.seen).length := by
  have hperm : (parseEvents (s.logs as times) rumorID).deliveryTimes.keys.Perm
      (((List.finRange hosts.length).filter fun v => utf8 rumorID ∈ (s.nodes v).store.seen).map
        fun v => toString (v.val + 1)) := by
    refine (List.perm_ext_iff_of_nodup (AList.keys_nodup _) ?_).2 fun name => ?_
    · exact ((List.nodup_finRange _).filter _).map injective_number
    · rw [← AList.mem_keys, mem_deliveryTimes_iff hr hids has htimes]
      simp [and_comm]
  exact hperm.length_eq.trans (List.length_map _)

/-- the injection of a rumor is in the log -/
theorem isSome_injectTS (hr : (machine (config hosts fanout ttl zombie) fun _ => true).Run Machine.free s h)
    (hids : IdsValid h) (has : ∀ v, v ∈ as)
    (htimes : ∀ v, ((s.nodes v).store.logf.getD []).length ≤ (times v).length)
    (hinj : ∃ i ∈ injections h, i.2.id = utf8 rumorID) :
    (parseEvents (s.logs as times) rumorID).injectTS.isSome := by
  obtain ⟨⟨a, r⟩, hi, hid⟩ := hinj
  have hlogged := run_injectLogged hr hi
  rw [hid] at hlogged
  rw [parseEvents_injectTS, List.getLast?_isSome]
  obtain ⟨e, he, hid, hev, -⟩ := (exists_line_iff hr hids (.inl rfl) htimes).2 ⟨a, has a, rfl, hlogged⟩
  exact List.ne_nil_of_mem (mem_injections.2 ⟨e, he, hid, hev, rfl⟩)

/-- the names that the report goes through are those of the hosts -/
theorem mem_allNodes {name : String} : name ∈ (List.range hosts.length).map (fun i => toString (i + 1)) ↔
    ∃ v : Fin hosts.length, toString (v.val + 1) = name := by
  rw [List.mem_map]
  constructor
  · rintro ⟨i, hi, rfl⟩
    exact ⟨⟨i, List.mem_range.1 hi⟩, rfl⟩
  · rintro ⟨v, rfl⟩
    exact ⟨v.val, List.mem_range.2 v.isLt, rfl⟩

/-- **The zombie report is exact.** Hosts are started as `topo.py` starts them, all of them can create their log files,
the injected IDs are valid UTF-8, and the analysis is given all files and the number of hosts. Then, at any point of any
run in which the rumor was injected, it counts the hosts that have the rumor, and reports as zombies those that do not.
-/
theorem zombies_exact (hr : (machine (config hosts fanout ttl zombie) fun _ => true).Run Machine.free s h)
    (hids : IdsValid h) (as : List (Fin hosts.length)) (has : ∀ v, v ∈ as) (times : Fin hosts.length → List ℤ)
    (htimes : ∀ v, ((s.nodes v).store.logf.getD []).length ≤ (times v).length)
    (hinj : ∃ i ∈ injections h, i.2.id = utf8 rumorID) :
    ∃ c report, analyze (s.logs as times) rumorID hosts.length = some (c, report) ∧
      report.totalHosts = hosts.length ∧
      report.delivered = ((List.finRange hosts.length).filter fun v => utf8 rumorID ∈ (s.nodes v).store.seen).length ∧
      ∀ name, name ∈ report.zombies ↔
        ∃ v : Fin hosts.length, toString (v.val + 1) = name ∧ utf8 rumorID ∉ (s.nodes v).store.seen := by
  have htotal : (max (hosts.length : ℤ) (nodesOf (s.logs as times)).length).toNat = hosts.length := by
    have hle : (nodesOf (s.logs as times)).length ≤ hosts.length := length_nodesOf_logs hr
    omega
  obtain ⟨t, ht⟩ := Option.isSome_iff_exists.1 (isSome_injectTS hr hids has htimes hinj)
  refine ⟨_, _, by rw [analyze, ht]; rfl, htotal, length_deliveryTimes hr hids has htimes, fun name => ?_⟩
  change name ∈ sorted (((List.range (max (hosts.length : ℤ) _).toNat).map _).filter _) ↔ _
  rw [htotal, mem_sorted, List.mem_filter, mem_allNodes, decide_eq_true_eq, ← AList.mem_keys,
    mem_deliveryTimes_iff hr hids has htimes]
  constructor
  · rintro ⟨⟨v, hv⟩, hnone⟩
    exact ⟨v, hv, fun hseen => hnone ⟨v, hv, hseen⟩⟩
  · rintro ⟨v, rfl, hseen⟩
    refine ⟨⟨v, rfl⟩, ?_⟩
    rintro ⟨w, hw, hseen'⟩
    rw [injective_number hw] at hseen'
    exact hseen hseen'

/-- host 1 is the zombie and injects the rumor; host 2 is reported -/
theorem zombies_exact_first : ∃ s h, (machine (config twoHosts 1 8 (some 1)) fun _ => true).Run Machine.free s h ∧
    ∃ c report, analyze (s.logs [⟨0, by decide⟩, ⟨1, by decide⟩] fun _ => [1, 1, 2]) "x" 2 = some (c, report) ∧
      report.delivered = 1 ∧ "2" ∈ report.zombies := by
  have he : ((machine (config twoHosts 1 8 (some 1)) fun _ => true).exec Machine.free (passedOn.take 2)).any
      (fun p => decide (injections p.2 = [(⟨0, by decide⟩, firstRumor)] ∧
        (∀ v, ((p.1.nodes v).store.logf.getD []).length ≤ 3) ∧
        utf8 "x" ∉ (p.1.nodes ⟨1, by decide⟩).store.seen ∧
        ((List.finRange 2).filter fun v => utf8 "x" ∈ (p.1.nodes v).store.seen).length = 1)) = true := by
    decide +kernel
  obtain ⟨s, h, hr, ht⟩ := Machine.exists_run_of_exec he
  obtain ⟨hinj, htimes, hnot, hcount⟩ := of_decide_eq_true ht
  have hids : IdsValid h := idsValid_of_singleton hinj (validUTF8_ascii_all rfl)
  have hx : ∃ i ∈ injections h, i.2.id = utf8 "x" := ⟨_, by rw [hinj]; exact List.mem_singleton_self _, by decide⟩
  obtain ⟨c, report, hreport, -, hdelivered, hzombies⟩ := zombies_exact hr hids [⟨0, by decide⟩, ⟨1, by decide⟩]
    (by decide) (fun _ => [1, 1, 2]) htimes hx
  exact ⟨s, h, hr, c, report, hreport, hdelivered.trans hcount, (hzombies "2").2 ⟨⟨1, by decide⟩, by decide, hnot⟩⟩

end Hosts

/-! ## The convergence time -/

/-- in the log of a rumor that no node delivers twice, the dictionary holds the times of all deliveries -/
theorem mem_entries_iff {logs : List LogEvent} {rumorID node : String}
    (hs : (deliverTimes logs rumorID node).Subsingleton) {t : ℤ} :
    (⟨node, t⟩ : Sigma fun _ : String => ℤ) ∈ (parseEvents logs rumorID).deliveryTimes.entries ↔
      t ∈ deliverTimes logs rumorID node := by
  rw [← AList.mem_lookup_iff, Option.mem_def, deliveryTimes_earliest hs t]
  exact ⟨fun ht => ht.1, fun ht => ⟨ht, fun u hu => (hs ht hu).le⟩⟩

/-- **Convergence time.** The nodes have different names, the injected IDs are valid UTF-8, and the rumor was injected
once at most. Then the time that the analysis writes is that from the injection to the last delivery of all, or 0 if no
delivery was logged. -/
theorem convergence_exact {A : Type} [DecidableEq A] {cfg : A → Config A} {created : A → Bool} {s : Network A}
    {h : List (Event A)} (hr : (machine cfg created).Run Machine.free s h) (hids : IdsValid h)
    (hcfg : Function.Injective fun a => text (cfg a).id) {rumorID : String}
    (honce : ((injections h).countP fun i => i.2.id = utf8 rumorID) ≤ 1) (as : List A) (times : A → List ℤ)
    {minHosts c : ℤ} {report : Report} (ha : analyze (s.logs as times) rumorID minHosts = some (c, report)) :
    ∃ t, injectTimes (s.logs as times) rumorID = {t} ∧
      ((∀ node, deliverTimes (s.logs as times) rumorID node = ∅) ∧ c = 0 ∨
        IsGreatest {u | ∃ node, u ∈ deliverTimes (s.logs as times) rumorID node} (t + c)) := by
  obtain ⟨t, ht, hc⟩ := Option.map_eq_some_iff.1 ha
  obtain ⟨hc, -⟩ := Prod.mk.inj hc
  have hentries : ∀ node u, _ ↔ u ∈ deliverTimes (s.logs as times) rumorID node :=
    fun node u => mem_entries_iff (deliverTimes_subsingleton hr hids hcfg as times rumorID node)
  rw [parseEvents_injectTS] at ht
  have hmem := mem_injections.1 (List.mem_of_getLast? ht)
  refine ⟨t, (injectTimes_subsingleton hr hids honce as times).eq_singleton_of_mem hmem, ?_⟩
  unfold convergence at hc
  cases hmax : ((parseEvents (s.logs as times) rumorID).deliveryTimes.entries.map fun e => e.2 - t).max? with
  | none =>
    rw [hmax] at hc
    rw [List.max?_eq_none_iff, List.map_eq_nil_iff] at hmax
    refine .inl ⟨fun node => Set.eq_empty_of_forall_notMem fun u hu => ?_, hc.symm⟩
    have hin := (hentries node u).2 hu
    rw [hmax] at hin
    cases hin
  | some m =>
    rw [hmax] at hc
    obtain rfl : m = c := hc
    obtain ⟨hm, hle⟩ := List.max?_eq_some_iff.1 hmax
    obtain ⟨⟨node, u⟩, hu, rfl⟩ := List.mem_map.1 hm
    refine .inr ⟨⟨node, ?_⟩, ?_⟩
    · have hback : t + (u - t) = u := by omega
      simpa [hback] using (hentries node u).1 hu
    · rintro u' ⟨node', hu'⟩
      have hbound := hle _ (List.mem_map.2 ⟨_, (hentries node' u').2 hu', rfl⟩)
      simp only at hbound ⊢
      omega

/-- the times at which the lines of the two log files are written -/
def passedOnTimes (v : Fin twoHosts.length) : List ℤ := if v.val = 0 then [10, 10, 20, 50] else [30, 30, 40]

/-- the rumor is injected at time 10, and host 2 gets it at time 30 -/
theorem convergence_exact_passedOn : ∃ s h, (machine (config twoHosts 1 8 none) fun _ => true).Run Machine.free s h ∧
    ∃ report, analyze (s.logs [⟨0, by decide⟩, ⟨1, by decide⟩] passedOnTimes) "x" 2 = some (20, report) ∧
      ∃ t, IsGreatest {u | ∃ node,
        u ∈ deliverTimes (s.logs [⟨0, by decide⟩, ⟨1, by decide⟩] passedOnTimes) "x" node} (t + 20) := by
  have he : ((machine (config twoHosts 1 8 none) fun _ => true).exec Machine.free passedOn).any (fun p =>
      decide (injections p.2 = [(⟨0, by decide⟩, firstRumor)]) &&
        (analyze (p.1.logs [⟨0, by decide⟩, ⟨1, by decide⟩] passedOnTimes) "x" 2).any
          fun r => decide (r.1 = 20)) = true := by decide +kernel
  obtain ⟨s, h, hr, ht⟩ := Machine.exists_run_of_exec he
  obtain ⟨hinj, hsome⟩ := Bool.and_eq_true_iff.1 ht
  have hinj := of_decide_eq_true hinj
  obtain ⟨⟨c, report⟩, ha, hc⟩ := (Option.any_eq_true _ _).1 hsome
  obtain rfl : c = 20 := of_decide_eq_true hc
  have hids : IdsValid h := idsValid_of_singleton hinj (validUTF8_ascii_all rfl)
  have hnames : Function.Injective fun v => text (config twoHosts 1 8 none v).id :=
    fun v w hvw => config_id_injective (text_inj (validUTF8_config_id v) (validUTF8_config_id w) hvw)
  have honce : ((injections h).countP fun i => i.2.id = utf8 "x") ≤ 1 := by
    rw [hinj]
    exact List.countP_le_length
  obtain ⟨t, -, ⟨-, hzero⟩ | hgreatest⟩ := convergence_exact hr hids hnames honce _ _ ha
  · cases hzero
  · exact ⟨s, h, hr, report, ha, t, hgreatest⟩

end Network

end CS240.Gossip
