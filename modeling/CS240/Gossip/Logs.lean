/-
The log files of a network, read by the analysis.

A node logs a delivery when it stores a rumor for the first time, and an injection at every call of `Inject`. So the
first delivery that the analysis finds for a node is the only one, but the injection it finds need not be. The injected
IDs are valid UTF-8 here, so that they are in the files as they are; the names of the nodes may not be, but their texts
differ.

- `run_logsOk`: what the logs say after any run.
- `logs_orderFree_iff`: in the logs of a run the analysis depends on the order of the files only through the injections.
- `logs_orderFree`: if the rumor was injected once at most, it does not depend on it.
-/
import CS240.Gossip.Analysis
import CS240.Gossip.Horizon
import Mathlib.Data.List.ReduceOption

namespace CS240.Gossip

open Lib

/-! ## The log of a store -/

/-- the log of the store of the node `nodeID`, where `injected` are the IDs that were injected -/
structure LogOk (nodeID : Bytes) (injected : List Bytes) (s : Store) : Prop where
  name : s.nodeID = nodeID
  own : ∀ l ∈ s.logf.getD [], l.node = nodeID
  once : (s.logged .deliver).Nodup
  seen : ∀ id ∈ s.logged .deliver, id ∈ s.seen
  injections : (s.logged .inject).Sublist injected

namespace Store

variable {s : Store} {r : Rumor} {ev : Ev}

theorem mem_writeLog {l : LogRec} (hl : l ∈ (s.writeLog ev r).logf.getD []) :
    l ∈ s.logf.getD [] ∨ l.node = s.nodeID := by
  cases hf : s.logf with
  | none => simp [writeLog, hf] at hl
  | some ls =>
    simp only [writeLog, hf, Option.map_some, Option.getD_some, List.mem_append, List.mem_singleton] at hl
    exact hl.imp id fun h => by rw [h]

end Store

namespace LogOk

variable {nodeID : Bytes} {injected : List Bytes} {s : Store}

theorem new (created : Bool) (nodeID : Bytes) : LogOk nodeID [] (.new created nodeID) := by
  have hlog : (Store.new created nodeID).logf.getD [] = [] := by cases created <;> rfl
  have hlogged : ∀ ev, (Store.new created nodeID).logged ev = [] := by
    intro ev
    rw [Store.logged, hlog]
    rfl
  exact ⟨rfl, by simp [hlog], by simp [hlogged], by simp [hlogged], by simp [hlogged]⟩

theorem mono {injected' : List Bytes} (hs : LogOk nodeID injected s) (hsub : injected.Sublist injected') :
    LogOk nodeID injected' s :=
  { hs with injections := hs.injections.trans hsub }

/-- one more line: an injection is one of those in `injected'`, and a rumor is delivered for the first time -/
theorem writeLog {injected' : List Bytes} (hs : LogOk nodeID injected s) (hsub : injected.Sublist injected') {ev : Ev}
    {r : Rumor} (hi : ev = .inject → (injected ++ [r.id]).Sublist injected')
    (hd : ev = .deliver → r.id ∉ s.logged .deliver ∧ r.id ∈ s.seen) : LogOk nodeID injected' (s.writeLog ev r) where
  name := hs.name
  own := by
    intro l hl
    rcases Store.mem_writeLog hl with hl | hl
    · exact hs.own l hl
    · rw [hl, hs.name]
  once := by
    rw [Store.logged_writeLog]
    split_ifs with h
    · exact hs.once.append (List.nodup_singleton _) (by simpa using (hd h.2).1)
    · rw [List.append_nil]
      exact hs.once
  seen := by
    rw [Store.logged_writeLog]
    intro id hid
    rcases List.mem_append.1 hid with hid | hid
    · exact hs.seen id hid
    · split_ifs at hid with h
      · rw [List.mem_singleton.1 hid]
        exact (hd h.2).2
      · cases hid
  injections := by
    rw [Store.logged_writeLog]
    split_ifs with h
    · exact (hs.injections.append (List.Sublist.refl _)).trans (hi h.2)
    · rw [List.append_nil]
      exact hs.injections.trans hsub

/-- a rumor is logged as delivered when it is new -/
theorem add (hs : LogOk nodeID injected s) (r : Rumor) : LogOk nodeID injected (s.add r).1 := by
  by_cases hr : r.id ∈ s.seen
  · rw [Store.add_of_mem hr]
    exact hs
  rw [Store.add_of_notMem hr]
  have hstored : LogOk nodeID injected { s with seen := s.seen.insert r.id r, newIDs := s.newIDs ++ [r.id] } :=
    ⟨hs.name, hs.own, hs.once, fun id hid => (AList.mem_insert _).2 (.inr (hs.seen id hid)), hs.injections⟩
  refine hstored.writeLog (List.Sublist.refl _) nofun fun _ => ⟨fun h => hr (hs.seen r.id h), ?_⟩
  exact (AList.mem_insert _).2 (.inl rfl)

theorem readyToPush (hs : LogOk nodeID injected s) : LogOk nodeID injected s.readyToPush.1 := by
  rw [Store.readyToPush_eq]
  exact ⟨hs.name, hs.own, hs.once, hs.seen, hs.injections⟩

variable {A : Type} {n : Node A}

theorem inject (hn : LogOk nodeID injected n.store) (id body : Bytes) (ttl now : ℤ) :
    LogOk nodeID (injected ++ [id]) (n.inject id body ttl now).store := by
  have hlogged : LogOk nodeID (injected ++ [id]) (n.store.writeLog .inject (n.newRumor id body ttl now)) :=
    hn.writeLog (List.sublist_append_left _ _) (fun _ => List.Sublist.refl _) nofun
  exact hlogged.add _

theorem tickOnce (hn : LogOk nodeID injected n.store) {perm : Shuffle ℕ} {fails : List ℕ} {p : Node A × List (A × Msg)}
    (ht : n.tickOnce perm fails = some p) : LogOk nodeID injected p.1.store :=
  Node.tickOnce_keeps (fun _ _ hs => hs.writeLog (List.Sublist.refl _) nofun nofun) (fun _ hs => hs.readyToPush) ht hn

theorem handle (hn : LogOk nodeID injected n.store) (m : Msg) (remote : A) (ρ : Shuffle Bytes) (fails : List ℕ) :
    LogOk nodeID injected (n.handle m remote ρ fails).1.store :=
  Node.handle_keeps (fun _ r hs => hs.add r) (fun _ _ hs => hs.writeLog (List.Sublist.refl _) nofun nofun) hn m remote ρ
    fails

end LogOk

/-! ## The logs of a network -/

namespace Network

variable {A : Type} [DecidableEq A]

/-- the IDs injected at a node, in order -/
def injectedIDs (h : List (Event A)) (a : A) : List Bytes :=
  ((injections h).filter fun i => i.1 = a).map fun i => i.2.id

variable {cfg : A → Config A} {created : A → Bool} {s s' : Network A} {h evs : List (Event A)}

def LogsOk (cfg : A → Config A) (s : Network A) (h : List (Event A)) : Prop :=
  ∀ a, LogOk (cfg a).id (injectedIDs h a) (s.nodes a).store

theorem injectedIDs_append (a : A) : injectedIDs (h ++ evs) a = injectedIDs h a ++ injectedIDs evs a := by
  rw [injectedIDs, injections_append, List.filter_append, List.map_append]
  rfl

theorem injectedIDs_sublist (h evs : List (Event A)) (a : A) :
    (injectedIDs h a).Sublist (injectedIDs (h ++ evs) a) := by
  rw [injectedIDs_append]
  exact List.sublist_append_left _ _

theorem LogsOk.update (hs : LogsOk cfg s h) {a : A} {n : Node A} (net : List (Datagram A))
    (hn : LogOk (cfg a).id (injectedIDs (h ++ evs) a) n.store) :
    LogsOk cfg ⟨Function.update s.nodes a n, net⟩ (h ++ evs) := by
  intro b
  by_cases hb : b = a
  · subst hb
    simpa using hn
  · simpa [hb] using (hs b).mono (injectedIDs_sublist h evs b)

theorem step_logsOk (hs : LogsOk cfg s h) {a : Action A} (hstep : s.step a = some (s', evs)) :
    LogsOk cfg s' (h ++ evs) := by
  cases a with
  | inject a id body ttl now =>
    cases hstep
    refine hs.update _ ?_
    rw [injectedIDs_append]
    simpa [injectedIDs, injections, Node.newRumor] using (hs a).inject id body ttl now
  | tick a perm fails =>
    obtain ⟨p, ht, he⟩ := Option.map_eq_some_iff.1 hstep
    cases he
    exact hs.update _ (((hs a).tickOnce ht).mono (injectedIDs_sublist h [] a))
  | deliver i ρ fails =>
    obtain ⟨d, -, he⟩ := Option.map_eq_some_iff.1 hstep
    cases he
    exact hs.update _ (((hs d.dst).handle d.msg d.src ρ fails).mono (injectedIDs_sublist h _ d.dst))
  | _ =>
    obtain ⟨x, -, he⟩ := Option.map_eq_some_iff.1 hstep
    cases he
    exact fun b => (hs b).mono (injectedIDs_sublist h [] b)

theorem run_logsOk {ok : Network A → Action A → Prop} (hr : (machine cfg created).Run ok s h) : LogsOk cfg s h := by
  refine Machine.Run.invariant (M := machine cfg created) (I := LogsOk cfg) ?_ ?_ hr
  · exact fun a => LogOk.new (created a) (cfg a).id
  · exact fun _ _ _ _ _ hs _ hstep => step_logsOk hs hstep

/-! ## What the analysis reads -/

/-- the log files of the nodes `as`, given the times at which their lines were written -/
def logs (s : Network A) (as : List A) (times : A → List ℤ) : List LogEvent :=
  loadLogs (as.map fun a => (s.nodes a).logFile (times a))

/-- the lines of a store's log file with their times -/
def lines (st : Store) (ts : List ℤ) : List (LogRec × ℤ) := (st.logf.getD []).zip ts

variable {as : List A} {times : A → List ℤ} {e : LogEvent} {rumorID node : String} {id : Bytes} {st : Store}
  {ts : List ℤ} {p p' : LogRec × ℤ} {ev : Ev}

omit [DecidableEq A] in
theorem mem_logs : e ∈ s.logs as times ↔ ∃ a ∈ as, ∃ p ∈ lines (s.nodes a).store (times a), p.1.read p.2 = e := by
  have hfile : ∀ a, (s.nodes a).logFile (times a) =
      (lines (s.nodes a).store (times a)).map fun p => some (p.1.read p.2) := by
    intro a
    rw [Node.logFile, lines, List.zip, List.map_zipWith]
  simp only [logs, loadLogs, List.reduceOption_mem_iff, hfile, List.mem_flatten, List.mem_map, exists_exists_and_eq_and,
    Option.some.injEq]

theorem eq_of_length_le_one {β : Type} {l : List β} (hl : l.length ≤ 1) {x y : β} (hx : x ∈ l)
    (hy : y ∈ l) : x = y := by
  obtain ⟨z, hz⟩ := List.length_eq_one_iff.1 (le_antisymm hl (List.length_pos_of_mem hx))
  rw [hz, List.mem_singleton] at hx hy
  rw [hx, hy]

theorem map_fst_lines (st : Store) (ts : List ℤ) : ((lines st ts).map Prod.fst).Sublist (st.logf.getD []) := by
  unfold lines
  generalize st.logf.getD [] = ls
  induction ls generalizing ts with
  | nil => exact List.nil_sublist _
  | cons l ls ih =>
    cases ts with
    | nil => exact List.nil_sublist _
    | cons t ts => exact (ih ts).cons_cons l

theorem mem_of_mem_lines (hp : p ∈ lines st ts) : p.1 ∈ st.logf.getD [] :=
  (map_fst_lines st ts).subset (List.mem_map_of_mem hp)

theorem mem_logged (hp : p ∈ lines st ts) (hev : p.1.ev = ev) : p.1.id ∈ st.logged ev :=
  List.mem_map_of_mem (List.mem_filter.2 ⟨mem_of_mem_lines hp, by simpa using hev⟩)

/-- an event that is logged once for a rumor has one line in the file -/
theorem line_unique (hcount : (st.logged ev).count id ≤ 1) (hp : p ∈ lines st ts) (hev : p.1.ev = ev)
    (hid : p.1.id = id) (hp' : p' ∈ lines st ts) (hev' : p'.1.ev = ev) (hid' : p'.1.id = id) : p = p' := by
  let found := (lines st ts).filter fun p => p.1.id = id ∧ p.1.ev = ev
  have hfound : found.length ≤ 1 := by
    calc found.length
        = (((lines st ts).map Prod.fst).filter fun l => l.id = id ∧ l.ev = ev).length := by
          rw [List.filter_map, List.length_map]
          rfl
      _ ≤ ((st.logf.getD []).filter fun l => l.id = id ∧ l.ev = ev).length := ((map_fst_lines st ts).filter _).length_le
      _ = (st.logged ev).count id := by
          rw [Store.logged, List.count_eq_countP, List.countP_map, List.countP_filter, List.countP_eq_length_filter]
          simp [beq_eq_decide]
      _ ≤ 1 := hcount
  exact eq_of_length_le_one hfound (List.mem_filter.2 ⟨hp, by simp [hid, hev]⟩)
    (List.mem_filter.2 ⟨hp', by simp [hid', hev']⟩)

theorem mem_injectedIDs {a : A} : id ∈ injectedIDs h a ↔ ∃ r, (a, r) ∈ injections h ∧ r.id = id := by
  simp [injectedIDs]

omit [DecidableEq A] in
theorem count_injections (h : List (Event A)) (id : Bytes) :
    ((injections h).map fun i => i.2.id).count id = (injections h).countP fun i => i.2.id = id := by
  rw [List.count_eq_countP, List.countP_map]
  exact List.countP_congr fun i _ => by simp

theorem count_injectedIDs_le (h : List (Event A)) (a : A) (id : Bytes) :
    (injectedIDs h a).count id ≤ (injections h).countP fun i => i.2.id = id := by
  rw [← count_injections]
  exact (List.filter_sublist.map _).count_le id

section Run

variable (hr : (machine cfg created).Run Machine.free s h) (hids : IdsValid h)

include hr hids in
/-- the IDs of injections and deliveries are in the files as they are -/
theorem utf8_of_logged {a : A} (hev : ev = .inject ∨ ev = .deliver) (hid : id ∈ (s.nodes a).store.logged ev) :
    utf8 (text id) = id := by
  rw [utf8_text]
  refine coerced_of_valid ?_
  rcases hev with rfl | rfl
  · obtain ⟨r, hi, rfl⟩ := mem_injectedIDs.1 ((run_logsOk hr a).injections.subset hid)
    exact hids _ hi
  · exact ((run_networkOk hr hids).stores a).valid hids ((run_logsOk hr a).seen id hid)

include hr hids in
/-- a line that is read with the ID `rumorID` was written with it -/
theorem id_of_line {a : A} (hev : ev = .inject ∨ ev = .deliver) (hp : p ∈ lines (s.nodes a).store ts)
    (hpev : p.1.ev = ev) (hid : text p.1.id = rumorID) : p.1.id = utf8 rumorID := by
  rw [← hid, utf8_of_logged hr hids hev (mem_logged hp hpev)]

include hr hids in
/-- no node delivers a rumor twice -/
theorem deliverTimes_subsingleton (hcfg : Function.Injective fun a => text (cfg a).id) (as : List A)
    (times : A → List ℤ) (rumorID node : String) : (deliverTimes (s.logs as times) rumorID node).Subsingleton := by
  rintro t ⟨e, he, hid, hev, hnode, rfl⟩ t' ⟨e', he', hid', hev', hnode', rfl⟩
  obtain ⟨a, -, p, hp, rfl⟩ := mem_logs.1 he
  obtain ⟨a', -, p', hp', rfl⟩ := mem_logs.1 he'
  have hok := run_logsOk hr
  -- the lines carry the names of their nodes
  obtain rfl : a = a' := by
    refine hcfg ?_
    calc text (cfg a).id = text p.1.node := by rw [(hok a).own _ (mem_of_mem_lines hp)]
      _ = text p'.1.node := hnode.trans hnode'.symm
      _ = text (cfg a').id := by rw [(hok a').own _ (mem_of_mem_lines hp')]
  have hpid := id_of_line hr hids (.inr rfl) hp hev hid
  have hpid' := id_of_line hr hids (.inr rfl) hp' hev' hid'
  have hcount := List.nodup_iff_count_le_one.1 (hok a).once (utf8 rumorID)
  rw [line_unique hcount hp hev hpid hp' hev' hpid']

include hr hids in
/-- every `inject` line comes from an injection of its own -/
theorem injectTimes_subsingleton (honce : ((injections h).countP fun i => i.2.id = utf8 rumorID) ≤ 1) (as : List A)
    (times : A → List ℤ) : (injectTimes (s.logs as times) rumorID).Subsingleton := by
  rintro t ⟨e, he, hid, hev, rfl⟩ t' ⟨e', he', hid', hev', rfl⟩
  obtain ⟨a, -, p, hp, rfl⟩ := mem_logs.1 he
  obtain ⟨a', -, p', hp', rfl⟩ := mem_logs.1 he'
  have hok := run_logsOk hr
  have hpid := id_of_line hr hids (.inl rfl) hp hev hid
  have hpid' := id_of_line hr hids (.inl rfl) hp' hev' hid'
  obtain rfl : a = a' := by
    obtain ⟨r, hr, hrid⟩ := mem_injectedIDs.1 ((hok a).injections.subset (mem_logged hp hev))
    obtain ⟨r', hr', hrid'⟩ := mem_injectedIDs.1 ((hok a').injections.subset (mem_logged hp' hev'))
    rw [List.countP_eq_length_filter] at honce
    have hsame := eq_of_length_le_one honce (List.mem_filter.2 ⟨hr, by simp [hrid, hpid]⟩)
      (List.mem_filter.2 ⟨hr', by simp [hrid', hpid']⟩)
    exact (Prod.mk.inj hsame).1
  have hcount := ((hok a).injections.count_le (utf8 rumorID)).trans ((count_injectedIDs_le h a _).trans honce)
  rw [line_unique hcount hp hev hpid hp' hev' hpid']

include hr hids in
/-- In the logs of a network whose nodes have different names, and with valid IDs, the analysis does not depend on the
order if and only if all injections of the rumor carry one time. -/
theorem logs_orderFree_iff (hcfg : Function.Injective fun a => text (cfg a).id) (as : List A) (times : A → List ℤ)
    (rumorID : String) :
    OrderFree (s.logs as times) rumorID ↔ (injectTimes (s.logs as times) rumorID).Subsingleton := by
  refine ⟨OrderFree.injectTimes_subsingleton, fun hinject => orderFree_of_subsingleton hinject fun node => ?_⟩
  exact deliverTimes_subsingleton hr hids hcfg as times rumorID node

include hr hids in
/-- The analysis is right about a rumor that was injected once at most. -/
theorem logs_orderFree (hcfg : Function.Injective fun a => text (cfg a).id)
    (honce : ((injections h).countP fun i => i.2.id = utf8 rumorID) ≤ 1) (as : List A) (times : A → List ℤ) :
    OrderFree (s.logs as times) rumorID :=
  (logs_orderFree_iff hr hids hcfg as times rumorID).2 (injectTimes_subsingleton hr hids honce as times)

end Run

end Network

end CS240.Gossip
