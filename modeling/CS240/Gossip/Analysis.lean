/-
The analysis of the log files (project/analyze_logs.py).

The lines of all files are put into one list, in whatever order the files come up. `parseEvents` goes through it once
for one rumor: it keeps the time of the last injection it sees, and for each node the time of the first delivery it
sees. The analysis is a Python program, and its strings are texts; `LogRec.read` is the line that a node's JSON becomes
there.

- `parseEvents_injectTS`, `parseEvents_deliveryTimes`: what the loop returns, in terms of the times in the log.
- `orderFree_iff`: it returns the earliest times, in every order of the log, if and only if all injections of the rumor
  have one time, and so have all its deliveries at each node.
-/
import CS240.Gossip.Node
import Mathlib.Order.Bounds.Defs

namespace CS240.Gossip

open Lib

/-- a line of a log file, as it is read -/
structure LogEvent where
  ts : ℤ
  node : String
  ev : Ev
  id : String
  sz : ℕ
  origin : String
  injectTS : ℤ
deriving DecidableEq, Repr

/-- what is read of a line that was written at time `ts` -/
def LogRec.read (l : LogRec) (ts : ℤ) : LogEvent := ⟨ts, text l.node, l.ev, text l.id, l.sz, text l.origin, l.injectTS⟩

/-- the lines of the files in the order of `glob.glob`; `none` is a line that is not JSON -/
def loadLogs (files : List (List (Option LogEvent))) : List LogEvent := files.flatten.reduceOption

/-- what `parse_events` returns -/
structure Parsed where
  injectTS : Option ℤ
  deliveryTimes : AList fun _ : String => ℤ
  sends : List LogEvent
  recvs : List LogEvent

def parseEvent (rumorID : String) (p : Parsed) (ev : LogEvent) : Parsed :=
  if ev.id ≠ rumorID then p
  else
    match ev.ev with
    | .inject => { p with injectTS := some ev.ts }
    | .deliver =>
      if ev.node ∈ p.deliveryTimes then p else { p with deliveryTimes := p.deliveryTimes.insert ev.node ev.ts }
    | .send => { p with sends := p.sends ++ [ev] }
    | .recv => { p with recvs := p.recvs ++ [ev] }

def parseEvents (logs : List LogEvent) (rumorID : String) : Parsed :=
  logs.foldl (parseEvent rumorID) ⟨none, ∅, [], []⟩

variable {logs : List LogEvent} {rumorID node : String} {e : LogEvent}

theorem parseEvents_snoc (logs : List LogEvent) (rumorID : String) (e : LogEvent) :
    parseEvents (logs ++ [e]) rumorID = parseEvent rumorID (parseEvents logs rumorID) e := by
  simp [parseEvents, List.foldl_append]

/-! ## What the loop returns -/

/-- the times of the injections of a rumor, in the order of the log -/
def injections (logs : List LogEvent) (rumorID : String) : List ℤ :=
  (logs.filter fun e => e.id = rumorID ∧ e.ev = .inject).map LogEvent.ts

/-- the times of its deliveries at a node -/
def deliveries (logs : List LogEvent) (rumorID node : String) : List ℤ :=
  (logs.filter fun e => e.id = rumorID ∧ e.ev = .deliver ∧ e.node = node).map LogEvent.ts

/-- an injection replaces the time of an earlier one -/
theorem parseEvent_injectTS (rumorID : String) (p : Parsed) (e : LogEvent) :
    (parseEvent rumorID p e).injectTS = if e.id = rumorID ∧ e.ev = .inject then some e.ts else p.injectTS := by
  unfold parseEvent
  by_cases hid : e.id = rumorID
  · cases hev : e.ev <;> simp [hid, apply_ite Parsed.injectTS]
  · simp [hid]

/-- a delivery counts only if there was none at the node before -/
theorem parseEvent_deliveryTimes (rumorID : String) (p : Parsed) (e : LogEvent) (node : String) :
    (parseEvent rumorID p e).deliveryTimes.lookup node =
      if e.id = rumorID ∧ e.ev = .deliver ∧ e.node = node then (p.deliveryTimes.lookup node).or (some e.ts)
      else p.deliveryTimes.lookup node := by
  unfold parseEvent
  by_cases hid : e.id = rumorID
  · cases hev : e.ev with
    | deliver =>
      by_cases hmem : e.node ∈ p.deliveryTimes
      · by_cases hnode : e.node = node
        · subst hnode
          obtain ⟨t, ht⟩ := mem_iff_lookup.1 hmem
          simp [hid, hmem, ht]
        · simp [hid, hmem, hnode]
      · by_cases hnode : e.node = node
        · subst hnode
          simp [hid, hmem, AList.lookup_eq_none.2 hmem]
        · simp [hid, hmem, hnode, AList.lookup_insert_ne (Ne.symm hnode)]
    | inject => simp [hid]
    | send => simp [hid]
    | recv => simp [hid]
  · simp [hid]

theorem parseEvents_injectTS (logs : List LogEvent) (rumorID : String) :
    (parseEvents logs rumorID).injectTS = (injections logs rumorID).getLast? := by
  induction logs using List.reverseRecOn with
  | nil => rfl
  | append_singleton logs e ih =>
    rw [parseEvents_snoc, parseEvent_injectTS, ih]
    by_cases he : e.id = rumorID ∧ e.ev = .inject <;> simp [injections, he]

theorem parseEvents_deliveryTimes (logs : List LogEvent) (rumorID node : String) :
    (parseEvents logs rumorID).deliveryTimes.lookup node = (deliveries logs rumorID node).head? := by
  induction logs using List.reverseRecOn with
  | nil => rfl
  | append_singleton logs e ih =>
    have hfilter : deliveries (logs ++ [e]) rumorID node =
        deliveries logs rumorID node ++ if e.id = rumorID ∧ e.ev = .deliver ∧ e.node = node then [e.ts] else [] := by
      by_cases he : e.id = rumorID ∧ e.ev = .deliver ∧ e.node = node <;> simp [deliveries, he]
    rw [parseEvents_snoc, parseEvent_deliveryTimes, ih, hfilter, List.head?_append]
    split_ifs <;> simp

/-! ## The documented times -/

/-- the times of the `inject` events of a rumor -/
def injectTimes (logs : List LogEvent) (rumorID : String) : Set ℤ :=
  {t | ∃ e ∈ logs, e.id = rumorID ∧ e.ev = .inject ∧ e.ts = t}

/-- the times of the `deliver` events of a rumor at a node -/
def deliverTimes (logs : List LogEvent) (rumorID node : String) : Set ℤ :=
  {t | ∃ e ∈ logs, e.id = rumorID ∧ e.ev = .deliver ∧ e.node = node ∧ e.ts = t}

/-- `o` is the smallest of the times, if there is any -/
def Earliest (o : Option ℤ) (times : Set ℤ) : Prop := ∀ t, o = some t ↔ IsLeast times t

theorem Earliest.unique {o o' : Option ℤ} {times : Set ℤ} (ho : Earliest o times) (ho' : Earliest o' times) : o = o' :=
  Option.ext fun t => (ho t).trans (ho' t).symm

theorem earliest_of_subsingleton {o : Option ℤ} {times : Set ℤ} (hs : times.Subsingleton)
    (hmem : ∀ t, o = some t → t ∈ times) (hsome : times.Nonempty → o.isSome) : Earliest o times := by
  intro t
  constructor
  · intro ht
    exact ⟨hmem t ht, fun t' ht' => (hs (hmem t ht) ht').le⟩
  · rintro ⟨ht, -⟩
    obtain ⟨t', ht'⟩ := Option.isSome_iff_exists.1 (hsome ⟨t, ht⟩)
    rw [ht', hs (hmem t' ht') ht]

theorem mem_injections {t : ℤ} : t ∈ injections logs rumorID ↔ t ∈ injectTimes logs rumorID := by
  simp [injections, injectTimes, and_assoc]

theorem mem_deliveries {t : ℤ} : t ∈ deliveries logs rumorID node ↔ t ∈ deliverTimes logs rumorID node := by
  simp [deliveries, deliverTimes, and_assoc]

theorem injectTS_earliest (hs : (injectTimes logs rumorID).Subsingleton) :
    Earliest (parseEvents logs rumorID).injectTS (injectTimes logs rumorID) := by
  rw [parseEvents_injectTS]
  refine earliest_of_subsingleton hs ?_ ?_
  · intro t ht
    exact mem_injections.1 (List.mem_of_getLast? ht)
  · rintro ⟨t, ht⟩
    rw [List.getLast?_isSome]
    exact List.ne_nil_of_mem (mem_injections.2 ht)

theorem deliveryTimes_earliest (hs : (deliverTimes logs rumorID node).Subsingleton) :
    Earliest ((parseEvents logs rumorID).deliveryTimes.lookup node) (deliverTimes logs rumorID node) := by
  rw [parseEvents_deliveryTimes]
  refine earliest_of_subsingleton hs ?_ ?_
  · intro t ht
    exact mem_deliveries.1 (List.mem_of_head? ht)
  · rintro ⟨t, ht⟩
    exact List.isSome_head?.2 (List.ne_nil_of_mem (mem_deliveries.2 ht))

/-- the times are those of the events, in whatever order -/
theorem injectTimes_perm {logs' : List LogEvent} (hp : logs'.Perm logs) :
    injectTimes logs' rumorID = injectTimes logs rumorID := by
  simp only [injectTimes, hp.mem_iff]

theorem deliverTimes_perm {logs' : List LogEvent} (hp : logs'.Perm logs) :
    deliverTimes logs' rumorID node = deliverTimes logs rumorID node := by
  simp only [deliverTimes, hp.mem_iff]

/-! ## The order of the log -/

/-- in every order of the log the analysis returns the same times, and they are the earliest ones -/
def OrderFree (logs : List LogEvent) (rumorID : String) : Prop :=
  ∀ logs' : List LogEvent, logs'.Perm logs →
    (parseEvents logs' rumorID).injectTS = (parseEvents logs rumorID).injectTS ∧
    Earliest (parseEvents logs' rumorID).injectTS (injectTimes logs rumorID) ∧
    ∀ node,
      (parseEvents logs' rumorID).deliveryTimes.lookup node = (parseEvents logs rumorID).deliveryTimes.lookup node ∧
      Earliest ((parseEvents logs' rumorID).deliveryTimes.lookup node) (deliverTimes logs rumorID node)

/-- any injection can be the one that comes last -/
theorem exists_perm_injectTS (he : e ∈ logs) (hid : e.id = rumorID) (hev : e.ev = .inject) :
    ∃ logs' : List LogEvent, logs'.Perm logs ∧ (parseEvents logs' rumorID).injectTS = some e.ts := by
  refine ⟨logs.erase e ++ [e], (List.perm_append_singleton e _).trans (List.perm_cons_erase he).symm, ?_⟩
  rw [parseEvents_snoc]
  simp [parseEvent, hid, hev]

/-- any delivery at a node can be the one that comes first -/
theorem exists_perm_deliveryTimes (he : e ∈ logs) (hid : e.id = rumorID) (hev : e.ev = .deliver) :
    ∃ logs' : List LogEvent, logs'.Perm logs ∧ (parseEvents logs' rumorID).deliveryTimes.lookup e.node = some e.ts := by
  refine ⟨e :: logs.erase e, (List.perm_cons_erase he).symm, ?_⟩
  rw [parseEvents_deliveryTimes]
  simp [deliveries, hid, hev]

theorem OrderFree.injectTimes_subsingleton (h : OrderFree logs rumorID) : (injectTimes logs rumorID).Subsingleton := by
  rintro t ⟨e, he, hid, hev, rfl⟩ t' ⟨e', he', hid', hev', rfl⟩
  obtain ⟨l, hl, hts⟩ := exists_perm_injectTS he hid hev
  obtain ⟨l', hl', hts'⟩ := exists_perm_injectTS he' hid' hev'
  refine Option.some.inj ?_
  calc some e.ts = (parseEvents logs rumorID).injectTS := by rw [← hts, (h l hl).1]
    _ = some e'.ts := by rw [← hts', (h l' hl').1]

theorem OrderFree.deliverTimes_subsingleton (h : OrderFree logs rumorID) (node : String) :
    (deliverTimes logs rumorID node).Subsingleton := by
  rintro t ⟨e, he, hid, hev, rfl, rfl⟩ t' ⟨e', he', hid', hev', hnode, rfl⟩
  obtain ⟨l, hl, hts⟩ := exists_perm_deliveryTimes he hid hev
  obtain ⟨l', hl', hts'⟩ := exists_perm_deliveryTimes he' hid' hev'
  rw [hnode] at hts'
  refine Option.some.inj ?_
  calc some e.ts = (parseEvents logs rumorID).deliveryTimes.lookup e.node := by rw [← hts, ((h l hl).2.2 e.node).1]
    _ = some e'.ts := by rw [← hts', ((h l' hl').2.2 e.node).1]

theorem orderFree_of_subsingleton (hinject : (injectTimes logs rumorID).Subsingleton)
    (hdeliver : ∀ node, (deliverTimes logs rumorID node).Subsingleton) : OrderFree logs rumorID := by
  intro logs' hp
  have hts := injectTS_earliest (injectTimes_perm hp ▸ hinject)
  rw [injectTimes_perm hp] at hts
  refine ⟨hts.unique (injectTS_earliest hinject), hts, fun node => ?_⟩
  have htimes := deliveryTimes_earliest (deliverTimes_perm hp ▸ hdeliver node)
  rw [deliverTimes_perm hp] at htimes
  exact ⟨htimes.unique (deliveryTimes_earliest (hdeliver node)), htimes⟩

/-- **The analysis does not depend on the order of the log** if and only if all injections of the rumor carry one time,
and all its deliveries at each node do. -/
theorem orderFree_iff (logs : List LogEvent) (rumorID : String) : OrderFree logs rumorID ↔
    (injectTimes logs rumorID).Subsingleton ∧ ∀ node, (deliverTimes logs rumorID node).Subsingleton :=
  ⟨fun h => ⟨h.injectTimes_subsingleton, h.deliverTimes_subsingleton⟩, fun h => orderFree_of_subsingleton h.1 h.2⟩

/-- the log file of a node, given the times at which its lines were written -/
def Node.logFile {A : Type} (n : Node A) (times : List ℤ) : List (Option LogEvent) :=
  List.zipWith (fun l ts => some (l.read ts)) (n.store.logf.getD []) times

/-- the log of a node `id` that injects the rumor `x` at time `now` -/
def injectedX (id : Bytes) (now : ℤ) : List (Option LogEvent) :=
  ((Node.new ⟨id, [], 3, 8⟩ true : Node ℕ).inject (ascii ['x']) [7] 0 now).logFile [now, now]

/-- the logs of two nodes that inject the same ID, at times 10 and 20 -/
def logsX : List LogEvent := loadLogs [injectedX (ascii ['g', '1']) 10, injectedX (ascii ['g', '2']) 20]

/-- the same logs, the files in the other order -/
def swappedX : List LogEvent := loadLogs [injectedX (ascii ['g', '2']) 20, injectedX (ascii ['g', '1']) 10]

/-- the injection time is that of the file that was read last -/
theorem injectTS_last_file :
    (parseEvents logsX "x").injectTS = some 20 ∧ (parseEvents swappedX "x").injectTS = some 10 ∧ swappedX.Perm logsX ∧
    ¬OrderFree logsX "x" := by
  have hlast : (parseEvents logsX "x").injectTS = some 20 := by decide +kernel
  have hswapped : (parseEvents swappedX "x").injectTS = some 10 := by decide +kernel
  have hperm : swappedX.Perm logsX := by decide +kernel
  refine ⟨hlast, hswapped, hperm, fun h => ?_⟩
  have hsame := (h _ hperm).1
  rw [hlast, hswapped] at hsame
  cases hsame

end CS240.Gossip
