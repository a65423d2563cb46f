/-
The store of a gossip node: the rumors it has seen, those to push at the next tick, and the log file.

The methods of `Store` hold its mutex from beginning to end, so a run of a store is a sequence of calls. `Digest` ranges
over a Go map: it may return the keys in any order, and the order is an argument here.

- `Store.intake`: the store without its log, as an `Intake`; `add_intake`, `readyToPush_intake` say which operation each
  method is.
- `conservation`: what a sequence of calls has handed out for pushing, and what is still to be pushed.
-/
import CS240.Lib.Intake
import CS240.Lib.Machine
import CS240.Lib.Utf8

namespace CS240.Gossip

open Lib

/-- an order for each list: how a run ranges over a map, or what `rand.Perm` gives -/
structure Shuffle (α : Type) where
  order : List α → List α
  perm : ∀ l, (order l).Perm l

namespace Shuffle

variable {α : Type}

protected def id : Shuffle α := ⟨fun l => l, fun l => .refl l⟩

@[simp]
theorem mem_order (ρ : Shuffle α) {l : List α} {x : α} : x ∈ ρ.order l ↔ x ∈ l := (ρ.perm l).mem_iff

end Shuffle

structure Rumor where
  id : Bytes
  ttl : ℤ
  body : Bytes
  /-- the node that injected it -/
  origin : Bytes
  injectTS : ℤ
deriving DecidableEq, Repr

/-- Go's zero value -/
def Rumor.zero : Rumor := ⟨[], 0, [], [], 0⟩

/-- a rumor is kept under its own ID -/
abbrev Rumor.keyed (r : Rumor) : Bytes × Rumor := (r.id, r)

inductive Ev where
  | inject
  | deliver
  | send
  | recv
deriving DecidableEq, Repr

/-- a line of the log, without the time at which it was written -/
structure LogRec where
  node : Bytes
  ev : Ev
  id : Bytes
  sz : ℕ
  origin : Bytes
  injectTS : ℤ
deriving DecidableEq, Repr

structure Store where
  seen : AList fun _ : Bytes => Rumor
  newIDs : List Bytes
  /-- the lines of the log file, or `none` if it could not be created -/
  logf : Option (List LogRec)
  nodeID : Bytes
deriving DecidableEq

namespace Store

/-- `NewStore`; `created` says whether `os.Create` succeeds -/
def new (created : Bool) (nodeID : Bytes) : Store := ⟨∅, [], if created then some [] else none, nodeID⟩

def writeLog (s : Store) (ev : Ev) (r : Rumor) : Store :=
  { s with logf := s.logf.map (· ++ [⟨s.nodeID, ev, r.id, r.body.length, r.origin, r.injectTS⟩]) }

def add (s : Store) (r : Rumor) : Store × Bool :=
  if r.id ∈ s.seen then (s, false)
  else
    let s := { s with seen := s.seen.insert r.id r, newIDs := s.newIDs ++ [r.id] }
    (s.writeLog .deliver r, true)

def readyToPush (s : Store) : Store × List Rumor :=
  if s.newIDs.length = 0 then (s, [])
  else ({ s with newIDs := [] }, s.newIDs.map fun id => (s.seen.lookup id).getD Rumor.zero)

def digest (s : Store) (ρ : Shuffle Bytes) : List Bytes := ρ.order s.seen.keys

def lookupMany (s : Store) (ids : List Bytes) : List Rumor := ids.filterMap fun id => s.seen.lookup id

/-! ## The store without its log -/

def intake (s : Store) : Intake Bytes Rumor := ⟨s.seen, s.newIDs⟩

variable {s : Store} {r : Rumor} {ev : Ev}

@[simp]
theorem writeLog_intake : (s.writeLog ev r).intake = s.intake := rfl

theorem add_of_mem (hr : r.id ∈ s.seen) : s.add r = (s, false) := if_pos hr

theorem add_of_notMem (hr : r.id ∉ s.seen) :
    s.add r =
      (({ s with seen := s.seen.insert r.id r, newIDs := s.newIDs ++ [r.id] } : Store).writeLog .deliver r, true) :=
  if_neg hr

theorem add_intake : (s.add r).1.intake = s.intake.offer r.keyed := by
  by_cases hr : r.id ∈ s.seen
  · rw [add_of_mem hr, Intake.offer_of_mem (o := r.keyed) hr]
  · rw [add_of_notMem hr, Intake.offer_of_notMem (o := r.keyed) hr]
    rfl

/-- the list is cleared and the batch returned, also when it is empty -/
theorem readyToPush_eq : s.readyToPush =
    ({ s with newIDs := [] }, s.newIDs.map fun id => (s.seen.lookup id).getD Rumor.zero) := by
  unfold readyToPush
  split_ifs with h
  · rw [List.length_eq_zero_iff] at h
    cases s
    simp_all
  · rfl

theorem readyToPush_intake : s.readyToPush.1.intake = s.intake.drain := by
  rw [readyToPush_eq]
  rfl

theorem mem_lookupMany {ids : List Bytes} : r ∈ s.lookupMany ids ↔ ∃ id ∈ ids, s.seen.lookup id = some r :=
  List.mem_filterMap

/-- the IDs that the log says were delivered -/
def logged (s : Store) (ev : Ev) : List Bytes := ((s.logf.getD []).filter fun l => l.ev = ev).map LogRec.id

theorem logged_writeLog {ev' : Ev} :
    (s.writeLog ev r).logged ev' = s.logged ev' ++ if s.logf.isSome ∧ ev = ev' then [r.id] else [] := by
  cases hf : s.logf with
  | none => simp [logged, writeLog, hf]
  | some ls => by_cases hev : ev = ev' <;> simp [logged, writeLog, hf, hev]

/-! ## Sequences of calls -/

inductive Call where
  | add (r : Rumor)
  | readyToPush
  | digest (ρ : Shuffle Bytes)
  | lookupMany (ids : List Bytes)

/-- a call and what it returned -/
inductive Returned where
  | add (r : Rumor) (new : Bool)
  | readyToPush (batch : List Rumor)
  | digest (ids : List Bytes)
  | lookupMany (ids : List Bytes) (found : List Rumor)
deriving DecidableEq, Repr

def call (s : Store) : Call → Store × Returned
  | .add r => ((s.add r).1, .add r (s.add r).2)
  | .readyToPush => (s.readyToPush.1, .readyToPush s.readyToPush.2)
  | .digest ρ => (s, .digest (s.digest ρ))
  | .lookupMany ids => (s, .lookupMany ids (s.lookupMany ids))

/-- the sequences of calls on a fresh store -/
def machine (created : Bool) (nodeID : Bytes) : Machine Store Call Returned where
  init := new created nodeID
  step s c := some ((s.call c).1, [(s.call c).2])

/-- the rumors given to `Add` -/
def adds (h : List Returned) : List Rumor := h.filterMap fun
  | .add r _ => some r
  | _ => none

/-- the IDs for which `Add` returned true -/
def accepted (h : List Returned) : List Bytes := h.filterMap fun
  | .add r true => some r.id
  | _ => none

/-- the batches that `ReadyToPush` returned -/
def batches (h : List Returned) : List (List Rumor) := h.filterMap fun
  | .readyToPush batch => some batch
  | _ => none

/-- the rumors that a call returned -/
def Returned.rumors : Returned → List Rumor
  | .readyToPush batch => batch
  | .lookupMany _ found => found
  | _ => []

/-- the rumor given to the first `Add` of an ID -/
def firstAdd (h : List Returned) (id : Bytes) : Option Rumor := (adds h).find? fun r => r.id = id

theorem firstAdd_append {h evs : List Returned} {id : Bytes} (hr : firstAdd h id = some r) :
    firstAdd (h ++ evs) id = some r := by
  simp only [firstAdd, adds, List.filterMap_append, List.find?_append] at hr ⊢
  rw [hr]
  rfl

theorem id_of_firstAdd {h : List Returned} {id : Bytes} (hr : firstAdd h id = some r) : r.id = id := by
  simpa using List.find?_some hr

/-- `LookupMany` returns, for the IDs asked for that were added by then, the rumors first added under them -/
def Looked (h : List Returned) : Returned → Prop
  | .lookupMany ids found => found = ids.filterMap (firstAdd h)
  | _ => True

structure Conserved (created : Bool) (s : Store) (h : List Returned) : Prop where
  intake : s.intake.Conserves ((adds h).map Rumor.keyed) ((batches h).flatten.map Rumor.id)
  accepted : accepted h = (batches h).flatten.map Rumor.id ++ s.newIDs
  logged : s.logged .deliver = if created then Store.accepted h else []
  opened : s.logf.isSome = created
  first : ∀ e ∈ h, ∀ r ∈ e.rumors, firstAdd h r.id = some r

namespace Conserved

variable {created : Bool} {nodeID : Bytes} {h : List Returned}

theorem init : Conserved created (new created nodeID) [] where
  intake := .empty
  accepted := rfl
  logged := by cases created <;> rfl
  opened := by cases created <;> rfl
  first := by simp

theorem lookup_seen (hs : Conserved created s h) (id : Bytes) : s.seen.lookup id = firstAdd h id := by
  have hv := hs.intake.values id
  rw [Intake.first, List.find?_map, Option.map_map] at hv
  calc s.seen.lookup id = s.intake.known.lookup id := rfl
    _ = firstAdd h id := by simpa [Function.comp_def, firstAdd] using hv

theorem keys (hs : Conserved created s h) :
    (batches h).flatten.map Rumor.id ++ s.newIDs = ((adds h).map Rumor.id).eraseDups := by
  have hk := hs.intake.keys
  rwa [List.map_map] at hk

theorem first_append (hs : Conserved created s h) {e : Returned} (he : ∀ r ∈ e.rumors, firstAdd h r.id = some r) :
    ∀ e' ∈ h ++ [e], ∀ r ∈ e'.rumors, firstAdd (h ++ [e]) r.id = some r := by
  intro e' he' r hr
  rcases List.mem_append.mp he' with he' | he'
  · exact firstAdd_append (hs.first e' he' r hr)
  · obtain rfl := List.mem_singleton.mp he'
    exact firstAdd_append (he r hr)

theorem add (hs : Conserved created s h) (r : Rumor) : Conserved created (s.add r).1 (h ++ [.add r (s.add r).2]) := by
  have hadds : adds (h ++ [.add r (s.add r).2]) = adds h ++ [r] := by simp [adds]
  have hbatches : batches (h ++ [.add r (s.add r).2]) = batches h := by simp [batches]
  refine ⟨?_, ?_, ?_, ?_, hs.first_append (by simp [Returned.rumors])⟩
  · rw [hadds, hbatches, add_intake, List.map_append]
    exact hs.intake.offer r.keyed
  all_goals by_cases hr : r.id ∈ s.seen
  · rw [hbatches, add_of_mem hr, ← hs.accepted]
    simp [Store.accepted]
  · rw [hbatches, add_of_notMem hr]
    calc Store.accepted (h ++ [.add r true]) = Store.accepted h ++ [r.id] := by simp [Store.accepted]
      _ = (batches h).flatten.map Rumor.id ++ (s.newIDs ++ [r.id]) := by rw [hs.accepted, List.append_assoc]
  · rw [add_of_mem hr, hs.logged]
    simp [Store.accepted]
  · rw [add_of_notMem hr, logged_writeLog]
    change s.logged .deliver ++ (if s.logf.isSome ∧ _ then _ else _) = _
    rw [hs.logged, hs.opened]
    cases created <;> simp [Store.accepted]
  · rw [add_of_mem hr]
    exact hs.opened
  · rw [add_of_notMem hr, ← hs.opened]
    simp [writeLog]

theorem readyToPush (hs : Conserved created s h) :
    Conserved created s.readyToPush.1 (h ++ [.readyToPush s.readyToPush.2]) := by
  have hadds : adds (h ++ [.readyToPush s.readyToPush.2]) = adds h := by simp [adds]
  have haccepted : Store.accepted (h ++ [.readyToPush s.readyToPush.2]) = Store.accepted h := by simp [Store.accepted]
  -- every pending ID has its rumor in the map, so the batch has the IDs that were pending
  have hbatch : ∀ id ∈ s.newIDs, ∃ r, s.seen.lookup id = some r := by
    intro id hid
    refine mem_iff_lookup.mp ?_
    exact hs.intake.mem_known.mpr (List.mem_append_right _ hid)
  have hids : s.readyToPush.2.map Rumor.id = s.newIDs := by
    rw [readyToPush_eq, List.map_map]
    refine (List.map_congr_left fun id hid => ?_).trans (List.map_id _)
    obtain ⟨r, hr⟩ := hbatch id hid
    simp [hr, id_of_firstAdd (hs.lookup_seen id ▸ hr)]
  have hbatches : (batches (h ++ [.readyToPush s.readyToPush.2])).flatten.map Rumor.id =
      (batches h).flatten.map Rumor.id ++ s.newIDs := by
    simp [batches, hids]
  refine ⟨?_, ?_, ?_, ?_, hs.first_append fun r hr => ?_⟩
  · rw [hadds, hbatches, readyToPush_intake]
    exact hs.intake.drain
  · rw [haccepted, hbatches, hs.accepted, readyToPush_eq, List.append_nil]
  · rw [haccepted, ← hs.logged, readyToPush_eq]
    rfl
  · rw [← hs.opened, readyToPush_eq]
  · simp only [Returned.rumors, readyToPush_eq, List.mem_map] at hr
    obtain ⟨id, hid, rfl⟩ := hr
    obtain ⟨r, hr⟩ := hbatch id hid
    rw [hr, Option.getD_some, ← hs.lookup_seen, id_of_firstAdd (hs.lookup_seen id ▸ hr), hr]

/-- a call that changes nothing and returns rumors from the map -/
theorem read (hs : Conserved created s h) {e : Returned} (he : ∀ r new, e ≠ .add r new)
    (he' : ∀ batch, e ≠ .readyToPush batch) (hr : ∀ r ∈ e.rumors, ∃ id, s.seen.lookup id = some r) :
    Conserved created s (h ++ [e]) := by
  have hadds : adds (h ++ [e]) = adds h := by cases e <;> simp_all [adds]
  have haccepted : Store.accepted (h ++ [e]) = Store.accepted h := by cases e <;> simp_all [Store.accepted]
  have hbatches : batches (h ++ [e]) = batches h := by cases e <;> simp_all [batches]
  refine ⟨?_, ?_, ?_, hs.opened, hs.first_append fun r he => ?_⟩
  · rw [hadds, hbatches]
    exact hs.intake
  · rw [haccepted, hbatches]
    exact hs.accepted
  · rw [haccepted]
    exact hs.logged
  · obtain ⟨id, hid⟩ := hr r he
    rw [hs.lookup_seen] at hid
    rwa [id_of_firstAdd hid]

theorem call (hs : Conserved created s h) (c : Call) : Conserved created (s.call c).1 (h ++ [(s.call c).2]) := by
  cases c with
  | add r => exact hs.add r
  | readyToPush => exact hs.readyToPush
  | digest ρ => exact hs.read (by simp [Store.call]) (by simp [Store.call]) (by simp [Store.call, Returned.rumors])
  | lookupMany ids =>
    refine hs.read (by simp [Store.call]) (by simp [Store.call]) fun r hr => ?_
    obtain ⟨id, -, hid⟩ := mem_lookupMany.mp hr
    exact ⟨id, hid⟩

theorem run {created : Bool} {nodeID : Bytes} {s : Store} {h : List Returned}
    (hr : (machine created nodeID).Run Machine.free s h) : Conserved created s h := by
  refine Machine.Run.invariant (I := fun s h => Conserved created s h) .init ?_ hr
  intro s h c s' evs hs _ hstep
  obtain ⟨rfl, rfl⟩ := Prod.mk.inj (Option.some.inj hstep)
  exact hs.call c

theorem looked (hs : Conserved created s h) (c : Call) : Looked h (s.call c).2 := by
  cases c with
  | lookupMany ids => exact List.filterMap_congr fun id _ => hs.lookup_seen id
  | _ => trivial

end Conserved

theorem run_looked {created : Bool} {nodeID : Bytes} {s : Store} {h : List Returned}
    (hr : (machine created nodeID).Run Machine.free s h) : ∀ h₁ e h₂, h = h₁ ++ e :: h₂ → Looked h₁ e := by
  induction hr with
  | init => simp
  | @step s h c s' evs hr _ hstep ih =>
    obtain ⟨rfl, rfl⟩ := Prod.mk.inj (Option.some.inj hstep)
    exact Machine.forall_split_snoc ih ((Conserved.run hr).looked c)

/-- After any sequence of calls on a fresh store, what `ReadyToPush` has returned so far and then `newIDs` are the IDs
in the order of their first `Add`, without duplicates. They are the IDs in the map, those for which `Add` returned true,
and those logged as delivered; a rumor that was returned is the one first added under its ID, and `LookupMany` returns
those of the IDs it was given. -/
theorem conservation (created : Bool) (nodeID : Bytes) {s : Store} {h : List Returned}
    (hr : (machine created nodeID).Run Machine.free s h) :
    (batches h).flatten.map Rumor.id ++ s.newIDs = ((adds h).map Rumor.id).eraseDups ∧
      ((adds h).map Rumor.id).eraseDups.Nodup ∧
      (∀ id, id ∈ s.seen ↔ id ∈ ((adds h).map Rumor.id).eraseDups) ∧
      accepted h = ((adds h).map Rumor.id).eraseDups ∧
      s.logged .deliver = (if created then accepted h else []) ∧
      (∀ e ∈ h, ∀ r ∈ e.rumors, firstAdd h r.id = some r) ∧
      ∀ h₁ ids found h₂, h = h₁ ++ .lookupMany ids found :: h₂ → found = ids.filterMap (firstAdd h₁) := by
  have hs := Conserved.run hr
  refine ⟨hs.keys, ?_, fun id => ?_, hs.accepted.trans hs.keys, hs.logged, hs.first,
    fun h₁ ids found h₂ => run_looked hr h₁ (.lookupMany ids found) h₂⟩
  · rw [← hs.keys]
    exact hs.intake.nodup
  · rw [← hs.keys]
    exact hs.intake.mem_known

/-- two rumors under one ID, a batch taken between them, and another rumor after it -/
def repeatedID : List Call :=
  [.add ⟨ascii ['x'], 3, [7], ascii ['g', '1'], 1⟩, .readyToPush, .add ⟨ascii ['x'], 2, [8], ascii ['g', '2'], 2⟩,
    .add ⟨ascii ['y'], 1, [], ascii ['g', '2'], 3⟩, .lookupMany [ascii ['y'], ascii ['z'], ascii ['x']], .digest .id]

theorem conservation_repeatedID : ∃ s h, (machine true (ascii ['g', '1'])).Run Machine.free s h ∧
    (s.newIDs = [ascii ['y']] ∧ batches h = [[⟨ascii ['x'], 3, [7], ascii ['g', '1'], 1⟩]]) ∧
    (batches h).flatten.map Rumor.id ++ s.newIDs = ((adds h).map Rumor.id).eraseDups ∧
      ((adds h).map Rumor.id).eraseDups.Nodup ∧
      (∀ id, id ∈ s.seen ↔ id ∈ ((adds h).map Rumor.id).eraseDups) ∧
      accepted h = ((adds h).map Rumor.id).eraseDups ∧
      s.logged .deliver = (if true then accepted h else []) ∧
      (∀ e ∈ h, ∀ r ∈ e.rumors, firstAdd h r.id = some r) ∧
      ∀ h₁ ids found h₂, h = h₁ ++ .lookupMany ids found :: h₂ → found = ids.filterMap (firstAdd h₁) := by
  have he : ((machine true (ascii ['g', '1'])).exec Machine.free repeatedID).any
      (fun r => decide (r.1.newIDs = [ascii ['y']] ∧
        batches r.2 = [[⟨ascii ['x'], 3, [7], ascii ['g', '1'], 1⟩]])) = true := by decide +kernel
  obtain ⟨s, h, hr, ht⟩ := Machine.exists_run_of_exec he
  exact ⟨s, h, hr, of_decide_eq_true ht, conservation true (ascii ['g', '1']) hr⟩

end Store

end CS240.Gossip
