/-
What the harness guarantees about the network while it crashes, restarts and partitions servers.

`Control.Ok` holds between any two operations of the harness: only the server object of an instance that has not been
crashed is registered, only ends of such instances are enabled, and ends are never used twice. `Control.Idle` holds
between commands: exactly the ends between connected servers are enabled, and exactly the running servers are
registered. Each command is a list of operations, so that its proof is one of `Keeps Control.apply Ok Idle`.
-/
import CS240.Lib.Threads
import CS240.Raft.Config

namespace CS240.Raft.Control

open Lib

variable {n : ℕ} {E : Type} {g g' : Control n E} {i j : Fin n}

/-- at any time -/
structure Ok (g : Control n E) : Prop where
  registered : ∀ j p, g.switch.servers j = some p → p.1 = j ∧ g.saved j = some (.object p.2)
  enabled : ∀ e, g.switch.enabled e = true → ∃ i j inc ends, g.endsOf i inc = some ends ∧ ends j = e ∧
    g.saved i = some (.object inc)
  latest : ∀ i inc, g.saved i = some (.object inc) → (g.made i).length = inc + 1
  known : ∀ i, ∀ ends ∈ g.made i, ∀ j, ends j ∈ g.switch.ends ∧ g.switch.connections (ends j) = some j
  distinct : ∀ i i' inc inc' (ends ends' : Fin n → E) j j', g.endsOf i inc = some ends → g.endsOf i' inc' = some ends' →
    ends j = ends' j' → i = i' ∧ inc = inc' ∧ j = j'

/-- between commands -/
structure Idle (g : Control n E) : Prop extends Ok g where
  saved : ∀ i inc, g.rafts i = some inc ↔ g.saved i = some (.object inc)
  servers : ∀ i, g.switch.servers i = (g.rafts i).map fun inc => (i, inc)
  made : ∀ i ends, g.endnames i = some ends → ends ∈ g.made i
  running : ∀ i inc, g.rafts i = some inc → ∃ ends, g.endnames i = some ends ∧ g.endsOf i inc = some ends
  started : ∀ i, g.connected i = true → (g.rafts i).isSome
  linked : ∀ e, g.switch.enabled e = true ↔
    ∃ i j ends, g.connected i = true ∧ g.connected j = true ∧ g.endnames i = some ends ∧ ends j = e

theorem init_idle : (init n E).Idle where
  registered := nofun
  enabled := nofun
  latest := nofun
  known := nofun
  distinct := nofun
  saved := by simp [init]
  servers := by simp [init, Labrpc.Switch.makeNetwork]
  made := nofun
  running := nofun
  started := nofun
  linked := by simp [init, Labrpc.Switch.makeNetwork]

/-- end names of two servers are different, also those of crashed instances -/
theorem Idle.link_unique (hg : g.Idle) {ends ends' : Fin n → E} {i' j' : Fin n} (h : g.endnames i = some ends)
    (h' : g.endnames i' = some ends') (heq : ends j = ends' j') : i = i' ∧ j = j' := by
  obtain ⟨inc, hinc⟩ := List.getElem?_of_mem (hg.made i ends h)
  obtain ⟨inc', hinc'⟩ := List.getElem?_of_mem (hg.made i' ends' h')
  obtain ⟨hi, -, hj⟩ := hg.distinct _ _ _ _ _ _ _ _ hinc hinc' heq
  exact ⟨hi, hj⟩

/-- an enabled end belongs to an instance of a connected server -/
theorem Idle.owner (hg : g.Idle) {e : E} (he : g.switch.enabled e = true) : ∃ i j inc ends, g.connected i = true ∧
    g.endsOf i inc = some ends ∧ ends j = e ∧ g.saved i = some (.object inc) := by
  obtain ⟨a, b, ends, ha, -, hends, he⟩ := (hg.linked e).1 he
  obtain ⟨inc, hinc⟩ := Option.isSome_iff_exists.1 (hg.started a ha)
  obtain ⟨ends', hends', hof⟩ := hg.running a inc hinc
  cases hends.symm.trans hends'
  exact ⟨a, b, inc, ends, ha, hof, he, (hg.saved a inc).1 hinc⟩

theorem mem_links {js : List (Fin n)} {e : E} : e ∈ g.links i js ↔
    ∃ j ∈ js, ∃ ends, (g.endnames i = some ends ∧ ends j = e) ∨ (g.endnames j = some ends ∧ ends i = e) := by
  cases hends : g.endnames i with
  | none => simp [links, hends]
  | some ends =>
    simp only [links, hends, Option.elim_some, List.mem_append, List.mem_map, List.mem_filterMap,
      Option.map_eq_some_iff, Option.some.injEq]
    constructor
    · rintro (⟨j, hj, rfl⟩ | ⟨j, hj, ends', h', rfl⟩)
      · exact ⟨j, hj, ends, .inl ⟨rfl, rfl⟩⟩
      · exact ⟨j, hj, ends', .inr ⟨h', rfl⟩⟩
    · rintro ⟨j, hj, ends', ⟨rfl, he⟩ | ⟨h', he⟩⟩
      · exact .inl ⟨j, hj, he⟩
      · exact .inr ⟨j, hj, ends', h', he⟩

/-! ## Crashed servers -/

/-- the Persisters when that of server `i` is replaced by a copy -/
def refreshed (g : Control n E) (i : Fin n) : Fin n → Option PersisterRef :=
  Function.update g.saved i ((g.saved i).map fun _ => .copy)

theorem refreshed_object {inc : ℕ} : g.refreshed i j = some (.object inc) ↔ j ≠ i ∧ g.saved j = some (.object inc) := by
  by_cases hj : j = i
  · subst hj
    cases h : g.saved j <;> simp [refreshed, h]
  · simp [refreshed, hj]

/-- the Persister of a server that nothing leads to may be replaced -/
theorem Ok.resave (hg : g.Ok) (hreg : g.switch.servers i = none)
    (hown : ∀ e, g.switch.enabled e = true → ∃ a j inc ends, a ≠ i ∧ g.endsOf a inc = some ends ∧ ends j = e ∧
      g.saved a = some (.object inc)) {x : Option PersisterRef}
    (hx : ∀ inc, x = some (.object inc) → (g.made i).length = inc + 1) :
    ({ g with saved := Function.update g.saved i x } : Control n E).Ok := by
  refine { hg with registered := ?_, enabled := ?_, latest := ?_ }
  · intro j p hp
    have hj : j ≠ i := by
      rintro rfl
      cases hreg.symm.trans hp
    obtain ⟨h1, h2⟩ := hg.registered j p hp
    exact ⟨h1, (Function.update_of_ne hj _ _).trans h2⟩
  · intro e he
    obtain ⟨a, j, inc, ends, ha, hof, hend, hsaved⟩ := hown e he
    exact ⟨a, j, inc, ends, hof, hend, (Function.update_of_ne ha _ _).trans hsaved⟩
  · intro j inc hj
    dsimp only at hj
    rw [Function.update_apply] at hj
    split_ifs at hj with hji
    · rw [hji]; exact hx inc hj
    · exact hg.latest j inc hj

/-- server `i` is deleted and its Persister copied -/
def buried (g : Control n E) (i : Fin n) : Control n E :=
  { g with switch := { g.switch with servers := Function.update g.switch.servers i none }, saved := g.refreshed i }

theorem Idle.delete (hg : g.Idle) (i : Fin n) :
    ({ g with switch := { g.switch with servers := Function.update g.switch.servers i none } } : Control n E).Ok :=
  { hg with
    registered := by
      intro j p hp
      dsimp only at hp
      rw [Function.update_apply] at hp
      split_ifs at hp
      exact hg.registered j p hp }

/-- the copy is harmless because nothing leads to a server that is off the network -/
theorem Idle.buried (hg : g.Idle) (hoff : g.connected i = false) : (g.buried i).Ok := by
  refine (hg.delete i).resave (Function.update_self _ _ _) ?_ ?_
  · intro e he
    obtain ⟨a, j, inc, ends, ha, hof, hend, hsaved⟩ := hg.owner he
    refine ⟨a, j, inc, ends, ?_, hof, hend, hsaved⟩
    rintro rfl
    cases hoff.symm.trans ha
  · intro inc h
    cases hsaved : g.saved i <;> simp [hsaved] at h

/-- server `i` is crashed -/
def crashed (g : Control n E) (i : Fin n) : Control n E := { g.buried i with rafts := Function.update g.rafts i none }

theorem Idle.crashed (hg : g.Idle) (hoff : g.connected i = false) : (g.crashed i).Idle where
  toOk := { hg.buried hoff with }
  saved := by
    intro j inc
    show Function.update g.rafts i none j = some inc ↔ g.refreshed i j = some (.object inc)
    rw [refreshed_object, Function.update_apply, ← hg.saved]
    split_ifs with hj <;> simp [hj]
  servers := by
    intro j
    simp only [Control.crashed, Control.buried, Function.update_apply]
    split_ifs
    · rfl
    · exact hg.servers j
  made := hg.made
  running := by
    intro j inc hj
    simp only [Control.crashed, Function.update_apply] at hj
    split_ifs at hj
    exact hg.running j inc hj
  started := by
    intro j hj
    have hne : j ≠ i := by
      rintro rfl
      rw [show g.connected j = true from hj] at hoff
      cases hoff
    simp only [Control.crashed, Function.update_apply, if_neg hne]
    exact hg.started j hj
  linked := hg.linked

/-! ## Servers being started -/

/-- the new ends exist for the servers in `done`, and nothing else has changed since `g₀` -/
structure Starting (g₀ : Control n E) (i : Fin n) (names : Fin n → E) (done : List (Fin n))
    (g : Control n E) : Prop where
  rest : g = { g₀ with endnames := Function.update g₀.endnames i (some names), switch := g.switch }
  servers : g.switch.servers = g₀.switch.servers
  enabled : g.switch.enabled = g₀.switch.enabled
  old : ∀ e ∈ g₀.switch.ends, e ∈ g.switch.ends ∧ g.switch.connections e = g₀.switch.connections e
  new : ∀ j ∈ done, names j ∈ g.switch.ends ∧ names j ∉ g₀.switch.ends ∧ g.switch.connections (names j) = some j
  inj : ∀ j ∈ done, ∀ j' ∈ done, names j = names j' → j = j'

theorem Starting.ok {g₀ : Control n E} {names : Fin n → E} {done : List (Fin n)} (h₀ : g₀.Ok)
    (hs : Starting g₀ i names done g) : g.Ok := by
  obtain ⟨hrest, hserv, hen, hold, -, -⟩ := hs
  have hmade : g.made = g₀.made := by rw [hrest]
  have hsaved : g.saved = g₀.saved := by rw [hrest]
  refine ⟨?_, ?_, ?_, ?_, ?_⟩
  · rw [hserv, hsaved]; exact h₀.registered
  · simp only [endsOf, hen, hsaved, hmade]; exact h₀.enabled
  · rw [hsaved, hmade]; exact h₀.latest
  · rw [hmade]
    intro a ends hends j
    obtain ⟨h1, h2⟩ := h₀.known a ends hends j
    obtain ⟨h3, h4⟩ := hold _ h1
    exact ⟨h3, h4.trans h2⟩
  · simp only [endsOf, hmade]; exact h₀.distinct

/-- the instances when one more is made for server `i` -/
theorem endsOf_push {names : Fin n → E} {a : Fin n} {inc : ℕ} {ends : Fin n → E}
    (hmade : g'.made = Function.update g.made i (g.made i ++ [names])) :
    g'.endsOf a inc = some ends ↔ g.endsOf a inc = some ends ∨ (a = i ∧ inc = (g.made i).length ∧ names = ends) := by
  unfold endsOf
  rw [hmade, Function.update_apply]
  split_ifs with ha
  · subst ha
    rw [List.getElem?_append]
    split_ifs with hlt
    · exact ⟨.inl, fun h => h.resolve_right fun ⟨_, h, _⟩ => hlt.ne h⟩
    · rw [List.getElem?_eq_none (not_lt.1 hlt), List.getElem?_singleton]
      constructor
      · intro h
        split_ifs at h with h0
        exact .inr ⟨rfl, by omega, Option.some.inj h⟩
      · rintro (h | ⟨-, rfl, rfl⟩)
        · cases h
        · rw [Nat.sub_self, if_pos rfl]
  · exact ⟨.inl, fun h => h.resolve_right fun ⟨h, _⟩ => ha h⟩

/-- one more instance, over ends that nobody has used -/
theorem Ok.push (hg : g.Ok) (names : Fin n → E) (hsaved : ∀ inc, g.saved i ≠ some (.object inc))
    (hnew : ∀ j, names j ∈ g.switch.ends ∧ g.switch.connections (names j) = some j)
    (hfresh : ∀ a, ∀ ends ∈ g.made a, ∀ j j', ends j ≠ names j') (hinj : Function.Injective names) :
    ({ g with made := Function.update g.made i (g.made i ++ [names]) } : Control n E).Ok := by
  set g' : Control n E := { g with made := Function.update g.made i (g.made i ++ [names]) }
  have hpush : ∀ {a inc ends}, g'.endsOf a inc = some ends →
      g.endsOf a inc = some ends ∨ (a = i ∧ inc = (g.made i).length ∧ names = ends) :=
        fun {_ _ _} => (endsOf_push rfl).1
  refine { hg with enabled := ?_, latest := ?_, known := ?_, distinct := ?_ }
  · intro e he
    obtain ⟨a, j, inc, ends, hof, hrest⟩ := hg.enabled e he
    exact ⟨a, j, inc, ends, (endsOf_push rfl).2 (.inl hof), hrest⟩
  · intro a inc ha
    have hai : a ≠ i := by
      rintro rfl
      exact hsaved inc ha
    show (Function.update g.made i (g.made i ++ [names]) a).length = inc + 1
    rw [Function.update_of_ne hai]
    exact hg.latest a inc ha
  · intro a ends hends j
    obtain ⟨inc, hinc⟩ := List.getElem?_of_mem hends
    rcases hpush hinc with h | ⟨-, -, rfl⟩
    · exact hg.known a ends (List.mem_of_getElem? h) j
    · exact hnew j
  · intro a a' inc inc' ends ends' j j' h h' heq
    rcases hpush h with hold | ⟨ha, hinc, rfl⟩ <;> rcases hpush h' with hold' | ⟨ha', hinc', rfl⟩
    · exact hg.distinct _ _ _ _ _ _ _ _ hold hold' heq
    · exact absurd heq (hfresh _ _ (List.mem_of_getElem? hold) _ _)
    · exact absurd heq.symm (hfresh _ _ (List.mem_of_getElem? hold') _ _)
    · exact ⟨ha.trans ha'.symm, hinc.trans hinc'.symm, hinj heq⟩

section Started

variable {g₀ : Control n E} {names : Fin n → E} (h₀ : g₀.Idle) (hoff : g₀.connected i = false)
  (hdown : g₀.rafts i = none) (hs : Starting g₀ i names (List.finRange n) g)

include h₀ hoff hs in
/-- an end that is enabled while server `i` is started belongs to another server -/
theorem Starting.owner {e : E} (he : g.switch.enabled e = true) : ∃ a j inc ends, a ≠ i ∧
    g.endsOf a inc = some ends ∧ ends j = e ∧ g.saved a = some (.object inc) := by
  rw [hs.enabled] at he
  obtain ⟨a, b, inc, ends, ha, hof, hend, hsaved⟩ := h₀.owner he
  refine ⟨a, b, inc, ends, ?_, ?_, hend, ?_⟩
  · rintro rfl
    cases hoff.symm.trans ha
  · rw [hs.rest]; exact hof
  · rw [hs.rest]; exact hsaved

include h₀ hdown hs in
theorem Starting.unregistered : g.switch.servers i = none := by rw [hs.servers, h₀.servers, hdown]; rfl

/-- the instance is made -/
def startedOn (g : Control n E) (i : Fin n) (names : Fin n → E) : Control n E :=
  { g with
    saved := Function.update g.saved i (some (.object (g.made i).length))
    made := Function.update g.made i (g.made i ++ [names]) }

include h₀ hoff hdown hs in
theorem Starting.made : (g.startedOn i names).Ok := by
  have hload : ({ g with saved := Function.update g.saved i (some .copy) } : Control n E).Ok :=
    (hs.ok h₀.toOk).resave (hs.unregistered h₀ hdown) (fun e he => hs.owner h₀ hoff he) nofun
  have hpush := hload.push (i := i) names (by simp) (fun j => ?_) ?_ ?_
  · have hown : ∀ e, g.switch.enabled e = true → ∃ a j inc ends, a ≠ i ∧
        endsOf { g with
          saved := Function.update g.saved i (some .copy)
          made := Function.update g.made i (g.made i ++ [names]) } a inc = some ends ∧ ends j = e ∧
        Function.update g.saved i (some .copy) a = some (.object inc) := by
      intro e he
      obtain ⟨a, j, inc, ends, ha, hof, hend, hsaved⟩ := hs.owner h₀ hoff he
      exact ⟨a, j, inc, ends, ha, (endsOf_push (g := g) rfl).2 (.inl hof), hend,
        (Function.update_of_ne ha _ _).trans hsaved⟩
    have hnone := hs.unregistered h₀ hdown
    have hfinal := hpush.resave (i := i) (x := some (.object (g.made i).length)) hnone hown (by simp)
    simpa only [Function.update_idem, startedOn] using hfinal
  · obtain ⟨h1, -, h3⟩ := hs.new j (List.mem_finRange j)
    exact ⟨h1, h3⟩
  · intro a ends hends j j' heq
    rw [show g.made = g₀.made by rw [hs.rest]] at hends
    exact (hs.new j' (List.mem_finRange j')).2.1 (heq ▸ (h₀.known a ends hends j).1)
  · exact fun j j' heq => hs.inj j (List.mem_finRange j) j' (List.mem_finRange j') heq

/-- server `i` is started -/
def started (g : Control n E) (i : Fin n) (names : Fin n → E) : Control n E :=
  { g.startedOn i names with
    rafts := Function.update g.rafts i (some (g.made i).length)
    switch := { g.switch with servers := Function.update g.switch.servers i (some (i, (g.made i).length)) } }

include h₀ hoff hdown hs in
theorem Starting.idle : (g.started i names).Idle := by
  have hok := hs.made h₀ hoff hdown
  have hrafts : g.rafts = g₀.rafts := by rw [hs.rest]
  have hsaved : g.saved = g₀.saved := by rw [hs.rest]
  have hends : g.endnames = Function.update g₀.endnames i (some names) := by rw [hs.rest]
  have hconn : g.connected = g₀.connected := by rw [hs.rest]
  have hmade : g.made = g₀.made := by rw [hs.rest]
  have hcon : ∀ a, g₀.connected a = true → a ≠ i := by
    rintro a ha rfl
    cases hoff.symm.trans ha
  refine { hok with
    registered := ?_, saved := ?_, servers := ?_, made := ?_, running := ?_, started := ?_, linked := ?_ }
  · intro j p hp
    simp only [Control.started, Function.update_apply] at hp
    split_ifs at hp with hj
    · cases hp
      exact ⟨hj.symm, by simp [Control.started, startedOn, hj]⟩
    · exact hok.registered j p hp
  · intro j inc
    simp only [Control.started, startedOn, Function.update_apply]
    split_ifs
    · simp
    · rw [hrafts, hsaved]
      exact h₀.saved j inc
  · intro j
    simp only [Control.started, startedOn, Function.update_apply]
    split_ifs with hj
    · rw [hj]; rfl
    · rw [hs.servers, hrafts]
      exact h₀.servers j
  · intro j ends hj
    simp only [Control.started, startedOn, hends, hmade, Function.update_apply] at hj ⊢
    split_ifs at hj ⊢ with hji
    · cases hj
      exact List.mem_append_right _ (List.mem_singleton_self _)
    · exact h₀.made j ends hj
  · intro j inc hj
    simp only [Control.started, startedOn, Function.update_apply] at hj
    split_ifs at hj with hji
    · cases hj
      subst hji
      exact ⟨names, by simp [Control.started, startedOn, hends], (endsOf_push (g := g) rfl).2 (.inr ⟨rfl, rfl, rfl⟩)⟩
    · rw [hrafts] at hj
      obtain ⟨ends, h1, h2⟩ := h₀.running j inc hj
      refine ⟨ends, ?_, (endsOf_push (g := g) rfl).2 (.inl ?_)⟩
      · simpa [Control.started, startedOn, hends, hji] using h1
      · rwa [endsOf, hmade]
  · intro j hj
    rw [show (g.started i names).connected = g₀.connected from hconn] at hj
    simp only [Control.started, Function.update_apply, if_neg (hcon j hj), hrafts]
    exact h₀.started j hj
  · intro e
    show g.switch.enabled e = true ↔ ∃ a b ends, g.connected a = true ∧ g.connected b = true ∧
      g.endnames a = some ends ∧ ends b = e
    rw [hs.enabled, h₀.linked, hconn, hends]
    refine exists_congr fun a => exists_congr fun b => exists_congr fun ends => and_congr_right fun ha => ?_
    rw [Function.update_of_ne (hcon a ha)]

end Started

/-! ## Enabling and disabling ends -/

variable [DecidableEq E]

/-- the network when these ends are enabled, or disabled -/
def setEnabled (g : Control n E) (es : List E) (yes : Bool) : Control n E :=
  { g with switch := { g.switch with enabled := fun e => if e ∈ es then yes else g.switch.enabled e } }

theorem setEnabled_nil (g : Control n E) (yes : Bool) : g.setEnabled [] yes = g := by simp [setEnabled]

theorem apply_setEnabled (g : Control n E) (es : List E) (e : E) (yes : Bool) :
    (g.setEnabled es yes).apply (.admin (.enable e yes)) = some (g.setEnabled (es ++ [e]) yes) := by
  have hen : Function.update (fun x => if x ∈ es then yes else g.switch.enabled x) e yes =
      fun x => if x ∈ es ++ [e] then yes else g.switch.enabled x := by
    funext x
    by_cases hx : x = e <;> simp [hx]
  simp only [apply, setEnabled, Labrpc.Switch.apply, Option.map_some, hen]

/-- a loop that enables or disables ends -/
theorem keeps_enableAll {I Q : Control n E → Prop} {es : List E} {yes : Bool}
    (hI : ∀ done, (∀ e ∈ done, e ∈ es) → I (g.setEnabled done yes)) (hQ : Q (g.setEnabled es yes)) :
    Keeps apply I Q (enableAll es yes) g := by
  have hall : ∀ (rest done : List E), (∀ e ∈ done, e ∈ es) → (∀ e ∈ rest, e ∈ es) → done ++ rest = es →
      Keeps apply I Q (enableAll rest yes) (g.setEnabled done yes) := by
    intro rest
    induction rest with
    | nil =>
      rintro done hdone - rfl
      rw [List.append_nil] at hQ hI
      exact ⟨hI done fun e he => he, hQ⟩
    | cons e rest ih =>
      intro done hdone hrest heq
      refine Keeps.cons (hI done hdone) fun g' hg' => ?_
      rw [apply_setEnabled, Option.some.injEq] at hg'
      subst hg'
      refine ih (done ++ [e]) ?_ (fun x hx => hrest x (List.mem_cons_of_mem _ hx)) (by simpa using heq)
      intro x hx
      rcases List.mem_append.1 hx with hx | hx
      · exact hdone x hx
      · rw [List.mem_singleton.1 hx]
        exact hrest e List.mem_cons_self
  have := hall es [] nofun (fun e he => he) rfl
  rwa [setEnabled_nil] at this

/-- disabling ends does no harm -/
theorem Ok.disable (hg : g.Ok) (es : List E) : (g.setEnabled es false).Ok :=
  { hg with
    enabled := by
      intro e he
      simp only [setEnabled] at he
      split_ifs at he
      exact hg.enabled e he }

/-- ends of running instances may be enabled -/
theorem Ok.enable (hg : g.Ok) {es : List E}
    (hes : ∀ e ∈ es, ∃ i j inc ends, g.endsOf i inc = some ends ∧ ends j = e ∧ g.saved i = some (.object inc)) :
    (g.setEnabled es true).Ok :=
  { hg with
    enabled := by
      intro e he
      simp only [setEnabled] at he
      split_ifs at he with hmem
      · exact hes e hmem
      · exact hg.enabled e he }

/-! ## The commands -/

/-- server `i` is off the network -/
def disconnected (g : Control n E) (i : Fin n) : Control n E :=
  ({ g with connected := Function.update g.connected i false }).setEnabled (g.links i (List.finRange n)) false

theorem Idle.disconnected (hg : g.Idle) (i : Fin n) : (g.disconnected i).Idle := by
  have hok : ({ g with connected := Function.update g.connected i false } : Control n E).Ok := { hg with }
  refine { hok.disable _ with
    saved := hg.saved, servers := hg.servers, made := hg.made, running := hg.running, started := ?_, linked := ?_ }
  · intro j hj
    simp only [Control.disconnected, setEnabled, Function.update_apply] at hj
    split_ifs at hj
    exact hg.started j hj
  · intro e
    simp only [Control.disconnected, setEnabled, Function.update_apply]
    constructor
    · intro he
      split_ifs at he with hmem
      obtain ⟨a, b, ends, ha, hb, hends, rfl⟩ := (hg.linked e).1 he
      have hai : a ≠ i := by
        rintro rfl
        exact hmem (mem_links.2 ⟨b, List.mem_finRange b, ends, .inl ⟨hends, rfl⟩⟩)
      have hbi : b ≠ i := by
        rintro rfl
        exact hmem (mem_links.2 ⟨a, List.mem_finRange a, ends, .inr ⟨hends, rfl⟩⟩)
      exact ⟨a, b, ends, by rwa [if_neg hai], by rwa [if_neg hbi], hends, rfl⟩
    · rintro ⟨a, b, ends, ha, hb, hends, rfl⟩
      split_ifs at ha hb with hai hbi
      rw [if_neg]
      · exact (hg.linked _).2 ⟨a, b, ends, ha, hb, hends, rfl⟩
      · intro hmem
        obtain ⟨j, -, ends', ⟨h', heq⟩ | ⟨h', heq⟩⟩ := mem_links.1 hmem
        · exact hai (hg.link_unique hends h' heq.symm).1
        · exact hbi (hg.link_unique hends h' heq.symm).2

/-- `disconnect` runs its operations in turn -/
theorem keeps_disconnect {Q : Control n E → Prop} (hg : g.Idle) (hQ : Q (g.disconnected i)) :
    Keeps apply Ok Q (g.disconnect i) g := by
  have hok : ({ g with connected := Function.update g.connected i false } : Control n E).Ok := { hg with }
  refine Keeps.cons hg.toOk fun g' hg' => ?_
  cases hg'
  exact keeps_enableAll (fun done _ => hok.disable done) hQ

theorem apply_refresh (g : Control n E) (i : Fin n) :
    g.apply (.refresh i) = some { g with saved := g.refreshed i } := by
  cases h : g.saved i with
  | none =>
    have hsame : g.refreshed i = g.saved := by
      refine Function.update_eq_self_iff.2 ?_
      rw [h, Option.map_none]
    rw [hsame]
    simp [apply, h]
  | some r => simp [apply, refreshed, h]

theorem keeps_crash1 {Q : Control n E → Prop} (hg : g.Idle)
    (hQ : ∀ g', g'.Idle → g'.connected i = false → g'.rafts i = none → Q g') : Keeps apply Ok Q (g.crash1 i) g := by
  refine Keeps.append (R := fun g' => g'.Idle ∧ g'.connected i = false) (keeps_disconnect hg ⟨hg.disconnected i, ?_⟩) ?_
  · simp [Control.disconnected, setEnabled]
  · rintro g₁ - ⟨hg₁, hoff⟩
    refine Keeps.cons hg₁.toOk fun g' hg' => ?_
    cases hg'
    refine Keeps.cons (hg₁.delete i) fun g' hg' => ?_
    rw [apply_refresh] at hg'
    cases hg'
    refine Keeps.cons (hg₁.buried hoff) fun g' hg' => ?_
    cases hg'
    have hidle := hg₁.crashed hoff
    refine Keeps.single hidle.toOk fun g' hg' => ?_
    rw [apply_refresh] at hg'
    cases hg'
    -- the second copy has the content of the first, and changes nothing else
    have hsame : (g₁.crashed i).refreshed i = (g₁.crashed i).saved := by
      refine Function.update_eq_self_iff.2 ?_
      simp only [Control.crashed, Control.buried, refreshed, Function.update_self]
      cases g₁.saved i <;> rfl
    have heq : ({ g₁.crashed i with saved := (g₁.crashed i).refreshed i } : Control n E) = g₁.crashed i := by rw [hsame]
    show Ok { g₁.crashed i with saved := (g₁.crashed i).refreshed i } ∧
      Q { g₁.crashed i with saved := (g₁.crashed i).refreshed i }
    rw [heq]
    exact ⟨hidle.toOk, hQ _ hidle hoff (by simp [Control.crashed])⟩

theorem keeps_makeEnd {g₀ : Control n E} {names : Fin n → E} {done : List (Fin n)} (h₀ : g₀.Ok)
    (hs : Starting g₀ i names done g) :
    Keeps apply Ok (Starting g₀ i names (done ++ [j]))
      [.admin (.makeEnd (names j)), .admin (.connect (names j) j)] g := by
  refine Keeps.cons (hs.ok h₀) fun g' hg' => ?_
  simp only [apply, Labrpc.Switch.apply, Option.map_eq_some_iff] at hg'
  obtain ⟨rn, hrn, rfl⟩ := hg'
  split_ifs at hrn with hnew
  cases hrn
  have hfresh : names j ∉ g₀.switch.ends := fun h => hnew (hs.old _ h).1
  have hdone : ∀ a ∈ done, names a ≠ names j := fun a ha heq => hnew (heq ▸ (hs.new a ha).1)
  -- a name that no end has is not enabled
  have hoff : Function.update g.switch.enabled (names j) false = g₀.switch.enabled := by
    rw [hs.enabled, Function.update_eq_self_iff]
    by_contra hon
    obtain ⟨a, b, inc, ends, hof, heq, -⟩ := h₀.enabled (names j) (by simpa using Ne.symm hon)
    exact hfresh (heq ▸ (h₀.known a ends (List.mem_of_getElem? hof) b).1)
  have hold : ∀ e ∈ g₀.switch.ends, e ∈ g.switch.ends ++ [names j] ∧ e ≠ names j := fun e he =>
    ⟨List.mem_append_left _ (hs.old e he).1, fun heq => hfresh (heq ▸ he)⟩
  have hmid : Starting g₀ i names done
      { g with switch :=
        { g.switch with
          ends := g.switch.ends ++ [names j]
          enabled := Function.update g.switch.enabled (names j) false
          connections := Function.update g.switch.connections (names j) none } } := by
    refine ⟨?_, hs.servers, hoff, ?_, ?_, hs.inj⟩
    · conv_lhs => rw [hs.rest]
    · intro e he
      exact ⟨(hold e he).1, (Function.update_of_ne (hold e he).2 _ _).trans (hs.old e he).2⟩
    · intro a ha
      obtain ⟨h1, h2, h3⟩ := hs.new a ha
      exact ⟨List.mem_append_left _ h1, h2, (Function.update_of_ne (hdone a ha) _ _).trans h3⟩
  refine Keeps.single (hmid.ok h₀) fun g' hg' => ?_
  cases hg'
  have hend : Starting g₀ i names (done ++ [j])
      { g with switch :=
        { g.switch with
          ends := g.switch.ends ++ [names j]
          enabled := Function.update g.switch.enabled (names j) false
          connections :=
            Function.update (Function.update g.switch.connections (names j) none) (names j) (some j) } } := by
    refine ⟨?_, hs.servers, hoff, ?_, ?_, ?_⟩
    · conv_lhs => rw [hs.rest]
    · intro e he
      exact ⟨(hold e he).1, (Function.update_of_ne (hold e he).2 _ _).trans (hmid.old e he).2⟩
    · intro a ha
      rcases List.mem_append.1 ha with ha | ha
      · obtain ⟨h1, h2, h3⟩ := hmid.new a ha
        exact ⟨h1, h2, (Function.update_of_ne (hdone a ha) _ _).trans h3⟩
      · obtain rfl := List.mem_singleton.1 ha
        exact ⟨List.mem_append_right _ (List.mem_singleton_self _), hfresh, Function.update_self _ _ _⟩
    · intro a ha b hb heq
      rcases List.mem_append.1 ha with ha | ha <;> rcases List.mem_append.1 hb with hb | hb
      · exact hs.inj a ha b hb heq
      · rw [List.mem_singleton.1 hb] at heq
        exact absurd heq (hdone a ha)
      · rw [List.mem_singleton.1 ha] at heq
        exact absurd heq.symm (hdone b hb)
      · rw [List.mem_singleton.1 ha, List.mem_singleton.1 hb]
  exact ⟨hend.ok h₀, hend⟩

theorem keeps_start1 (hg : g.Idle) (names : Fin n → E) : Keeps apply Ok Idle (g.start1 i names) g := by
  refine Keeps.append (keeps_crash1 hg fun g' h1 h2 h3 => (⟨h1, h2, h3⟩ : g'.Idle ∧ g'.connected i = false ∧
    g'.rafts i = none)) ?_
  rintro g₀ - ⟨h₀, hoff, hdown⟩
  refine Keeps.cons h₀.toOk fun g₁ hg₁ => ?_
  cases hg₁
  have hbegin : Starting g₀ i names [] { g₀ with endnames := Function.update g₀.endnames i (some names) } :=
    ⟨rfl, rfl, rfl, fun e he => ⟨he, rfl⟩, nofun, nofun⟩
  refine Keeps.append (Keeps.loop (fun _ _ _ _ hs => keeps_makeEnd h₀.toOk hs) (hbegin.ok h₀.toOk) hbegin) ?_
  intro g₂ hok₂ hs
  have hends : g₂.endnames i = some names := by rw [hs.rest]; exact Function.update_self _ _ _
  have hload : ({ g₂ with saved := Function.update g₂.saved i (some .copy) } : Control n E).Ok :=
    hok₂.resave (hs.unregistered h₀ hdown) (fun e he => hs.owner h₀ hoff he) nofun
  have hmade := hs.made h₀ hoff hdown
  have hidle := hs.idle h₀ hoff hdown
  refine Keeps.cons hok₂ fun g₃ hg₃ => ?_
  cases hg₃
  refine Keeps.cons hload fun g₄ hg₄ => ?_
  simp only [apply, hends, Option.some.injEq, Function.update_idem] at hg₄
  subst hg₄
  refine Keeps.cons hmade fun g₅ hg₅ => ?_
  simp only [apply, Option.some.injEq] at hg₅
  subst hg₅
  refine Keeps.single { hmade with } fun g₆ hg₆ => ?_
  simp only [apply, Labrpc.Switch.apply, Option.map_some, Option.some.injEq] at hg₆
  have heq : g₆ = g₂.started i names := by
    rw [← hg₆]
    simp [started, startedOn, latest]
  rw [heq]
  exact ⟨hidle.toOk, hidle⟩

omit [DecidableEq E] in
theorem mem_joined : j ∈ g.joined i ↔ j = i ∨ g.connected j = true := by simp [joined]

/-- server `i` is on the network -/
def attached (g : Control n E) (i : Fin n) : Control n E :=
  ({ g with connected := Function.update g.connected i true }).setEnabled (g.links i (g.joined i)) true

omit [DecidableEq E] in
/-- the ends between a running server and those that are connected -/
theorem Idle.joined_running (hg : g.Idle) (hi : (g.rafts i).isSome) (hj : j ∈ g.joined i) : (g.rafts j).isSome := by
  rcases mem_joined.1 hj with rfl | hj
  · exact hi
  · exact hg.started j hj

omit [DecidableEq E] in
theorem Idle.links_owner (hg : g.Idle) (hi : (g.rafts i).isSome) {e : E} (he : e ∈ g.links i (g.joined i)) :
    ∃ a b inc ends, g.endsOf a inc = some ends ∧ ends b = e ∧ g.saved a = some (.object inc) := by
  have key : ∀ a b ends, (g.rafts a).isSome → g.endnames a = some ends → ends b = e →
      ∃ a b inc ends, g.endsOf a inc = some ends ∧ ends b = e ∧ g.saved a = some (.object inc) := by
    intro a b ends ha hends hb
    obtain ⟨inc, hinc⟩ := Option.isSome_iff_exists.1 ha
    obtain ⟨ends', h1, h2⟩ := hg.running a inc hinc
    cases hends.symm.trans h1
    exact ⟨a, b, inc, ends, h2, hb, (hg.saved a inc).1 hinc⟩
  obtain ⟨j, hj, ends, ⟨hends, he⟩ | ⟨hends, he⟩⟩ := mem_links.1 he
  · exact key i j ends hi hends he
  · exact key j i ends (hg.joined_running hi hj) hends he

theorem Idle.attached (hg : g.Idle) (hi : (g.rafts i).isSome) : (g.attached i).Idle := by
  have hok : ({ g with connected := Function.update g.connected i true } : Control n E).Ok := { hg with }
  refine { hok.enable fun e he => hg.links_owner hi he with
    saved := hg.saved, servers := hg.servers, made := hg.made, running := hg.running, started := ?_, linked := ?_ }
  · intro j hj
    simp only [Control.attached, setEnabled, Function.update_apply] at hj
    split_ifs at hj with hji
    · rw [hji]; exact hi
    · exact hg.started j hj
  · intro e
    simp only [Control.attached, setEnabled, Function.update_apply]
    have hjoin : ∀ a, (if a = i then true else g.connected a) = true ↔ a ∈ g.joined i := by
      intro a
      rw [mem_joined]
      split_ifs with hai <;> simp [hai]
    constructor
    · intro he
      split_ifs at he with hmem
      · obtain ⟨j, hj, ends, ⟨hends, he⟩ | ⟨hends, he⟩⟩ := mem_links.1 hmem
        · exact ⟨i, j, ends, by simp, (hjoin j).2 hj, hends, he⟩
        · exact ⟨j, i, ends, (hjoin j).2 hj, by simp, hends, he⟩
      · obtain ⟨a, b, ends, ha, hb, hends, he⟩ := (hg.linked e).1 he
        exact ⟨a, b, ends, (hjoin a).2 (mem_joined.2 (.inr ha)), (hjoin b).2 (mem_joined.2 (.inr hb)), hends, he⟩
    · rintro ⟨a, b, ends, ha, hb, hends, rfl⟩
      rw [ite_eq_left_iff]
      intro hno
      have hai : a ≠ i := by
        rintro rfl
        exact hno (mem_links.2 ⟨b, (hjoin b).1 hb, ends, .inl ⟨hends, rfl⟩⟩)
      have hbi : b ≠ i := by
        rintro rfl
        exact hno (mem_links.2 ⟨a, (hjoin a).1 ha, ends, .inr ⟨hends, rfl⟩⟩)
      rw [if_neg hai] at ha
      rw [if_neg hbi] at hb
      exact (hg.linked _).2 ⟨a, b, ends, ha, hb, hends, rfl⟩

theorem keeps_connect (hg : g.Idle) (hi : (g.rafts i).isSome) {ops : List (Op n E)} (hops : g.connect i = some ops) :
    Keeps apply Ok Idle ops g := by
  simp only [connect] at hops
  split_ifs at hops
  cases hops
  have hok : ({ g with connected := Function.update g.connected i true } : Control n E).Ok := { hg with }
  refine Keeps.cons hg.toOk fun g' hg' => ?_
  cases hg'
  refine keeps_enableAll (fun done hdone => hok.enable fun e he => ?_) (hg.attached hi)
  exact hg.links_owner hi (hdone e he)

/-- every command keeps the network in order, at each of its operations and when it is done -/
theorem keeps_ops (hg : g.Idle) {cmd : Command n E} (hcmd : ∀ i, cmd = .connect i → (g.rafts i).isSome)
    {ops : List (Op n E)} (hops : g.ops cmd = some ops) : Keeps apply Ok Idle ops g := by
  cases cmd with
  | crash1 i =>
    cases hops
    exact keeps_crash1 hg fun g' h _ _ => h
  | start1 i names =>
    cases hops
    exact keeps_start1 hg names
  | connect i => exact keeps_connect hg (hcmd i rfl) hops
  | disconnect i =>
    cases hops
    exact keeps_disconnect hg (hg.disconnected i)
  | setunreliable unrel =>
    cases hops
    refine Keeps.single hg.toOk fun g' hg' => ?_
    cases hg'
    have hidle : ({ g with switch := { g.switch with reliable := !unrel } } : Control n E).Idle := { hg with }
    exact ⟨hidle.toOk, hidle⟩

end CS240.Raft.Control
