/-
The tested system refines the cluster.

Every run of harness, labrpc and Raft instances (`Config`) has a run of the abstract cluster (`Cluster`) by its side,
with the same events of the instances that had not been crashed when they happened. So what is proved of clusters holds
of what the tests run.

A node of the cluster is the live instance of its server or, while the server is down, the instance as it was when its
Persister was copied. A call is a message in flight as long as it matters:
- a request, until its handler has run in a live instance, or its caller has returned and its handler will not run;
- the reply, from then on until the caller returns.
What happens in a crashed instance has no counterpart: the ends of such an instance are disabled, so it can send nothing
new, and a reply it gives comes from a server that is no longer registered, so it is never delivered. When a call
returns false, its message is lost, or abandoned if the handler may still run; when the harness makes a new instance,
the node restarts. `Simulates` is this relation; messages in flight that no call needs any more may be left over.
-/
import CS240.Lib.Slots
import CS240.Raft.Tested
import CS240.Raft.Safety

namespace CS240.Raft.Config

open Lib

variable {n : ℕ} {Cmd E : Type} {c c' : Config n Cmd E} {s : Cluster n Cmd} {i : Fin n} {inc k : ℕ}
  {call call' : RaftCall n Cmd E} {m : Option (Message n Cmd)}

/-! ## The relation -/

/-- `sv` is server `i`, running or down -/
structure NodeRel (c : Config n Cmd E) (i : Fin n) (sv : Server n Cmd) : Prop where
  me : sv.rf.me = i
  persister : sv.rf.persister = c.persisted i
  live : ∀ inc, c.live i inc = true → c.instance? i inc = some sv
  count : (c.instances i = [] ∧ sv = Server.boot i [] 0) ∨ sv.incarnation + 1 = (c.instances i).length

/-- the handler of the call is still to run -/
def MayRun (call : RaftCall n Cmd E) : Prop :=
  call.handler = .spawned ∨ call.handler = .dispatched ∨ call.stage = .admitted

/-- what the message of a call that is waited for carries: the request, although a crashed instance may have answered
it, or the reply -/
def Holds (c : Config n Cmd E) (call : RaftCall n Cmd E) (body : Body n Cmd) : Prop :=
  (body = call.args.body ∧ ∀ reply, call.handler = .executed reply ∨ call.handler = .handed reply →
    (∀ r, call.route = some r → c.live r.server.1 r.server.2 = false) ∧ ∀ x, call.stage ≠ .answering (some x)) ∨
  call.handler = .executed body ∨ call.handler = .handed body

/-- the message in flight for a call -/
structure CallRel (c : Config n Cmd E) (call : RaftCall n Cmd E) (m : Option (Message n Cmd)) : Prop where
  waiting : ∀ inc, call.args.incarnation = some inc → c.live call.args.client inc = true →
    (∀ r, call.stage ≠ .returned r) → ∃ body, m = some { call.args with body := body } ∧ Holds c call body
  pending : MayRun call → ∃ o, m = some { call.args with incarnation := o }

structure Simulates (c : Config n Cmd E) (s : Cluster n Cmd) : Prop where
  node : ∀ i, NodeRel c i (s.node i)
  net : ∃ ms, Within ms s.net ∧ List.Forall₂ (CallRel c) c.calls ms

/-- the events of live instances -/
def liveEvents (h : List (Event n Cmd)) : List (Raft.Event (Fin n) Cmd) :=
  h.filterMap fun
    | .raft true ev => some ev
    | _ => none

theorem liveEvents_append (h evs : List (Event n Cmd)) : liveEvents (h ++ evs) = liveEvents h ++ liveEvents evs :=
  List.filterMap_append

theorem liveEvents_raft (live : Bool) (evs : List (Raft.Event (Fin n) Cmd)) :
    liveEvents (evs.map (.raft live)) = if live then evs else [] := by
  cases live <;> simp [liveEvents, List.filterMap_map]

theorem liveEvents_rpc (live : Bool) (ev : Labrpc.Event (Fin n × ℕ) (Body n Cmd)) :
    liveEvents ([.rpc live ev] : List (Event n Cmd)) = [] := rfl

/-! ## What does not concern a call or a node -/

/-- a call keeps its message when no instance it knows becomes live -/
theorem CallRel.mono (hrel : CallRel c call m) (hcall : CallOk c call)
    (hlive : ∀ i inc, inc < (c.instances i).length → c'.live i inc = true → c.live i inc = true)
    (hmade : ∀ i inc ends, c.ctl.endsOf i inc = some ends → inc < (c.instances i).length) : CallRel c' call m := by
  refine ⟨fun inc hinc hl hst => ?_, hrel.pending⟩
  obtain ⟨inc', ends, hinc', hof, -⟩ := hcall.caller
  cases hinc.symm.trans hinc'
  obtain ⟨body, hm, hholds⟩ := hrel.waiting inc hinc (hlive _ _ (hmade _ _ _ hof) hl) hst
  refine ⟨body, hm, hholds.imp_left fun ⟨hb, hdead⟩ => ⟨hb, fun reply hh => ?_⟩⟩
  obtain ⟨hd, hx⟩ := hdead reply hh
  refine ⟨fun r hr => ?_, hx⟩
  by_contra hl'
  have := hlive _ _ (hcall.routed r hr).2.2 (Bool.eq_true_of_not_eq_false hl')
  rw [hd r hr] at this
  cases this

/-- only the Persisters count -/
theorem CallRel.congr (hrel : CallRel c call m) (hsaved : c'.ctl.saved = c.ctl.saved) : CallRel c' call m := by
  have hlive : ∀ i inc, c'.live i inc = c.live i inc := fun i inc => by rw [live, live, hsaved]
  refine ⟨fun inc hinc hl hst => ?_, hrel.pending⟩
  obtain ⟨body, hm, hholds⟩ := hrel.waiting inc hinc (hlive _ _ ▸ hl) hst
  refine ⟨body, hm, hholds.imp_left fun hpending => ⟨hpending.1, fun reply hh => ?_⟩⟩
  obtain ⟨hd, hx⟩ := hpending.2 reply hh
  exact ⟨fun r hr => (hlive _ _).trans (hd r hr), hx⟩

/-- a new call, and the request it is for -/
theorem CallRel.new (e : E) (meth : String) (x : Message n Cmd) : CallRel c (.new e meth x) (some x) := by
  refine ⟨fun inc _ _ _ => ⟨x.body, rfl, .inl ⟨rfl, fun reply hh => ?_⟩⟩, fun hmay => ?_⟩
  · rcases hh with hh | hh <;> cases hh
  · rcases hmay with hmay | hmay | hmay <;> cases hmay

/-- a new call of an instance that is not live -/
theorem CallRel.dead {e : E} {meth : String} {x : Message n Cmd} (hx : x.incarnation = some inc)
    (hdead : c.live x.client inc = false) : CallRel c (.new e meth x) none := by
  refine ⟨fun inc' hinc hl _ => ?_, fun hmay => ?_⟩
  · cases hx.symm.trans hinc
    cases hdead.symm.trans hl
  · rcases hmay with hmay | hmay | hmay <;> cases hmay

/-- a call that has returned -/
theorem CallRel.returned {answer : Option (Body n Cmd)}
    (hpending : call.handler = .spawned ∨ call.handler = .dispatched →
      ∃ o, m = some { call.args with incarnation := o }) :
    CallRel c { call with stage := .returned answer } m := by
  refine ⟨fun inc _ _ hst => absurd rfl (hst answer), fun hmay => hpending ?_⟩
  rcases hmay with hmay | hmay | hmay
  · exact .inl hmay
  · exact .inr hmay
  · cases hmay

/-- a section of another instance, or of one that is not live, does not concern a node -/
theorem NodeRel.put {sv sv₀ sv' : Server n Cmd} {a : Fin n} {calls : List (RaftCall n Cmd E)} (hn : NodeRel c a sv)
    (hsv₀ : c.instance? i inc = some sv₀) (ha : a ≠ i ∨ c.live i inc = false) :
    NodeRel { c.put i inc sv' with calls := calls } a sv where
  me := hn.me
  persister := hn.persister.trans (persisted_put hsv₀ ha).symm
  live := by
    intro b hb
    have hlive : c.live a b = true := hb
    show (c.put i inc sv').instance? a b = some sv
    rw [instance?_put hsv₀, if_neg]
    · exact hn.live b hlive
    · rintro ⟨rfl, rfl⟩
      rcases ha with ha | ha
      · exact ha rfl
      · cases ha.symm.trans hlive
  count := by
    have hlen : ((c.put i inc sv').instances a).length = (c.instances a).length := length_put sv' a
    refine hn.count.imp (fun h => ⟨?_, h.2⟩) fun h => h.trans hlen.symm
    rw [h.1] at hlen
    exact List.length_eq_zero_iff.1 hlen

/-- a section of the live instance is one of the node -/
theorem NodeRel.live_put {sv sv' : Server n Cmd} {calls : List (RaftCall n Cmd E)} (hlive : c.live i inc = true)
    (hsv : c.instance? i inc = some sv) (hsv' : Named i inc sv') (hlen : (c.instances i).length = inc + 1) :
    NodeRel { c.put i inc sv' with calls := calls } i sv' := by
  have hself : (c.put i inc sv').instance? i inc = some sv' := by rw [instance?_put hsv, if_pos ⟨rfl, rfl⟩]
  have hcount : ((c.put i inc sv').instances i).length = (c.instances i).length := length_put sv' i
  refine ⟨hsv'.me, (persisted_live (c := c.put i inc sv') hlive hself).symm, fun b hb => ?_, .inr ?_⟩
  · have hlive' : c.live i b = true := hb
    rw [live_iff] at hlive hlive'
    cases hlive.symm.trans hlive'
    exact hself
  · rw [hsv'.incarnation]
    exact (hcount.trans hlen).symm

/-- a section of the live instance of server `i` changes that node -/
theorem nodes_live_put {sv sv' : Server n Cmd} (calls : List (RaftCall n Cmd E)) (hn : ∀ a, NodeRel c a (s.node a))
    (hlive : c.live i inc = true) (hsv : c.instance? i inc = some sv) (hsv' : Named i inc sv')
    (hlen : (c.instances i).length = inc + 1) (a : Fin n) :
    NodeRel { c.put i inc sv' with calls := calls } a (Function.update s.node i sv' a) := by
  by_cases ha : a = i
  · subst ha
    rw [Function.update_self]
    exact .live_put hlive hsv hsv' hlen
  · rw [Function.update_of_ne ha]
    exact (hn a).put hsv (.inl ha)

section Steps

variable [DecidableEq E] {bad : Message n Cmd → Raft n Cmd → Prop} {g : List (Raft.Event (Fin n) Cmd)}
  {evs : List (Event n Cmd)}

theorem Ok.latest (hc : c.Ok) (hlive : c.live i inc = true) : (c.instances i).length = inc + 1 :=
  (hc.made i).trans (hc.control.inv.latest i inc (live_iff.1 hlive))

theorem Ok.inc_lt (hc : c.Ok) {ends : Fin n → E} (hof : c.ctl.endsOf i inc = some ends) :
    inc < (c.instances i).length := by
  rw [hc.made]
  exact (List.getElem?_eq_some_iff.1 hof).1

/-- the cluster answers a step with a path that leaves the events of live instances -/
def Matched (bad : Message n Cmd → Raft n Cmd → Prop) (s : Cluster n Cmd) (g : List (Raft.Event (Fin n) Cmd))
    (c' : Config n Cmd E) (evs : List (Event n Cmd)) : Prop :=
  ∃ s', (Raft.machine n Cmd).Path (Raft.Avoids bad) s g s' (g ++ liveEvents evs) ∧ Simulates c' s'

omit [DecidableEq E] in
/-- nothing happens in the cluster -/
theorem Matched.stutter (hsim : Simulates c' s) (hevs : liveEvents evs = []) : Matched bad s g c' evs :=
  ⟨s, by rw [hevs, List.append_nil]; exact .refl, hsim⟩

omit [DecidableEq E] in
theorem Matched.one (a : Raft.Action n Cmd) (s' : Cluster n Cmd) (gs : List (Raft.Event (Fin n) Cmd))
    (hs : s.step a = some (s', gs)) (ha : Raft.Avoids bad s a) (hgs : gs = liveEvents evs) (hsim : Simulates c' s') :
    Matched bad s g c' evs := ⟨s', by rw [← hgs]; exact .step .refl ha hs, hsim⟩

/-! ## Operations of the harness -/

/-- an operation makes no existing instance live -/
theorem Operated.live {op : Op n E} (hc : c.Ok) (ho : Operated c op c') (hlt : inc < (c.instances i).length)
    (hlive : c'.live i inc = true) : c.live i inc = true := by
  rw [live_iff] at hlive ⊢
  rcases ho.instances with ⟨-, -, hsaved⟩ | ⟨j, ends, -, -, -, hsaved⟩
  · exact hsaved i inc hlive
  · rw [hsaved, Function.update_apply] at hlive
    split_ifs at hlive with hij
    · cases hlive
      subst hij
      exact absurd (hc.made i) hlt.ne'
    · exact hlive

/-- the calls are as they were -/
theorem Operated.calls_rel {op : Op n E} {ops : List (Op n E)} (hc : c.Ok) (ho : Operated c op c')
    {ms : List (Option (Message n Cmd))} (hrel : List.Forall₂ (CallRel c) c.calls ms) :
    List.Forall₂ (CallRel ({ c' with todo := ops } : Config n Cmd E)) c'.calls ms := by
  rw [ho.calls]
  refine ((List.forall₂_and_left _ _).2 ⟨hc.calls, hrel⟩).imp fun call m h => ?_
  exact h.2.mono h.1 (fun i inc hlt hl => ho.live hc hlt hl) fun i inc ends hof => hc.inc_lt hof

omit [DecidableEq E] in
/-- a server that is made for the first time is the node the cluster begins with -/
theorem NodeRel.first {sv : Server n Cmd} (hn : NodeRel c i sv) (hnone : c.instances i = []) :
    sv = Server.boot i (c.persisted i) 0 := by
  rcases hn.count with ⟨-, hboot⟩ | hlen
  · have hpers := hn.persister
    rw [hboot] at hpers
    have hnil : c.persisted i = [] := by rw [← hpers]; exact make_persister i []
    rw [hnil, hboot]
  · rw [hnone] at hlen
    cases hlen

/-- the node of a server that has just been made -/
theorem Operated.made_node {op : Op n E} (ops : List (Op n E)) (hc : c.Ok) (ho : Operated c op c')
    (hinst : c'.instances = Function.update c.instances i
      (c.instances i ++ [Server.boot i (c.persisted i) (c.instances i).length]))
    (hsaved : c'.ctl.saved = Function.update c.ctl.saved i (some (.object (c.ctl.made i).length)))
    (hn : ∀ a, NodeRel c a (s.node a)) (a : Fin n) :
    NodeRel { c' with todo := ops } a
      (Function.update s.node i (Server.boot i (c.persisted i) (c.instances i).length) a) := by
  have hpers : ({ c' with todo := ops } : Config n Cmd E).persisted a = c.persisted a := ho.persisted a
  by_cases ha : a = i
  · subst ha
    rw [Function.update_self]
    have hself : c'.instances a = c.instances a ++ [Server.boot a (c.persisted a) (c.instances a).length] := by
      rw [hinst, Function.update_self]
    refine ⟨?_, (make_persister a _).trans hpers.symm, fun b hb => ?_, .inr ?_⟩
    · obtain ⟨rf, rfl, hs, hp⟩ := hc.stored a
      rw [← hp]
      exact (make_follows hs).me
    · rw [live_iff] at hb
      dsimp only at hb
      rw [hsaved, Function.update_self] at hb
      cases hb
      show (c'.instances a)[_]? = _
      rw [hself, ← hc.made, List.getElem?_concat_length]
    · show _ = (c'.instances a).length
      rw [hself, List.length_append]
      rfl
  · rw [Function.update_of_ne ha]
    have hsame : c'.instances a = c.instances a := by rw [hinst, Function.update_of_ne ha]
    obtain ⟨h1, h2, h3, h4⟩ := hn a
    refine ⟨h1, h2.trans hpers.symm, fun b hb => ?_, ?_⟩
    · rw [live_iff] at hb
      dsimp only at hb
      rw [hsaved, Function.update_of_ne ha] at hb
      show (c'.instances a)[b]? = _
      rw [hsame]
      exact h3 b (live_iff.2 hb)
    · show (c'.instances a = [] ∧ _) ∨ _ = (c'.instances a).length
      rw [hsame]
      exact h4

theorem matched_next {op : Op n E} {ops : List (Op n E)} (hc : c.Ok) (hsim : Simulates c s)
    (hop : c.operate op = some c') : Matched bad s g { c' with todo := ops } [] := by
  have ho := operated hc.made hop
  obtain ⟨ms, hwithin, hrel⟩ := hsim.net
  have hnet : ∃ ms, Within ms s.net ∧
      List.Forall₂ (CallRel ({ c' with todo := ops } : Config n Cmd E)) c'.calls ms :=
        ⟨ms, hwithin, ho.calls_rel hc hrel⟩
  rcases ho.instances with ⟨hinst, -, hsaved⟩ | ⟨i, ends, -, hinst, -, hsaved⟩
  · refine .stutter ⟨fun a => ?_, hnet⟩ rfl
    obtain ⟨h1, h2, h3, h4⟩ := hsim.node a
    refine ⟨h1, h2.trans (ho.persisted a).symm, fun b hb => ?_, ?_⟩
    · show (c'.instances a)[b]? = _
      rw [hinst]
      exact h3 b (live_iff.2 (hsaved a b (live_iff.1 hb)))
    · show (c'.instances a = [] ∧ _) ∨ _ = (c'.instances a).length
      rw [hinst]
      exact h4
  · have hnode := fun a => ho.made_node ops hc hinst hsaved hsim.node a
    by_cases hnone : c.instances i = []
    · -- the first instance is the one the cluster begins with
      have hsame : Function.update s.node i (Server.boot i (c.persisted i) (c.instances i).length) = s.node := by
        rw [hnone, Function.update_eq_self_iff]
        exact ((hsim.node i).first hnone).symm
      rw [hsame] at hnode
      exact .stutter ⟨hnode, hnet⟩ rfl
    · have hlen := (hsim.node i).count.resolve_left fun h => hnone h.1
      have hboot : Server.boot (s.node i).rf.me (s.node i).rf.persister ((s.node i).incarnation + 1) =
          Server.boot i (c.persisted i) (c.instances i).length := by
        rw [(hsim.node i).me, (hsim.node i).persister, hlen]
      refine .one (.run i .restart) ⟨Function.update s.node i _, s.net ++ []⟩ _ rfl trivial rfl ⟨?_, ?_⟩
      · dsimp only
        rw [hboot]
        exact hnode
      · rw [List.append_nil]
        exact hnet

/-! ## Sections of the instances -/

omit [DecidableEq E] in
theorem calls_congr {ms : List (Option (Message n Cmd))} {calls : List (RaftCall n Cmd E)}
    (hrel : List.Forall₂ (CallRel c) calls ms) (hsaved : c'.ctl.saved = c.ctl.saved) :
    List.Forall₂ (CallRel c') calls ms := hrel.imp fun _ _ h => h.congr hsaved

omit [DecidableEq E] in
theorem dial_rel (ends : Fin n → E) (out : List (Message n Cmd)) :
    List.Forall₂ (CallRel c) (dial ends out) (out.map some) := by
  induction out with
  | nil => exact .nil
  | cons x out ih => exact .cons (.new _ _ _) ih

omit [DecidableEq E] in
theorem dial_dead {ends : Fin n → E} {out : List (Message n Cmd)} (hdead : c.live i inc = false)
    (hout : ∀ x ∈ out, x.client = i ∧ x.incarnation = some inc) :
    List.Forall₂ (CallRel c) (dial ends out) (List.replicate out.length none) := by
  induction out with
  | nil => exact .nil
  | cons x out ih =>
    obtain ⟨hclient, hinc⟩ := hout x List.mem_cons_self
    refine .cons (.dead hinc (by rw [hclient]; exact hdead)) (ih fun y hy => hout y (List.mem_cons_of_mem _ hy))

theorem matched_run {task : Server.Task Cmd} {sv : Server n Cmd} {ends : Fin n → E} {r : Server.Result n Cmd}
    (hc : c.Ok) (hsim : Simulates c s) (ht : task ≠ .restart) (hsv : c.instance? i inc = some sv)
    (hr : sv.run task = some r) :
    Matched bad s g { c.put i inc r.1 with calls := c.calls ++ dial ends r.2.1 }
      (r.2.2.map (.raft (c.live i inc))) := by
  obtain ⟨ms, hwithin, hrel⟩ := hsim.net
  have hnamed := hc.named _ _ _ hsv
  cases hlive : c.live i inc with
  | true =>
    have hnode : s.node i = sv := Option.some.inj (((hsim.node i).live inc hlive).symm.trans hsv)
    have hfol := (run_acts hr).follows hnamed.saved
    have hnamed' : Named i inc r.1 :=
      ⟨hfol.me.trans hnamed.me, (run_incarnation ht hr).trans hnamed.incarnation, hfol.saved⟩
    refine .one (.run i task) ⟨Function.update s.node i r.1, s.net ++ r.2.1⟩ r.2.2 ?_ trivial ?_ ⟨?_, ?_⟩
    · simp only [Cluster.step, hnode, hr, Option.map_some, Cluster.put]
    · rw [liveEvents_raft, if_pos rfl]
    · exact nodes_live_put _ hsim.node hlive hsv hnamed' (hc.latest hlive)
    · exact ⟨_, hwithin.append r.2.1, calls_congr (c := c) (List.rel_append hrel (dial_rel ends r.2.1)) rfl⟩
  | false =>
    refine .stutter ⟨fun a => (hsim.node a).put hsv (.inr hlive), _, hwithin.append_none r.2.1.length, ?_⟩ ?_
    · have hout : ∀ x ∈ r.2.1, x.client = i ∧ x.incarnation = some inc := by
        intro x hx
        obtain ⟨h1, h2, -⟩ := (run_acts hr).out hx
        exact ⟨h1.trans hnamed.me, h2.trans (congrArg _ hnamed.incarnation)⟩
      exact calls_congr (c := c) (List.rel_append hrel (dial_dead hlive hout)) rfl
    · rw [liveEvents_raft]
      rfl

/-! ## Moves on the network -/

omit [DecidableEq E] in
/-- as long as the handler has not run, the message is the request -/
theorem Holds.request {body : Body n Cmd} (hh : Holds c call body) (h1 : ∀ reply, call.handler ≠ .executed reply)
    (h2 : ∀ reply, call.handler ≠ .handed reply) : body = call.args.body := by
  rcases hh with ⟨hb, -⟩ | hex | hhd
  · exact hb
  · exact absurd hex (h1 body)
  · exact absurd hhd (h2 body)

omit [DecidableEq E] in
/-- the caller goes on to another stage without a reply -/
theorem CallRel.staged (hrel : CallRel c call m) {st : Labrpc.Stage (Body n Cmd)}
    (hret : ∀ r, call.stage ≠ .returned r) (hst : ∀ x, st ≠ .answering (some x)) (hadm : st ≠ .admitted) :
    CallRel c { call with stage := st } m := by
  refine ⟨fun inc hinc hl _ => ?_, fun hmay => hrel.pending ?_⟩
  · obtain ⟨body, hm, hholds⟩ := hrel.waiting inc hinc hl hret
    exact ⟨body, hm, hholds.imp_left fun ⟨hb, hdead⟩ => ⟨hb, fun reply hh => ⟨(hdead reply hh).1, hst⟩⟩⟩
  · rcases hmay with hmay | hmay | hmay
    · exact .inl hmay
    · exact .inr (.inl hmay)
    · exact absurd hmay hadm

/-- a move on the network changes no message -/
theorem CallRel.moves {mv : Labrpc.Move (Body n Cmd)} (hc : c.Ok) (hcall : CallOk c call) (hrel : CallRel c call m)
    (hmv : Labrpc.Moves c.ctl.switch call mv call') (hne : ∀ reply, mv ≠ .execute reply) (hnr : mv ≠ .reply) :
    CallRel c call' m := by
  have hagree := hcall.agree
  cases hmv with
  | accept hst hen =>
    -- the end is enabled, so the caller is live and its message is still the request
    have hidle := hagree.early (.inl hst)
    obtain ⟨inc, ends, hinc, hof, hend⟩ := hcall.caller
    have hlive : c.live call.args.client inc = true := by
      by_contra hdead
      rw [hend, hc.cut_off (Bool.eq_false_of_not_eq_true hdead) hof] at hen
      cases hen
    obtain ⟨body, hm, hholds⟩ := hrel.waiting inc hinc hlive (by simp [hst])
    have hbody := hholds.request (by simp [hidle]) (by simp [hidle])
    refine ⟨fun inc' hinc' hl _ => ⟨body, hm, .inl ⟨hbody, by simp [hidle]⟩⟩, fun _ => ⟨call.args.incarnation, ?_⟩⟩
    rw [hm, hbody]
  | refuse hst | dropRequest hst => exact hrel.staged (by simp [hst]) nofun nofun
  | quit hst => exact hrel.staged (by simp [hst]) nofun nofun
  | giveUp hst => exact hrel.staged (by simp [hst]) nofun nofun
  | dropReply hst => exact hrel.staged (by simp [hst]) nofun nofun
  | spawn hst =>
    have hidle := hagree.early (.inr hst)
    refine ⟨fun inc hinc hl _ => ?_, fun _ => hrel.pending (.inr (.inr hst))⟩
    obtain ⟨body, hm, hholds⟩ := hrel.waiting inc hinc hl (by simp [hst])
    exact ⟨body, hm, .inl ⟨hholds.request (by simp [hidle]) (by simp [hidle]), by simp⟩⟩
  | dispatch hh =>
    refine ⟨fun inc hinc hl hst => ?_, fun _ => hrel.pending (.inl hh)⟩
    obtain ⟨body, hm, hholds⟩ := hrel.waiting inc hinc hl hst
    exact ⟨body, hm, .inl ⟨hholds.request (by simp [hh]) (by simp [hh]), by simp⟩⟩
  | execute => exact absurd rfl (hne _)
  | @receive reply hst hh =>
    refine ⟨fun inc hinc hl _ => ?_, fun hmay => by simp [MayRun] at hmay⟩
    obtain ⟨body, hm, hholds⟩ := hrel.waiting inc hinc hl (by simp [hst])
    refine ⟨body, hm, ?_⟩
    rcases hholds with ⟨hb, hdead⟩ | hex | hhd
    · exact .inl ⟨hb, fun _ _ => ⟨(hdead reply (.inl hh)).1, nofun⟩⟩
    · cases hh.symm.trans hex
      exact .inr (.inr rfl)
    · cases hh.symm.trans hhd
  | stay => exact hrel
  | @confirm reply hst halive =>
    -- the server is registered, so it is live, and the reply is in the message
    have hh := hagree.replied reply (by rw [hst]; rfl)
    refine ⟨fun inc hinc hl _ => ?_, fun hmay => by simp [MayRun, hh] at hmay⟩
    obtain ⟨body, hm, hholds⟩ := hrel.waiting inc hinc hl (by simp [hst])
    refine ⟨body, hm, .inr (hholds.resolve_left fun ⟨_, hdead⟩ => ?_)⟩
    obtain ⟨r, hr⟩ := Option.isSome_iff_exists.1 (hagree.routed (.inl (by simp [hh])))
    rw [Labrpc.Call.dead, hr] at halive
    obtain ⟨h1, h2⟩ := hc.control.inv.registered _ _ (Labrpc.Switch.isServerDead_eq_false.1 halive).2
    cases ((hdead reply (.inr hh)).1 r hr).symm.trans (live_iff.2 (h1 ▸ h2))
  | reply => exact absurd rfl hnr

omit [DecidableEq E] in
/-- one call and its message change -/
theorem calls_set {ms : List (Option (Message n Cmd))} {m' : Option (Message n Cmd)}
    (hrel : List.Forall₂ (CallRel c) c.calls ms) (h' : CallRel c call' m') (hsaved : c'.ctl.saved = c.ctl.saved) :
    List.Forall₂ (CallRel c') (c.calls.set k call') (ms.set k m') :=
  forall₂_set (calls_congr hrel hsaved) (h'.congr hsaved) k

omit [DecidableEq E] in
/-- one call changes, its message does not -/
theorem calls_set_same {ms : List (Option (Message n Cmd))} (hm : ms[k]? = some m)
    (hrel : List.Forall₂ (CallRel c) c.calls ms) (h' : CallRel c call' m) (hsaved : c'.ctl.saved = c.ctl.saved) :
    List.Forall₂ (CallRel c') (c.calls.set k call') ms := by
  have hset : ms.set k m = ms := by
    obtain ⟨hlt, heq⟩ := List.getElem?_eq_some_iff.1 hm
    rw [← heq]
    exact List.set_getElem_self hlt
  have hnew := calls_set (k := k) hrel h' hsaved
  rwa [hset] at hnew

theorem matched_move {mv : Labrpc.Move (Body n Cmd)} {objects : Fin n × ℕ → Labrpc.Server} (hc : c.Ok)
    (hsim : Simulates c s) (hk : c.calls[k]? = some call) (hmv : Labrpc.Moves c.ctl.switch call mv call')
    (hne : ∀ reply, mv ≠ .execute reply) (hnr : mv ≠ .reply) :
    Matched bad s g { c with objects := objects, calls := c.calls.set k call' } [] := by
  obtain ⟨ms, hwithin, hrel⟩ := hsim.net
  obtain ⟨m, hm, hcr⟩ := forall₂_getElem? hrel hk
  refine .stutter ⟨fun a => ?_, ms, hwithin, calls_set_same hm hrel ?_ rfl⟩ rfl
  · obtain ⟨h1, h2, h3, h4⟩ := hsim.node a
    exact ⟨h1, h2, h3, h4⟩
  · exact hcr.moves hc (hc.calls _ (List.mem_of_getElem? hk)) hmv hne hnr

/-! ## Executions -/

omit [DecidableEq E] in
theorem receiver_request {m : Message n Cmd} (hm : m.isRequest = true) : s.receiver m = some m.server := if_pos hm

omit [DecidableEq E] in
theorem deliver_request {j : ℕ} {sv sv' : Server n Cmd} {m reply : Message n Cmd} {gs : List (Raft.Event (Fin n) Cmd)}
    (hj : s.net[j]? = some m) (hm : m.isRequest = true) (hnode : s.node m.server = sv)
    (hhandle : sv.handle m = some (sv', [reply], gs)) :
    s.step (.deliver j) = some (⟨Function.update s.node m.server sv', s.net.eraseIdx j ++ [reply]⟩, gs) := by
  simp only [Cluster.step, Cluster.deliver, hj, receiver_request hm, hnode, hhandle, Option.map_some, Cluster.put]

omit [DecidableEq E] in
theorem avoids_deliver {j : ℕ} {p : Fin n} {m : Message n Cmd} (hj : s.net[j]? = some m) (hrecv : s.receiver m = some p)
    (hbad : ¬bad m (s.node p).rf) : Raft.Avoids bad s (.deliver j) := by
  simp only [Raft.Avoids, Cluster.received, hj, hrecv, Option.bind_some, Option.map_some]
  exact hbad

omit [DecidableEq E] in
/-- the message of a call whose handler has run in a live instance -/
theorem CallRel.executed {o : Option ℕ} {body : Body n Cmd} (hcall : CallOk c call) (hh : call.handler = .dispatched)
    (hrel : CallRel c call (some { call.args with incarnation := o })) :
    CallRel c { call with handler := .executed body } (some { call.args with incarnation := o, body := body }) := by
  refine ⟨fun inc hinc hl hst => ⟨body, ?_, .inr (.inl rfl)⟩, fun hmay => ?_⟩
  · obtain ⟨b, hm, -⟩ := hrel.waiting inc hinc hl hst
    have ho : o = call.args.incarnation := congrArg Message.incarnation (Option.some.inj hm)
    rw [ho]
  · rcases hmay with hmay | hmay | hmay
    · cases hmay
    · cases hmay
    · cases hh.symm.trans (hcall.agree.early (.inr hmay))

omit [DecidableEq E] in
/-- the handler has run in an instance that is not live: for the cluster it has not -/
theorem CallRel.executed_dead {r : Labrpc.Route (Fin n) (Fin n × ℕ)} {body : Body n Cmd} (hcall : CallOk c call)
    (hr : call.route = some r) (hdead : c.live r.server.1 r.server.2 = false) (hh : call.handler = .dispatched)
    (hrel : CallRel c call m) : CallRel c { call with handler := .executed body } m := by
  refine ⟨fun inc hinc hl hst => ?_, fun hmay => ?_⟩
  · obtain ⟨b, hm, hholds⟩ := hrel.waiting inc hinc hl hst
    refine ⟨b, hm, .inl ⟨hholds.request (by simp [hh]) (by simp [hh]), fun _ _ => ⟨fun r' hr' => ?_, fun x hx => ?_⟩⟩⟩
    · cases hr.symm.trans hr'
      exact hdead
    · cases hh.symm.trans (hcall.agree.replied x (by rw [show call.stage = _ from hx]; rfl))
  · rcases hmay with hmay | hmay | hmay
    · cases hmay
    · cases hmay
    · cases hh.symm.trans (hcall.agree.early (.inr hmay))

theorem matched_execute {r : Labrpc.Route (Fin n) (Fin n × ℕ)} {sv sv' : Server n Cmd} {reply : Message n Cmd}
    {gs : List (Raft.Event (Fin n) Cmd)} {rpc : Labrpc.Event (Fin n × ℕ) (Body n Cmd)} (hc : c.Ok)
    (hsim : Simulates c s) (hinsens : ∀ m o rf, bad { m with incarnation := o } rf → bad m rf)
    (hk : c.calls[k]? = some call) (hr : call.route = some r) (hh : call.handler = .dispatched)
    (hsv : c.instance? r.server.1 r.server.2 = some sv) (hhandle : sv.handle call.args = some (sv', [reply], gs))
    (hbad : c.live r.server.1 r.server.2 = true → ¬bad call.args sv.rf) :
    Matched bad s g
      { c.put r.server.1 r.server.2 sv' with calls := c.calls.set k { call with handler := .executed reply.body } }
      (gs.map (.raft (c.live r.server.1 r.server.2)) ++ [.rpc (c.live r.server.1 r.server.2) rpc]) := by
  obtain ⟨ms, hwithin, hrel⟩ := hsim.net
  obtain ⟨m, hm, hcr⟩ := forall₂_getElem? hrel hk
  have hcall := hc.calls _ (List.mem_of_getElem? hk)
  obtain ⟨-, hserver, -⟩ := hcall.routed r hr
  have hevs : liveEvents (gs.map (.raft (c.live r.server.1 r.server.2)) ++
      [.rpc (c.live r.server.1 r.server.2) rpc] : List (Event n Cmd)) =
      if c.live r.server.1 r.server.2 then gs else [] := by
    rw [liveEvents_append, liveEvents_raft, liveEvents_rpc, List.append_nil]
  cases hlive : c.live r.server.1 r.server.2 with
  | true =>
    rw [hlive] at hevs
    have hnode : s.node r.server.1 = sv := Option.some.inj (((hsim.node _).live _ hlive).symm.trans hsv)
    have hnamed := hc.named _ _ _ hsv
    have hfol := (handle_receives hhandle).follows hnamed.saved
    have hnamed' : Named r.server.1 r.server.2 sv' :=
      ⟨hfol.me.trans hnamed.me, (handle_incarnation hhandle).trans hnamed.incarnation, hfol.saved⟩
    -- the request is in flight, whoever waits for it
    obtain ⟨o, rfl⟩ := hcr.pending (.inr (.inl hh))
    obtain ⟨j, hj, hrest⟩ := hwithin.take hm
    obtain ⟨sv₁, body, gs₁, -, hany⟩ := handle_request sv hcall.request
    have heq := hhandle.symm.trans (hany call.args.incarnation)
    simp only [Option.some.injEq, Prod.mk.injEq, List.cons.injEq, and_true] at heq
    obtain ⟨rfl, rfl, rfl⟩ := heq
    have hlt : k < ms.length := (List.getElem?_eq_some_iff.1 hm).1
    have hdeliver := deliver_request hj hcall.request (by rw [← hserver]; exact hnode) (hany o)
    refine .one _ _ _ hdeliver ?_ hevs.symm ⟨?_, _, hrest.fill hlt _, ?_⟩
    · refine avoids_deliver hj (receiver_request hcall.request) fun hb => hbad hlive ?_
      refine hinsens _ o _ ?_
      rw [← hnode, hserver]
      exact hb
    · dsimp only
      rw [← hserver]
      exact nodes_live_put _ hsim.node hlive hsv hnamed' (hc.latest hlive)
    · exact calls_set hrel (hcr.executed hcall hh) rfl
  | false =>
    rw [hlive] at hevs
    refine .stutter ⟨fun a => (hsim.node a).put hsv (.inr hlive), ms, hwithin, ?_⟩ hevs
    exact calls_set_same hm hrel (hcr.executed_dead hcall hr hlive hh) rfl

/-! ## Calls that return -/

omit [DecidableEq E] in
theorem receiver_reply {m : Message n Cmd} (hm : m.isRequest = false)
    (hinc : m.incarnation = some (s.node m.client).incarnation) : s.receiver m = some m.client := by
  rw [Cluster.receiver, if_neg (by simp [hm]), if_pos hinc]

/-- a live caller gets a reply -/
theorem matched_answer {sv : Server n Cmd} {ends : Fin n → E} {body : Body n Cmd} {r : Server.Result n Cmd} (hc : c.Ok)
    (hsim : Simulates c s) (hk : c.calls[k]? = some call) (hinc : call.args.incarnation = some inc)
    (hsv : c.instance? call.args.client inc = some sv) (hlive : c.live call.args.client inc = true)
    (hst : call.stage = .answering (some body)) (hr : sv.handle { call.args with body := body } = some r)
    (hbad : ¬bad { call.args with body := body } sv.rf) (hevs : liveEvents evs = r.2.2) :
    Matched bad s g
      { c.put call.args.client inc r.1 with
        calls := c.calls.set k { call with stage := .returned (some body) } ++ dial ends r.2.1 } evs := by
  obtain ⟨ms, hwithin, hrel⟩ := hsim.net
  obtain ⟨m, hm, hcr⟩ := forall₂_getElem? hrel hk
  have hcall := hc.calls _ (List.mem_of_getElem? hk)
  have hhanded := hcall.agree.replied body (by rw [hst]; rfl)
  have hans := hcall.answered body (.inr hhanded)
  have hnode : s.node call.args.client = sv := Option.some.inj (((hsim.node _).live _ hlive).symm.trans hsv)
  have hnamed := hc.named _ _ _ hsv
  have hnamed' : Named call.args.client inc r.1 := hnamed.resume (some body) hr
  -- the message is the reply, since the call returns one
  obtain ⟨body', rfl, hholds⟩ := hcr.waiting inc hinc hlive (by simp [hst])
  have hsame : body' = body := by
    rcases hholds with ⟨-, hdead⟩ | hex | hhd
    · exact absurd hst ((hdead body (.inr hhanded)).2 body)
    · cases hhanded.symm.trans hex
    · cases hhanded.symm.trans hhd
      rfl
  subst hsame
  obtain ⟨j, hj, hrest⟩ := hwithin.take hm
  have hrecv : s.receiver { call.args with body := body' } = some call.args.client := by
    refine receiver_reply hans.isReply ?_
    dsimp only
    rw [hinc, hnode, hnamed.incarnation]
  have hout : r.2.1 = [] := (handle_receives hr).reply_out hans.isReply
  rw [hout, dial, List.map_nil, List.append_nil]
  refine .one (.deliver j) ⟨Function.update s.node call.args.client r.1, s.net.eraseIdx j ++ r.2.1⟩ r.2.2 ?_
    ?_ hevs.symm ⟨?_, _, hrest.mono _, ?_⟩
  · simp only [Cluster.step, Cluster.deliver, hj, hrecv, hnode, hr, Option.map_some, Cluster.put]
  · exact avoids_deliver hj hrecv (by rw [hnode]; exact hbad)
  · exact nodes_live_put _ hsim.node hlive hsv hnamed' (hc.latest hlive)
  · refine calls_set hrel (CallRel.returned fun hmay => ?_) rfl
    rw [hhanded] at hmay
    rcases hmay with hmay | hmay <;> cases hmay

/-- the call of a live caller fails -/
theorem matched_failure {sv : Server n Cmd} {ends : Fin n → E} (hc : c.Ok) (hsim : Simulates c s)
    (hk : c.calls[k]? = some call) (hinc : call.args.incarnation = some inc)
    (hsv : c.instance? call.args.client inc = some sv) (hlive : c.live call.args.client inc = true)
    (hst : call.stage = .answering none) (hevs : liveEvents evs = []) :
    Matched bad s g
      { c.put call.args.client inc (sv.failed call.args) with
        calls := c.calls.set k { call with stage := .returned none } ++ dial ends [] } evs := by
  obtain ⟨ms, hwithin, hrel⟩ := hsim.net
  obtain ⟨m, hm, hcr⟩ := forall₂_getElem? hrel hk
  have hcall := hc.calls _ (List.mem_of_getElem? hk)
  have hnode : s.node call.args.client = sv := Option.some.inj (((hsim.node _).live _ hlive).symm.trans hsv)
  have hnamed := hc.named _ _ _ hsv
  have hnamed' : Named call.args.client inc (sv.failed call.args) := hnamed.resume none rfl
  have hwaits : call.args.incarnation = some (s.node call.args.client).incarnation := by
    rw [hinc, hnode, hnamed.incarnation]
  have hnodes := nodes_live_put (c.calls.set k { call with stage := .returned none }) hsim.node hlive hsv hnamed'
    (hc.latest hlive)
  rw [dial, List.map_nil, List.append_nil]
  obtain ⟨body, rfl, hholds⟩ := hcr.waiting inc hinc hlive (by simp [hst])
  obtain ⟨j, hj, hrest⟩ := hwithin.take hm
  have hlt : k < ms.length := (List.getElem?_eq_some_iff.1 hm).1
  by_cases hmay : MayRun call
  · -- the request stays in flight, and nobody waits for it
    obtain ⟨o, ho⟩ := hcr.pending hmay
    have hbody : body = call.args.body := congrArg Message.body (Option.some.inj ho)
    rw [hbody] at hj
    refine .one (.abandon j)
      ⟨Function.update s.node call.args.client (sv.failed call.args), s.net.eraseIdx j ++ [call.args.abandoned]⟩ []
      ?_ trivial hevs.symm ⟨hnodes, _, hrest.fill hlt _, ?_⟩
    · simp only [Cluster.step, Cluster.abandon, hj]
      rw [if_pos ⟨hcall.request, hwaits⟩, hnode]
      rfl
    · exact calls_set hrel (CallRel.returned fun _ => ⟨none, rfl⟩) rfl
  · have hfailed : sv.failed { call.args with body := body } = sv.failed call.args := by
      rcases hholds with ⟨rfl, -⟩ | hex | hhd
      · rfl
      · exact (hcall.answered body (.inl hex)).failed
      · exact (hcall.answered body (.inr hhd)).failed
    refine .one (.lose j) ⟨Function.update s.node call.args.client (sv.failed call.args), s.net.eraseIdx j ++ []⟩ []
      ?_ trivial hevs.symm ⟨hnodes, _, hrest.mono _, ?_⟩
    · simp only [Cluster.step, Cluster.lose, hj]
      rw [if_pos hwaits, hnode, hfailed]
      rfl
    · refine calls_set hrel (CallRel.returned fun h => absurd ?_ hmay) rfl
      exact h.imp_right .inl

omit [DecidableEq E] in
/-- the caller is not live: nobody in the cluster waits for the call -/
theorem matched_return_dead {sv : Server n Cmd} {ends : Fin n → E} {answer : Option (Body n Cmd)}
    {r : Server.Result n Cmd} (hsim : Simulates c s) (hk : c.calls[k]? = some call)
    (hsv : c.instance? call.args.client inc = some sv) (hdead : c.live call.args.client inc = false)
    (hout : r.2.1 = []) (hevs : liveEvents evs = []) :
    Matched bad s g
      { c.put call.args.client inc r.1 with
        calls := c.calls.set k { call with stage := .returned answer } ++ dial ends r.2.1 } evs := by
  obtain ⟨ms, hwithin, hrel⟩ := hsim.net
  obtain ⟨m, hm, hcr⟩ := forall₂_getElem? hrel hk
  rw [hout, dial, List.map_nil, List.append_nil]
  refine .stutter ⟨fun a => (hsim.node a).put hsv (.inr hdead), ms, hwithin, ?_⟩ hevs
  exact calls_set_same hm hrel (CallRel.returned fun h => hcr.pending (h.imp_right .inl)) rfl

/-! ## Whole runs -/

omit [DecidableEq E] in
/-- the message a step processes, and by which instance -/
def received (c : Config n Cmd E) : Action n Cmd E → Option ((Fin n × ℕ) × Message n Cmd)
  | .execute k => (c.calls[k]?).bind fun call => call.route.map fun r => (r.server, call.args)
  | .reply k => (c.calls[k]?).bind fun call => call.args.incarnation.bind fun inc =>
    match call.stage with
    | .answering (some body) => some ((call.args.client, inc), { call.args with body := body })
    | _ => none
  | _ => none

omit [DecidableEq E] in
/-- no live instance processes a message of the kind `bad` -/
def Avoids (bad : Message n Cmd → Raft n Cmd → Prop) (c : Config n Cmd E) (a : Action n Cmd E) : Prop :=
  match c.received a with
  | some ((i, inc), m) => c.live i inc = true → ∀ sv ∈ c.instance? i inc, ¬bad m sv.rf
  | none => True

/-- the tests connect a server only when it is started, and no live instance processes a message of the kind `bad` -/
def Tame (bad : Message n Cmd → Raft n Cmd → Prop) (c : Config n Cmd E) (a : Action n Cmd E) : Prop :=
  Proper c a ∧ Avoids bad c a

theorem step_matched (hinsens : ∀ m o rf, bad { m with incarnation := o } rf → bad m rf) {a : Action n Cmd E}
    (hc : c.Ok) (hsim : Simulates c s) (ha : Avoids bad c a) (hs : c.step a = some (c', evs)) :
    Matched bad s g c' evs := by
  cases step_cases hs with
  | command =>
    refine .stutter ⟨fun a => ?_, ?_⟩ rfl
    · obtain ⟨h1, h2, h3, h4⟩ := hsim.node a
      exact ⟨h1, h2, h3, h4⟩
    · obtain ⟨ms, hwithin, hrel⟩ := hsim.net
      exact ⟨ms, hwithin, calls_congr hrel rfl⟩
  | next _ hop => exact matched_next hc hsim hop
  | run ht hsv _ hr => exact matched_run hc hsim ht hsv hr
  | move hne hnr hk hmv => exact matched_move hc hsim hk hmv hne hnr
  | execute hk hr hh hsv hhandle =>
    refine matched_execute hc hsim hinsens hk hr hh hsv hhandle fun hlive => ?_
    simp only [Avoids, received, hk, hr, Option.bind_some, Option.map_some] at ha
    exact ha hlive _ hsv
  | @reply k call inc sv ends answer r hk hinc hsv _ hst hr =>
    have hcall := hc.calls _ (List.mem_of_getElem? hk)
    have hevs : liveEvents (r.2.2.map (.raft (c.live call.args.client inc)) ++
        [.rpc (c.live call.args.client inc) (.returned k answer)] : List (Event n Cmd)) =
        if c.live call.args.client inc then r.2.2 else [] := by
      rw [liveEvents_append, liveEvents_raft, liveEvents_rpc, List.append_nil]
    cases hlive : c.live call.args.client inc with
    | false =>
      rw [hlive] at hevs
      exact matched_return_dead hsim hk hsv hlive (resume_out hcall hst hr) hevs
    | true =>
      rw [hlive] at hevs
      cases answer with
      | none =>
        cases hr
        exact matched_failure hc hsim hk hinc hsv hlive hst hevs
      | some body =>
        refine matched_answer hc hsim hk hinc hsv hlive hst hr ?_ hevs
        simp only [Avoids, received, hk, hinc, hst, Option.bind_some] at ha
        dsimp only
        rw [hinc]
        exact ha hlive _ hsv

omit [DecidableEq E] in
theorem init_simulates : Simulates (init n Cmd E) (Cluster.init n Cmd) where
  node := fun i => ⟨rfl, make_persister i [], fun inc h => by simp [live, init, Control.init] at h, .inl ⟨rfl, rfl⟩⟩
  net := ⟨[], within_nil _, .nil⟩

/-- a step of the tested system is answered by the cluster -/
theorem step_simulated (hinsens : ∀ m o rf, bad { m with incarnation := o } rf → bad m rf) (c : Config n Cmd E)
    (h : List (Event n Cmd)) (a : Action n Cmd E) (c' : Config n Cmd E) (evs : List (Event n Cmd)) (s : Cluster n Cmd)
    (g : List (Raft.Event (Fin n) Cmd)) (hr : (machine n Cmd E).Run (Tame bad) c h)
    (_ : (Raft.machine n Cmd).Run (Raft.Avoids bad) s g) (hrel : Simulates c s ∧ g = liveEvents h) (ha : Tame bad c a)
    (hs : (machine n Cmd E).step c a = some (c', evs)) :
    ∃ s' g', (Raft.machine n Cmd).Path (Raft.Avoids bad) s g s' g' ∧ Simulates c' s' ∧ g' = liveEvents (h ++ evs) := by
  obtain ⟨hsim, rfl⟩ := hrel
  obtain ⟨s', hp, hsim'⟩ := step_matched hinsens (run_ok (fun _ _ ha => ha.1) hr) hsim ha.2 hs
  exact ⟨s', _, hp, hsim', (liveEvents_append h evs).symm⟩

theorem run_simulated (hinsens : ∀ m o rf, bad { m with incarnation := o } rf → bad m rf) {h : List (Event n Cmd)}
    (hr : (machine n Cmd E).Run (Tame bad) c h) :
    ∃ s, (Raft.machine n Cmd).Run (Raft.Avoids bad) s (liveEvents h) ∧ Simulates c s := by
  obtain ⟨s, g, hrun, hsim, rfl⟩ := hr.simulated (fun c h s g => Simulates c s ∧ g = liveEvents h)
    (step_simulated hinsens) ⟨init_simulates, rfl⟩
  exact ⟨s, hrun, hsim⟩

/-- **The tested system refines the cluster.** Whatever the harness does, and whatever the network delays, drops and
reorders, the events of the instances that have not been crashed are those of a run of the cluster, in which each node
is the live instance of its server and its Persister is the one the harness keeps for it. A kind of messages that no
live instance processes is one that no node of the cluster receives. -/
theorem refines_cluster (bad : Message n Cmd → Raft n Cmd → Prop)
    (hinsens : ∀ m o rf, bad { m with incarnation := o } rf → bad m rf) {h : List (Event n Cmd)}
    (hr : (machine n Cmd E).Run (Tame bad) c h) :
    ∃ s, (Raft.machine n Cmd).Run (Raft.Avoids bad) s (liveEvents h) ∧
      ∀ i, (s.rf i).persister = c.persisted i ∧
        ∀ inc sv, c.live i inc = true → c.instance? i inc = some sv → s.node i = sv := by
  obtain ⟨s, hrun, hsim⟩ := run_simulated hinsens hr
  refine ⟨s, hrun, fun i => ⟨(hsim.node i).persister, fun inc sv hlive hsv => ?_⟩⟩
  exact Option.some.inj (((hsim.node i).live inc hlive).symm.trans hsv)

end Steps

section Corollaries

variable [DecidableEq E] {h : List (Event n Cmd)}

instance (bad : Message n Cmd → Raft n Cmd → Prop) [∀ m rf, Decidable (bad m rf)] :
    DecidableRel (@Tame n Cmd E bad) := by
  intro c a
  unfold Tame Avoids
  refine @instDecidableAnd _ _ inferInstance ?_
  split <;> infer_instance

/-- no message is excluded -/
def anything (_ : Message n Cmd) (_ : Raft n Cmd) : Prop := False

instance (m : Message n Cmd) (rf : Raft n Cmd) : Decidable (anything m rf) := inferInstanceAs (Decidable False)

omit [DecidableEq E] in
theorem Proper.tame {a : Action n Cmd E} (ha : Proper c a) : Tame anything c a := by
  refine ⟨ha, ?_⟩
  unfold Avoids
  split
  · exact fun _ _ _ => id
  · trivial

/-- the run in which the second server votes for the first, and the two sides of the vote in the cluster -/
theorem refines_cluster_oneVote : ∃ (c : Config 2 ℕ ℕ) (h : List (Event 2 ℕ)) (s : Cluster 2 ℕ),
    (machine 2 ℕ ℕ).Run (Tame anything) c h ∧ (Raft.machine 2 ℕ).Run (Raft.Avoids anything) s (liveEvents h) ∧
    .voteCounted 0 1 1 ∈ liveEvents h ∧ (s.rf 0).state = .leader := by
  obtain ⟨c, h, hr, ht⟩ := Machine.exists_run_of_exec
    (show ((machine 2 ℕ ℕ).exec (Tame anything) oneVote).any
      (fun r => decide (.voteCounted 0 1 1 ∈ liveEvents r.2 ∧ r.1.live 0 0 = true) &&
        (r.1.instance? 0 0).any fun sv => decide (sv.rf.state = .leader)) = true by decide +kernel)
  obtain ⟨h1, h2⟩ := Bool.and_eq_true_iff.1 ht
  obtain ⟨hvote, hlive⟩ := of_decide_eq_true h1
  obtain ⟨sv, hsv, hst⟩ := (Option.any_eq_true _ _).1 h2
  obtain ⟨s, hrun, hnode⟩ := refines_cluster anything (fun _ _ _ => id) hr
  refine ⟨c, h, s, hr, hrun, hvote, ?_⟩
  show (s.node 0).rf.state = .leader
  rw [(hnode 0).2 0 sv hlive hsv]
  exact of_decide_eq_true hst

theorem mem_liveEvents {ev : Raft.Event (Fin n) Cmd} : ev ∈ liveEvents h ↔ .raft true ev ∈ h := by
  unfold liveEvents
  rw [List.mem_filterMap]
  constructor
  · rintro ⟨x, hx, hev⟩
    split at hev
    · cases hev
      exact hx
    · cases hev
  · exact fun hx => ⟨_, hx, rfl⟩

/-- **A server's term never goes down**: an instance that the harness makes later is in no earlier term than any
instance of the same server was while it was live, although the harness never stops the earlier ones. -/
theorem term_survives (hr : (machine n Cmd E).Run Proper c h) {h' : List (Event n Cmd)}
    (hp : (machine n Cmd E).Path Proper c h c' h') (inc inc' : ℕ) (sv sv' : Server n Cmd) (hlive : c.live i inc = true)
    (hsv : c.instance? i inc = some sv) (hlive' : c'.live i inc' = true) (hsv' : c'.instance? i inc' = some sv') :
    sv.rf.term ≤ sv'.rf.term := by
  have hinsens : ∀ (m : Message n Cmd) o rf, anything { m with incarnation := o } rf → anything m rf := fun _ _ _ => id
  have hr := hr.mono fun _ _ ha => Proper.tame ha
  have hp := hp.mono fun _ _ ha => Proper.tame ha
  obtain ⟨s, hrun, hsim⟩ := run_simulated hinsens hr
  obtain ⟨s', g', hpath, hsim', -⟩ := hp.simulated (fun c h s g => Simulates c s ∧ g = liveEvents h)
    (step_simulated hinsens) hr hrun ⟨hsim, rfl⟩
  have hnode : s.node i = sv := Option.some.inj (((hsim.node i).live inc hlive).symm.trans hsv)
  have hnode' : s'.node i = sv' := Option.some.inj (((hsim'.node i).live inc' hlive').symm.trans hsv')
  rw [← hnode, ← hnode']
  exact run_term_le hrun hpath i

/-- the first server stands for election, is crashed and started again -/
theorem term_survives_candidate : ∃ c h c' h' sv sv', (machine 2 ℕ ℕ).Run Proper c h ∧
    (machine 2 ℕ ℕ).Path Proper c h c' h' ∧ c.instance? 0 0 = some sv ∧ sv.rf.term = 1 ∧ c'.live 0 1 = true ∧
    c'.instance? 0 1 = some sv' ∧ 1 ≤ sv'.rf.term := by
  obtain ⟨c, h, hr, ht⟩ := Machine.exists_run_of_exec
    (show ((machine 2 ℕ ℕ).exec Proper (twoServers ++ [.run 0 0 .lifeRead, .run 0 0 .lifeElection])).any
      (fun r => decide (r.1.live 0 0 = true) && (r.1.instance? 0 0).any (fun sv => decide (sv.rf.term = 1)) &&
        ((machine 2 ℕ ℕ).execFrom Proper r.1 r.2
          (.command (.start1 0 (names 3)) :: List.replicate 18 .next)).any fun r' =>
          decide (r'.1.live 0 1 = true) && (r'.1.instance? 0 1).isSome) = true by decide +kernel)
  simp only [Bool.and_eq_true, Option.any_eq_true, decide_eq_true_eq] at ht
  obtain ⟨⟨hlive, sv, hsv, hterm⟩, r', hpath, hlive', hsome⟩ := ht
  obtain ⟨sv', hsv'⟩ := Option.isSome_iff_exists.1 hsome
  have hp := Machine.path_of_execFrom hpath
  have hle := term_survives hr hp 0 1 sv sv' hlive hsv hlive' hsv'
  rw [hterm] at hle
  exact ⟨c, h, r'.1, r'.2, sv, sv', hr, hp, hsv, hterm, hlive', hsv', hle⟩

/-- the messages at which the protocol is left: a vote is forgotten, a stale vote counted, a log cut without a conflict
-/
def faulty (m : Message n Cmd) (rf : Raft n Cmd) : Prop := m.forgetsVote rf ∨ m.countsStale rf ∨ m.cuts rf

instance (m : Message n Cmd) (rf : Raft n Cmd) : Decidable (faulty m rf) := inferInstanceAs (Decidable (_ ∨ _))

theorem faulty_insensitive (m : Message n Cmd) (o : Option ℕ) (rf : Raft n Cmd)
    (hb : faulty { m with incarnation := o } rf) : faulty m rf := hb

theorem avoids_mono {bad bad' : Message n Cmd → Raft n Cmd → Prop} (hbad : ∀ m rf, bad' m rf → bad m rf)
    {a : Raft.Action n Cmd} (ha : Raft.Avoids bad s a) : Raft.Avoids bad' s a := by
  unfold Raft.Avoids at ha ⊢
  split at ha
  · exact fun hb => ha (hbad _ _ hb)
  · trivial

theorem faultless_of_avoids {a : Raft.Action n Cmd} (ha : Raft.Avoids faulty s a) : Faultless s a :=
  ⟨⟨avoids_mono (fun _ _ => .inl) ha, avoids_mono (fun _ _ h => .inr (.inl h)) ha⟩,
    avoids_mono (fun _ _ h => .inr (.inr h)) ha⟩

end Corollaries

end CS240.Raft.Config
