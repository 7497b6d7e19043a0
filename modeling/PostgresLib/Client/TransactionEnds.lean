import PostgresLib.Client.Transactions

/-! # What a client sees of a transaction

In every run the client is given a transaction's `BEGIN`, then statements, then at most
one `COMMIT` or `ROLLBACK`, and hands them to libpq in that order. When the last object
is destroyed, and no move construction took the executor from under a call, the
transaction is over: all of this has been answered.
-/

namespace PostgresLib.Client

open Foundations Connection PostgresClient
open Transaction (Op Object query terminators beginEntry)

variable {σ ρ : Type} {lib : Libpq σ Submission ρ} {heartbeatEnabled : Bool}
  {callbackThreads : ℕ} {s : PostgresClient σ ρ} {x : OpenTransaction}

/-- A transaction as a client sees it. -/
structure Transacts (s : PostgresClient σ ρ) (x : OpenTransaction) : Prop where
  reachable : Transaction.system.Reachable x.config
  active : s.transactions x.id = .active ↔ terminators x.config.shared.queue = 0
  pushed : s.pushed.filter x.Owns = x.made.map Prod.snd
  calls : x.made.map Prod.fst = x.config.shared.queue.map (·.call)
  commands : x.made.map (·.2.detail) = x.config.shared.queue.map (·.command.detail)
  executed : s.executed.filter x.Owns <+: s.pushed.filter x.Owns
  endedOnce : ∃ statements ends, x.config.shared.queue = statements ++ ends ∧
    (∀ e ∈ statements, e.command.isTerminator = false) ∧
    (∀ e ∈ ends, e.command.isTerminator = true) ∧ ends.length ≤ 1
  afterBegin : ∀ r ∈ s.pushed, r.origin = .transaction x.id →
    (∃ result, ⟨x.id, .ok result⟩ ∈ s.answered) ∨
      (∃ e, ⟨x.id, .error e⟩ ∈ s.answered) ∧ r.detail = .ofQuery (query "ROLLBACK") 0

/-- Only the `BEGIN` is pushed before it is answered, and only a `ROLLBACK` after it failed. -/
theorem InStep.afterBegin (hs : InStep s x) {r : Request} (hr : r ∈ s.pushed)
    (horigin : r.origin = .transaction x.id) :
    (∃ result, ⟨x.id, .ok result⟩ ∈ s.answered) ∨
      (∃ e, ⟨x.id, .error e⟩ ∈ s.answered) ∧ r.detail = .ofQuery (query "ROLLBACK") 0 := by
  have hmade : r ∈ x.made.map Prod.snd := by
    rw [← hs.pushed, List.mem_filter]
    exact ⟨hr, by simp [OpenTransaction.Owns, horigin]⟩
  obtain ⟨rest, hrest⟩ := List.head?_eq_some_iff.mp hs.begun
  have htail : r.detail ∈ x.config.shared.queue.tail.map (·.command.detail) := by
    rw [List.map_tail, ← hs.commands, hrest]
    rw [hrest, List.map_cons, List.mem_cons] at hmade
    obtain rfl | hlater := hmade
    · cases horigin
    · obtain ⟨m, hm, rfl⟩ := List.mem_map.mp hlater
      exact List.mem_map_of_mem hm
  obtain hstart | hbeginning | hunderway := Transaction.Underway.reachable hs.reachable
  · rw [hstart] at htail
    cases htail
  · rw [hbeginning] at htail
    cases htail
  · cases hcreation : x.config.shared.creation with
    | pending => exact absurd hcreation hunderway.answered
    | returned => exact .inl (hs.returned hcreation)
    | dropped =>
      right
      refine ⟨hs.dropped hcreation, ?_⟩
      obtain ⟨e, he, hdetail⟩ := List.mem_map.mp htail
      rw [← hdetail, (hunderway.dropped hcreation).2 e he]
      rfl

/-- The client with its transactions runs as the client's model and the transaction's model say,
and each is for the other what its own model takes it for: to the client a transaction is active
until its terminator is pushed, and what the calls on its objects enqueue is pushed in that order,
handed to libpq in that order, and none of it but the `BEGIN` before the `BEGIN` succeeded. -/
theorem transacts_of_reachable {s : TransactingClient σ ρ}
    (h : (transacting lib heartbeatEnabled callbackThreads).Reachable s) :
    (system lib heartbeatEnabled callbackThreads).Reachable s.client ∧
      ∀ x ∈ s.opened, Transacts s.client x := by
  have hs := hosts_of_reachable h
  refine ⟨hs.client, fun x hx => ?_⟩
  have hx := hs.inStep x hx
  exact {
    reachable := hx.reachable
    active := hx.active
    pushed := hx.pushed
    calls := hx.calls
    commands := hx.commands
    executed := (sequenced_of_reachable hs.client).1.filter _
    endedOnce := Transaction.ended_once hx.reachable
    afterBegin := fun r hr horigin => hx.afterBegin hr horigin }

structure Concluded (s : PostgresClient σ ρ) (x : OpenTransaction) : Prop where
  terminated : ∃ statements e, x.config.shared.queue = statements ++ [e] ∧
    (∀ e ∈ statements, e.command.isTerminator = false) ∧ e.command.isTerminator = true
  answered : ∀ r ∈ s.pushed, x.Owns r = true → s.answered.countP (·.id = r.id) = 1
  executed : s.stopRequested = false → s.executed.filter x.Owns = s.pushed.filter x.Owns

/-- No move construction takes the executor from under a call. -/
def MovesSettled (s s' : TransactingClient σ ρ) : Prop :=
  ∀ (n : ℕ) (x x' : OpenTransaction), s.opened[n]? = some x → s'.opened[n]? = some x' →
    ∀ i, Transaction.TakesExecutor x.config.shared x'.config.shared i →
      ∀ t ∈ x.config.threads, ¬ t.NeedsExecutor x.config.shared i

/-- The runs in which no move construction takes the executor from under a call. -/
def settledTransacting (lib : Libpq σ Submission ρ) (heartbeatEnabled : Bool)
    (callbackThreads : ℕ) : TransitionSystem (TransactingClient σ ρ) :=
  (transacting lib heartbeatEnabled callbackThreads).guarded MovesSettled

theorem beginning_settled : Transaction.settledRuns.Reachable Transaction.beginning := by
  have hstart : Transaction.settledRuns.Reachable Transaction.start := .of_init rfl
  exact hstart.next ⟨.act [] [] .create, Transaction.settled_of_map_eq rfl⟩

/-- The step of one transaction among others. -/
theorem MovesSettled.at {client client' : PostgresClient σ ρ} {front back : List OpenTransaction}
    {x x' : OpenTransaction}
    (h : MovesSettled ⟨client, front ++ x :: back⟩ ⟨client', front ++ x' :: back⟩) :
    ∀ i, Transaction.TakesExecutor x.config.shared x'.config.shared i →
      ∀ t ∈ x.config.threads, ¬ t.NeedsExecutor x.config.shared i :=
  h front.length x x' (by simp) (by simp)

theorem settled_step {s s' : TransactingClient σ ρ}
    (h : TransactingStep lib heartbeatEnabled callbackThreads s s') (hmoves : MovesSettled s s')
    (hs : ∀ x ∈ s.opened, Transaction.settledRuns.Reachable x.config) :
    ∀ x ∈ s'.opened, Transaction.settledRuns.Reachable x.config := by
  cases h with
  | client => exact hs
  | create =>
    intro x hx
    obtain hold | hnew := List.mem_append.mp hx
    · exact hs x hold
    · rw [List.mem_singleton.mp hnew]
      exact beginning_settled
  | call h =>
    rw [List.forall_mem_append, List.forall_mem_cons] at hs ⊢
    exact ⟨hs.1, hs.2.1.next ⟨.spawn _ h, hmoves.at⟩, hs.2.2⟩
  | act h | enqueue h =>
    rw [List.forall_mem_append, List.forall_mem_cons] at hs ⊢
    exact ⟨hs.1, hs.2.1.next ⟨.act _ _ h, hmoves.at⟩, hs.2.2⟩

theorem settled_of_reachable {s : TransactingClient σ ρ}
    (h : (settledTransacting lib heartbeatEnabled callbackThreads).Reachable s) :
    ∀ x ∈ s.opened, Transaction.settledRuns.Reachable x.config := by
  apply h.induct
  · rintro s ⟨connection, rfl⟩
    exact nofun
  · exact fun s s' _ hs hstep => settled_step hstep.1 hstep.2 hs

/-- A transaction whose objects are all destroyed has no call that waits. -/
theorem not_waiting {c : Config Transaction.Shared Transaction.Thread}
    (hc : Transaction.Invariant c) (hall : ∀ o ∈ c.shared.objects, o.destroyed = true) {i call : ℕ}
    {op : Op} : .waiting i call op ∉ c.threads := by
  intro hwaiting
  obtain ⟨o, ho, -⟩ := hc.locals _ hwaiting
  have hdestroyed := hall o (List.mem_of_getElem? ho)
  have hcount := hc.closed i o ho (hc.retired i o ho hdestroyed).1
  have hpos : 0 < total (Transaction.Thread.on i) c.threads :=
    total_pos.mpr ⟨_, hwaiting, by simp [Transaction.Thread.on, Transaction.Thread.object]⟩
  rw [hdestroyed, if_pos rfl] at hcount
  omega

/-- The commands of a transaction that has ended once. -/
theorem queue_of_invariant {c : Config Transaction.Shared Transaction.Thread}
    (hc : Transaction.Invariant c) (hall : ∀ o ∈ c.shared.objects, o.destroyed = true) :
    ∃ statements e, c.shared.queue = statements ++ [e] ∧
      (∀ e ∈ statements, e.command.isTerminator = false) ∧ e.command.isTerminator = true := by
  have hone := hc.exactlyOne hall
  obtain ⟨statements, ends, hqueue, hstatements, hends⟩ := hc.sorted
  have hnone : statements.countP (fun e => e.command.isTerminator) = 0 := by
    rw [List.countP_eq_zero]
    intro e he
    simp [hstatements e he]
  rw [terminators, hqueue, List.countP_append, hnone, List.countP_eq_length.mpr hends,
    Nat.zero_add] at hone
  obtain ⟨e, rfl⟩ := List.length_eq_one_iff.mp hone
  exact ⟨statements, e, hqueue, hstatements, hends e (.head _)⟩

/-- When the last request of a kind is answered, so are all of them. -/
theorem none_open (h : (system lib heartbeatEnabled callbackThreads).Reachable s)
    {kind : Request → Bool} {before : List Request} {last : Request}
    (hlast : s.pushed.filter kind = before ++ [last]) (hanswered : s.Answered last) :
    (s.worker.owes ++ s.requests).filter kind = [] := by
  obtain ⟨finished, hids, hplaces⟩ := placed_of_reachable h
  obtain ⟨outcome, htask⟩ := hanswered
  have hdone : last.id ∈ finished.map (·.id) := by
    rw [hids]
    exact List.mem_map_of_mem htask
  have hnodup := nodup_pushed h
  rw [← hplaces, List.map_append, List.nodup_append] at hnodup
  rw [← hplaces, List.filter_append] at hlast
  obtain hnil | ⟨rest, r, hrest⟩ :=
    List.eq_nil_or_concat' ((s.worker.owes ++ s.requests).filter kind)
  · exact hnil
  -- the last request would be open
  · rw [hrest, ← List.append_assoc] at hlast
    obtain ⟨-, hr⟩ := List.append_inj' hlast rfl
    obtain rfl := List.singleton_inj.mp hr
    have hopen : r ∈ s.worker.owes ++ s.requests := by
      have hmem : r ∈ (s.worker.owes ++ s.requests).filter kind := by simp [hrest]
      exact (List.mem_filter.mp hmem).1
    exact absurd rfl (hnodup.2.2 _ hdone _ (List.mem_map_of_mem hopen))

theorem Worker.holds_subset (w : Worker ρ) : ∀ r ∈ w.holds, r ∈ w.owes := by
  intro r hr
  cases w with
  | executing => exact hr
  | _ => cases hr

/-- The last request of a transaction that is over is its terminator, and it was answered. -/
theorem InStep.terminator_answered (hs : InStep s x) {statements : List Transaction.Entry}
    {e : Transaction.Entry} (hqueue : x.config.shared.queue = statements ++ [e])
    (hterminator : e.command.isTerminator = true)
    (hreturned : ∀ i op, .waiting i e.call op ∉ x.config.threads) :
    ∃ before last, s.pushed.filter x.Owns = before ++ [last] ∧ s.Answered last := by
  have he : e ∈ x.config.shared.queue := by simp [hqueue]
  obtain ⟨i, op, hwaiting⟩ | ⟨r, hmade, hanswered⟩ := hs.waited e he hterminator
  · exact absurd hwaiting (hreturned i op)
  · have hcalls := hs.calls
    have hnodup := Transaction.calls_nodup hs.reachable
    rw [← hcalls] at hnodup
    obtain hnil | ⟨before, m, hlast⟩ := List.eq_nil_or_concat' x.made
    · rw [hnil] at hmade
      cases hmade
    rw [hlast, hqueue, List.map_append, List.map_append] at hcalls
    obtain ⟨-, hcall⟩ := List.append_inj' hcalls rfl
    rw [List.map_singleton, List.map_singleton, List.singleton_inj] at hcall
    refine ⟨before.map Prod.snd, r, ?_, hanswered⟩
    rw [hlast, List.map_append, List.nodup_append] at hnodup
    rw [hlast, List.mem_append, List.mem_singleton] at hmade
    rw [hs.pushed, hlast, List.map_append, List.map_singleton]
    obtain hearlier | rfl := hmade
    · exact absurd hcall.symm (hnodup.2.2 _ (List.mem_map_of_mem hearlier) _ (by simp))
    · rfl

/-- When all objects of a transaction are destroyed, its `BEGIN`, its statements and one `COMMIT`
or `ROLLBACK` have been pushed and answered, and unless the client is being stopped they were
handed to libpq, in that order and without anything else of the transaction. -/
theorem concluded_of_settled {s : TransactingClient σ ρ} {x : OpenTransaction}
    (h : (settledTransacting lib heartbeatEnabled callbackThreads).Reachable s)
    (hx : x ∈ s.opened) (hall : ∀ o ∈ x.config.shared.objects, o.destroyed = true) :
    Concluded s.client x := by
  have hs := hosts_of_reachable h.of_guarded
  have hinStep := hs.inStep x hx
  have hinvariant : Transaction.Invariant x.config := by
    obtain hstart | hbeginning | hinvariant :=
      Transaction.Invariant.reachable (settled_of_reachable h x hx)
    · rw [hstart] at hall
      cases hall _ (.head _)
    · rw [hbeginning] at hall
      cases hall _ (.head _)
    · exact hinvariant
  obtain ⟨statements, e, hqueue, hstatements, hterminator⟩ := queue_of_invariant hinvariant hall
  obtain ⟨before, last, hlast, hanswered⟩ := hinStep.terminator_answered hqueue hterminator
    fun i op => not_waiting hinvariant hall
  have hnone := none_open hs.client hlast hanswered
  rw [List.filter_append, List.append_eq_nil_iff, List.filter_eq_nil_iff,
    List.filter_eq_nil_iff] at hnone
  obtain ⟨howed, hqueued⟩ := hnone
  exact {
    terminated := ⟨statements, e, hqueue, hstatements, hterminator⟩
    answered := by
      intro r hr howns
      exact answered_once hs.client hr (fun hmem => howed r hmem howns)
        fun hmem => hqueued r hmem howns
    executed := by
      intro hrunning
      have hstopped : s.client.worker.stopped = false := by
        by_contra hstopped
        have := (stopRecorded_of_reachable hs.client).stopped (by simpa using hstopped)
        rw [hrunning] at this
        cases this
      have hheld : s.client.worker.holds.filter x.Owns = [] := by
        rw [List.filter_eq_nil_iff]
        exact fun r hr => howed r (Worker.holds_subset _ r hr)
      rw [← (sequenced_of_reachable hs.client).2 hstopped, List.filter_append, List.filter_append,
        hheld, List.filter_eq_nil_iff.mpr hqueued, List.append_nil, List.append_nil] }

theorem movesSettled_nil (client : PostgresClient σ ρ) (s' : TransactingClient σ ρ) :
    MovesSettled ⟨client, []⟩ s' := by
  intro n x x' hx
  simp at hx

/-- A step of the only transaction that leaves the executors where they are. -/
theorem movesSettled_single {client client' : PostgresClient σ ρ} {x x' : OpenTransaction}
    (h : x'.config.shared.objects.map Object.executor =
      x.config.shared.objects.map Object.executor) :
    MovesSettled ⟨client, [x]⟩ ⟨client', [x']⟩ := by
  intro n y y' hy hy'
  rw [List.getElem?_singleton] at hy hy'
  split_ifs at hy hy'
  obtain rfl := Option.some.inj hy
  obtain rfl := Option.some.inj hy'
  exact Transaction.settled_of_map_eq h

theorem Step.length_pushed_le {s' : PostgresClient σ ρ}
    (h : Step lib heartbeatEnabled callbackThreads s s') : s.pushed.length ≤ s'.pushed.length := by
  cases h with
  | connect => exact Nat.le_refl _
  | call h =>
    obtain ⟨transactions, detail, direct, origin, rfl, -, -⟩ := h.eq_push
    simp [push]
  | worker h => rw [h.pushed_eq]
  | callback h => cases h <;> exact Nat.le_refl _
  | destructor h => cases h <;> exact Nat.le_refl _

/-- What the client does without a call it does with its transactions too. -/
theorem run_transacting (x : OpenTransaction) {s' : PostgresClient σ ρ}
    (h : (system lib heartbeatEnabled callbackThreads).Run s s')
    (hpushed : s'.pushed.length ≤ s.pushed.length) :
    (settledTransacting lib heartbeatEnabled callbackThreads).Run ⟨s, [x]⟩ ⟨s', [x]⟩ := by
  induction h with
  | refl => exact .refl
  | @tail s₁ s₂ hrun hstep ih =>
    have hgrows : s.pushed.length ≤ s₁.pushed.length :=
      TransitionSystem.Run.preserves (P := fun c => s.pushed.length ≤ c.pushed.length)
        (fun _ _ hs hle => hle.trans (Step.length_pushed_le hs)) hrun (Nat.le_refl _)
    have hgrows' := Step.length_pushed_le hstep
    refine (ih (hgrows'.trans hpushed)).tail ⟨.client hstep fun r hr => ?_, movesSettled_single rfl⟩
    have hlength := congrArg List.length hr
    rw [List.length_append, List.length_singleton] at hlength
    omega

section Single

variable {client : PostgresClient σ ρ} {id : ℕ} {made : List (ℕ × Request)}
  {sh sh' : Transaction.Shared} {t t' : Transaction.Thread}

theorem call_single {ts : List Transaction.Thread} (h : Transaction.Spawn sh ts sh' t)
    (hexecutors : sh'.objects.map Object.executor = sh.objects.map Object.executor) :
    (settledTransacting lib heartbeatEnabled callbackThreads).step
      ⟨client, [⟨id, ⟨sh, ts⟩, made⟩]⟩ ⟨client, [⟨id, ⟨sh', ts ++ [t]⟩, made⟩]⟩ := by
  refine ⟨?_, movesSettled_single hexecutors⟩
  rw [← List.nil_append [_], ← List.nil_append [_]]
  exact .call h

theorem act_single (pre post : List Transaction.Thread) (h : Transaction.Act sh t sh' t')
    (hquiet : sh'.queue = sh.queue) (hresumes : Resumes client id made sh'.creation t)
    (hexecutors : sh'.objects.map Object.executor = sh.objects.map Object.executor) :
    (settledTransacting lib heartbeatEnabled callbackThreads).step
      ⟨client, [⟨id, ⟨sh, pre ++ t :: post⟩, made⟩]⟩
      ⟨client, [⟨id, ⟨sh', pre ++ t' :: post⟩, made⟩]⟩ := by
  refine ⟨?_, movesSettled_single hexecutors⟩
  rw [← List.nil_append [_], ← List.nil_append [_]]
  exact .act h hquiet hresumes

theorem enqueue_single (pre post : List Transaction.Thread) {call : ℕ} {op : Op}
    (h : Transaction.Act sh t (sh.enqueue ⟨call, op.command⟩) t')
    (hop : t.call? = some (call, op)) (haccepts : client.Accepts) :
    (settledTransacting lib heartbeatEnabled callbackThreads).step
      ⟨client, [⟨id, ⟨sh, pre ++ t :: post⟩, made⟩]⟩
      ⟨client.pushOf id op, [⟨id, ⟨sh.enqueue ⟨call, op.command⟩, pre ++ t' :: post⟩,
        made ++ [(call, client.nextOf id op)]⟩]⟩ := by
  refine ⟨?_, movesSettled_single rfl⟩
  rw [← List.nil_append [_], ← List.nil_append [_]]
  exact .enqueue h hop haccepts

end Single

/-- A client that was pushed the `BEGIN` of its first transaction. -/
def opening : PostgresClient (Server Submission) Submission :=
  { start (Server.fresh [true, true]) with worker := .loopTest }.push beginRequest

/-- The client when the `COMMIT` has been answered as well. -/
def concluding : PostgresClient (Server Submission) Submission :=
  serve ((serve opening beginRequest).pushOf 0 .commit)
    ((serve opening beginRequest).nextOf 0 .commit)

def concluded : OpenTransaction where
  id := 0
  config :=
    { shared := Transaction.afterCreation [⟨.commit, true, false, true, true⟩]
        [beginEntry, ⟨1, Op.commit.command⟩] 3
      threads := [.returned, .returned, .returned] }
  made := [(0, beginRequest), (1, (serve opening beginRequest).nextOf 0 .commit)]

theorem opening_connection : (serve opening beginRequest).connection = ⟨none, false, 0, [true]⟩ :=
  server_state _ 0 true [true]

theorem concluding_reachable :
    (settledTransacting server false 0).Reachable ⟨concluding, [concluded]⟩ := by
  have h₀ : (settledTransacting server false 0).Reachable
      ⟨start (Server.fresh [true, true]), []⟩ := .of_init ⟨_, rfl⟩
  have h₁ := h₀.next ⟨.client (.connect rfl rfl) (by intro r hr; simp [start] at hr),
    movesSettled_nil _ _⟩
  have h₂ := h₁.next ⟨.create ⟨rfl, nofun⟩, movesSettled_nil _ _⟩
  have h₃ : (settledTransacting server false 0).Reachable
      ⟨serve opening beginRequest, [⟨0, Transaction.beginning, [(0, beginRequest)]⟩]⟩ :=
    h₂.run (run_transacting _ (served rfl rfl rfl rfl rfl) (Nat.le_refl _))
  -- `create_transaction` returns the transaction
  have h₄ := h₃.next (act_single [] [] .created rfl ⟨fun _ => ⟨_, .head _⟩, nofun⟩ rfl)
  have h₅ := h₄.next (call_single (Transaction.commit_begins _) rfl)
  have h₆ := h₅.next (act_single [_] [] Transaction.commit_terminates rfl trivial rfl)
  have h₇ := h₆.next (enqueue_single [_] [] (.send rfl rfl) rfl ⟨rfl, nofun⟩)
  have h₈ := h₇.run (run_transacting _ (served rfl rfl rfl rfl opening_connection) (Nat.le_refl _))
  have h₉ := h₈.next (act_single [_] [] (.answered (by simp)) rfl
    ⟨_, .tail _ (.head _), _, .tail _ (.head _)⟩ rfl)
  -- the object is destroyed
  have h₁₀ : (settledTransacting server false 0).Reachable ⟨concluding, [⟨0,
      ⟨Transaction.afterCreation [⟨.commit, true, false, true, false⟩]
        [beginEntry, ⟨1, Op.commit.command⟩] 3, [.returned, .returned, .start 0 2 .destroy]⟩,
      concluded.made⟩]⟩ :=
    h₉.next (call_single (Transaction.destroy_begins (i := 0) [.returned, .returned]
      (o := ⟨.commit, true, false, false, false⟩) rfl rfl (by simp [Transaction.Thread.object]))
      rfl)
  exact h₁₀.next (act_single [_, _] [] (Transaction.destroy_leaves (i := 0)
    (o := ⟨.commit, true, false, true, false⟩) rfl (by simp)) rfl trivial rfl)

theorem transacts_concluding :
    (system server false 0).Reachable concluding ∧ ∀ x ∈ [concluded], Transacts concluding x :=
  transacts_of_reachable concluding_reachable.of_guarded

theorem concluded_concluding : Concluded concluding concluded :=
  concluded_of_settled concluding_reachable (.head _) (by simp [concluded,
    Transaction.afterCreation])

end PostgresLib.Client
