import PostgresLib.Client.Fifo
import PostgresLib.Client.Overlap
import PostgresLib.Client.Shutdown
import PostgresLib.Transaction.Terminators

/-! # Transactions on a client

The model of a client takes a transaction for one number, and the model of a transaction
takes its executor for a queue. Here the objects of every transaction and the calls on
them run over a client: what they enqueue is pushed to it, and they wait until it has
answered. The client in it is a run of the client's model, and each transaction one of
its own.
-/

namespace PostgresLib.Client

open Foundations Connection PostgresClient
open Transaction (Op query Creation Act Spawn terminators)

/-- A transaction of a client: the identity of its `BEGIN`, its objects with the calls on them, and
the requests that the calls have made. -/
structure OpenTransaction where
  id : ℕ
  config : Config Transaction.Shared Transaction.Thread
  made : List (ℕ × Request)

def OpenTransaction.Owns (x : OpenTransaction) (r : Request) : Bool :=
  r.id = x.id ∧ r.origin = .creation ∨ r.origin = .transaction x.id

/-- A client and the transactions that were created on it. -/
structure TransactingClient (σ ρ : Type) where
  client : PostgresClient σ ρ
  opened : List OpenTransaction

variable {σ ρ : Type}

namespace PostgresClient

def nextBegin (s : PostgresClient σ ρ) : Request :=
  s.next (.ofQuery (query "BEGIN") 0) true .creation

def nextOf (s : PostgresClient σ ρ) (t : ℕ) (op : Op) : Request :=
  s.next (commandDetail op) (isDirect op) (.transaction t)

/-- The client when a call on a transaction has pushed its request. -/
def pushOf (s : PostgresClient σ ρ) (t : ℕ) (op : Op) : PostgresClient σ ρ :=
  { s with transactions := Function.update s.transactions t (stateAfter op) }.push (s.nextOf t op)

def Answered (s : PostgresClient σ ρ) (r : Request) : Prop :=
  ∃ outcome, ⟨r.id, outcome⟩ ∈ s.answered

end PostgresClient

/-- What a call has waited for when it goes on: the answer to `BEGIN`, which decides whether
`create_transaction` returns the transaction, or the answer to its own command. -/
def Resumes (s : PostgresClient σ ρ) (id : ℕ) (made : List (ℕ × Request)) (creation : Creation) :
    Transaction.Thread → Prop
  | .beginning => (creation = .returned → ∃ result, ⟨id, .ok result⟩ ∈ s.answered) ∧
      (creation = .dropped → ∃ e, ⟨id, .error e⟩ ∈ s.answered)
  | .waiting _ call _ => ∃ r, (call, r) ∈ made ∧ s.Answered r
  | _ => True

variable (lib : Libpq σ Submission ρ) (heartbeatEnabled : Bool) (callbackThreads : ℕ)

/-- A step of the client that makes no request of a transaction, the construction of a transaction
with its `BEGIN`, or a step of a transaction's calls. -/
inductive TransactingStep : TransactingClient σ ρ → TransactingClient σ ρ → Prop
  | client {client client' opened}
      (h : Step lib heartbeatEnabled callbackThreads client client')
      (hown : ∀ r, client'.pushed = client.pushed ++ [r] → r.origin = .client) :
      TransactingStep ⟨client, opened⟩ ⟨client', opened⟩
  | create {client opened} (h : client.Accepts) :
      TransactingStep ⟨client, opened⟩
        ⟨client.push client.nextBegin,
          opened ++ [⟨client.pushed.length, Transaction.beginning, [(0, client.nextBegin)]⟩]⟩
  | call {client front back id made sh sh' ts t} (h : Spawn sh ts sh' t) :
      TransactingStep ⟨client, front ++ ⟨id, ⟨sh, ts⟩, made⟩ :: back⟩
        ⟨client, front ++ ⟨id, ⟨sh', ts ++ [t]⟩, made⟩ :: back⟩
  | act {client front back id made sh sh' t t' pre post} (h : Act sh t sh' t')
      (hquiet : sh'.queue = sh.queue) (hresumes : Resumes client id made sh'.creation t) :
      TransactingStep ⟨client, front ++ ⟨id, ⟨sh, pre ++ t :: post⟩, made⟩ :: back⟩
        ⟨client, front ++ ⟨id, ⟨sh', pre ++ t' :: post⟩, made⟩ :: back⟩
  | enqueue {client front back id made sh t t' pre post call op}
      (h : Act sh t (sh.enqueue ⟨call, op.command⟩) t') (hop : t.call? = some (call, op))
      (haccepts : client.Accepts) :
      TransactingStep ⟨client, front ++ ⟨id, ⟨sh, pre ++ t :: post⟩, made⟩ :: back⟩
        ⟨client.pushOf id op,
          front ++ ⟨id, ⟨sh.enqueue ⟨call, op.command⟩, pre ++ t' :: post⟩,
            made ++ [(call, client.nextOf id op)]⟩ :: back⟩

def transacting : TransitionSystem (TransactingClient σ ρ) where
  init s := ∃ connection, s = ⟨PostgresClient.start connection, []⟩
  step := TransactingStep lib heartbeatEnabled callbackThreads

variable {lib} {heartbeatEnabled} {callbackThreads} {s s' : PostgresClient σ ρ}

/-- What a step of the client that is not a call on a transaction leaves of a client. -/
structure OwnStep (s s' : PostgresClient σ ρ) : Prop where
  pushed : s'.pushed = s.pushed ∨ ∃ r, s'.pushed = s.pushed ++ [r] ∧ r.origin = .client
  transactions : s'.transactions = s.transactions
  answered : ∀ task ∈ s.answered, task ∈ s'.answered

theorem WorkerStep.own (h : WorkerStep lib heartbeatEnabled s s') : OwnStep s s' := by
  refine ⟨.inl h.pushed_eq, ?_, ?_⟩
  · cases h <;> rfl
  · intro task htask
    cases h with
    | deliver | deliverPosted | drainOne | drainPosted => exact List.mem_append_left _ htask
    | _ => exact htask

theorem Step.own (h : Step lib heartbeatEnabled callbackThreads s s')
    (hown : ∀ r, s'.pushed = s.pushed ++ [r] → r.origin = .client) : OwnStep s s' := by
  cases h with
  | connect => exact ⟨.inl rfl, rfl, fun _ => id⟩
  | call h =>
    cases h with
    | execute | executeAsync => exact ⟨.inr ⟨_, rfl, rfl⟩, rfl, fun _ => id⟩
    | createTransaction | onTransaction => cases hown _ rfl
  | worker h => exact h.own
  | callback h => cases h <;> exact ⟨.inl rfl, rfl, fun _ => id⟩
  | destructor h => cases h <;> exact ⟨.inl rfl, rfl, fun _ => id⟩

/-- A transaction and the client it runs over: what it enqueued is what the client was pushed for
it, in that order, and what it has waited for the client has answered. -/
structure InStep (s : PostgresClient σ ρ) (x : OpenTransaction) : Prop where
  reachable : Transaction.system.Reachable x.config
  begun : x.made.head? = some (0, ⟨x.id, .ofQuery (query "BEGIN") 0, true, .creation⟩)
  calls : x.made.map Prod.fst = x.config.shared.queue.map (·.call)
  commands : x.made.map (·.2.detail) = x.config.shared.queue.map (·.command.detail)
  pushed : s.pushed.filter x.Owns = x.made.map Prod.snd
  active : s.transactions x.id = .active ↔ terminators x.config.shared.queue = 0
  returned : x.config.shared.creation = .returned → ∃ result, ⟨x.id, .ok result⟩ ∈ s.answered
  dropped : x.config.shared.creation = .dropped → ∃ e, ⟨x.id, .error e⟩ ∈ s.answered
  waited : ∀ e ∈ x.config.shared.queue, e.command.isTerminator = true →
    (∃ i op, .waiting i e.call op ∈ x.config.threads) ∨ ∃ r, (e.call, r) ∈ x.made ∧ s.Answered r

namespace InStep

variable {x : OpenTransaction}

/-- What happens elsewhere on the client leaves a transaction in step. -/
theorem elsewhere (hs : InStep s x) (hpushed : s'.pushed.filter x.Owns = s.pushed.filter x.Owns)
    (htransactions : s'.transactions x.id = s.transactions x.id)
    (hanswered : ∀ task ∈ s.answered, task ∈ s'.answered) : InStep s' x := by
  have hmore {r : Request} (h : s.Answered r) : s'.Answered r := by
    obtain ⟨outcome, hmem⟩ := h
    exact ⟨outcome, hanswered _ hmem⟩
  exact {
    reachable := hs.reachable
    begun := hs.begun
    calls := hs.calls
    commands := hs.commands
    pushed := by rw [hpushed, hs.pushed]
    active := by rw [htransactions, hs.active]
    returned := by
      intro hreturned
      obtain ⟨result, hmem⟩ := hs.returned hreturned
      exact ⟨result, hanswered _ hmem⟩
    dropped := by
      intro hdropped
      obtain ⟨e, hmem⟩ := hs.dropped hdropped
      exact ⟨e, hanswered _ hmem⟩
    waited := by
      intro e he hterminator
      obtain hwaiting | ⟨r, hmade, hdone⟩ := hs.waited e he hterminator
      · exact .inl hwaiting
      · exact .inr ⟨r, hmade, hmore hdone⟩ }

theorem own (hs : InStep s x) (h : OwnStep s s') : InStep s' x := by
  refine hs.elsewhere ?_ (by rw [h.transactions]) h.answered
  obtain hsame | ⟨r, hr, horigin⟩ := h.pushed
  · rw [hsame]
  · rw [hr, List.filter_append]
    simp [OpenTransaction.Owns, horigin]

theorem begin_mem (hs : InStep s x) :
    (⟨x.id, .ofQuery (query "BEGIN") 0, true, .creation⟩ : Request) ∈ s.pushed := by
  have hmem : (⟨x.id, .ofQuery (query "BEGIN") 0, true, .creation⟩ : Request) ∈
      s.pushed.filter x.Owns := by
    rw [hs.pushed]
    exact List.mem_map_of_mem (List.mem_of_mem_head? hs.begun)
  exact (List.mem_filter.mp hmem).1

/-- A call that enqueues is callable on the client, and the transaction active there. -/
theorem callable {sh sh' : Transaction.Shared} {t t' : Transaction.Thread}
    {pre post : List Transaction.Thread} {id call : ℕ} {op : Op} {made : List (ℕ × Request)}
    (hs : InStep s ⟨id, ⟨sh, pre ++ t :: post⟩, made⟩) (h : Act sh t sh' t')
    (hqueue : sh' = sh.enqueue ⟨call, op.command⟩) (hop : t.call? = some (call, op)) :
    s.Callable id op ∧ terminators sh.queue = 0 ∧ (op.isStatement = true ∨
      ∃ i, t' = .waiting i call op) := by
  have ht : t ∈ pre ++ t :: post := by simp
  have hcalled : t ≠ .creating ∧ t ≠ .beginning := by
    constructor
    · rintro rfl
      cases hop
    · rintro rfl
      cases hop
  -- before the answer to `BEGIN` there is no call
  have hunderway : Transaction.Underway ⟨sh, pre ++ t :: post⟩ := by
    obtain hstart | hbeginning | hunderway := Transaction.Underway.reachable hs.reachable
    · rw [(Config.mk.inj hstart).2, List.mem_singleton] at ht
      exact absurd ht hcalled.1
    · rw [(Config.mk.inj hbeginning).2, List.mem_singleton] at ht
      exact absurd ht hcalled.2
    · exact hunderway
  have hcallable : s.Callable id op := by
    refine ⟨_, hs.begin_mem, rfl, rfl, ?_⟩
    cases hcreation : sh.creation with
    | pending => exact absurd hcreation hunderway.answered
    | returned => exact .inl (hs.returned hcreation)
    | dropped =>
      right
      exact ⟨(hunderway.dropped hcreation).1 t ht call op hop, hs.dropped hcreation⟩
  refine ⟨hcallable, ?_⟩
  obtain hsame | ⟨i, call', op', p, hop', hsh', hp, hexecutor, hdue⟩ := h.enqueues hcalled.1
  · rw [hqueue, Transaction.Shared.enqueue] at hsame
    simp at hsame
  · rw [hop, Option.some.injEq, Prod.mk.injEq] at hop'
    obtain ⟨rfl, rfl⟩ := hop'
    constructor
    · exact hunderway.none_ended ht hp hexecutor (hdue.imp And.right And.left)
    · exact hdue.imp And.left fun h => ⟨i, h.2⟩

/-- A step that enqueues nothing leaves the transaction in step when what it goes on with was
answered. -/
theorem quiet {config config' : Config Transaction.Shared Transaction.Thread} {id : ℕ}
    {made : List (ℕ × Request)} (hs : InStep s ⟨id, config, made⟩)
    (hstep : Transaction.system.step config config')
    (hqueue : config'.shared.queue = config.shared.queue)
    (hreturned : config'.shared.creation = .returned → ∃ result, ⟨id, .ok result⟩ ∈ s.answered)
    (hdropped : config'.shared.creation = .dropped → ∃ e, ⟨id, .error e⟩ ∈ s.answered)
    (hwaiting : ∀ i call op, .waiting i call op ∈ config.threads →
      .waiting i call op ∈ config'.threads ∨ ∃ r, (call, r) ∈ made ∧ s.Answered r) :
    InStep s ⟨id, config', made⟩ where
  reachable := hs.reachable.next hstep
  begun := hs.begun
  calls := by
    rw [hqueue]
    exact hs.calls
  commands := by
    rw [hqueue]
    exact hs.commands
  pushed := hs.pushed
  active := by
    rw [hqueue]
    exact hs.active
  returned := hreturned
  dropped := hdropped
  waited := by
    rw [hqueue]
    intro e he hterminator
    obtain ⟨i, op, hmem⟩ | hdone := hs.waited e he hterminator
    · exact (hwaiting i e.call op hmem).imp (fun hstill => ⟨i, op, hstill⟩) fun hdone => hdone
    · exact .inr hdone

theorem call {sh sh' : Transaction.Shared} {ts : List Transaction.Thread} {t : Transaction.Thread}
    {id : ℕ} {made : List (ℕ × Request)} (hs : InStep s ⟨id, ⟨sh, ts⟩, made⟩)
    (h : Spawn sh ts sh' t) : InStep s ⟨id, ⟨sh', ts ++ [t]⟩, made⟩ := by
  have hqueue : sh'.queue = sh.queue := by cases h <;> rfl
  have hcreation : sh'.creation = sh.creation := by cases h <;> rfl
  refine hs.quiet (.spawn ts h) hqueue ?_ ?_ ?_
  · exact fun hreturned => hs.returned (hcreation.symm.trans hreturned)
  · exact fun hdropped => hs.dropped (hcreation.symm.trans hdropped)
  · exact fun i call op hmem => .inl (List.mem_append_left _ hmem)

theorem act {sh sh' : Transaction.Shared} {t t' : Transaction.Thread}
    {pre post : List Transaction.Thread} {id : ℕ} {made : List (ℕ × Request)}
    (hs : InStep s ⟨id, ⟨sh, pre ++ t :: post⟩, made⟩) (h : Act sh t sh' t')
    (hquiet : sh'.queue = sh.queue) (hresumes : Resumes s id made sh'.creation t) :
    InStep s ⟨id, ⟨sh', pre ++ t' :: post⟩, made⟩ := by
  have hcreation : t = .beginning ∨ sh'.creation = sh.creation := by
    by_cases hbegun : t = .beginning
    · exact .inl hbegun
    · exact .inr (h.creation_eq hbegun)
  refine hs.quiet (.act pre post h) hquiet ?_ ?_ ?_
  · intro hreturned
    obtain rfl | hsame := hcreation
    · exact hresumes.1 hreturned
    · exact hs.returned (hsame.symm.trans hreturned)
  · intro hdropped
    obtain rfl | hsame := hcreation
    · exact hresumes.2 hdropped
    · exact hs.dropped (hsame.symm.trans hdropped)
  · intro i call op hmem
    obtain hpre | heq | hpost : .waiting i call op ∈ pre ∨ .waiting i call op = t ∨
        .waiting i call op ∈ post := by
      simpa using hmem
    · exact .inl (List.mem_append_left _ hpre)
    -- the call had its answer
    · subst heq
      exact .inr hresumes
    · exact .inl (List.mem_append_right _ (.tail _ hpost))

theorem enqueue {sh : Transaction.Shared} {t t' : Transaction.Thread}
    {pre post : List Transaction.Thread} {id call : ℕ} {op : Op} {made : List (ℕ × Request)}
    (hs : InStep s ⟨id, ⟨sh, pre ++ t :: post⟩, made⟩)
    (h : Act sh t (sh.enqueue ⟨call, op.command⟩) t') (hop : t.call? = some (call, op)) :
    InStep (s.pushOf id op) ⟨id, ⟨sh.enqueue ⟨call, op.command⟩, pre ++ t' :: post⟩,
      made ++ [(call, s.nextOf id op)]⟩ := by
  obtain ⟨-, hnone, hkind⟩ := hs.callable h rfl hop
  have hdetail : (s.nextOf id op).detail = op.command.detail := by
    cases hcommand : op.command <;> simp [nextOf, next, commandDetail, hcommand,
      Transaction.Command.detail]
  exact {
    reachable := hs.reachable.next (.act pre post h)
    begun := by
      have hbegun := hs.begun
      rw [List.head?_append, hbegun]
      rfl
    calls := by
      have hcalls := hs.calls
      simp only [Transaction.Shared.enqueue, List.map_append, List.map_singleton, hcalls]
    commands := by
      have hcommands := hs.commands
      simp only [Transaction.Shared.enqueue, List.map_append, List.map_singleton, hcommands,
        hdetail]
    pushed := by
      have hpushed := hs.pushed
      have hnew : [s.nextOf id op].filter (OpenTransaction.Owns ⟨id, ⟨sh, pre ++ t :: post⟩,
          made⟩) = [s.nextOf id op] := by
        simp [OpenTransaction.Owns, nextOf, next]
      simp only [pushOf, push, List.filter_append, List.map_append, List.map_singleton]
      exact congrArg₂ _ hpushed hnew
    active := by
      simp only [pushOf, push, Function.update_self, Transaction.Shared.enqueue,
        Transaction.terminators_append, hnone, stateAfter]
      cases hstatement : op.isStatement with
      | true => simp [Transaction.Op.not_isTerminator_command hstatement]
      | false =>
        simp [Transaction.Op.isTerminator_command hstatement,
          Transaction.Op.endState_ne_active]
    returned := hs.returned
    dropped := hs.dropped
    waited := by
      intro e he hterminator
      obtain hold | hnew := List.mem_append.mp he
      · exact absurd hterminator (List.countP_eq_zero.mp hnone e hold)
      · rw [List.mem_singleton.mp hnew] at hterminator ⊢
        obtain hstatement | ⟨i, rfl⟩ := hkind
        · rw [Transaction.Op.not_isTerminator_command hstatement] at hterminator
          cases hterminator
        · exact .inl ⟨i, op, List.mem_append_right _ (.head _)⟩ }

end InStep

/-- A number that no request has yet is that of no transaction that was ended. -/
def Untouched (s : PostgresClient σ ρ) : Prop :=
  ∀ t, s.pushed.length ≤ t → s.transactions t = .active

theorem untouched_step (hreach : (system lib heartbeatEnabled callbackThreads).Reachable s)
    (hs : Untouched s) (h : Step lib heartbeatEnabled callbackThreads s s') : Untouched s' := by
  intro t ht
  cases h with
  | connect => exact hs t ht
  | call h =>
    have hlt : s.pushed.length < t := by
      cases h with
      | execute | executeAsync | createTransaction | onTransaction =>
        simpa [push, Nat.succ_le_iff] using ht
    cases h with
    | execute | executeAsync | createTransaction => exact hs t hlt.le
    | onTransaction u op haccepts hcallable =>
      obtain ⟨r, hr, hid, -⟩ := hcallable
      have hu := id_lt_of_reachable hreach hr
      have hne : t ≠ u := by omega
      simp only [push, Function.update_of_ne hne]
      exact hs t hlt.le
  | worker h =>
    rw [h.pushed_eq] at ht
    rw [h.own.transactions]
    exact hs t ht
  | callback h => cases h <;> exact hs t ht
  | destructor h => cases h <;> exact hs t ht

theorem untouched_of_reachable (h : (system lib heartbeatEnabled callbackThreads).Reachable s) :
    Untouched s := by
  apply h.induct
  · rintro s ⟨connection, rfl⟩
    exact fun _ _ => rfl
  · exact fun s s' hreach hs hstep => untouched_step hreach hs hstep

theorem inStep_beginning (hreach : (system lib heartbeatEnabled callbackThreads).Reachable s) :
    InStep (s.push s.nextBegin)
      ⟨s.pushed.length, Transaction.beginning, [(0, s.nextBegin)]⟩ where
  reachable := by
    have hstart : Transaction.system.Reachable Transaction.start := .of_init rfl
    exact hstart.next (.act [] [] .create)
  begun := rfl
  calls := rfl
  commands := rfl
  pushed := by
    have hnone : s.pushed.filter (OpenTransaction.Owns ⟨s.pushed.length, Transaction.beginning,
        [(0, s.nextBegin)]⟩) = [] := by
      rw [List.filter_eq_nil_iff]
      intro r hr howns
      have hlt := id_lt_of_reachable hreach hr
      simp only [OpenTransaction.Owns, decide_eq_true_eq] at howns
      obtain ⟨hid, -⟩ | horigin := howns
      · omega
      · have := followsBegin_of_reachable hreach r hr _ horigin
        omega
    rw [push, List.filter_append, hnone]
    simp [OpenTransaction.Owns, nextBegin, next]
  active := by
    have hactive := untouched_of_reachable hreach s.pushed.length (Nat.le_refl _)
    exact ⟨fun _ => rfl, fun _ => hactive⟩
  returned := nofun
  dropped := nofun
  waited e he hterminator := by
    rw [List.mem_singleton.mp he] at hterminator
    cases hterminator

/-- A client that is a run of its own model, with transactions in step that have different
numbers. -/
structure Hosts (lib : Libpq σ Submission ρ) (heartbeatEnabled : Bool) (callbackThreads : ℕ)
    (s : TransactingClient σ ρ) : Prop where
  client : (system lib heartbeatEnabled callbackThreads).Reachable s.client
  inStep : ∀ x ∈ s.opened, InStep s.client x
  distinct : (s.opened.map (·.id)).Nodup

theorem InStep.id_lt {x : OpenTransaction} (hs : InStep s x)
    (hreach : (system lib heartbeatEnabled callbackThreads).Reachable s) :
    x.id < s.pushed.length :=
  id_lt_of_reachable hreach hs.begin_mem

/-- What one transaction pushes leaves the others in step. -/
theorem InStep.beside {x : OpenTransaction} (hs : InStep s x) {t : ℕ} (hne : x.id ≠ t) (op : Op) :
    InStep (s.pushOf t op) x := by
  refine hs.elsewhere ?_ (Function.update_of_ne hne _ _) fun _ htask => htask
  simp [pushOf, push, List.filter_append, OpenTransaction.Owns, nextOf, next, Ne.symm hne]

/-- So does a transaction that is created. -/
theorem InStep.besideNew {x : OpenTransaction} (hs : InStep s x)
    (hreach : (system lib heartbeatEnabled callbackThreads).Reachable s) :
    InStep (s.push s.nextBegin) x := by
  refine hs.elsewhere ?_ rfl fun _ htask => htask
  have hlt := hs.id_lt hreach
  have hne : s.pushed.length ≠ x.id := by omega
  simp [push, List.filter_append, OpenTransaction.Owns, nextBegin, next, hne]

theorem id_ne_of_nodup {front back : List OpenTransaction} {x : OpenTransaction}
    (h : ((front ++ x :: back).map (·.id)).Nodup) {y : OpenTransaction}
    (hy : y ∈ front ∨ y ∈ back) : y.id ≠ x.id := by
  rw [List.map_append, List.map_cons, List.nodup_append, List.nodup_cons] at h
  obtain ⟨-, ⟨hback, -⟩, hfront⟩ := h
  obtain hy | hy := hy
  · exact hfront _ (List.mem_map_of_mem hy) _ (.head _)
  · intro heq
    exact hback (heq ▸ List.mem_map_of_mem hy)

theorem Hosts.step {s s' : TransactingClient σ ρ}
    (hs : Hosts lib heartbeatEnabled callbackThreads s)
    (h : TransactingStep lib heartbeatEnabled callbackThreads s s') :
    Hosts lib heartbeatEnabled callbackThreads s' := by
  obtain ⟨hclient, hinStep, hdistinct⟩ := hs
  cases h with
  | client h hown =>
    exact ⟨hclient.next h, fun x hx => (hinStep x hx).own (h.own hown), hdistinct⟩
  | @create client opened h =>
    refine ⟨hclient.next (.call (.createTransaction h)), ?_, ?_⟩
    · intro x hx
      obtain hold | hnew := List.mem_append.mp hx
      · exact (hinStep x hold).besideNew hclient
      · rw [List.mem_singleton.mp hnew]
        exact inStep_beginning hclient
    · rw [List.map_append, List.nodup_append]
      refine ⟨hdistinct, List.nodup_singleton _, ?_⟩
      intro id hid id' hid'
      obtain ⟨x, hx, rfl⟩ := List.mem_map.mp hid
      rw [List.map_singleton, List.mem_singleton] at hid'
      rw [hid']
      exact ((hinStep x hx).id_lt hclient).ne
  | call h =>
    rw [List.forall_mem_append, List.forall_mem_cons] at hinStep
    obtain ⟨hfront, hx, hback⟩ := hinStep
    refine ⟨hclient, ?_, by simpa using hdistinct⟩
    rw [List.forall_mem_append, List.forall_mem_cons]
    exact ⟨hfront, hx.call h, hback⟩
  | act h hquiet hresumes =>
    rw [List.forall_mem_append, List.forall_mem_cons] at hinStep
    obtain ⟨hfront, hx, hback⟩ := hinStep
    refine ⟨hclient, ?_, by simpa using hdistinct⟩
    rw [List.forall_mem_append, List.forall_mem_cons]
    exact ⟨hfront, hx.act h hquiet hresumes, hback⟩
  | enqueue h hop haccepts =>
    rw [List.forall_mem_append, List.forall_mem_cons] at hinStep
    obtain ⟨hfront, hx, hback⟩ := hinStep
    obtain ⟨hcallable, hnone, -⟩ := hx.callable h rfl hop
    refine ⟨?_, ?_, by simpa using hdistinct⟩
    · exact hclient.next (.call (.onTransaction _ _ haccepts hcallable (hx.active.mpr hnone)))
    · rw [List.forall_mem_append, List.forall_mem_cons]
      refine ⟨fun y hy => ?_, hx.enqueue h hop, fun y hy => ?_⟩
      · exact (hfront y hy).beside (id_ne_of_nodup hdistinct (.inl hy)) _
      · exact (hback y hy).beside (id_ne_of_nodup hdistinct (.inr hy)) _

/-- The client is a run of the client's model, and the transactions on it are in step. -/
theorem hosts_of_reachable {s : TransactingClient σ ρ}
    (h : (transacting lib heartbeatEnabled callbackThreads).Reachable s) :
    Hosts lib heartbeatEnabled callbackThreads s := by
  apply h.induct
  · rintro s ⟨connection, rfl⟩
    exact ⟨.of_init ⟨connection, rfl⟩, nofun, List.nodup_nil⟩
  · exact fun s s' _ hs hstep => hs.step hstep

end PostgresLib.Client
