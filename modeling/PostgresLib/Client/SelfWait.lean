import PostgresLib.Client.Owners
import PostgresLib.Client.Sessions

/-! # When the worker waits for itself

The worker runs the destructor of an active transaction, which only the worker can
serve, when every other owner is gone before the owners in its own frame are. Two kinds
of steps can bring that about: the worker settles which callback it will not use, and
another thread lets go of an owner. When both leave an owner elsewhere, the worker
never waits for itself.
-/

namespace PostgresLib.Client


open Foundations Connection PostgresClient OwnedClient
open Transaction (Op State query)

variable {σ ρ : Type} {lib : Libpq σ Submission ρ} {heartbeatEnabled : Bool} {callbackThreads : ℕ}

section Owned

variable {s s' : OwnedClient σ ρ}

/-- Whatever is owned was returned by `create_transaction`, direct requests own nothing, and the
client is one that the application has called in the usual way. -/
structure OwnersKnown (lib : Libpq σ Submission ρ) (heartbeatEnabled : Bool) (callbackThreads : ℕ)
    (captures : Captures) (s : OwnedClient σ ρ) : Prop where
  client : (system lib heartbeatEnabled callbackThreads).Reachable s.client
  handles : ∀ t, 0 < s.handles t → t ∈ s.returned
  captured : ∀ r ∈ s.client.pushed, ∀ t ∈ captures.ofRequest r, t ∈ s.returned
  direct : ∀ r ∈ s.client.pushed, r.directCallback = true → captures.ofRequest r = []
  drained : s.drained ⊆ s.client.pushed
  releasing : ∀ t ∈ s.releasing, t ∈ s.returned
  returned : ∀ t ∈ s.returned, s.client.Callable t .destroy

section Known

variable (hs : OwnersKnown lib heartbeatEnabled callbackThreads captures s)
include hs

theorem OwnersKnown.of_captures {c : Callback} (hc : ∃ r ∈ s.client.pushed, c ∈ r.callbacks)
    (ht : t ∈ captures c) : t ∈ s.returned := by
  obtain ⟨r, hr, hc⟩ := hc
  exact hs.captured r hr t (List.mem_flatMap.mpr ⟨c, hc, ht⟩)

theorem OwnersKnown.of_callable (h : 0 < captures.ownersIn t s.client.callable) :
    t ∈ s.returned := by
  rcases ownersIn_pos.mp h with ⟨c, hc, ht⟩
  exact hs.of_captures (pushed_of_callable hs.client hc) ht

theorem OwnersKnown.of_outside (h : 0 < s.outside captures t) : t ∈ s.returned := by
  rcases Nat.add_pos_iff_pos_or_pos.mp h with hhandle | hcallable
  · exact hs.handles t hhandle
  · exact hs.of_callable hcallable

theorem OwnersKnown.of_frame (h : t ∈ (s.client.worker.frame s.drained).flatMap captures) :
    t ∈ s.returned := by
  rcases List.mem_flatMap.mp h with ⟨c, hc, ht⟩
  exact hs.of_captures (pushed_of_frame hs.client hs.drained hc) ht

/-- A step of the client keeps what is known, when the requests it makes and the owners that it
leaves behind are known. -/
theorem OwnersKnown.advance {client : PostgresClient σ ρ}
    (h : Step lib heartbeatEnabled callbackThreads s.client client) {made : List Request}
    (hmade : client.pushed = s.client.pushed ++ made)
    (hcaptured : ∀ r ∈ made, ∀ t ∈ captures.ofRequest r, t ∈ s.returned)
    (hdirect : ∀ r ∈ made, r.directCallback = true → captures.ofRequest r = [])
    {handles : ℕ → ℕ} (hhandles : ∀ t, 0 < handles t → t ∈ s.returned) {drained : List Request}
    (hdrained : drained ⊆ s.client.pushed) {releasing : List ℕ}
    (hreleasing : ∀ t ∈ releasing, t ∈ s.returned) {waitsFor : Option ℕ} :
    OwnersKnown lib heartbeatEnabled callbackThreads captures
      ⟨client, s.returned, handles, drained, releasing, waitsFor⟩ := by
  have hpushed : s.client.pushed ⊆ client.pushed := by
    rw [hmade]
    exact List.subset_append_left _ _
  exact {
    client := hs.client.next h
    handles := hhandles
    captured := by
      intro r hr
      rw [hmade] at hr
      rcases List.mem_append.mp hr with hold | hnew
      · exact hs.captured r hold
      · exact hcaptured r hnew
    direct := by
      intro r hr
      rw [hmade] at hr
      rcases List.mem_append.mp hr with hold | hnew
      · exact hs.direct r hold
      · exact hdirect r hnew
    drained := List.Subset.trans hdrained hpushed
    releasing := hreleasing
    returned := fun t ht => (hs.returned t ht).mono hpushed h.answered_subset }

/-- The same for a step that makes no request. -/
theorem OwnersKnown.proceed {client : PostgresClient σ ρ}
    (h : Step lib heartbeatEnabled callbackThreads s.client client)
    (hmade : client.pushed = s.client.pushed)
    {handles : ℕ → ℕ} (hhandles : ∀ t, 0 < handles t → t ∈ s.returned) {drained : List Request}
    (hdrained : drained ⊆ s.client.pushed) {releasing : List ℕ}
    (hreleasing : ∀ t ∈ releasing, t ∈ s.returned) {waitsFor : Option ℕ} :
    OwnersKnown lib heartbeatEnabled callbackThreads captures
      ⟨client, s.returned, handles, drained, releasing, waitsFor⟩ :=
  hs.advance h (hmade.trans (List.append_nil _).symm) (List.forall_mem_nil _)
    (List.forall_mem_nil _) hhandles hdrained hreleasing

theorem OwnersKnown.handles_copy (h : 0 < s.outside captures t) :
    ∀ t', 0 < Function.update s.handles t (s.handles t + 1) t' → t' ∈ s.returned := by
  intro t' ht'
  by_cases heq : t' = t
  · exact heq ▸ hs.of_outside h
  · rw [Function.update_of_ne heq] at ht'
    exact hs.handles t' ht'

theorem OwnersKnown.handles_drop (t : ℕ) :
    ∀ t', 0 < Function.update s.handles t (s.handles t - 1) t' → t' ∈ s.returned := by
  intro t' ht'
  apply hs.handles
  by_cases heq : t' = t
  · rw [heq, Function.update_self] at ht'
    rw [heq]
    omega
  · rwa [Function.update_of_ne heq] at ht'

/-- The destructor of a transaction that is owned is called like any other operation. -/
theorem OwnersKnown.destroy (ht : t ∈ s.returned) (hactive : s.Active t)
    (haccepts : s.client.Accepts) (hdirect : captures.ofRequest (s.rollbackRequest t) = [])
    {handles : ℕ → ℕ} (hhandles : ∀ t, 0 < handles t → t ∈ s.returned) {releasing : List ℕ}
    (hreleasing : ∀ t ∈ releasing, t ∈ s.returned) {waitsFor : Option ℕ} :
    OwnersKnown lib heartbeatEnabled callbackThreads captures
      ⟨s.destroy t, s.returned, handles, s.drained, releasing, waitsFor⟩ := by
  have hcall : Call s.client (s.destroy t) :=
    .onTransaction t .destroy haccepts (hs.returned t ht) hactive
  apply hs.advance (.call hcall) rfl _ _ hhandles hs.drained hreleasing
  · intro r hr u hu
    rw [List.mem_singleton.mp hr, hdirect] at hu
    cases hu
  · intro r hr _
    rw [List.mem_singleton.mp hr]
    exact hdirect

end Known

theorem ownersKnown_step (h : OwnedStep lib heartbeatEnabled callbackThreads captures s s')
    (hs : OwnersKnown lib heartbeatEnabled callbackThreads captures s) :
    OwnersKnown lib heartbeatEnabled callbackThreads captures s' := by
  cases h with
  | connect hw h =>
    exact hs.proceed (.connect hw h) rfl hs.handles hs.drained hs.releasing
  | call r h hpushed howner hdirect hcaptured =>
    apply hs.advance (.call h) hpushed _ _ hs.handles hs.drained hs.releasing
    · intro r' hr' t ht
      cases List.mem_singleton.mp hr'
      exact hs.of_outside (hcaptured t ht)
    · intro r' hr'
      cases List.mem_singleton.mp hr'
      exact hdirect
  | @obtain t hnew r result hr hid horigin h =>
    exact {
      client := hs.client
      handles := by
        intro t' ht'
        by_cases heq : t' = t
        · exact heq ▸ List.mem_cons_self
        · change 0 < Function.update s.handles t (s.handles t + 1) t' at ht'
          rw [Function.update_of_ne heq] at ht'
          exact List.mem_cons_of_mem _ (hs.handles t' ht')
      captured := fun r hr t ht => List.mem_cons_of_mem _ (hs.captured r hr t ht)
      direct := hs.direct
      drained := hs.drained
      releasing := fun t ht => List.mem_cons_of_mem _ (hs.releasing t ht)
      returned := by
        intro t' ht'
        rcases List.mem_cons.mp ht' with rfl | ht'
        · exact ⟨r, hr, hid, horigin, .inl ⟨result, h⟩⟩
        · exact hs.returned t' ht' }
  | copy t h => exact { hs with handles := hs.handles_copy h }
  | drop t h => exact { hs with handles := hs.handles_drop t }
  | dropLast t h hlast hactive haccepts hdirect =>
    exact hs.destroy (hs.handles t h) hactive haccepts hdirect (hs.handles_drop t) hs.releasing
  | worker hfree hruns h hdrain =>
    apply hs.proceed (.worker h) h.pushed_eq hs.handles hs.drained
    intro t ht
    split_ifs at ht with hframe
    · exact hs.of_frame ht
    · cases ht
  | drain hfree hruns hw h =>
    exact hs.proceed (.worker (.drain hw h)) rfl hs.handles (fun r => pushed_of_queued hs.client)
      hs.releasing
  | release t h =>
    exact { hs with releasing := fun t' ht' => hs.releasing t' (h ▸ List.mem_cons_of_mem _ ht') }
  | releaseLast t h hruns hlast hactive haccepts hdirect =>
    have ht : t ∈ s.returned := hs.releasing t (h ▸ List.mem_cons_self)
    exact hs.destroy ht hactive haccepts hdirect hs.handles
      (fun t' ht' => hs.releasing t' (h ▸ List.mem_cons_of_mem _ ht'))
  | @callback client h =>
    have hpushed : client.pushed = s.client.pushed := by cases h <;> rfl
    apply hs.proceed (.callback h) hpushed _ hs.drained hs.releasing
    intro t ht
    rcases Nat.add_pos_iff_pos_or_pos.mp ht with hhandle | hran
    · exact hs.handles t hhandle
    · have hsum : captures.ownersIn t client.callable + _ = captures.ownersIn t s.client.callable :=
        ownersIn_callable_callback h
      exact hs.of_callable (by omega)
  | @destructor client h =>
    have hpushed : client.pushed = s.client.pushed := by cases h <;> rfl
    exact hs.proceed (.destructor h) hpushed hs.handles hs.drained hs.releasing

theorem ownersKnown_of_reachable
    (h : (ownedSystem lib heartbeatEnabled callbackThreads captures).Reachable s) :
    OwnersKnown lib heartbeatEnabled callbackThreads captures s := by
  apply h.induct
  · rintro s ⟨connection, rfl⟩
    exact ⟨.of_init ⟨connection, rfl⟩, nofun, nofun, nofun, nofun, nofun, nofun⟩
  · exact fun s s' _ hs hstep => ownersKnown_step hstep hs

def OwnedClient.settled (s : OwnedClient σ ρ) : List Callback :=
  match s.client.worker with
  | .delivering r outcome => [(⟨r.id, outcome⟩ : Task ρ).unused]
  | .woken => s.client.requests.map fun r => .onSuccess r.id
  | _ => []

/-- An active transaction that the worker will let go of keeps an owner elsewhere when another
thread lets go of one, and has one when the worker settles which callback it does not use. -/
structure KeepsOwner (captures : Captures) (s s' : OwnedClient σ ρ) : Prop where
  letting : ∀ t, s.Active t → s'.handles t < s.handles t → t ∈ s.doomed captures →
    1 < s.outside captures t
  settling : ∀ t, s.Active t → t ∉ s.doomed captures → t ∈ s'.doomed captures →
    captures.ownersIn t s.settled < s.outside captures t

def keptRuns (lib : Libpq σ Submission ρ) (heartbeatEnabled : Bool) (callbackThreads : ℕ)
    (captures : Captures) : TransitionSystem (OwnedClient σ ρ) :=
  (ownedSystem lib heartbeatEnabled callbackThreads captures).guarded (KeepsOwner captures)

/-- An active transaction that the worker will let go of has an owner elsewhere. -/
structure OwnedElsewhere (captures : Captures) (s : OwnedClient σ ρ) : Prop where
  elsewhere : ∀ t, s.Active t → t ∈ s.doomed captures → 0 < s.outside captures t
  runs : s.waitsFor = none

theorem OwnedElsewhere.two_owners (hs : OwnedElsewhere captures s) (hactive : s.Active t)
    (h : t ∈ s.releasing) : 1 < s.owners captures t := by
  have hdoomed : t ∈ s.doomed captures := List.mem_append_right _ h
  have hcount := List.count_pos_iff.mpr hdoomed
  have helsewhere := hs.elsewhere t hactive hdoomed
  unfold OwnedClient.owners
  omega

theorem ownedElsewhere_worker {client : PostgresClient σ ρ} (hfree : s.releasing = [])
    (h : WorkerStep lib heartbeatEnabled s.client client)
    (hdrain : ¬ (s.client.worker = .woken ∧ s.client.stopRequested = true))
    (hs : OwnedElsewhere captures s)
    (hknown : OwnersKnown lib heartbeatEnabled callbackThreads captures s)
    (hkept : KeepsOwner captures s (s.afterWorker captures client)) :
    OwnedElsewhere captures (s.afterWorker captures client) := by
  refine ⟨?_, hs.runs⟩
  have hactive : client.transactions = s.client.transactions := by cases h <;> rfl
  intro t ht hdoomed
  have ht : s.Active t := by
    rw [Active, ← hactive]
    exact ht
  by_cases hframe : s.client.worker.frame s.drained = []
  · have hnone : t ∉ s.doomed captures := by
      rw [doomed, hframe, hfree]
      exact List.not_mem_nil
    have hframe' : client.worker.frame s.drained ≠ [] := by
      intro hnil
      simp [doomed, afterWorker, hnil, hframe] at hdoomed
    rcases h.frame_settled hdrain hframe hframe' with ⟨r, outcome, hw, -, rfl⟩
    have hsettled := hkept.settling t ht hnone hdoomed
    rw [OwnedClient.settled, hw, outside, ownersIn_callable_settled hw] at hsettled
    dsimp only at hsettled
    unfold outside afterWorker
    dsimp only
    omega
  · have hsame : (s.afterWorker captures client).doomed captures = s.doomed captures := by
      rw [doomed, doomed, hfree, afterWorker]
      rcases h.frame_kept hframe with heq | hnil
      · rw [heq, if_neg hframe]
      · rw [if_pos hnil, hnil]
        simp
    have hout := hs.elsewhere t ht (hsame ▸ hdoomed)
    have hdirect : ∀ r ∈ s.client.worker.owes, r.directCallback = true →
        captures.ofRequest r = [] :=
      fun r hr => hknown.direct r (mem_owes hknown.client hr)
    rw [outside] at hout ⊢
    rw [afterWorker, ownersIn_callable_worker h hdirect hframe]
    exact hout

/-- A step after which the worker is in the same frame, and that takes no owner away. -/
theorem OwnedElsewhere.more (hs : OwnedElsewhere captures s)
    (hdoomed : ∀ t ∈ s'.doomed captures, t ∈ s.doomed captures)
    (hactive : ∀ t, s'.Active t → s.Active t)
    (houtside : ∀ t, s'.Active t → s.outside captures t ≤ s'.outside captures t)
    (hruns : s'.waitsFor = s.waitsFor) : OwnedElsewhere captures s' where
  elsewhere := by
    intro t ht hmem
    have hout := hs.elsewhere t (hactive t ht) (hdoomed t hmem)
    have hmore := houtside t ht
    omega
  runs := hruns.trans hs.runs

theorem le_handles_copy (s : OwnedClient σ ρ) (t t' : ℕ) :
    s.handles t' ≤ Function.update s.handles t (s.handles t + 1) t' := by
  by_cases heq : t' = t
  · rw [heq, Function.update_self]
    exact Nat.le_succ _
  · rw [Function.update_of_ne heq]

theorem active_of_destroy {t' : ℕ} (h : (s.destroy t).transactions t' = .active) :
    t' ≠ t ∧ s.Active t' := by
  change Function.update s.client.transactions t .rollback t' = .active at h
  by_cases heq : t' = t
  · rw [heq, Function.update_self] at h
    cases h
  · rw [Function.update_of_ne heq] at h
    exact ⟨heq, h⟩

theorem ownedElsewhere_step (h : OwnedStep lib heartbeatEnabled callbackThreads captures s s')
    (hs : OwnedElsewhere captures s)
    (hknown : OwnersKnown lib heartbeatEnabled callbackThreads captures s)
    (hkept : KeepsOwner captures s s') : OwnedElsewhere captures s' := by
  cases h with
  | connect hw h =>
    apply hs.more
    · intro t ht
      rw [doomed, hw]
      exact ht
    · exact fun _ ht => ht
    · intro t _
      have hnone := (idleCounted_of_reachable hknown.client).unstarted hw
      rw [outside, outside, ownersIn_callable_connect hw hnone]
    · rfl
  | @call client r h =>
    have hworker : client.worker = s.client.worker := by cases h <;> rfl
    apply hs.more
    · intro t ht
      rwa [doomed, hworker] at ht
    · intro t ht
      cases h with
      | @onTransaction t' op haccepts hcallable hactive =>
        by_cases heq : t = t'
        · exact heq ▸ hactive
        · rw [Active] at ht ⊢
          exact (Function.update_of_ne heq _ _).symm.trans ht
      | _ => exact ht
    · intro t _
      exact Nat.add_le_add_left (ownersIn_callable_call h) _
    · rfl
  | obtain t | copy t =>
    apply hs.more
    · exact fun _ ht => ht
    · exact fun _ ht => ht
    · exact fun t' _ => Nat.add_le_add_right (le_handles_copy s t t') _
    · rfl
  | drop t h =>
    refine ⟨?_, hs.runs⟩
    intro t' ht hdoomed
    by_cases heq : t' = t
    · subst heq
      have hout := hkept.letting t' ht (by simp; omega) hdoomed
      unfold outside at hout ⊢
      dsimp only
      rw [Function.update_self]
      omega
    · have hout := hs.elsewhere t' ht hdoomed
      unfold outside at hout ⊢
      dsimp only
      rwa [Function.update_of_ne heq]
  | dropLast t h hlast hactive haccepts hdirect =>
    apply hs.more
    · exact fun _ ht => ht
    · exact fun _ ht => (active_of_destroy ht).2
    · intro t' ht'
      have hcallable : captures.ownersIn t' s.client.callable ≤
          captures.ownersIn t' (s.destroy t).callable := ownersIn_callable_push _ _
      unfold outside
      dsimp only
      rw [Function.update_of_ne (active_of_destroy ht').1]
      omega
    · rfl
  | worker hfree hruns h hdrain => exact ownedElsewhere_worker hfree h hdrain hs hknown hkept
  | drain hfree hruns hw h =>
    refine ⟨?_, hs.runs⟩
    intro t ht hdoomed
    have hnone : t ∉ s.doomed captures := by
      rw [doomed, hw, hfree]
      exact List.not_mem_nil
    have hsettled := hkept.settling t ht hnone hdoomed
    rw [OwnedClient.settled, hw, outside, ownersIn_callable_drain hw] at hsettled
    dsimp only at hsettled
    unfold outside
    dsimp only
    omega
  | release t h =>
    apply hs.more
    · intro t' ht'
      rcases List.mem_append.mp ht' with hframe | hreleasing
      · exact List.mem_append_left _ hframe
      · rw [doomed, h]
        exact List.mem_append_right _ (List.mem_cons_of_mem _ hreleasing)
    · exact fun _ ht => ht
    · exact fun _ _ => Nat.le_refl _
    · rfl
  | releaseLast t h hruns hlast hactive =>
    have htwo := hs.two_owners hactive (h ▸ List.mem_cons_self)
    omega
  | @callback client h =>
    have hworker : client.worker = s.client.worker := by cases h <;> rfl
    have htransactions : client.transactions = s.client.transactions := by cases h <;> rfl
    apply hs.more
    · intro t ht
      rwa [doomed, afterCallback, hworker] at ht
    · intro t ht
      rwa [Active, afterCallback, htransactions] at ht
    · intro t _
      have hsum : captures.ownersIn t client.callable + _ = captures.ownersIn t s.client.callable :=
        ownersIn_callable_callback h
      unfold outside afterCallback
      dsimp only
      omega
    · rfl
  | @destructor client h =>
    have hworker : client.worker = s.client.worker := by cases h <;> rfl
    have htransactions : client.transactions = s.client.transactions := by cases h <;> rfl
    apply hs.more
    · intro t ht
      rwa [doomed, hworker] at ht
    · intro t ht
      rwa [Active, htransactions] at ht
    · intro t _
      rw [outside, outside, ownersIn_callable_destructor h]
    · rfl

theorem ownedElsewhere_of_keptRuns
    (h : (keptRuns lib heartbeatEnabled callbackThreads captures).Reachable s) :
    OwnedElsewhere captures s := by
  apply h.induct
  · rintro s ⟨connection, rfl⟩
    exact ⟨nofun, rfl⟩
  · intro s s' hreach hs hstep
    exact ownedElsewhere_step hstep.1 hs (ownersKnown_of_reachable hreach.of_guarded) hstep.2

/-- In such a run the worker never waits for a transaction, and whatever active transaction it lets
go of has another owner. -/
theorem served_of_keptRuns
    (h : (keptRuns lib heartbeatEnabled callbackThreads captures).Reachable s) :
    s.waitsFor = none ∧ ∀ t ∈ s.releasing, s.Active t → 1 < s.owners captures t := by
  have hs := ownedElsewhere_of_keptRuns h
  constructor
  · exact hs.runs
  · exact fun t ht hactive => hs.two_owners hactive ht

end Owned

theorem KeepsOwner.of_free {s s' : OwnedClient σ ρ} (hhandles : ∀ t, s.handles t ≤ s'.handles t)
    (hfree : s'.doomed captures = []) : KeepsOwner captures s s' where
  letting := fun _ _ hless => absurd hless (Nat.not_lt.mpr (hhandles _))
  settling := fun _ _ _ hdoomed => absurd (hfree ▸ hdoomed) List.not_mem_nil

def selectRequest : Request := ⟨1, .ofQuery (query "SELECT 1") 0, false, .transaction 0⟩

def onErrorCaptures : Captures
  | .onError 1 => [0]
  | _ => []

def selectExecution : Execution (Server Submission) :=
  ⟨.request selectRequest, ((beginExecution true).ending server).state, 3⟩

theorem selectExecution_result :
    (selectExecution.ending server).result = some (.ok (.request selectRequest)) := by
  rw [selectExecution, beginExecution_state]
  exact server_result _ 0 [true]

/-- The application owns the transaction, and the worker has executed the statement. -/
def selectExecuted : OwnedClient (Server Submission) Submission where
  client :=
    { begun true with
      pushed := [beginRequest, selectRequest]
      transactions := Function.update (fun _ => .active) 0 .active }.execute server selectExecution
        (.delivering selectRequest (.ok (.request selectRequest)))
  returned := [0]
  handles := Function.update (fun _ => 0) 0 1
  drained := []
  releasing := []
  waitsFor := none

theorem selectExecuted_kept :
    (keptRuns server false 0 onErrorCaptures).Reachable selectExecuted := by
  have hfree {s s' : OwnedClient (Server Submission) Submission} (hs : s'.handles = s.handles)
      (h : s'.doomed onErrorCaptures = []) : KeepsOwner onErrorCaptures s s' :=
    .of_free (fun t => (congrFun hs t).ge) h
  have h₀ : (keptRuns server false 0 onErrorCaptures).Reachable
      (OwnedClient.start (Server.fresh [true, true])) := .of_init ⟨_, rfl⟩
  have h₁ := h₀.next ⟨.connect rfl rfl, hfree rfl rfl⟩
  have h₂ := h₁.next ⟨.call beginRequest (.createTransaction ⟨rfl, nofun⟩) rfl nofun (fun _ => rfl)
    nofun, hfree rfl rfl⟩
  have h₃ := h₂.next ⟨.worker rfl rfl (.lock rfl rfl) nofun, hfree rfl rfl⟩
  have h₄ := h₃.next ⟨.worker rfl rfl (.wait rfl) nofun, hfree rfl rfl⟩
  have h₅ := h₄.next ⟨.worker rfl rfl (.wake rfl (.inr nofun)) nofun, hfree rfl rfl⟩
  have h₆ := h₅.next ⟨.worker rfl rfl (.goOn rfl rfl) nofun, hfree rfl rfl⟩
  have h₇ : (keptRuns server false 0 onErrorCaptures).Reachable
      ⟨executingBegin true, [], fun _ => 0, [], [], none⟩ :=
    h₆.next ⟨.worker rfl rfl (.take rfl rfl) nofun, hfree rfl rfl⟩
  have h₈ := h₇.next ⟨.worker rfl rfl (.execute rfl 3 (beginExecution_result true)) nofun,
    hfree rfl rfl⟩
  have h₉ := h₈.next ⟨.worker rfl rfl (.deliver rfl rfl) nofun, hfree rfl rfl⟩
  have hbegun : (keptRuns server false 0 onErrorCaptures).Reachable
      ⟨begun true, [], fun _ => 0, [], [], none⟩ := h₉
  have h₁₀ := hbegun.next ⟨.obtain 0 nofun (.head _) rfl rfl (.head _),
    .of_free (fun t => le_handles_copy _ 0 t) rfl⟩
  have h₁₁ := h₁₀.next ⟨.call selectRequest (.onTransaction 0
    (.executeAsync (.ofQuery (query "SELECT 1") 0)) ⟨rfl, nofun⟩
    ⟨beginRequest, .head _, rfl, rfl, .inl ⟨_, .head _⟩⟩ rfl) rfl
    (fun t ht => .inl (by cases ht; decide)) nofun (by decide), hfree rfl rfl⟩
  have h₁₂ := h₁₁.next ⟨.worker rfl rfl (.lock rfl rfl) nofun, hfree rfl rfl⟩
  have h₁₃ := h₁₂.next ⟨.worker rfl rfl (.wait rfl) nofun, hfree rfl rfl⟩
  have h₁₄ := h₁₃.next ⟨.worker rfl rfl (.wake rfl (.inr nofun)) nofun, hfree rfl rfl⟩
  have h₁₅ := h₁₄.next ⟨.worker rfl rfl (.goOn rfl rfl) nofun, hfree rfl rfl⟩
  have h₁₆ := h₁₅.next ⟨.worker rfl rfl (.take rfl rfl) nofun, hfree rfl rfl⟩
  have h₁₇ := h₁₆.next ⟨.worker rfl rfl (.execute rfl 3 selectExecution_result) nofun,
    hfree rfl rfl⟩
  exact h₁₇

/-- The worker has handed `on_success` on, and lets go of `on_error`. -/
def selectPosted : OwnedClient (Server Submission) Submission :=
  { selectExecuted with
    client :=
      { selectExecuted.client.post ⟨1, .ok (.request selectRequest)⟩ none with
        worker := .loopTest
        overflowThreads := [.running ⟨1, .ok (.request selectRequest)⟩] }
    releasing := [0] }

theorem selectPosted_kept : (keptRuns server false 0 onErrorCaptures).Reachable selectPosted := by
  have hposts : KeepsOwner onErrorCaptures selectExecuted
      (selectExecuted.afterWorker onErrorCaptures
        (selectExecuted.client.post ⟨1, .ok (.request selectRequest)⟩ none)) := by
    refine ⟨fun t _ hless => absurd hless (Nat.lt_irrefl _), ?_⟩
    intro t _ _ hdoomed
    obtain rfl : t = 0 := List.mem_singleton.mp hdoomed
    decide
  have h₁ := selectExecuted_kept.next ⟨.worker rfl rfl (.deliverPosted rfl rfl) nofun, hposts⟩
  have h₂ := h₁.next ⟨.worker rfl rfl (.overflow rfl rfl) nofun, ⟨fun t _ hless =>
    absurd hless (Nat.lt_irrefl _), fun t _ hnone hdoomed => absurd hdoomed hnone⟩⟩
  exact h₂

theorem served_selectPosted :
    selectPosted.waitsFor = none ∧
      ∀ t ∈ selectPosted.releasing, selectPosted.Active t →
        1 < selectPosted.owners onErrorCaptures t :=
  served_of_keptRuns selectPosted_kept

/-- The application lets go of the transaction while the statement is executed, the statement
succeeds, and the worker destroys `on_error` with the last owner. -/
theorem last_owner_in_worker :
    ¬ ∀ s : OwnedClient (Server Submission) Submission,
      (ownedSystem server false 0 onErrorCaptures).Reachable s → s.waitsFor = none := by
  have h₁ := selectExecuted_kept.of_guarded.next (.drop 0 (by decide) (.inl (by decide)))
  have h₂ := h₁.next (.worker rfl rfl (.deliverPosted rfl rfl) nofun)
  have h₃ := h₂.next (.worker rfl rfl (.overflow rfl rfl) nofun)
  have h₄ := h₃.next (.releaseLast 0 rfl rfl (by decide) rfl ⟨rfl, nofun⟩ rfl)
  intro hall
  have hlast := hall _ h₄
  cases hlast

end PostgresLib.Client