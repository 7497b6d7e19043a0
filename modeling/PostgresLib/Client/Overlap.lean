import PostgresLib.Client.Sessions

/-! # What the worker submits within a transaction

A transaction reserves nothing: its `BEGIN`, its statements and its terminator are
requests like any other. What is submitted between the `BEGIN` and the terminator is
what was pushed between the two, by whoever pushed it.
-/

namespace PostgresLib.Client

open Foundations Connection PostgresClient
open Transaction (Op query)

section Between

variable {α : Type} {key : α → ℕ} {xs front middle back : List α} {b e : α}

theorem keys_between (hsorted : (xs.map key).Pairwise (· < ·))
    (hsplit : xs = front ++ b :: (middle ++ e :: back)) :
    (∀ a ∈ front, key a < key b) ∧ (∀ a ∈ middle, key b < key a ∧ key a < key e) ∧
      key b < key e ∧ ∀ a ∈ back, key e < key a := by
  rw [hsplit, List.pairwise_map, List.pairwise_append, List.pairwise_cons, List.pairwise_append,
    List.pairwise_cons] at hsorted
  rcases hsorted with ⟨-, ⟨hb, -, ⟨he, -⟩, hmiddle⟩, hfront⟩
  refine ⟨?_, ?_, hb e (by simp), he⟩
  · intro a ha
    exact hfront a ha b (.head _)
  · intro a ha
    exact ⟨hb a (by simp [ha]), hmiddle a ha e (.head _)⟩

/-- In a list that is sorted by a key, what lies between two entries is what has a key between
theirs. -/
theorem filter_between (hsorted : (xs.map key).Pairwise (· < ·))
    (hsplit : xs = front ++ b :: (middle ++ e :: back)) :
    xs.filter (fun a => key b < key a ∧ key a < key e) = middle := by
  rcases keys_between hsorted hsplit with ⟨hfront, hmiddle, hbe, hback⟩
  have hfrontNone : front.filter (fun a => key b < key a ∧ key a < key e) = [] := by
    rw [List.filter_eq_nil_iff]
    intro a ha
    have hlt := hfront a ha
    simp only [decide_eq_true_eq]
    omega
  have hbackNone : back.filter (fun a => key b < key a ∧ key a < key e) = [] := by
    rw [List.filter_eq_nil_iff]
    intro a ha
    have hlt := hback a ha
    simp only [decide_eq_true_eq]
    omega
  have hmiddleAll : middle.filter (fun a => key b < key a ∧ key a < key e) = middle := by
    rw [List.filter_eq_self]
    intro a ha
    simpa using hmiddle a ha
  rw [hsplit, List.filter_append, List.filter_cons_of_neg (by simp), List.filter_append,
    List.filter_cons_of_neg (by simp), hfrontNone, hmiddleAll, hbackNone]
  simp

end Between

variable {σ ρ : Type}

/-- A call of `commit`, `rollback` or the destructor, and the request that it pushes. -/
inductive Terminates (t : ℕ) : Request → PostgresClient σ ρ → PostgresClient σ ρ → Prop
  | call {s} (op : Op) (hop : op.isStatement = false) (h : s.Accepts)
      (hcallable : s.Callable t op) (hactive : s.transactions t = .active) :
      Terminates t (s.next (commandDetail op) (isDirect op) (.transaction t)) s
        ({ s with transactions := Function.update s.transactions t (stateAfter op) }.push
          (s.next (commandDetail op) (isDirect op) (.transaction t)))

/-- The transaction has ended, and pushed nothing after the request. -/
structure EndedWith (t : ℕ) (e : Request) (s : PostgresClient σ ρ) : Prop where
  inactive : s.transactions t ≠ .active
  pushed : e ∈ s.pushed
  last : ∀ r ∈ s.pushed, r.origin = .transaction t → r.id ≤ e.id

variable {lib : Libpq σ Submission ρ} {heartbeatEnabled : Bool}
  {callbackThreads : ℕ} {s s₀ s₁ s' : PostgresClient σ ρ} {t : ℕ} {e : Request}

theorem Terminates.call_step (h : Terminates t e s s') : Call s s' := by
  cases h with
  | call op hop h hcallable hactive => exact .onTransaction t op h hcallable hactive

theorem id_lt_of_reachable (h : (system lib heartbeatEnabled callbackThreads).Reachable s)
    {r : Request} (hr : r ∈ s.pushed) : r.id < s.pushed.length := by
  have hmem : r.id ∈ s.pushed.map (·.id) := List.mem_map_of_mem hr
  rw [numbered_of_reachable h] at hmem
  exact List.mem_range.mp hmem

theorem Terminates.endedWith (hreach : (system lib heartbeatEnabled callbackThreads).Reachable s)
    (h : Terminates t e s s') : EndedWith t e s' := by
  cases h with
  | call op hop h hcallable hactive =>
    constructor
    · cases op <;> simp_all [push, stateAfter, Op.endState, Op.isStatement]
    · exact List.mem_append_right _ (.head _)
    · intro r hr _
      rcases List.mem_append.mp hr with hold | hnew
      · exact (id_lt_of_reachable hreach hold).le
      · rw [List.mem_singleton.mp hnew]

/-- A request from elsewhere changes nothing of what a transaction has pushed. -/
theorem EndedWith.last_push (hs : EndedWith t e s) {r' : Request}
    (hother : r'.origin ≠ .transaction t) :
    ∀ r ∈ s.pushed ++ [r'], r.origin = .transaction t → r.id ≤ e.id := by
  intro r hr horigin
  rcases List.mem_append.mp hr with hold | hnew
  · exact hs.last r hold horigin
  · rw [List.mem_singleton.mp hnew] at horigin
    exact absurd horigin hother

theorem endedWith_call (h : Call s s') (hs : EndedWith t e s) : EndedWith t e s' := by
  have hmember {r : Request} (hr : e ∈ s.pushed) : e ∈ s.pushed ++ [r] := List.mem_append_left _ hr
  cases h with
  | execute detail h | executeAsync detail h | createTransaction h =>
    exact ⟨hs.inactive, hmember hs.pushed, hs.last_push nofun⟩
  | onTransaction u op h hcallable hactive =>
    have hne : t ≠ u := by
      rintro rfl
      exact hs.inactive hactive
    refine ⟨?_, hmember hs.pushed, hs.last_push ?_⟩
    · simpa [push, Function.update_of_ne hne] using hs.inactive
    · rintro ⟨⟩
      exact hne rfl

theorem endedWith_step (h : Step lib heartbeatEnabled callbackThreads s s')
    (hs : EndedWith t e s) : EndedWith t e s' := by
  cases h with
  | connect => exact ⟨hs.inactive, hs.pushed, hs.last⟩
  | call h => exact endedWith_call h hs
  | worker h => cases h <;> exact ⟨hs.inactive, hs.pushed, hs.last⟩
  | callback h => cases h <;> exact ⟨hs.inactive, hs.pushed, hs.last⟩
  | destructor h => cases h <;> exact ⟨hs.inactive, hs.pushed, hs.last⟩

theorem mem_requests {z : Execution σ} {zs : List (Execution σ)} {r : Request} (hz : z ∈ zs)
    (hr : z.submission = .request r) : r ∈ zs.filterMap (·.submission.request?) :=
  List.mem_filterMap.mpr ⟨z, hz, by rw [hr]; rfl⟩

/-- Executions are a transaction's own when they are of requests, and of the transaction's. -/
theorem forall_of_iff {zs : List (Execution σ)} :
    (∀ z ∈ zs, z.Of t) ↔ (∀ z ∈ zs, z.submission ≠ .heartbeat) ∧
      ∀ r ∈ zs.filterMap (·.submission.request?), r.origin = .transaction t := by
  constructor
  · intro hown
    constructor
    · intro z hz hbeat
      rcases hown z hz with ⟨r, hr, -⟩
      rw [hbeat] at hr
      cases hr
    · intro r hr
      rcases List.mem_filterMap.mp hr with ⟨z, hz, hrequest⟩
      rcases hown z hz with ⟨r', hr', horigin⟩
      rw [hr'] at hrequest
      cases hrequest
      exact horigin
  · rintro ⟨hbeats, horigins⟩ z hz
    cases hsubmission : z.submission with
    | heartbeat => exact absurd hsubmission (hbeats z hz)
    | request r => exact ⟨r, hsubmission, horigins r (mem_requests hz hsubmission)⟩

/-- The worker submits between the `BEGIN` and the terminator of a transaction, apart from
heartbeats, the requests that were pushed between the two, and every other command of the
transaction. So all of these are the transaction's own when no other call pushed one. -/
theorem submitted_within
    (h : (system lib heartbeatEnabled callbackThreads).Reachable s₀) (hends : Terminates t e s₀ s₁)
    (hrun : (system lib heartbeatEnabled callbackThreads).Run s₁ s)
    {before middle after : List (Execution σ)} {x y : Execution σ} {b : Request}
    (hsplit : s.executions = before ++ x :: (middle ++ y :: after))
    (hx : x.submission = .request b) (hb : b.id = t) (hy : y.submission = .request e) :
    middle.filterMap (·.submission.request?) =
        s.pushed.filter (fun r => t < r.id ∧ r.id < e.id) ∧
      (∀ z ∈ before ++ after, ¬ z.Of t) ∧
      ((∀ z ∈ middle, z.Of t) ↔
        (∀ z ∈ middle, z.submission ≠ .heartbeat) ∧
          ∀ r ∈ s.pushed, t < r.id → r.id < e.id → r.origin = .transaction t) := by
  have hreach : (system lib heartbeatEnabled callbackThreads).Reachable s :=
    (h.next (.call hends.call_step)).run hrun
  have hended : EndedWith t e s :=
    TransitionSystem.Run.preserves (fun _ _ => endedWith_step) hrun (hends.endedWith h)
  have hexecuted : s.executed = before.filterMap (·.submission.request?) ++
      b :: (middle.filterMap (·.submission.request?) ++
        e :: after.filterMap (·.submission.request?)) := by
    simp [executed, hsplit, hx, hy, Submission.request?]
  rcases (sequenced_of_reachable hreach).1 with ⟨rest, hrest⟩
  have hpushed : s.pushed = before.filterMap (·.submission.request?) ++
      b :: (middle.filterMap (·.submission.request?) ++
        e :: (after.filterMap (·.submission.request?) ++ rest)) := by
    simp [← hrest, hexecuted]
  have hsorted : (s.pushed.map (·.id)).Pairwise (· < ·) := by
    rw [numbered_of_reachable hreach]
    exact List.pairwise_lt_range
  have hbetween := filter_between hsorted hpushed
  rw [hb] at hbetween
  rcases keys_between hsorted hpushed with ⟨hbefore, -, -, hafter⟩
  refine ⟨hbetween.symm, ?_, ?_⟩
  · rintro z hz ⟨r, hr, horigin⟩
    rcases List.mem_append.mp hz with hfront | hback
    · have hmem := mem_requests hfront hr
      have hfirst := followsBegin_of_reachable hreach r (by simp [hpushed, hmem]) t horigin
      have hlt := hbefore r hmem
      omega
    · have hmem := mem_requests hback hr
      have hlast := hended.last r (by simp [hpushed, hmem]) horigin
      have hlt := hafter r (List.mem_append_left _ hmem)
      omega
  · rw [forall_of_iff, ← hbetween]
    simp

/-- The client when the worker has executed a request whose callback it invokes itself. -/
def serve (s : PostgresClient (Server Submission) Submission) (r : Request) :
    PostgresClient (Server Submission) Submission :=
  ({ s with requests := [] }.execute server ⟨.request r, s.connection, 3⟩
    (.delivering r (.ok (.request r)))).invoke ⟨r.id, .ok (.request r)⟩ .loopTest

theorem served {s : PostgresClient (Server Submission) Submission} {r : Request} {n : ℕ}
    {statuses : List Bool} (hw : s.worker = .loopTest) (hstop : s.stopRequested = false)
    (hr : s.requests = [r]) (hdirect : r.directCallback = true)
    (hconnection : s.connection = ⟨none, false, n, statuses⟩) :
    (system server false 0).Run s (serve s r) := by
  have hresult : (Execution.ending server ⟨.request r, s.connection, 3⟩).result =
      some (.ok (.request r)) := by
    rw [hconnection]
    exact server_result _ n statuses
  have h₁ : (system server false 0).Run s _ := taken hw hstop hr
  have h₂ := h₁.tail (.worker (.execute rfl 3 hresult))
  exact h₂.tail (.worker (.deliver rfl hdirect))

/-- The end of the first transaction, as the third request of a run. -/
def commitRequest : Request := ⟨2, .ofQuery (query "COMMIT") 0, true, .transaction 0⟩

/-- A second transaction that is begun while the first is open. -/
def secondBegin : Request := ⟨1, .ofQuery (query "BEGIN") 0, true, .creation⟩

/-- The client when one more request has been pushed and served after the first `BEGIN`. -/
def begunThen (r : Request) : PostgresClient (Server Submission) Submission :=
  serve ((begun true).push r) r

/-- The client when the first transaction is being committed after that. -/
def committing (r : Request) : PostgresClient (Server Submission) Submission :=
  { begunThen r with
    transactions := Function.update (begunThen r).transactions 0 .commit }.push commitRequest

theorem begunThen_reachable {r : Request} (hdirect : r.directCallback = true)
    (hcall : Call (begun true) ((begun true).push r)) :
    (system server false 0).Reachable (begunThen r) :=
  ((begun_reachable true).next (.call hcall)).run
    (served rfl rfl rfl hdirect (beginExecution_state true))

theorem begunThen_connection (r : Request) :
    (begunThen r).connection = ⟨none, false, 0, []⟩ := by
  have hstate : (begunThen r).connection = (executeWithRetry server (.request r) 5000 3
      ((beginExecution true).ending server).state).state := rfl
  rw [hstate, beginExecution_state]
  exact server_state _ 0 true []

theorem terminates_committing (r : Request) :
    Terminates 0 commitRequest (begunThen r) (committing r) := by
  have hcallable : (begunThen r).Callable 0 .commit :=
    ⟨beginRequest, .head _, rfl, rfl, .inl ⟨_, .head _⟩⟩
  have hends : Terminates 0 _ (begunThen r) _ := .call .commit rfl ⟨rfl, nofun⟩ hcallable rfl
  exact hends

theorem committing_served (r : Request) :
    (system server false 0).Run (committing r) (serve (committing r) commitRequest) :=
  served rfl rfl rfl rfl (begunThen_connection r)

theorem call_insert : Call (begun true) ((begun true).push insertRequest) := by
  have hcall : Call (begun true) _ := .onTransaction 0
    (.execute (.ofQuery (query "INSERT INTO t VALUES (1)") 0)) ⟨rfl, nofun⟩
    ⟨beginRequest, .head _, rfl, rfl, .inl ⟨_, .head _⟩⟩ rfl
  have hactive : Function.update (begun true).transactions 0 .active = (begun true).transactions :=
    Function.update_eq_self 0 _
  simp only [stateAfter, Op.isStatement, if_true, hactive] at hcall
  exact hcall

/-- A transaction that is used alone. -/
theorem submitted_within_insert :
    ∃ (s : PostgresClient (Server Submission) Submission) (x z y : Execution (Server Submission)),
      s.executions = [x, z, y] ∧
      [z].filterMap (·.submission.request?) = s.pushed.filter (fun r => 0 < r.id ∧ r.id < 2) ∧
      (∀ w ∈ ([] ++ [] : List (Execution (Server Submission))), ¬ w.Of 0) ∧
      ((∀ w ∈ [z], Execution.Of 0 w) ↔ (∀ w ∈ [z], Execution.submission w ≠ .heartbeat) ∧
        ∀ r ∈ s.pushed, 0 < r.id → r.id < 2 → r.origin = .transaction 0) :=
  ⟨serve (committing insertRequest) commitRequest, _, _, _, rfl,
    submitted_within (begunThen_reachable rfl call_insert) (terminates_committing insertRequest)
      (committing_served insertRequest) rfl rfl rfl rfl⟩

/-- Two transactions of one client overlap: the second is begun before the first is committed. -/
theorem begin_within_transaction :
    ¬ ∀ (s₀ s₁ s : PostgresClient (Server Submission) Submission) (t : ℕ) (b e : Request)
      (before middle after : List (Execution (Server Submission)))
      (x y : Execution (Server Submission)),
      (system server false 0).Reachable s₀ → Terminates t e s₀ s₁ →
      (system server false 0).Run s₁ s → s.executions = before ++ x :: (middle ++ y :: after) →
      x.submission = .request b → b.id = t → y.submission = .request e →
      ∀ z ∈ middle, z.Of t := by
  intro hall
  have hreach : (system server false 0).Reachable (begunThen secondBegin) :=
    begunThen_reachable rfl (.createTransaction ⟨rfl, nofun⟩)
  have hown := hall _ _ _ 0 beginRequest commitRequest [] [_] [] _ _ hreach
    (terminates_committing secondBegin) (committing_served secondBegin) rfl rfl rfl rfl _ (.head _)
  rcases hown with ⟨r, hr, horigin⟩
  cases hr
  cases horigin

end PostgresLib.Client
