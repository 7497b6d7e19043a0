import PostgresLib.Client.Requests
import PostgresLib.Connection.Server

/-! # The sessions in which a transaction's statements are executed

Every execution reconnects on its own account when it finds the connection lost, and
knows nothing of the transactions that are open. A statement of a transaction is
handed to the session of its `BEGIN` exactly as long as no execution since then has
found the connection lost and replaced it.
-/

namespace PostgresLib.Client

open Foundations Connection PostgresClient
open Transaction (Op query)

variable {σ ρ : Type} (lib : Libpq σ Submission ρ)

/-- The execution of a statement of the transaction, its `BEGIN` apart. -/
def Execution.Of (t : ℕ) (x : Execution σ) : Prop :=
  ∃ r, x.submission = .request r ∧ r.origin = .transaction t

def Execution.Begins (t : ℕ) (x : Execution σ) : Prop :=
  ∃ r result, x.submission = .request r ∧ r.origin = .creation ∧ r.id = t ∧
    (x.ending lib).result = some (.ok result)

/-- A statement of the transaction is handed to libpq, which accepts it. -/
def Submits (t : ℕ) (e : Event σ Submission ρ) : Prop :=
  ∃ r, r.origin = .transaction t ∧ e.Accepts (.request r)

def log (xs : List (Execution σ)) : List (Event σ Submission ρ) :=
  xs.flatMap fun x => (x.ending lib).events

/-- Every statement of the transaction that is handed to libpq is handed to the given session, and
the statements that succeed are executed in it. -/
def StaysIn (session : σ → ℕ) (n t : ℕ) (after : List (Execution σ)) : Prop :=
  (∀ e ∈ log lib after, Submits t e → session e.before = n) ∧
    ∀ y ∈ after, y.Of t → ∀ result, (y.ending lib).result = some (.ok result) →
      session (y.ending lib).state = n

/-- Before a statement of the transaction is handed to libpq, an execution finds the connection lost
and the reset that it then makes succeeds. -/
def LostBefore (t : ℕ) (after : List (Execution σ)) : Prop :=
  ∃ es e es', log lib after = es ++ e :: es' ∧ Submits t e ∧ Replaced es

/-- Every execution starts where the one before it ended. -/
def Linked : σ → List (Execution σ) → σ → Prop
  | c, [], c' => c' = c
  | c, x :: xs, c' => x.start = c ∧ Linked (x.ending lib).state xs c'

variable {lib} {heartbeatEnabled : Bool} {callbackThreads : ℕ} {s s' : PostgresClient σ ρ}

theorem linked_append {c c' : σ} {xs ys : List (Execution σ)} :
    Linked lib c (xs ++ ys) c' ↔ ∃ m, Linked lib c xs m ∧ Linked lib m ys c' := by
  induction xs generalizing c with
  | nil => simp [Linked]
  | cons x xs ih =>
    simp only [List.cons_append, Linked, ih]
    constructor
    · rintro ⟨hstart, m, hxs, hys⟩
      exact ⟨m, ⟨hstart, hxs⟩, hys⟩
    · rintro ⟨m, ⟨hstart, hxs⟩, hys⟩
      exact ⟨hstart, m, hxs, hys⟩

theorem chain_log {c c' : σ} {xs : List (Execution σ)} (h : Linked lib c xs c') :
    Chain lib c (log lib xs) c' := by
  induction xs generalizing c with
  | nil => exact h
  | cons x xs ih =>
    obtain ⟨rfl, hrest⟩ := h
    exact (chain_compositional lib).append _ _ _ _ _
      ((executeWithRetry_chain lib x.submission 5000 x.fuel).run x.start) (ih hrest)

/-- Between executions nothing is reset. -/
theorem warranted_log (xs : List (Execution σ)) : Warranted (log lib xs) := by
  induction xs with
  | nil => exact Undisturbed.warranted nofun
  | cons x xs ih => exact (executeWithRetry_warranted x.submission 5000 x.fuel x.start).append ih

theorem linked_execute {c : σ} (h : Linked lib c s.executions s.connection)
    (submission : Submission) (fuel : ℕ) (worker : Worker ρ) :
    Linked lib c (s.execute lib ⟨submission, s.connection, fuel⟩ worker).executions
      (s.execute lib ⟨submission, s.connection, fuel⟩ worker).connection :=
  linked_append.mpr ⟨_, h, rfl, rfl⟩

theorem linked_step {c : σ} (h : Step lib heartbeatEnabled callbackThreads s s')
    (hs : Linked lib c s.executions s.connection) : Linked lib c s'.executions s'.connection := by
  cases h with
  | connect => exact hs
  | call h =>
    obtain ⟨transactions, detail, direct, origin, rfl, -, -⟩ := h.eq_push
    exact hs
  | worker h =>
    cases h with
    | ping hw fuel | hangBeat hw fuel => exact linked_execute hs _ fuel _
    | execute hw fuel | hang hw fuel => exact linked_execute hs _ fuel _
    | _ => exact hs
  | callback h => cases h <;> exact hs
  | destructor h => cases h <;> exact hs

/-- A statement of a transaction is pushed after the `BEGIN`. -/
def FollowsBegin (s : PostgresClient σ ρ) : Prop :=
  ∀ r ∈ s.pushed, ∀ t, r.origin = .transaction t → t < r.id

theorem followsBegin_step (hreach : (system lib heartbeatEnabled callbackThreads).Reachable s)
    (hs : FollowsBegin s) (h : Step lib heartbeatEnabled callbackThreads s s') :
    FollowsBegin s' := by
  cases h with
  | connect => exact hs
  | call h =>
    obtain ⟨transactions, detail, direct, origin, rfl, -, hcallable⟩ := h.eq_push
    intro r hr t ht
    rcases List.mem_append.mp hr with hold | hnew
    · exact hs r hold t ht
    · rw [List.mem_singleton.mp hnew] at ht ⊢
      obtain ⟨op, r₀, hr₀, hid, -⟩ := hcallable t ht
      have hmem : r₀.id ∈ s.pushed.map (·.id) := List.mem_map_of_mem hr₀
      rw [numbered_of_reachable hreach, hid] at hmem
      exact List.mem_range.mp hmem
  | worker h => unfold FollowsBegin; rwa [h.pushed_eq]
  | callback h => cases h <;> exact hs
  | destructor h => cases h <;> exact hs

section Reachable

variable (h : (system lib heartbeatEnabled callbackThreads).Reachable s)
include h

theorem linked_of_reachable : ∃ c, Linked lib c s.executions s.connection := by
  apply h.induct
  · rintro s ⟨connection, rfl⟩
    exact ⟨connection, rfl⟩
  · rintro s s' - ⟨c, hs⟩ hstep
    exact ⟨c, linked_step hstep hs⟩

theorem followsBegin_of_reachable : FollowsBegin s := by
  apply h.induct
  · rintro s ⟨connection, rfl⟩
    exact nofun
  · exact fun s s' hreach hs hstep => followsBegin_step hreach hs hstep

theorem executed_sorted : (s.executed.map (·.id)).Pairwise (· < ·) := by
  have hinit := (sequenced_of_reachable h).1.map Request.id
  rw [numbered_of_reachable h] at hinit
  exact List.pairwise_lt_range.sublist hinit.sublist

theorem not_of_before_begin {before after : List (Execution σ)} {x : Execution σ} {t : ℕ}
    (hsplit : s.executions = before ++ x :: after) (hx : x.Begins lib t) :
    ∀ y ∈ before, ¬ y.Of t := by
  rintro y hy ⟨r, hr, horigin⟩
  obtain ⟨r₀, result, hr₀, -, hid, -⟩ := hx
  have hmem : r ∈ before.filterMap (·.submission.request?) :=
    List.mem_filterMap.mpr ⟨y, hy, by rw [hr]; rfl⟩
  have hexecuted : s.executed = before.filterMap (·.submission.request?) ++
      r₀ :: after.filterMap (·.submission.request?) := by
    simp [executed, hsplit, hr₀, Submission.request?]
  have hpushed : r ∈ s.pushed := by
    apply (sequenced_of_reachable h).1.subset
    rw [hexecuted]
    exact List.mem_append_left _ hmem
  have hsorted := executed_sorted h
  rw [hexecuted, List.map_append, List.map_cons, List.pairwise_append] at hsorted
  have hlt := hsorted.2.2 r.id (List.mem_map_of_mem hmem) r₀.id (.head _)
  have hgt := followsBegin_of_reachable h r hpushed t horigin
  omega

end Reachable

section Chain

variable {session : σ → ℕ} (hlib : SessionNumbers lib session) {c c' : σ}
  {es es' : List (Event σ Submission ρ)} {e : Event σ Submission ρ}
include hlib

/-- An event is in the first session of a chain exactly when no reset succeeds before it. -/
theorem session_before (h : Chain lib c (es ++ e :: es') c') :
    session e.before = session c ↔ Undisturbed es := by
  obtain ⟨m, hes, hbefore, -, -⟩ := (chain_append lib).mp h
  rw [hbefore]
  exact (session_chain hlib hes).2

end Chain

/-- The statements of a transaction stay in the session of its `BEGIN` exactly when no execution
between the `BEGIN` and one of them, nor that of the statement itself before it is sent, finds the
connection lost and replaces it. -/
theorem staysIn_iff {session : σ → ℕ} (hlib : SessionNumbers lib session)
    (h : (system lib heartbeatEnabled callbackThreads).Reachable s)
    {before after : List (Execution σ)} {x : Execution σ} {t : ℕ}
    (hsplit : s.executions = before ++ x :: after) (hx : x.Begins lib t) :
    (∀ y ∈ before, ¬ y.Of t) ∧
      (StaysIn lib session (session (x.ending lib).state) t after ↔
        ¬ LostBefore lib t after) := by
  refine ⟨not_of_before_begin h hsplit hx, ?_⟩
  obtain ⟨c, hlinked⟩ := linked_of_reachable h
  rw [hsplit] at hlinked
  obtain ⟨m, -, rfl, hafter⟩ := linked_append.mp hlinked
  have hchain := chain_log hafter
  constructor
  · rintro ⟨hstays, -⟩ ⟨es, e, es', hlog, hsubmits, hreplaced⟩
    have hwarranted : Warranted es := (hlog ▸ warranted_log after).left
    rw [hlog] at hchain hstays
    have hsame := hstays e (List.mem_append_right _ (.head _)) hsubmits
    exact hwarranted.undisturbed_iff.mp ((session_before hlib hchain).mp hsame) hreplaced
  · intro hnone
    have hquiet {es es' : List (Event σ Submission ρ)} {e : Event σ Submission ρ}
        (hlog : log lib after = es ++ e :: es') (hsubmits : Submits t e) : Undisturbed es := by
      have hwarranted : Warranted es := (hlog ▸ warranted_log after).left
      rw [hwarranted.undisturbed_iff]
      exact fun hreplaced => hnone ⟨es, e, es', hlog, hsubmits, hreplaced⟩
    constructor
    · intro e he hsubmits
      obtain ⟨es, es', hlog⟩ := List.append_of_mem he
      have hbefore := hquiet hlog hsubmits
      rw [hlog] at hchain
      exact (session_before hlib hchain).mpr hbefore
    · rintro y hy ⟨r, hr, horigin⟩ result hresult
      obtain ⟨ys, ys', rfl⟩ := List.append_of_mem hy
      obtain ⟨es, e, es', hevents, haccepts, hlast⟩ := executeWithRetry_lastSent hresult
      -- the statement was accepted last by `e`; neither before it nor after it a reset succeeds
      have hlog : log lib (ys ++ y :: ys') = (log lib ys ++ es) ++ e :: (es' ++ log lib ys') := by
        have hy : (y.ending lib).events = es ++ e :: es' := hevents
        simp [log, hy]
      rw [hr] at haccepts
      have hfirst := hquiet hlog ⟨r, horigin, haccepts⟩
      obtain ⟨m, hys, rfl, hys'⟩ := linked_append.mp hafter
      have hchain' : Chain lib (x.ending lib).state (log lib ys ++ (y.ending lib).events)
          (y.ending lib).state :=
        (chain_append lib).mpr ⟨_, chain_log hys,
          (executeWithRetry_chain lib y.submission 5000 y.fuel).run y.start⟩
      apply (session_chain hlib hchain').2.mpr
      intro e' he'
      have hmem : e' ∈ log lib ys ++ es ∨ e' = e ∨ e' ∈ es' := by
        have hy : (y.ending lib).events = es ++ e :: es' := hevents
        simpa [hy, or_assoc] using he'
      rcases hmem with hmem | rfl | hmem
      · exact hfirst e' hmem
      · exact haccepts.not_reconnected
      · exact hlast e' hmem

/-- The `BEGIN` of a transaction that is the first request of a run. -/
def beginRequest : Request := ⟨0, .ofQuery (query "BEGIN") 0, true, .creation⟩

def insertRequest : Request :=
  ⟨1, .ofQuery (query "INSERT INTO t VALUES (1)") 0, true, .transaction 0⟩

def beginExecution (up : Bool) : Execution (Server Submission) :=
  ⟨.request beginRequest, Server.fresh [true, up], 3⟩

def insertExecution (up : Bool) : Execution (Server Submission) :=
  ⟨.request insertRequest, ((beginExecution up).ending server).state, 3⟩

theorem beginExecution_result (up : Bool) :
    ((beginExecution up).ending server).result = some (.ok (.request beginRequest)) :=
  server_result _ 0 [true, up]

theorem beginExecution_state (up : Bool) :
    ((beginExecution up).ending server).state = ⟨none, false, 0, [up]⟩ :=
  server_state _ 0 true [up]

theorem insertExecution_result (up : Bool) :
    ((insertExecution up).ending server).result = some (.ok (.request insertRequest)) := by
  rw [insertExecution, beginExecution_state]
  exact server_result _ 0 [up]

theorem insertExecution_state (up : Bool) :
    ((insertExecution up).ending server).state = ⟨none, false, if up then 0 else 1, []⟩ := by
  rw [insertExecution, beginExecution_state]
  exact server_state _ 0 up []

theorem begins_beginExecution (up : Bool) : (beginExecution up).Begins server 0 :=
  ⟨beginRequest, _, rfl, rfl, rfl, beginExecution_result up⟩

def executingBegin (up : Bool) : PostgresClient (Server Submission) Submission :=
  { start (Server.fresh [true, up]) with
    worker := .executing beginRequest
    pushed := [beginRequest] }

def begun (up : Bool) : PostgresClient (Server Submission) Submission :=
  ((executingBegin up).execute server (beginExecution up)
    (.delivering beginRequest (.ok (.request beginRequest)))).invoke
      ⟨0, .ok (.request beginRequest)⟩ .loopTest

/-- The client when its worker has taken a statement of the transaction. -/
def executingInsert (up : Bool) : PostgresClient (Server Submission) Submission :=
  { begun up with
    worker := .executing insertRequest
    transactions := Function.update (fun _ => .active) 0 .active
    pushed := [beginRequest, insertRequest] }

/-- The client when it has executed that statement; the connection was up or not. -/
def servedTwo (up : Bool) : PostgresClient (Server Submission) Submission :=
  (executingInsert up).execute server (insertExecution up)
    (.delivering insertRequest (.ok (.request insertRequest)))

theorem begun_reachable (up : Bool) : (system server false 0).Reachable (begun up) := by
  have h₀ : (system server false 0).Reachable
      (start (Server.fresh [true, up]) : PostgresClient (Server Submission) Submission) :=
    .of_init ⟨_, rfl⟩
  have h₁ := h₀.next (.connect rfl rfl)
  have h₂ := h₁.next (.call (.createTransaction ⟨rfl, nofun⟩))
  have h₃ : (system server false 0).Reachable (executingBegin up) := h₂.run (taken rfl rfl rfl)
  have h₄ := h₃.next (.worker (.execute rfl 3 (beginExecution_result up)))
  have h₅ := h₄.next (.worker (.deliver rfl rfl))
  exact h₅

theorem servedTwo_reachable (up : Bool) : (system server false 0).Reachable (servedTwo up) := by
  have h₁ := (begun_reachable up).next (.call (.onTransaction 0
    (.execute (.ofQuery (query "INSERT INTO t VALUES (1)") 0)) ⟨rfl, nofun⟩
    ⟨beginRequest, .head _, rfl, rfl, .inl ⟨_, .head _⟩⟩ rfl))
  have h₂ : (system server false 0).Reachable (executingInsert up) := h₁.run (taken rfl rfl rfl)
  have h₃ := h₂.next (.worker (.execute rfl 3 (insertExecution_result up)))
  exact h₃

theorem servedTwo_executions (up : Bool) :
    (servedTwo up).executions = [] ++ beginExecution up :: [insertExecution up] := rfl

theorem staysIn_iff_servedTwo :
    (∀ y ∈ ([] : List (Execution (Server Submission))), ¬ y.Of 0) ∧
      (StaysIn server Server.session ((beginExecution true).ending server).state.session 0
          [insertExecution true] ↔
        ¬ LostBefore server 0 [insertExecution true]) :=
  staysIn_iff server_sessionNumbers (servedTwo_reachable true) (servedTwo_executions true)
    (begins_beginExecution true)

/-- A connection that is lost within a transaction is replaced, and the next statement of the
transaction succeeds in a session that knows nothing of it. -/
theorem statement_in_new_session :
    ¬ ∀ (s : PostgresClient (Server Submission) Submission)
      (before after : List (Execution (Server Submission))) (x : Execution (Server Submission))
      (t : ℕ), (system server false 0).Reachable s → s.executions = before ++ x :: after →
      x.Begins server t →
      StaysIn server Server.session (x.ending server).state.session t after := by
  intro hall
  obtain ⟨-, hsucceeds⟩ := hall _ _ _ _ 0 (servedTwo_reachable false) (servedTwo_executions false)
    (begins_beginExecution false)
  have hsession := hsucceeds (insertExecution false) (.head _) ⟨insertRequest, rfl, rfl⟩ _
    (insertExecution_result false)
  rw [insertExecution_state, beginExecution_state] at hsession
  exact absurd hsession (by decide)

end PostgresLib.Client
