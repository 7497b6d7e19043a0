import PostgresLib.Migrations.Model
import Mathlib.Data.List.Infix

/-! # Migrations execute their file in order

A migration sends a statement only when the one before it has succeeded, and the worker
executes requests in the order in which they were sent. So at any time the statements
that were executed are the first ones of the file, whatever other threads do with the
client, and the result of a migration tells how far it came.
-/

namespace PostgresLib.Migrations

open Foundations Connection Client
open SqlParser (parseStatements)

variable {σ ρ : Type} {lib : Libpq σ Submission ρ} {heartbeatEnabled : Bool} {callbackThreads : ℕ}
  {file : Option (List Char)}

section Client

variable {c c' : PostgresClient σ ρ}

/-- A step of the client pushes at most one request, with the next number. -/
theorem pushed_step (h : Client.Step lib heartbeatEnabled callbackThreads c c') :
    c'.pushed = c.pushed ∨ ∃ r, c'.pushed = c.pushed ++ [r] ∧ r.id = c.pushed.length := by
  cases h with
  | connect => exact .inl rfl
  | call h =>
    rcases h.eq_push with ⟨transactions, detail, direct, origin, rfl, -, -⟩
    exact .inr ⟨_, rfl, rfl⟩
  | worker h => exact .inl h.pushed_eq
  | callback h => cases h <;> exact .inl rfl
  | destructor h => cases h <;> exact .inl rfl

theorem invoked_step (h : Client.Step lib heartbeatEnabled callbackThreads c c') :
    c.invoked ⊆ c'.invoked := by
  cases h with
  | connect => exact List.Subset.refl _
  | call h =>
    rcases h.eq_push with ⟨transactions, detail, direct, origin, rfl, -, -⟩
    exact List.Subset.refl _
  | worker h =>
    cases h with
    | deliver | drainOne => exact List.subset_append_left _ _
    | _ => exact List.Subset.refl _
  | callback h =>
    cases h with
    | run | runOverflow => exact List.subset_append_left _ _
    | _ => exact List.Subset.refl _
  | destructor h => cases h <;> exact List.Subset.refl _

theorem mem_executed {x : Execution σ} (hx : x ∈ c.executions) {r : Request}
    (hr : x.submission = .request r) : r ∈ c.executed :=
  List.mem_filterMap.mpr ⟨x, hx, by rw [hr]; rfl⟩

theorem Ended.unique (h : (Client.system lib heartbeatEnabled callbackThreads).Reachable c)
    {r : Request} {outcome outcome' : Except SqlError ρ} (hr : Ended lib c r outcome)
    (hr' : Ended lib c r outcome') : outcome = outcome' := by
  rcases hr with ⟨x, hx, hxr, hresult⟩
  rcases hr' with ⟨y, hy, hyr, hresult'⟩
  have hnodup : c.executed.Nodup :=
    (nodup_pushed h).of_map.sublist (sequenced_of_reachable h).1.sublist
  have hsame : y = x := by
    obtain ⟨xs, ys, hsplit⟩ := List.append_of_mem hx
    have hexecuted : c.executed = xs.filterMap (·.submission.request?) ++
        r :: ys.filterMap (·.submission.request?) := by
      simp [PostgresClient.executed, hsplit, hxr, Submission.request?]
    rw [hexecuted, List.nodup_middle, List.nodup_cons, List.mem_append] at hnodup
    have hyr' : y.submission.request? = some r := by rw [hyr]; rfl
    -- in front of `x` or behind it, `y` would be an execution of another request
    rcases List.mem_append.mp (hsplit ▸ hy) with hfront | hback
    · exact absurd (.inl (List.mem_filterMap.mpr ⟨y, hfront, hyr'⟩)) hnodup.1
    · rcases List.mem_cons.mp hback with heq | hback
      · exact heq
      · exact absurd (.inr (List.mem_filterMap.mpr ⟨y, hback, hyr'⟩)) hnodup.1
  rw [hsame, hresult] at hresult'
  exact Option.some.inj hresult'

/-- What a request was answered with is what its execution ended with, or the error with which the
worker stops before it is executed. -/
theorem ended_of_invoked (h : (Client.system lib heartbeatEnabled callbackThreads).Reachable c)
    {task : Client.Task ρ} (htask : task ∈ c.invoked) :
    (∃ r ∈ c.executed, r.id = task.id ∧ Ended lib c r task.outcome) ∨
      task.outcome = .error workerStopped ∧ c.stopRequested = true ∧
        ∀ r ∈ c.executed, r.id ≠ task.id := by
  have hanswered : task ∈ c.answered := Multiset.mem_of_le (invoked_le_answered h) htask
  rcases (refusesUnexecuted_of_reachable h).answered task hanswered with
    ⟨x, hx, r, hr, hid, hresult⟩ | ⟨hstopped, houtcome, hnone⟩
  · exact .inl ⟨r, mem_executed hx hr, hid, x, hx, hr, hresult⟩
  · exact .inr ⟨houtcome, (stopRecorded_of_reachable h).stopped hstopped, hnone⟩

end Client

def Succeeded (c : PostgresClient σ ρ) (id : ℕ) : Prop := ∃ result, ⟨id, .ok result⟩ ∈ c.invoked

def AtPhase (file : Option (List Char)) (m : Migration σ ρ) : Phase → Prop
  | .opening => m.sent = []
  | .acquiring stmts => file.isSome ∧ stmts = statements file ∧ m.sent = []
  | .executing rest => file.isSome ∧ rest = (statements file).drop m.sent.length ∧
      ∀ id ∈ m.sent, Succeeded m.client id
  | .waiting id rest => file.isSome ∧ rest = (statements file).drop m.sent.length ∧
      m.sent.getLast? = some id
  | .returned ⟨none⟩ => file.isSome ∧ (statements file).length ≤ m.sent.length ∧
      ∀ id ∈ m.sent, Succeeded m.client id
  | .returned ⟨some (.inl e)⟩ => (file = none ∧ e = fileError ∧ m.sent = []) ∨
      file.isSome ∧ ∃ id, m.sent.getLast? = some id ∧ ⟨id, .error e⟩ ∈ m.client.invoked
  | .returned ⟨some (.inr _)⟩ => file.isSome ∧ m.sent = []

/-- The requests of the migration are the first statements of the file, and all but the last of
them were answered with a result. -/
structure Progress (lib : Libpq σ Submission ρ) (heartbeatEnabled : Bool) (callbackThreads : ℕ)
    (file : Option (List Char)) (m : Migration σ ρ) : Prop where
  reachable : (Client.system lib heartbeatEnabled callbackThreads).Reachable m.client
  ids : m.requests.map (·.id) = m.sent
  details : m.requests.map (·.detail) =
    ((statements file).take m.sent.length).map statementDetail
  answered : ∀ id ∈ m.sent.dropLast, Succeeded m.client id
  phase : AtPhase file m m.phase

namespace Progress

variable {m m' : Migration σ ρ}

theorem lt_of_mem_sent (hm : Progress lib heartbeatEnabled callbackThreads file m) {id : ℕ}
    (hid : id ∈ m.sent) : id < m.client.pushed.length := by
  rw [← hm.ids] at hid
  rcases List.mem_map.mp hid with ⟨r, hr, rfl⟩
  have hmap := List.mem_map_of_mem (List.mem_filter.mp hr).1 (f := Request.id)
  rw [numbered_of_reachable hm.reachable] at hmap
  exact List.mem_range.mp hmap

theorem requests_other (hm : Progress lib heartbeatEnabled callbackThreads file m)
    {c' : PostgresClient σ ρ}
    (h : Client.Step lib heartbeatEnabled callbackThreads m.client c') :
    ({ m with client := c' } : Migration σ ρ).requests = m.requests := by
  rcases pushed_step h with heq | ⟨r, heq, hid⟩
  · simp only [Migration.requests, heq]
  · have hnew : r.id ∉ m.sent := fun hmem => by
      have hlt := hm.lt_of_mem_sent hmem
      omega
    simp only [Migration.requests, heq, List.filter_append]
    rw [List.filter_cons_of_neg (by simpa using hnew)]
    simp

theorem requests_execute (hm : Progress lib heartbeatEnabled callbackThreads file m)
    (r : Request) (hid : r.id = m.client.pushed.length) (phase : Phase) :
    ({ client := m.client.push r, phase := phase, sent := m.sent ++ [r.id] } :
      Migration σ ρ).requests = m.requests ++ [r] := by
  have hold : ∀ q ∈ m.client.pushed,
      decide (q.id ∈ m.sent ++ [r.id]) = decide (q.id ∈ m.sent) := by
    intro q hq
    have hmap := List.mem_map_of_mem hq (f := Request.id)
    rw [numbered_of_reachable hm.reachable, List.mem_range] at hmap
    have hne : q.id ≠ r.id := by omega
    simp [hne]
  simp only [Migration.requests, PostgresClient.push, List.filter_append]
  rw [List.filter_congr hold, List.filter_cons_of_pos (by simp)]
  rfl

end Progress

theorem AtPhase.mono {m : Migration σ ρ} {c' : PostgresClient σ ρ}
    (hinvoked : m.client.invoked ⊆ c'.invoked) {phase : Phase} (h : AtPhase file m phase) :
    AtPhase file { m with client := c' } phase := by
  have hkept (id : ℕ) : Succeeded m.client id → Succeeded c' id :=
    fun ⟨result, hmem⟩ => ⟨result, hinvoked hmem⟩
  rcases phase with _ | _ | _ | _ | ⟨_ | e | e⟩
  case opening | acquiring | waiting => exact h
  case executing => exact ⟨h.1, h.2.1, fun id hid => hkept id (h.2.2 id hid)⟩
  case returned.none => exact ⟨h.1, h.2.1, fun id hid => hkept id (h.2.2 id hid)⟩
  case returned.some.inl =>
    rcases h with hfile | ⟨hfile, id, hlast, hmem⟩
    · exact .inl hfile
    · exact .inr ⟨hfile, id, hlast, hinvoked hmem⟩
  case returned.some.inr => exact h

theorem progress_step {m m' : Migration σ ρ}
    (h : Step lib heartbeatEnabled callbackThreads file m m')
    (hm : Progress lib heartbeatEnabled callbackThreads file m) :
    Progress lib heartbeatEnabled callbackThreads file m' := by
  have hphase := hm.phase
  cases h with
  | @other c' h =>
    exact {
      reachable := hm.reachable.next h
      ids := by rw [hm.requests_other h, hm.ids]
      details := by rw [hm.requests_other h, hm.details]
      answered := fun id hid =>
        let ⟨result, hmem⟩ := hm.answered id hid
        ⟨result, invoked_step h hmem⟩
      phase := hphase.mono (invoked_step h) }
  | openFailed hat hfile =>
    rw [hat] at hphase
    exact { hm with phase := .inl ⟨hfile, rfl, hphase⟩ }
  | parse hat hfile =>
    rw [hat] at hphase
    subst hfile
    exact { hm with phase := ⟨rfl, rfl, hphase⟩ }
  | notAcquired hat e =>
    rw [hat] at hphase
    exact { hm with phase := ⟨hphase.1, hphase.2.2⟩ }
  | acquired hat =>
    rw [hat] at hphase
    rcases hphase with ⟨hfile, hstmts, hsent⟩
    refine { hm with phase := ⟨hfile, ?_, ?_⟩ }
    · rw [hsent]
      exact hstmts
    · rw [hsent]
      exact nofun
  | @execute stmt rest hat haccepts =>
    rw [hat] at hphase
    rcases hphase with ⟨hfile, hrest, hall⟩
    have hrequests := hm.requests_execute (m.client.next (statementDetail stmt) true .client) rfl
      (.waiting m.client.pushed.length rest)
    have hdrop : (statements file).drop (m.sent.length + 1) = rest := by
      rw [← List.drop_drop, ← hrest]
      rfl
    have htake : (statements file).take (m.sent.length + 1) =
        (statements file).take m.sent.length ++ [stmt] := by
      have hget : (statements file)[m.sent.length]? = some stmt := by
        rw [← List.head?_drop, ← hrest]
        rfl
      rw [List.take_add_one, hget]
      rfl
    exact {
      reachable := hm.reachable.next (.call (.execute (statementDetail stmt) haccepts))
      ids := by
        refine (congrArg (List.map Request.id) hrequests).trans ?_
        rw [List.map_append, hm.ids]
        rfl
      details := by
        refine (congrArg (List.map Request.detail) hrequests).trans ?_
        rw [List.length_append, List.length_singleton, htake, List.map_append, List.map_append,
          hm.details]
        rfl
      answered := by
        rw [List.dropLast_concat]
        exact hall
      phase := ⟨hfile, by rw [List.length_append, List.length_singleton, hdrop],
        List.getLast?_concat⟩ }
  | @succeeded id rest result hat hanswer =>
    rw [hat] at hphase
    rcases hphase with ⟨hfile, hrest, hlast⟩
    refine { hm with phase := ⟨hfile, hrest, fun id' hid' => ?_⟩ }
    rw [← List.dropLast_append_getLast? id hlast] at hid'
    rcases List.mem_append.mp hid' with hid' | hid'
    · exact hm.answered id' hid'
    · rw [List.mem_singleton.mp hid']
      exact ⟨result, hanswer⟩
  | @failed id rest e hat hanswer =>
    rw [hat] at hphase
    exact { hm with phase := .inr ⟨hphase.1, id, hphase.2.2, hanswer⟩ }
  | done hat =>
    rw [hat] at hphase
    rcases hphase with ⟨hfile, hrest, hall⟩
    exact { hm with phase := ⟨hfile, List.drop_eq_nil_iff.mp hrest.symm, hall⟩ }

theorem progress_of_reachable {m : Migration σ ρ}
    (h : (system lib heartbeatEnabled callbackThreads file).Reachable m) :
    Progress lib heartbeatEnabled callbackThreads file m := by
  apply h.induct
  · rintro m ⟨hreach, hphase, hsent⟩
    have hnone : m.requests = [] := by
      rw [Migration.requests, hsent]
      simp
    exact {
      reachable := hreach
      ids := by rw [hnone, hsent]; rfl
      details := by rw [hnone, hsent]; rfl
      answered := by rw [hsent]; exact nofun
      phase := by rw [hphase]; exact hsent }
  · exact fun m m' _ hm hstep => progress_step hstep hm

theorem mem_dropLast_of_isPrefixOf {α : Type} {xs ys : List α} (h : xs <+: ys) {x : α}
    (hx : x ∈ xs.dropLast) : x ∈ ys.dropLast := by
  rcases h with ⟨zs, rfl⟩
  rcases List.eq_nil_or_concat' zs with rfl | ⟨front, z, rfl⟩
  · rwa [List.append_nil]
  · rw [← List.append_assoc, List.dropLast_concat]
    exact List.mem_append_left _ (List.mem_of_mem_dropLast hx)

/-- The request with this number, if it was executed, is one of the migration's. -/
theorem mem_executed_of_sent {m : Migration σ ρ} {r : Request} {id : ℕ} (hid : id ∈ m.sent)
    (hr : r ∈ m.client.executed) (heq : r.id = id) : r ∈ m.executed :=
  List.mem_filter.mpr ⟨hr, by simpa [heq] using hid⟩

theorem executed_of_none_sent {m : Migration σ ρ} (hsent : m.sent = []) : m.executed = [] := by
  rw [Migration.executed, hsent]
  simp

theorem requests_of_none_sent {m : Migration σ ρ} (hsent : m.sent = []) : m.requests = [] := by
  rw [Migration.requests, hsent]
  simp

section Executed

variable {m : Migration σ ρ} (hm : Progress lib heartbeatEnabled callbackThreads file m)
include hm

theorem executed_isPrefixOf : m.executed <+: m.requests :=
  (sequenced_of_reachable hm.reachable).1.filter _

/-- A request of the migration that was answered with a result was executed, with a result. -/
theorem ended_of_succeeded {id : ℕ} (hid : id ∈ m.sent) (h : Succeeded m.client id) :
    ∃ r ∈ m.executed, r.id = id ∧ ∃ result, Ended lib m.client r (.ok result) := by
  rcases h with ⟨result, hmem⟩
  rcases ended_of_invoked hm.reachable hmem with ⟨r, hr, heq, hended⟩ | hstopped
  · exact ⟨r, mem_executed_of_sent hid hr heq, heq, result, hended⟩
  · cases hstopped.1

theorem eq_of_mem_executed {r r' : Request} (hr : r ∈ m.executed) (hr' : r' ∈ m.executed)
    (hid : r.id = r'.id) : r = r' := by
  have hsubset := (executed_isPrefixOf hm).subset
  exact eq_of_id_eq hm.reachable (List.mem_filter.mp (hsubset hr)).1
    (List.mem_filter.mp (hsubset hr')).1 hid

theorem succeeded_of_mem {r : Request} (hr : r ∈ m.executed) (h : Succeeded m.client r.id) :
    ∃ result, Ended lib m.client r (.ok result) := by
  have hid : r.id ∈ m.sent := by simpa using (List.mem_filter.mp hr).2
  rcases ended_of_succeeded hm hid h with ⟨r', hr', heq, hended⟩
  rwa [← eq_of_mem_executed hm hr' hr heq]

theorem executed_eq_requests {id : ℕ} (hlast : m.sent.getLast? = some id)
    (h : ∃ r ∈ m.executed, r.id = id) : m.executed = m.requests := by
  rcases h with ⟨r, hr, rfl⟩
  rcases executed_isPrefixOf hm with ⟨rest, hrest⟩
  rcases List.eq_nil_or_concat' rest with rfl | ⟨front, q, rfl⟩
  · rwa [List.append_nil] at hrest
  -- otherwise the last request would stand in the list twice
  · have hids := hm.ids
    rw [← hrest, ← List.append_assoc, List.map_append, List.map_singleton] at hids
    rw [← hids, List.getLast?_concat] at hlast
    have hnodup : (m.requests.map (·.id)).Nodup :=
      (nodup_pushed hm.reachable).sublist (List.filter_sublist.map _)
    rw [← hrest, ← List.append_assoc, List.map_append, List.map_singleton] at hnodup
    have hq : q.id ∈ (m.executed ++ front).map (·.id) := by
      rw [Option.some.inj hlast]
      exact List.mem_map_of_mem (List.mem_append_left _ hr)
    exact absurd rfl ((List.nodup_append.mp hnodup).2.2 _ hq _ (List.mem_singleton_self _))

theorem allSucceeded_of_answered (hlength : (statements file).length ≤ m.sent.length)
    (hall : ∀ id ∈ m.sent, Succeeded m.client id) : AllSucceeded lib file m := by
  have hexecuted : m.executed = m.requests := by
    rcases hlast : m.sent.getLast? with _ | id
    · have hsent := List.getLast?_eq_none_iff.mp hlast
      rw [executed_of_none_sent hsent, requests_of_none_sent hsent]
    · have hmem := List.mem_of_getLast? hlast
      rcases ended_of_succeeded hm hmem (hall id hmem) with ⟨r, hr, hid, -⟩
      exact executed_eq_requests hm hlast ⟨r, hr, hid⟩
  constructor
  · rw [hexecuted, hm.details, List.take_of_length_le hlength]
  · intro r hr
    have hid : r.id ∈ m.sent := by simpa using (List.mem_filter.mp hr).2
    exact succeeded_of_mem hm hr (hall _ hid)

/-- The last request of the migration is answered with an error. -/
theorem failedFirst_of_answered {id : ℕ} {e : SqlError} (hlast : m.sent.getLast? = some id)
    (hanswer : ⟨id, .error e⟩ ∈ m.client.invoked) : ∃ r, FailedFirst lib m r e := by
  have hsame {r r' : Request} (hr : r ∈ m.requests) (hr' : r' ∈ m.client.executed)
      (hid : r'.id = r.id) : r' = r :=
    eq_of_id_eq hm.reachable ((sequenced_of_reachable hm.reachable).1.subset hr')
      (List.mem_filter.mp hr).1 hid
  rw [← hm.ids, List.getLast?_map, Option.map_eq_some_iff] at hlast
  rcases hlast with ⟨r, hr, rfl⟩
  refine ⟨r, hr, fun q hq => ?_, ?_⟩
  · have hmem : q.id ∈ m.sent.dropLast := by
      rw [← hm.ids, ← List.map_dropLast]
      exact List.mem_map_of_mem hq
    rcases ended_of_succeeded hm (List.mem_of_mem_dropLast hmem) (hm.answered _ hmem) with
      ⟨q', hq', hid, hended⟩
    rwa [hsame (List.mem_of_mem_dropLast hq) (List.mem_filter.mp hq').1 hid] at hended
  · rcases ended_of_invoked hm.reachable hanswer with ⟨r', hr', hid, hended⟩ |
      ⟨houtcome, hstop, hnone⟩
    · rw [hsame (List.mem_of_getLast? hr) hr' hid] at hended
      exact .inl hended
    · exact .inr ⟨fun hmem => hnone r hmem rfl, hstop, Except.error.inj houtcome⟩

theorem FailedFirst.not_allSucceeded {r : Request} {e : SqlError} (hr : FailedFirst lib m r e) :
    ¬ AllSucceeded lib file m := by
  intro hall
  have hlength : m.executed.length = (statements file).length := by
    simpa using congrArg List.length hall.executed
  have hdetails : m.requests.length ≤ (statements file).length := by
    have hmap := congrArg List.length hm.details
    simp only [List.length_map, List.length_take] at hmap
    omega
  have hrequests : m.executed = m.requests :=
    (executed_isPrefixOf hm).eq_of_length_le (hdetails.trans_eq hlength.symm)
  have hmem : r ∈ m.executed := by
    rw [hrequests]
    exact List.mem_of_getLast? hr.last
  rcases hr.error with herror | ⟨hnone, -⟩
  · rcases hall.succeeded r hmem with ⟨result, hresult⟩
    cases herror.unique hm.reachable hresult
  · exact hnone (List.mem_filter.mp hmem).1

end Executed

/-- What a migration returns is none exactly if all statements succeeded. -/
theorem complete_of_progress {m : Migration σ ρ} {error : MigrationError}
    (hm : Progress lib heartbeatEnabled callbackThreads file m)
    (hreturned : m.phase = .returned error) (hacquired : ∀ e, error ≠ .ofConnection e) :
    error = .none ↔ file.isSome ∧ AllSucceeded lib file m := by
  have hphase := hm.phase
  rw [hreturned] at hphase
  rcases error with ⟨_ | e | e⟩
  · rcases hphase with ⟨hfile, hlength, hall⟩
    exact iff_of_true rfl ⟨hfile, allSucceeded_of_answered hm hlength hall⟩
  · refine iff_of_false nofun fun hall => ?_
    rcases hphase with ⟨rfl, -⟩ | ⟨-, id, hlast, hanswer⟩
    · cases hall.1
    · rcases failedFirst_of_answered hm hlast hanswer with ⟨r, hr⟩
      exact hr.not_allSucceeded hm hall.2
  · exact absurd rfl (hacquired e)

/-- A migration executes the statements of its file in order and stops at the first error. -/
theorem migrated_of_reachable {m : Migration σ ρ}
    (h : (system lib heartbeatEnabled callbackThreads file).Reachable m) :
    Migrated lib file m := by
  have hm := progress_of_reachable h
  have hprefix := executed_isPrefixOf hm
  have hphase := hm.phase
  constructor
  case inOrder =>
    calc m.executed.map (·.detail)
        <+: m.requests.map (·.detail) := hprefix.map _
      _ = ((statements file).take m.sent.length).map statementDetail := hm.details
      _ <+: (statements file).map statementDetail := (List.take_prefix _ _).map _
  case succeeded =>
    intro r hr
    have hmem := List.mem_map_of_mem (mem_dropLast_of_isPrefixOf hprefix hr) (f := Request.id)
    rw [List.map_dropLast, hm.ids] at hmem
    exact succeeded_of_mem hm (List.mem_of_mem_dropLast hr) (hm.answered _ hmem)
  case complete => exact fun error hreturned => complete_of_progress hm hreturned
  case refused =>
    intro e hreturned
    rw [hreturned] at hphase
    exact ⟨hphase.1, requests_of_none_sent hphase.2⟩
  case failed =>
    intro e hreturned
    rw [hreturned] at hphase
    rcases hphase with ⟨hfile, rfl, hsent⟩ | ⟨hfile, id, hlast, hanswer⟩
    · exact .inl ⟨hfile, rfl, requests_of_none_sent hsent⟩
    · exact .inr ⟨hfile, failedFirst_of_answered hm hlast hanswer⟩

/-- What the client does by itself is part of a run of a migration. -/
theorem run_other {c c' : PostgresClient σ ρ}
    (h : (Client.system lib heartbeatEnabled callbackThreads).Run c c') (phase : Phase)
    (sent : List ℕ) :
    (system lib heartbeatEnabled callbackThreads file).Run ⟨c, phase, sent⟩ ⟨c', phase, sent⟩ := by
  induction h with
  | refl => exact .refl
  | tail _ hstep ih => exact ih.tail (.other hstep)

def onlyRequest : Request := ⟨0, statementDetail ['a'], true, .client⟩

def migratedClient : PostgresClient (Server Submission) Submission :=
  (({ PostgresClient.start (Server.fresh []) with
    worker := .executing onlyRequest
    pushed := [onlyRequest] } : PostgresClient (Server Submission) Submission).execute server
      ⟨.request onlyRequest, Server.fresh [], 3⟩
      (.delivering onlyRequest (.ok (.request onlyRequest)))).invoke
        ⟨0, .ok (.request onlyRequest)⟩ .loopTest

def migratedOne : Migration (Server Submission) Submission where
  client := migratedClient
  phase := .returned .none
  sent := [0]

theorem migratedOne_reachable :
    (system server false 0 (some ['a', ';'])).Reachable migratedOne := by
  have hparse : parseStatements ['a', ';'] = [['a']] := by decide +kernel
  have h₀ : (system server false 0 (some ['a', ';'])).Reachable
      ⟨PostgresClient.start (Server.fresh []), .opening, []⟩ :=
    .of_init ⟨.of_init ⟨_, rfl⟩, rfl, rfl⟩
  have h₁ := h₀.next (.other (.connect rfl rfl))
  have h₂ := h₁.next (.parse rfl rfl)
  rw [hparse] at h₂
  have h₃ := h₂.next (.acquired rfl)
  have h₄ := h₃.next (.execute rfl ⟨rfl, nofun⟩)
  have h₅ := h₄.run (run_other (taken rfl rfl rfl) _ _)
  have h₆ := h₅.next (.other (.worker (.execute rfl 3 (server_result _ 0 []))))
  have h₇ := h₆.next (.other (.worker (.deliver rfl rfl)))
  have h₈ := h₇.next (.succeeded rfl (List.mem_singleton_self _))
  exact h₈.next (.done rfl)

theorem migrated_migratedOne : Migrated server (some ['a', ';']) migratedOne :=
  migrated_of_reachable migratedOne_reachable

end PostgresLib.Migrations
