import PostgresLib.Connection.Submission

/-! # The server sessions of a connection

A reset that succeeds replaces the session of the server; nothing else does. So two
points of a trace are in one session exactly when no reset succeeds between them. And
an execution resets a connection only when it has just found it lost: by its status
before an attempt, or by a send or a read that fails in the first one.
-/

namespace PostgresLib.Connection

open Foundations Traced

variable {σ δ ρ : Type}

def Event.Reconnected : Event σ δ ρ → Prop
  | ⟨.resetPoll, status, _, _⟩ => status = .ok
  | _ => False

/-- A send of the statement that libpq accepted. -/
def Event.Accepts (statement : δ) : Event σ δ ρ → Prop
  | ⟨.sendQueryParams d, ok, _, _⟩ => d = statement ∧ ok ≠ 0
  | _ => False

theorem Event.Accepts.not_reconnected {statement : δ} {e : Event σ δ ρ} (h : e.Accepts statement) :
    ¬ e.Reconnected := by
  obtain ⟨c, answer, before, after⟩ := e
  cases c with
  | sendQueryParams d => exact id
  | _ => exact h.elim

/-- Sessions are numbered in the order in which a connection has them. -/
structure SessionNumbers (lib : Libpq σ δ ρ) (session : σ → ℕ) : Prop where
  replaced : ∀ s, (lib.call .resetPoll s).1 = .ok → session s < session (lib.call .resetPoll s).2
  pending : ∀ s, (lib.call .resetPoll s).1 ≠ .ok → session (lib.call .resetPoll s).2 = session s
  kept : ∀ c s, c ≠ .resetPoll → session (lib.call c s).2 = session s

variable {lib : Libpq σ δ ρ} {session : σ → ℕ}

section SessionNumbers

variable (hlib : SessionNumbers lib session)
include hlib

theorem session_call {e : Event σ δ ρ} (h : lib.call e.call e.before = (e.answer, e.after)) :
    session e.before ≤ session e.after ∧
      (session e.after = session e.before ↔ ¬ e.Reconnected) := by
  obtain ⟨c, answer, before, after⟩ := e
  by_cases hc : c = .resetPoll
  · subst hc
    have hanswer : (lib.call .resetPoll before).1 = answer := congrArg Prod.fst h
    have hafter : (lib.call .resetPoll before).2 = after := congrArg Prod.snd h
    by_cases hok : answer = .ok
    · have hlt := hlib.replaced before (hanswer.trans hok)
      rw [hafter] at hlt
      simp only [Event.Reconnected, hok, not_true, iff_false]
      omega
    · have heq := hlib.pending before (hanswer ▸ hok)
      rw [hafter] at heq
      simp only [Event.Reconnected, hok, not_false_iff, iff_true]
      omega
  · have heq := hlib.kept c before hc
    have hafter : (lib.call c before).2 = after := congrArg Prod.snd h
    rw [hafter] at heq
    have hnot : ¬ Event.Reconnected ⟨c, answer, before, after⟩ := by
      cases c with
      | resetPoll => exact absurd rfl hc
      | _ => exact id
    exact ⟨Nat.le_of_eq heq.symm, iff_of_true heq hnot⟩

/-- The session after consecutive events is the one before them exactly when no reset succeeded. -/
theorem session_chain {s s' : σ} {es : List (Event σ δ ρ)} (h : Chain lib s es s') :
    session s ≤ session s' ∧ (session s' = session s ↔ ∀ e ∈ es, ¬ e.Reconnected) := by
  induction es generalizing s with
  | nil =>
    cases h
    simp
  | cons e es ih =>
    obtain ⟨rfl, hcall, hrest⟩ := h
    obtain ⟨hle, hiff⟩ := session_call hlib hcall
    obtain ⟨hle', hiff'⟩ := ih hrest
    rw [List.forall_mem_cons, ← hiff, ← hiff']
    omega

end SessionNumbers

def Undisturbed (es : List (Event σ δ ρ)) : Prop := ∀ e ∈ es, ¬ e.Reconnected

theorem undisturbed_compositional :
    Compositional fun (_ : σ) (es : List (Event σ δ ρ)) (_ : σ) => Undisturbed es where
  nil _ := nofun
  append _ _ _ _ _ h h' := fun e he => (List.mem_append.mp he).elim (h e) (h' e)

theorem perform_undisturbed {c : PqCall δ} (h : c ≠ .resetPoll) :
    Follows (fun _ es _ => Undisturbed es) (perform lib c) := by
  constructor
  intro s e he
  rw [List.mem_singleton.mp he]
  cases c with
  | resetPoll => exact absurd rfl h
  | _ => exact id

theorem PqCall.Waits.ne_resetPoll {c : PqCall δ} (h : c.Waits) : c ≠ .resetPoll := by
  rintro rfl
  exact h

/-- An accepted send of the statement, and no successful reset after it. -/
def LastSent (statement : δ) (es : List (Event σ δ ρ)) : Prop :=
  ∃ es₁ e es₂, es = es₁ ++ e :: es₂ ∧ e.Accepts statement ∧ Undisturbed es₂

theorem LastSent.append {statement : δ} {es : List (Event σ δ ρ)} (h : LastSent statement es)
    (front : List (Event σ δ ρ)) : LastSent statement (front ++ es) := by
  obtain ⟨es₁, e, es₂, rfl, he, hes₂⟩ := h
  exact ⟨front ++ es₁, e, es₂, by rw [List.append_assoc], he, hes₂⟩

theorem awaitResult_undisturbed (socket : ℤ) (fuel : ℕ) :
    Follows (fun _ es _ => Undisturbed es) (awaitResult lib socket fuel) :=
  awaitResult_follows lib undisturbed_compositional
    (fun _ hc => perform_undisturbed hc.ne_resetPoll) (perform_undisturbed nofun) socket fuel

/-- A result comes from the last accepted send, and in its session. -/
theorem executeQuery_lastSent (statement : δ) (fuel : ℕ) :
    Emits (executeQuery lib statement fuel) fun r es =>
      ∀ a, r = some (.ok a) → LastSent statement es := by
  apply emits_perform_bind
  intro sock before after
  split_ifs
  · exact .pure nofun
  apply emits_perform_bind
  intro ok before' after'
  split_ifs with hok
  · apply emits_perform_bind
    intro msg before'' after''
    exact .pure nofun
  · apply (awaitResult_undisturbed sock fuel).emits.mono
    intro r es hes a ha
    exact ⟨[_], _, es, rfl, ⟨rfl, hok⟩, hes⟩

theorem executeAttempts_lastSent (statement : δ) (timeout : ℤ) (fuel left attempts : ℕ) :
    Emits (executeAttempts lib statement timeout fuel left attempts) fun r es =>
      ∀ a, r = some (.ok a) → LastSent statement es := by
  induction left generalizing attempts with
  | zero => exact .pure nofun
  | succ left ih =>
    apply Emits.bind (R := fun _ _ => True) ⟨fun _ => trivial⟩ fun _ _ => nofun
    intro lost es _
    cases lost with
    | some e => exact .pure nofun
    | none =>
      apply (executeQuery_lastSent statement fuel).bind fun _ _ => nofun
      intro res es' hes'
      cases res with
      | ok r =>
        apply Emits.pure
        intro a _
        rw [List.append_nil]
        exact (hes' r rfl).append es
      | error err =>
        dsimp only
        split_ifs
        · apply Emits.bind (R := fun _ _ => True) ⟨fun _ => trivial⟩ fun _ _ => nofun
          intro lost es'' _
          cases lost with
          | some e => exact .pure nofun
          | none =>
            apply (ih _).mono
            intro r last hlast a ha
            exact (((hlast a ha).append es'').append es').append es
        · exact .pure nofun

/-- When `ExecuteWithRetry` returns a result, no reset succeeds after the last accepted send. -/
theorem executeWithRetry_lastSent {statement : δ} {timeout : ℤ} {fuel : ℕ} {s : σ} {r : ρ}
    (h : (executeWithRetry lib statement timeout fuel s).result = some (.ok r)) :
    LastSent statement (executeWithRetry lib statement timeout fuel s).events :=
  (executeAttempts_lastSent statement timeout fuel 2 1).run s r h

/-- libpq answers that the connection is not good, refuses a send or has no input to read. -/
def Event.Lost : Event σ δ ρ → Prop
  | ⟨.status, connected, _, _⟩ => connected = false
  | ⟨.sendQueryParams _, ok, _, _⟩ => ok = 0
  | ⟨.consumeInput, consumed, _, _⟩ => consumed = 0
  | _ => False

/-- The last call that was not for a reconnect found the connection lost. -/
def FoundLost (es : List (Event σ δ ρ)) : Prop :=
  ∃ es₁ e es₂, es = es₁ ++ e :: es₂ ∧ e.Lost ∧ ∀ e' ∈ es₂, e'.call.Reconnects

theorem FoundLost.append_left {es : List (Event σ δ ρ)} (h : FoundLost es)
    (front : List (Event σ δ ρ)) : FoundLost (front ++ es) := by
  obtain ⟨es₁, e, es₂, rfl, he, hes₂⟩ := h
  exact ⟨front ++ es₁, e, es₂, by rw [List.append_assoc], he, hes₂⟩

theorem FoundLost.append_right {es es' : List (Event σ δ ρ)} (h : FoundLost es)
    (hes' : ∀ e ∈ es', e.call.Reconnects) : FoundLost (es ++ es') := by
  obtain ⟨es₁, e, es₂, rfl, he, hes₂⟩ := h
  refine ⟨es₁, e, es₂ ++ es', by simp, he, fun e' he' => ?_⟩
  exact (List.mem_append.mp he').elim (hes₂ e') (hes' e')

/-- A reset succeeds only on a connection that has just been found lost. -/
def Warranted (es : List (Event σ δ ρ)) : Prop :=
  ∀ es₁ e es₂, es = es₁ ++ e :: es₂ → e.Reconnected → FoundLost es₁

theorem Undisturbed.warranted {es : List (Event σ δ ρ)} (h : Undisturbed es) : Warranted es := by
  rintro es₁ e es₂ rfl he
  exact absurd he (h e (List.mem_append_right _ (.head _)))

theorem Warranted.append {es es' : List (Event σ δ ρ)} (h : Warranted es) (h' : Warranted es') :
    Warranted (es ++ es') := by
  intro es₁ e es₂ hsplit he
  rcases List.append_eq_append_iff.mp hsplit with ⟨front, rfl, hes'⟩ | ⟨back, rfl, hback⟩
  · exact (h' front e es₂ hes' he).append_left es
  · cases back with
    | nil =>
      have hfirst := h' [] e es₂ hback.symm he
      rw [List.append_nil] at h
      simpa using hfirst.append_left es₁
    | cons e' back =>
      obtain ⟨rfl, -⟩ := List.cons.inj hback
      exact h es₁ e back rfl he

theorem Warranted.left {es es' : List (Event σ δ ρ)} (h : Warranted (es ++ es')) :
    Warranted es := by
  rintro es₁ e es₂ rfl he
  exact h es₁ e (es₂ ++ es') (by simp) he

/-- A connection is found lost, and the reset that follows replaces the session. -/
def Replaced (es : List (Event σ δ ρ)) : Prop :=
  ∃ es₁ e es₂, es = es₁ ++ e :: es₂ ∧ FoundLost es₁ ∧ e.Reconnected

theorem Warranted.undisturbed_iff {es : List (Event σ δ ρ)} (h : Warranted es) :
    Undisturbed es ↔ ¬ Replaced es := by
  constructor
  · rintro hquiet ⟨es₁, e, es₂, rfl, -, he⟩
    exact hquiet e (List.mem_append_right _ (.head _)) he
  · intro hnot e he hreconnected
    obtain ⟨es₁, es₂, rfl⟩ := List.append_of_mem he
    exact hnot ⟨es₁, e, es₂, rfl, h es₁ e es₂ rfl hreconnected, hreconnected⟩

/-- What follows a loss may reconnect. -/
theorem FoundLost.warranted {es es' : List (Event σ δ ρ)} (h : FoundLost es) (hes : Undisturbed es)
    (hes' : ∀ e ∈ es', e.call.Reconnects) : Warranted (es ++ es') := by
  intro es₁ e es₂ hsplit he
  rcases List.append_eq_append_iff.mp hsplit with ⟨front, rfl, rfl⟩ | ⟨back, rfl, hback⟩
  · exact h.append_right fun e' he' => hes' e' (List.mem_append_left _ he')
  · cases back with
    | nil => simpa using h
    | cons e' back =>
      obtain ⟨rfl, -⟩ := List.cons.inj hback
      exact absurd he (hes e (List.mem_append_right _ (.head _)))

theorem attemptReconnect_reconnects (timeout : ℤ) (fuel : ℕ) :
    Emits (attemptReconnect lib timeout fuel) fun _ es => ∀ e ∈ es, e.call.Reconnects := by
  apply Follows.emits
  apply attemptReconnect_follows lib
  · exact ⟨fun _ => nofun, fun _ _ _ _ _ h h' e he => (List.mem_append.mp he).elim (h e) (h' e)⟩
  · intro c hc
    constructor
    intro s e he
    rw [List.mem_singleton.mp he]
    exact hc

theorem reconnectIfLost_warranted (timeout : ℤ) (fuel : ℕ) :
    Emits (reconnectIfLost lib timeout fuel) fun _ es => Warranted es := by
  apply emits_perform_bind
  intro connected before after
  have hstatus : Undisturbed [(⟨.status, connected, before, after⟩ : Event σ δ ρ)] := by
    intro e he
    rw [List.mem_singleton.mp he]
    exact id
  split_ifs with hconnected
  · exact .pure hstatus.warranted
  · apply (attemptReconnect_reconnects timeout fuel).mono
    intro r es hes
    have hlost : FoundLost [(⟨.status, connected, before, after⟩ : Event σ δ ρ)] :=
      ⟨[], _, [], rfl, Bool.eq_false_iff.mpr hconnected, nofun⟩
    exact hlost.warranted hstatus hes

theorem checkForPollIn_foundLost (socket : ℤ) (fuel : ℕ) :
    Emits (checkForPollIn lib socket fuel) fun r es => BadConnection r → FoundLost es := by
  induction fuel with
  | zero => exact .outOfFuel nofun
  | succ fuel ih =>
    apply emits_perform_bind
    intro pfd before after
    split_ifs
    · exact .pure fun h => absurd h (not_badConnection_socketFailed _)
    · exact .pure fun h => absurd h (not_badConnection_socketFailed _)
    · apply emits_perform_bind
      intro consumed before' after'
      split_ifs with hconsumed
      · apply emits_perform_bind
        intro err before'' after''
        refine .pure fun _ => ⟨[_], _, [_], rfl, hconsumed, ?_⟩
        intro e he
        rw [List.mem_singleton.mp he]
        exact trivial
      · apply emits_perform_bind
        intro busy before'' after''
        split_ifs
        · exact ih.mono fun r es h hbad => (h hbad).append_left [_, _, _]
        · exact .pure nofun

theorem awaitResult_foundLost (socket : ℤ) (fuel : ℕ) :
    Emits (awaitResult lib socket fuel) fun r es => BadConnection r → FoundLost es := by
  apply (checkForPollOut_marks lib socket fuel).bind fun _ _ => nofun
  rintro pollOut es ⟨hpollOut, -⟩
  cases pollOut with
  | error e => exact .pure fun h => absurd h hpollOut
  | ok u =>
    apply (checkForPollIn_foundLost socket fuel).bind fun _ _ => nofun
    intro pollIn es' hes'
    cases pollIn with
    | error e => exact .pure fun h => by simpa using (hes' h).append_left es
    | ok u =>
      apply (consumeResult_marks lib none fuel).mono
      exact fun r es'' h hbad => absurd hbad h.1

/-- An attempt resets nothing, and asks for a retry only when it found the connection lost. -/
theorem executeQuery_foundLost (statement : δ) (fuel : ℕ) :
    Emits (executeQuery lib statement fuel) fun r es => BadConnection r → FoundLost es := by
  apply emits_perform_bind
  intro sock before after
  split_ifs
  · exact .pure fun h => absurd h (not_badConnection_socketFailed _)
  apply emits_perform_bind
  intro ok before' after'
  split_ifs with hok
  · apply emits_perform_bind
    intro msg before'' after''
    refine .pure fun _ => ⟨[_], _, [_], rfl, hok, ?_⟩
    intro e he
    rw [List.mem_singleton.mp he]
    exact trivial
  · exact (awaitResult_foundLost sock fuel).mono fun r es h hbad => (h hbad).append_left [_, _]

theorem executeQuery_undisturbed (statement : δ) (fuel : ℕ) :
    Follows (fun _ es _ => Undisturbed es) (executeQuery lib statement fuel) := by
  apply Follows.bind undisturbed_compositional (perform_undisturbed (c := .socket) nofun)
  intro sock
  apply Follows.ite (.pure undisturbed_compositional _)
  apply Follows.bind undisturbed_compositional (perform_undisturbed (c := .sendQueryParams _) nofun)
  intro ok
  apply Follows.ite
  · apply Follows.bind undisturbed_compositional (perform_undisturbed (c := .errorMessage) nofun)
    exact fun _ => .pure undisturbed_compositional _
  · exact awaitResult_undisturbed sock fuel

theorem executeAttempts_warranted (statement : δ) (timeout : ℤ) (fuel left attempts : ℕ) :
    Emits (executeAttempts lib statement timeout fuel left attempts) fun _ es => Warranted es := by
  induction left generalizing attempts with
  | zero => exact .pure (Undisturbed.warranted nofun)
  | succ left ih =>
    apply (reconnectIfLost_warranted timeout fuel).bind fun _ h => h
    intro lost es hes
    cases lost with
    | some e => exact .pure (hes.append (Undisturbed.warranted nofun))
    | none =>
      have hquery : Emits (executeQuery lib statement fuel) fun r es' =>
          Undisturbed es' ∧ (BadConnection r → FoundLost es') :=
        ⟨fun s => ⟨(executeQuery_undisturbed statement fuel).run s,
          (executeQuery_foundLost statement fuel).run s⟩⟩
      apply hquery.bind fun es' h => hes.append h.1.warranted
      rintro res es' ⟨hes', hfound⟩
      have hstop : Warranted (es ++ (es' ++ [])) := by
        rw [List.append_nil]
        exact hes.append hes'.warranted
      cases res with
      | ok r => exact .pure hstop
      | error err =>
        dsimp only
        split_ifs with hretry
        · -- the reset after a failed attempt is warranted by what the attempt found
          have hreset : ∀ es'', (∀ e ∈ es'', PqCall.Reconnects e.call) → Warranted (es' ++ es'') :=
            fun es'' hes'' => (hfound hretry.1).warranted hes' hes''
          apply (attemptReconnect_reconnects timeout fuel).bind
          · exact fun es'' hes'' => hes.append (hreset es'' hes'')
          intro lost es'' hes''
          cases lost with
          | some e => exact .pure (by simpa using hes.append (hreset es'' hes''))
          | none =>
            apply (ih _).mono
            intro r last hlast
            have hall := hes.append ((hreset es'' hes'').append hlast)
            simpa using hall
        · exact .pure hstop

/-- In the execution of a statement a reset succeeds only after the connection was found lost. -/
theorem executeWithRetry_warranted (statement : δ) (timeout : ℤ) (fuel : ℕ) (s : σ) :
    Warranted (executeWithRetry lib statement timeout fuel s).events :=
  (executeAttempts_warranted statement timeout fuel 2 1).run s

theorem executeWithRetry_chain (lib : Libpq σ δ ρ) (statement : δ) (timeout : ℤ) (fuel : ℕ) :
    Follows (Chain lib) (executeWithRetry lib statement timeout fuel) :=
  executeWithRetry_follows lib (chain_compositional lib) (fun c _ => chain_perform lib c)
    timeout fuel

end PostgresLib.Connection
