import PostgresLib.Client.Completion

/-! # The clock of the heartbeat

The client with a steady clock, in nanoseconds, and the instant after which the worker
sends its next heartbeat. Time passes between any two steps. The worker reads the clock
at the head of its loop, once more when it begins to wait, and after each heartbeat,
when it draws the distance to the next one. Everything else is a step of the client.
-/

namespace PostgresLib.Client

open Foundations Connection PostgresClient

variable {σ ρ : Type}

def second : ℕ := 1000000000

/-- What `heartbeat_sec(rng)` may return. -/
def Drawn (k : ℕ) : Prop := 60 ≤ k ∧ k ≤ 120

/-- A heartbeat that was sent, with the instants at which it was due, began and was over. -/
structure Beat where
  due : ℕ
  start : ℕ
  finish : ℕ

/-- A client, the clock and what the worker knows of it: `next_heartbeat`, what `wait_for` was
called with, and until when it waits once it has read the clock itself. The rest records when the
heartbeat in progress began, the reading that `next_heartbeat` counts from, the heartbeats so far,
and the requests that were taken since one was due. -/
structure TimedClient (σ ρ : Type) where
  client : PostgresClient σ ρ
  clock : ℕ
  nextHeartbeat : ℕ
  remaining : ℕ
  deadline : Option ℕ
  beating : ℕ
  resumed : ℕ
  beats : List Beat
  taken : ℕ

/-- The worker looks at the clock, or takes a request, in its next step. -/
def Worker.looksAtClock : Worker ρ → Bool
  | locked | heartbeat | taking => true
  | _ => false

variable (lib : Libpq σ Submission ρ) (heartbeatEnabled : Bool) (callbackThreads : ℕ)

/-- A step of the client at some instant, or the passing of time. -/
inductive TimedStep : TimedClient σ ρ → TimedClient σ ρ → Prop
  | tick {t} (elapsed : ℕ) : TimedStep t { t with clock := t.clock + elapsed }
  | connect {t} {k : ℕ} (hw : t.client.worker = .unstarted) (h : t.client.destructor = .uncalled)
      (hk : Drawn k) :
      TimedStep t
        { t with
          client := { t.client with
            worker := .loopTest
            callbackWorkers := List.replicate callbackThreads .announcing }
          nextHeartbeat := t.clock + k * second
          resumed := t.clock }
  | call {t} {c : PostgresClient σ ρ} (h : Call t.client c) : TimedStep t { t with client := c }
  | callback {t} {c : PostgresClient σ ρ} (h : CallbackStep t.client c) :
      TimedStep t { t with client := c }
  | destructor {t} {c : PostgresClient σ ρ} (h : DestructorStep t.client c) :
      TimedStep t { t with client := c }
  | worker {t} {c : PostgresClient σ ρ} (h : WorkerStep lib false t.client c)
      (hw : t.client.worker.looksAtClock = false) : TimedStep t { t with client := c }
  | beat {t} (hw : t.client.worker = .locked) (h : heartbeatEnabled = true)
      (hdue : t.nextHeartbeat ≤ t.clock) :
      TimedStep t
        { t with client := { t.client with worker := .heartbeat }, beating := t.clock }
  | ping {t} {k : ℕ} (hw : t.client.worker = .heartbeat) (fuel : ℕ) {outcome : Except SqlError ρ}
      (h : (Execution.ending lib ⟨.heartbeat, t.client.connection, fuel⟩).result = some outcome)
      (hk : Drawn k) :
      TimedStep t
        { t with
          client := t.client.execute lib ⟨.heartbeat, t.client.connection, fuel⟩ .loopTest
          nextHeartbeat := t.clock + k * second
          resumed := t.clock
          beats := t.beats ++ [⟨t.nextHeartbeat, t.beating, t.clock⟩]
          taken := 0 }
  | hangBeat {t} (hw : t.client.worker = .heartbeat) (fuel : ℕ)
      (h : (Execution.ending lib ⟨.heartbeat, t.client.connection, fuel⟩).result = none) :
      TimedStep t
        { t with
          client := t.client.execute lib ⟨.heartbeat, t.client.connection, fuel⟩
            (.hung .heartbeat) }
  | wait {t} (hw : t.client.worker = .locked)
      (hearly : heartbeatEnabled = true → t.clock < t.nextHeartbeat) :
      TimedStep t
        { t with
          client := { t.client with worker := .waiting }
          remaining := t.nextHeartbeat - t.clock
          deadline := none }
  -- `wait_for` adds what it was called with to a reading of its own
  | waitFor {t} (hw : t.client.worker = .waiting) (h : t.deadline = none) :
      TimedStep t { t with deadline := some (t.clock + t.remaining) }
  | timeOut {t} {deadline : ℕ} (hw : t.client.worker = .waiting) (h : heartbeatEnabled = true)
      (hdeadline : t.deadline = some deadline) (hover : deadline ≤ t.clock) :
      TimedStep t { t with client := { t.client with worker := .woken } }
  | takeNone {t} (hw : t.client.worker = .taking) (h : t.client.requests = []) :
      TimedStep t { t with client := { t.client with worker := .loopTest } }
  | take {t} {r : Request} {rest : List Request} (hw : t.client.worker = .taking)
      (h : t.client.requests = r :: rest) :
      TimedStep t
        { t with
          client := { t.client with worker := .executing r, requests := rest }
          taken := if heartbeatEnabled ∧ t.nextHeartbeat ≤ t.clock then t.taken + 1 else t.taken }

/-- All runs of a client, with a clock that starts anywhere. -/
def timed : TransitionSystem (TimedClient σ ρ) where
  init t := ∃ connection clock, t =
    { client := PostgresClient.start connection
      clock := clock
      nextHeartbeat := 0
      remaining := 0
      deadline := none
      beating := 0
      resumed := clock
      beats := []
      taken := 0 }
  step := TimedStep lib heartbeatEnabled callbackThreads

variable {lib heartbeatEnabled callbackThreads} {t t' : TimedClient σ ρ}

/-- What the clock allows, the client model allows. -/
theorem TimedStep.client (h : TimedStep lib heartbeatEnabled callbackThreads t t') :
    t'.client = t.client ∨ Step lib heartbeatEnabled callbackThreads t.client t'.client := by
  cases h with
  | tick | waitFor => exact .inl rfl
  | connect hw h => exact .inr (.connect hw h)
  | call h => exact .inr (.call h)
  | callback h => exact .inr (.callback h)
  | destructor h => exact .inr (.destructor h)
  | worker h => exact .inr (.worker h.of_clockless)
  | beat hw h => exact .inr (.worker (.beat hw h))
  | ping hw fuel h => exact .inr (.worker (.ping hw fuel h))
  | hangBeat hw fuel h => exact .inr (.worker (.hangBeat hw fuel h))
  | wait hw => exact .inr (.worker (.wait hw))
  | timeOut hw h => exact .inr (.worker (.timeOut hw h))
  | takeNone hw h => exact .inr (.worker (.takeNone hw h))
  | take hw h => exact .inr (.worker (.take hw h))

theorem client_reachable (h : (timed lib heartbeatEnabled callbackThreads).Reachable t) :
    (system lib heartbeatEnabled callbackThreads).Reachable t.client := by
  apply h.induct
  · rintro t ⟨connection, clock, rfl⟩
    exact .of_init ⟨connection, rfl⟩
  · intro t t' _ ht hstep
    rcases hstep.client with heq | hclient
    · rw [heq]
      exact ht
    · exact ht.next hclient

/-- The worker has taken no request since it last read the clock at the head of its loop. -/
def Worker.afterReading : Worker ρ → Bool
  | unstarted | waiting | woken | taking => true
  | _ => false

/-- What the worker knows of the clock. -/
structure Paced (heartbeatEnabled : Bool) (t : TimedClient σ ρ) : Prop where
  past : t.resumed ≤ t.clock
  drawn : t.client.worker ≠ .unstarted → t.resumed + 60 * second ≤ t.nextHeartbeat
  beating : t.client.worker = .heartbeat →
    t.resumed + 60 * second ≤ t.beating ∧ t.beating ≤ t.clock
  due : t.client.worker = .heartbeat → t.nextHeartbeat ≤ t.beating
  begun : ∀ b ∈ t.beats, b.due ≤ b.start
  spaced : t.beats.Pairwise fun b b' => b.finish + 60 * second ≤ b'.start
  finished : ∀ b ∈ t.beats, b.finish ≤ t.resumed
  counted : t.beats.length * (60 * second) ≤ t.resumed
  waiting : t.client.worker = .waiting →
    t.nextHeartbeat ≤ t.deadline.getD (t.clock + t.remaining)
  late : t.taken ≠ 0 → heartbeatEnabled = true ∧ t.nextHeartbeat ≤ t.clock
  takenOne : t.taken ≤ 1
  takenNone : t.client.worker.afterReading = true → t.taken = 0

/-- The worker goes nowhere where its knowledge of the clock matters. -/
theorem Paced.move (ht : Paced heartbeatEnabled t) {c : PostgresClient σ ρ}
    (hstarted : c.worker ≠ .unstarted → t.client.worker ≠ .unstarted)
    (hbeating : c.worker = .heartbeat → t.client.worker = .heartbeat)
    (hwaiting : c.worker = .waiting → t.client.worker = .waiting)
    (hafter : c.worker.afterReading = true → t.client.worker.afterReading = true) :
    Paced heartbeatEnabled { t with client := c } :=
  { ht with
    drawn := fun h => ht.drawn (hstarted h)
    beating := fun h => ht.beating (hbeating h)
    due := fun h => ht.due (hbeating h)
    waiting := fun h => ht.waiting (hwaiting h)
    takenNone := fun h => ht.takenNone (hafter h) }

theorem Paced.keep (ht : Paced heartbeatEnabled t) {c : PostgresClient σ ρ}
    (hc : c.worker = t.client.worker) : Paced heartbeatEnabled { t with client := c } :=
  ht.move (fun h => hc ▸ h) (fun h => hc ▸ h) (fun h => hc ▸ h) (fun h => hc ▸ h)

theorem Paced.worker (ht : Paced heartbeatEnabled t) {c : PostgresClient σ ρ}
    (h : WorkerStep lib false t.client c) (hw : t.client.worker.looksAtClock = false) :
    Paced heartbeatEnabled { t with client := c } := by
  cases h with
  | beat _ h | timeOut _ h => cases h
  | ping hw' | wait hw' | takeNone hw' | take hw' | hangBeat hw' =>
    rw [hw'] at hw
    cases hw
  | wake hw' | goOn hw' =>
    exact ht.move (fun _ => by rw [hw']; exact nofun) nofun nofun (fun _ => by rw [hw']; rfl)
  | @overflow task pending hw' | @pushTask task pending hw' =>
    cases pending <;> exact ht.move (fun _ => by rw [hw']; exact nofun) nofun nofun nofun
  | leave hw' | lock hw' | drain hw' | execute hw' | hang hw' | deliver hw' | deliverPosted hw'
  | drainOne hw' | drainPosted hw' | drained hw' | seeIdle hw' =>
    exact ht.move (fun _ => by rw [hw']; exact nofun) nofun nofun nofun

/-- A heartbeat ends, and the next one is drawn. -/
theorem Paced.ping (ht : Paced heartbeatEnabled t) (hw : t.client.worker = .heartbeat) {k : ℕ}
    (hk : Drawn k) {c : PostgresClient σ ρ} (hc : c.worker = .loopTest) :
    Paced heartbeatEnabled
      { t with
        client := c
        nextHeartbeat := t.clock + k * second
        resumed := t.clock
        beats := t.beats ++ [⟨t.nextHeartbeat, t.beating, t.clock⟩]
        taken := 0 } := by
  have hbeating := ht.beating hw
  have hk60 := Nat.mul_le_mul_right second hk.1
  have hpast := hbeating.1.trans hbeating.2
  exact {
    past := Nat.le_refl _
    drawn := fun _ => Nat.add_le_add_left hk60 _
    beating := fun h => nomatch hc.symm.trans h
    due := fun h => nomatch hc.symm.trans h
    begun := by
      intro b hb
      rcases List.mem_append.mp hb with hb | hb
      · exact ht.begun b hb
      · rw [List.mem_singleton.mp hb]
        exact ht.due hw
    spaced := by
      rw [List.pairwise_append]
      refine ⟨ht.spaced, List.pairwise_singleton _ _, ?_⟩
      intro b hb b' hb'
      rw [List.mem_singleton.mp hb']
      exact (Nat.add_le_add_right (ht.finished b hb) _).trans hbeating.1
    finished := by
      intro b hb
      rcases List.mem_append.mp hb with hb | hb
      · have hold := ht.finished b hb
        simp only
        omega
      · rw [List.mem_singleton.mp hb]
    counted := by
      have hcounted := ht.counted
      simp only [List.length_append, List.length_singleton, Nat.add_mul, Nat.one_mul]
      omega
    waiting := fun h => nomatch hc.symm.trans h
    late := fun h => absurd rfl h
    takenOne := Nat.zero_le _
    takenNone := fun _ => rfl }

theorem paced_step (ht : Paced heartbeatEnabled t)
    (h : TimedStep lib heartbeatEnabled callbackThreads t t') : Paced heartbeatEnabled t' := by
  cases h with
  | tick elapsed =>
    have hlater := Nat.le_add_right t.clock elapsed
    exact { ht with
      past := ht.past.trans hlater
      beating := fun h => ⟨(ht.beating h).1, (ht.beating h).2.trans hlater⟩
      waiting := fun h => by
        have hwaiting := ht.waiting h
        cases hd : t.deadline with
        | none =>
          rw [hd] at hwaiting
          simp only [Option.getD_none] at hwaiting ⊢
          omega
        | some deadline =>
          rw [hd] at hwaiting
          exact hwaiting
      late := fun h => ⟨(ht.late h).1, (ht.late h).2.trans hlater⟩ }
  | @connect k hw h hk =>
    have hk60 := Nat.mul_le_mul_right second hk.1
    exact { ht with
      past := Nat.le_refl _
      drawn := fun _ => Nat.add_le_add_left hk60 _
      beating := nofun
      due := nofun
      finished := fun b hb => (ht.finished b hb).trans ht.past
      counted := ht.counted.trans ht.past
      waiting := nofun
      late := fun h => absurd (ht.takenNone (by rw [hw]; rfl)) h
      takenNone := nofun }
  | call h =>
    rcases h.eq_push with ⟨transactions, detail, direct, origin, rfl, -, -⟩
    exact ht.keep rfl
  | callback h => cases h <;> exact ht.keep rfl
  | destructor h => cases h <;> exact ht.keep rfl
  | worker h hw => exact ht.worker h hw
  | beat hw h hdue =>
    have hdrawn := ht.drawn (by rw [hw]; exact nofun)
    exact { ht with
      drawn := fun _ => hdrawn
      beating := fun _ => ⟨hdrawn.trans hdue, Nat.le_refl _⟩
      due := fun _ => hdue
      waiting := nofun
      takenNone := nofun }
  | ping hw fuel h hk => exact ht.ping hw hk rfl
  | hangBeat hw fuel h => exact ht.move (fun _ => by rw [hw]; exact nofun) nofun nofun nofun
  | wait hw hearly =>
    have hdrawn := ht.drawn (by rw [hw]; exact nofun)
    exact { ht with
      drawn := fun _ => hdrawn
      beating := nofun
      due := nofun
      waiting := fun _ => by
        simp only [Option.getD_none]
        omega
      takenNone := fun _ => by
        by_contra htaken
        rcases ht.late htaken with ⟨henabled, hdue⟩
        exact absurd (hearly henabled) (Nat.not_lt.mpr hdue) }
  | waitFor hw h =>
    have hwaiting := ht.waiting hw
    rw [h] at hwaiting
    exact { ht with waiting := fun _ => hwaiting }
  | timeOut hw h hdeadline hover =>
    exact ht.move (fun _ => by rw [hw]; exact nofun) nofun nofun (fun _ => by rw [hw]; rfl)
  | takeNone hw h => exact ht.move (fun _ => by rw [hw]; exact nofun) nofun nofun nofun
  | take hw h =>
    have hnone := ht.takenNone (by rw [hw]; rfl)
    have hdrawn := ht.drawn (by rw [hw]; exact nofun)
    exact { ht with
      drawn := fun _ => hdrawn
      beating := nofun
      due := nofun
      waiting := nofun
      late := fun h => by
        by_contra hnot
        rw [if_neg hnot] at h
        exact h hnone
      takenOne := by
        simp only [hnone]
        split_ifs
        · exact Nat.le_refl _
        · exact Nat.zero_le _
      takenNone := nofun }

theorem paced_of_reachable (h : (timed lib heartbeatEnabled callbackThreads).Reachable t) :
    Paced heartbeatEnabled t := by
  apply h.induct
  · rintro t ⟨connection, clock, rfl⟩
    exact {
      past := Nat.le_refl _
      drawn := fun h => absurd rfl h
      beating := nofun
      due := nofun
      begun := nofun
      spaced := .nil
      finished := nofun
      counted := by simp
      waiting := nofun
      late := fun h => absurd rfl h
      takenOne := Nat.zero_le _
      takenNone := fun _ => rfl }
  · exact fun t t' _ ht hstep => paced_step ht hstep

/-- No heartbeat begins before it is due, and between the end of one and the beginning of the next
there is a minute at least, so there are no more heartbeats than minutes; while one is due at most
one request is taken; and a wait that runs out of time ends when a heartbeat is due, so that the
loop does not spin. -/
structure KeepsPace (t : TimedClient σ ρ) : Prop where
  due : t.client.worker = .heartbeat → t.nextHeartbeat ≤ t.beating
  begun : ∀ b ∈ t.beats, b.due ≤ b.start
  spaced : t.beats.Pairwise fun b b' => b.finish + 60 * second ≤ b'.start
  next : t.client.worker = .heartbeat → ∀ b ∈ t.beats, b.finish + 60 * second ≤ t.beating
  counted : t.beats.length * (60 * second) ≤ t.clock
  prompt : t.taken ≤ 1
  waits : t.client.worker = .waiting → ∀ deadline, t.deadline = some deadline →
    t.nextHeartbeat ≤ deadline

/-- A client with a clock keeps the pace of its heartbeats, and is in a state that it reaches
without the clock too. -/
theorem keepsPace_of_reachable (h : (timed lib heartbeatEnabled callbackThreads).Reachable t) :
    KeepsPace t ∧ (system lib heartbeatEnabled callbackThreads).Reachable t.client := by
  have ht := paced_of_reachable h
  refine ⟨?_, client_reachable h⟩
  exact {
    due := ht.due
    begun := ht.begun
    spaced := ht.spaced
    next := fun hw b hb => (Nat.add_le_add_right (ht.finished b hb) _).trans (ht.beating hw).1
    counted := ht.counted.trans ht.past
    prompt := ht.takenOne
    waits := fun hw deadline hd => by
      have hwaiting := ht.waiting hw
      rw [hd] at hwaiting
      exact hwaiting }

/-- A client that has sent its first heartbeat, a minute after it was connected. -/
theorem keepsPace_firstBeat :
    ∃ t : TimedClient (Server Submission) Submission,
      t.beats = [⟨60 * second, 60 * second, 60 * second⟩] ∧ KeepsPace t ∧
        (system server true 0).Reachable t.client := by
  have hk : Drawn 60 := ⟨Nat.le_refl _, by decide⟩
  have h₀ : (timed server true 0).Reachable _ := .of_init ⟨Server.fresh [], 0, rfl⟩
  have h₁ := h₀.next (.connect rfl rfl hk)
  have h₂ := h₁.next (.tick (60 * second))
  have h₃ := h₂.next (.worker (.lock rfl rfl) rfl)
  have h₄ := h₃.next (.beat rfl rfl (Nat.le_refl _))
  have h₅ := h₄.next (.ping rfl 3 (server_result _ 0 []) hk)
  exact ⟨_, rfl, keepsPace_of_reachable h₅⟩

end PostgresLib.Client
