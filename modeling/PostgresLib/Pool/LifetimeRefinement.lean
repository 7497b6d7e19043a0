import PostgresLib.Pool.Lifetime
import PostgresLib.Pool.Transit

/-! # The pool's own model follows a pool's life

In the pool's own model there are no handles, threads are not joined, and one flag
stops them all. It follows a life in which no connection is lost: a thread that stops
is one that finds no permit, and a thread that was joined or a call that is over has
returned.
-/

namespace PostgresLib.Pool

open Foundations

variable {κ : Type} {cfg : PoolConfig} {p p' : Lifetime κ} {s s' : Shared κ} {t t' : Thread κ}

def Thread.running (t : Thread κ) : Bool := !t.finished

def Lifetime.threads (p : Lifetime κ) : List (Thread κ) := p.fillers.map Filler.thread ++ p.calls

/-- The same members, but for the flag, and the same calls under way. -/
structure Pictures (p : Lifetime κ) (c : Config (Shared κ) (Thread κ)) : Prop where
  shared : c.shared = { p.shared with stopRequested := false }
  running : (c.threads.filter Thread.running).Perm (p.threads.filter Thread.running)

/-- Whatever a thread does, it does while no stop is requested; stopping is finding no permit. -/
theorem act_unstopped {b : Bool} (h : Act cfg { s with stopRequested := b } t s' t')
    (ht : t ≠ .destroy) :
    Act cfg { s with stopRequested := false } t { s' with stopRequested := false } t' ∨
      t = .fillTest ∧ t' = .returned ∧ s' = { s with stopRequested := b } := by
  cases h with
  | fillStopped h => exact .inr ⟨rfl, rfl, rfl⟩
  | destroy => exact absurd rfl ht
  | fillGoOn h => exact .inl (.fillGoOn rfl)
  | fillTryAcquire h => exact .inl (.fillTryAcquire h)
  | fillNoPermit => exact .inl .fillNoPermit
  | fillCallFactory => exact .inl .fillCallFactory
  | fillCreated c => exact .inl (.fillCreated c)
  | fillNotCreated => exact .inl .fillNotCreated
  | fillReturnPermit => exact .inl .fillReturnPermit
  | fillRetry => exact .inl .fillRetry
  | fillPush c => exact .inl (.fillPush c)
  | fillRelease isFull => exact .inl (.fillRelease isFull)
  | fillAnnounce => exact .inl .fillAnnounce
  | fillExpand h => exact .inl (.fillExpand h)
  | fillExpanded h => exact .inl (.fillExpanded h)
  | fillGrow => exact .inl .fillGrow
  | acquireIdle h => exact .inl (.acquireIdle h)
  | acquireNoneIdle h => exact .inl (.acquireNoneIdle h)
  | acquireLate => exact .inl .acquireLate
  | acquireInTime => exact .inl .acquireInTime
  | acquireGranted h => exact .inl (.acquireGranted h)
  | acquireTimedOut => exact .inl .acquireTimedOut
  | acquireReturned h => exact .inl (.acquireReturned h)
  | acquireCallFactory h => exact .inl (.acquireCallFactory h)
  | acquireGiveBack c => exact .inl (.acquireGiveBack c)
  | acquireCreated c => exact .inl (.acquireCreated c)
  | acquireNotCreated e => exact .inl (.acquireNotCreated e)
  | acquireReturnPermit e => exact .inl (.acquireReturnPermit e)
  | acquireWrap c => exact .inl (.acquireWrap c)
  | releasePush c => exact .inl (.releasePush c)
  | releasePermit => exact .inl .releasePermit

theorem act_ne_destroy (h : Act cfg s t s' t') : t' ≠ .destroy := by
  cases h with
  | fillRelease isFull => cases isFull <;> exact nofun
  | _ => exact nofun

theorem perm_replaced {pre post front back : List (Thread κ)} (ht : t.running = true)
    (h : ((pre ++ t :: post).filter Thread.running).Perm
      ((front ++ t :: back).filter Thread.running)) :
    ((pre ++ t' :: post).filter Thread.running).Perm
      ((front ++ t' :: back).filter Thread.running) := by
  simp only [List.filter_append, List.filter_cons_of_pos ht] at h
  have hothers : (pre.filter Thread.running ++ post.filter Thread.running).Perm
      (front.filter Thread.running ++ back.filter Thread.running) :=
    (List.perm_cons t).mp (List.perm_middle.symm.trans (h.trans List.perm_middle))
  simp only [List.filter_append, List.filter_cons]
  split_ifs
  · exact List.perm_middle.trans ((hothers.cons t').trans List.perm_middle.symm)
  · exact hothers

theorem followed_act {c : Config (Shared κ) (Thread κ)} {front back : List (Thread κ)} {b : Bool}
    (hc : (system cfg).Reachable c) (hshared : c.shared = { s with stopRequested := false })
    (hrunning : (c.threads.filter Thread.running).Perm
      ((front ++ t :: back).filter Thread.running))
    (ht : t ≠ .destroy) (h : Act cfg { s with stopRequested := b } t s' t') :
    ∃ c', (system cfg).Reachable c' ∧ c'.shared = { s' with stopRequested := false } ∧
      (c'.threads.filter Thread.running).Perm ((front ++ t' :: back).filter Thread.running) := by
  have hruns : t.running = true := by
    cases hfinished : t.finished with
    | true => exact absurd h (not_act_of_finished hfinished)
    | false => simp [Thread.running, hfinished]
  have hmem : t ∈ c.threads := by
    have hmem := hrunning.mem_iff.mpr
      (List.mem_filter.mpr ⟨List.mem_append_right front List.mem_cons_self, hruns⟩)
    exact (List.mem_filter.mp hmem).1
  rcases List.append_of_mem hmem with ⟨pre, post, hthreads⟩
  rw [hthreads] at hrunning
  rcases c with ⟨shared, threads⟩
  cases hthreads
  cases hshared
  rcases act_unstopped h ht with hact | ⟨rfl, rfl, rfl⟩
  · exact ⟨_, hc.next (.act pre post hact), rfl, perm_replaced hruns hrunning⟩
  · have hgoes := hc.next (.act pre post (.fillGoOn rfl))
    exact ⟨_, hgoes.next (.act pre post .fillNoPermit), rfl, perm_replaced hruns hrunning⟩

theorem Pictures.of_eq {c : Config (Shared κ) (Thread κ)} (hc : Pictures p c)
    (hshared : { p'.shared with stopRequested := false } =
      { p.shared with stopRequested := false })
    (hrunning : p'.threads.filter Thread.running = p.threads.filter Thread.running) :
    Pictures p' c where
  shared := by rw [hc.shared, hshared]
  running := by
    rw [hrunning]
    exact hc.running

theorem followed_spawn {c : Config (Shared κ) (Thread κ)} {s : Shared κ} {t : Thread κ}
    (hc : (system cfg).Reachable c) (hpictures : Pictures p c)
    (hspawn : Spawn c.shared c.threads s t) (hs : s = { p'.shared with stopRequested := false })
    (hthreads : p'.threads = p.threads ++ [t]) :
    ∃ c', (system cfg).Reachable c' ∧ Pictures p' c' := by
  rcases c with ⟨shared, threads⟩
  refine ⟨⟨s, threads ++ [t]⟩, hc.next (.spawn threads hspawn), hs, ?_⟩
  rw [hthreads, List.filter_append, List.filter_append]
  exact hpictures.running.append_right _

variable [DecidableEq κ]

theorem followed_client {c : Config (Shared κ) (Thread κ)} (hp : Kept p)
    (hcalls : ∀ t ∈ p.calls, t ≠ .destroy) (hc : (system cfg).Reachable c)
    (hpictures : Pictures p c) (h : ClientStep cfg p p') (hlost : p'.destroyed = []) :
    (∀ t ∈ p'.calls, t ≠ .destroy) ∧ ∃ c', (system cfg).Reachable c' ∧ Pictures p' c' := by
  cases h with
  | @act s' t t' front back hcalled h =>
    have hmem : t ∈ p.calls := hcalled ▸ List.mem_append_right _ List.mem_cons_self
    have hrunning := hpictures.running
    rw [Lifetime.threads, hcalled, ← List.append_assoc] at hrunning
    rcases followed_act (b := p.shared.stopRequested) hc hpictures.shared hrunning (hcalls t hmem) h
      with ⟨c', hc', hshared, hrunning'⟩
    refine ⟨?_, c', hc', hshared, ?_⟩
    · intro u hu
      rcases List.mem_append.mp hu with hold | hnew
      · exact hcalls u (hcalled ▸ List.mem_append_left _ hold)
      · rcases List.mem_cons.mp hnew with rfl | hold
        · exact act_ne_destroy h
        · exact hcalls u (hcalled ▸ List.mem_append_right _ (List.mem_cons_of_mem _ hold))
    · rw [Lifetime.threads, ← List.append_assoc]
      exact hrunning'
  | @callEnds t front back hcalled hfinished =>
    refine ⟨?_, c, hc, hpictures.of_eq rfl ?_⟩
    · intro u hu
      rcases List.mem_append.mp hu with hold | hold
      · exact hcalls u (hcalled ▸ List.mem_append_left _ hold)
      · exact hcalls u (hcalled ▸ List.mem_append_right _ (List.mem_cons_of_mem _ hold))
    · have hends : t.running = false := by simp [Thread.running, hfinished]
      simp [Lifetime.threads, hcalled, hends]
  | acquire hhandles =>
    refine ⟨?_, followed_spawn hc hpictures .acquire hpictures.shared ?_⟩
    · intro u hu
      rcases List.mem_append.mp hu with hold | hnew
      · exact hcalls u hold
      · rw [List.mem_singleton.mp hnew]
        exact nofun
    · simp [Lifetime.threads]
  | @destroyManager front back a hheld =>
    have hspawn :
        Spawn c.shared c.threads { c.shared with held := front ++ back } (.releasePush a) :=
      .release (by rw [hpictures.shared]; exact hheld)
    refine ⟨?_, followed_spawn hc hpictures hspawn ?_ ?_⟩
    · intro u hu
      rcases List.mem_append.mp hu with hold | hnew
      · exact hcalls u hold
      · rw [List.mem_singleton.mp hnew]
        exact nofun
    · rw [hpictures.shared]
    · simp [Lifetime.threads]
  | overwriteManager hheld => simp at hlost
  | warmupClear hjoining =>
    refine ⟨hcalls, c, hc, hpictures.of_eq rfl ?_⟩
    have hreturned := hp.warm _ hjoining
    rw [List.take_length] at hreturned
    have hnone : (p.fillers.map Filler.thread).filter Thread.running = [] := by
      rw [List.filter_eq_nil_iff]
      intro u hu
      rcases List.mem_map.mp hu with ⟨f, hf, rfl⟩
      rw [hreturned f hf]
      exact Bool.false_ne_true
    simp only [Lifetime.threads, List.map_nil, List.nil_append, List.filter_append, hnone]
  | copyHandle hhandles | dropHandle hhandles | waitForWarmup hhandles | warmupReady hhandles
  | warmupJoin hhandles => exact ⟨hcalls, c, hc, hpictures.of_eq rfl rfl⟩

theorem followed_filler {c : Config (Shared κ) (Thread κ)} {stop : Bool} (hp : Kept p)
    (hc : (system cfg).Reachable c) (hpictures : Pictures p c) (h : FillerStep cfg stop p p') :
    ∃ c', (system cfg).Reachable c' ∧ Pictures p' c' := by
  cases h with
  | @act s' t t' front back hf h =>
    have hmem : (⟨t, stop⟩ : Filler κ) ∈ p.fillers :=
      hf ▸ List.mem_append_right _ List.mem_cons_self
    have hfills : t ≠ .destroy := by
      rintro rfl
      rcases hp.threads _ hmem with hfills | hreturned
      · cases hfills
      · cases hreturned
    have hrunning := hpictures.running
    rw [Lifetime.threads, hf, List.map_append, List.map_cons, List.append_assoc,
      List.cons_append] at hrunning
    rcases followed_act hc hpictures.shared hrunning hfills h with ⟨c', hc', hshared, hrunning'⟩
    refine ⟨c', hc', hshared, ?_⟩
    rw [Lifetime.threads, List.map_append, List.map_cons, List.append_assoc, List.cons_append]
    exact hrunning'

omit [DecidableEq κ] in
theorem followed_destructor {c : Config (Shared κ) (Thread κ)} (hpictures : Pictures p c)
    (h : PoolDestructorStep p p') (hlost : p'.destroyed = []) : Pictures p' c := by
  cases h with
  | delete hcalled hrefs => exact hpictures.of_eq rfl rfl
  | @requestStop f i hcalled hf =>
    refine hpictures.of_eq rfl ?_
    have hsame : (p.fillers.set i { f with stop := true }).map Filler.thread =
        p.fillers.map Filler.thread := by
      apply List.ext_getElem?
      intro j
      rw [List.getElem?_map, List.getElem?_map]
      by_cases hj : j = i
      · subst hj
        rw [List.getElem?_set_self (List.getElem?_eq_some_iff.mp hf).1, hf]
        rfl
      · rw [List.getElem?_set_ne (Ne.symm hj)]
    simp only [Lifetime.threads, hsame]
  | join hcalled hf hfinished => exact hpictures.of_eq rfl rfl
  | destroyMembers hcalled =>
    have hnone : p.shared.connections = [] := (List.append_eq_nil_iff.mp hlost).2
    have hsame : ({ p.shared with connections := [] } : Shared κ) = p.shared := by
      rw [← hnone]
    refine hpictures.of_eq ?_ rfl
    exact congrArg (fun s : Shared κ => { s with stopRequested := false }) hsame

omit [DecidableEq κ] in
theorem destroyed_mono (h : LifetimeStep cfg p p') (hlost : p'.destroyed = []) :
    p.destroyed = [] := by
  cases h with
  | filler stop h =>
    cases h with
    | act front back hf h => exact hlost
  | client h =>
    cases h with
    | overwriteManager hheld => exact (List.append_eq_nil_iff.mp hlost).1
    | _ => exact hlost
  | destructor h =>
    cases h with
    | destroyMembers hcalled => exact (List.append_eq_nil_iff.mp hlost).1
    | _ => exact hlost

omit [DecidableEq κ] in
theorem followed_born :
    (∀ t ∈ (Lifetime.born cfg : Lifetime κ).calls, t ≠ .destroy) ∧
      ∃ c, (system cfg).Reachable c ∧ Pictures (.born cfg : Lifetime κ) c := by
  refine ⟨nofun, start cfg, .of_init rfl, ?_, ?_⟩
  · unfold Lifetime.born start
    split_ifs <;> rfl
  · have hsame : (Lifetime.born cfg : Lifetime κ).threads = (start cfg).threads := by
      rw [Lifetime.threads, Lifetime.born, List.map_map, List.append_nil]
      exact List.map_id _
    rw [hsame]

/-- As long as no connection is lost, the pool's own model has a state with the same members and the
same calls under way; so while a connection is idle and the semaphore can count its permits, it has
a permit or a thread brings one. -/
theorem followed_of_reachable (cfg : PoolConfig) (p : Lifetime κ)
    (h : (lifetimes cfg).Reachable p) (hlost : p.destroyed = []) :
    (∃ c, (system cfg).Reachable c ∧ Pictures p c) ∧
      (p.shared.capacity ≤ maxPermits → p.shared.connections ≠ [] →
        0 < counter p.shared.capacity ∨ ∃ t ∈ p.threads, t.inTransit = true) := by
  have hfollowed : p.destroyed = [] →
      (∀ t ∈ p.calls, t ≠ .destroy) ∧ ∃ c, (system cfg).Reachable c ∧ Pictures p c := by
    apply h.induct
    · rintro p rfl -
      exact followed_born
    · intro p p' hreach ih hstep hlost
      have hp := kept_of_reachable hreach
      rcases ih (destroyed_mono hstep hlost) with ⟨hcalls, c, hc, hpictures⟩
      cases hstep with
      | filler stop h =>
        have hsame : p'.calls = p.calls := by
          cases h
          rfl
        exact ⟨hsame ▸ hcalls, followed_filler hp hc hpictures h⟩
      | client h => exact followed_client hp hcalls hc hpictures h hlost
      | destructor h =>
        have hsame : p'.calls = p.calls := by
          cases h <;> rfl
        exact ⟨hsame ▸ hcalls, c, hc, followed_destructor hpictures h hlost⟩
  rcases (hfollowed hlost).2 with ⟨c, hc, hpictures⟩
  refine ⟨⟨c, hc, hpictures⟩, ?_⟩
  intro hmax hidle
  have hvisible := Visible.reachable hc
  rw [Visible, Config.potential, hpictures.shared] at hvisible
  rcases Nat.add_pos_iff_pos_or_pos.mp (hvisible hidle) with hpermit | htransit
  · exact .inl (counter_pos hpermit hmax)
  · rcases total_pos.mp htransit with ⟨t, ht, hpos⟩
    have htransits := Thread.transit_pos.mp hpos
    have hruns : t.running = true := by
      cases t <;> first | rfl | cases htransits
    have hmem := hpictures.running.mem_iff.mp (List.mem_filter.mpr ⟨ht, hruns⟩)
    exact .inr ⟨t, (List.mem_filter.mp hmem).1, htransits⟩

/-- A connection that has just come back to a lazy pool. -/
theorem followed_cameBack :
    ∃ p : Lifetime ℕ, p.shared.connections = [7] ∧
      (∃ c, (system lazyOne).Reachable c ∧ Pictures p c) ∧
      (0 < counter p.shared.capacity ∨ ∃ t ∈ p.threads, t.inTransit = true) := by
  have h₀ : (lifetimes lazyOne).Reachable (.born (κ := ℕ) lazyOne) := .of_init rfl
  have h₁ := h₀.next (.client (.acquire Nat.one_pos))
  have h₂ := h₁.next (.client (.act [] [] rfl (.acquireNoneIdle rfl)))
  have h₃ := h₂.next (.client (.act [] [] rfl .acquireInTime))
  have h₄ := h₃.next (.client (.act [] [] rfl (.acquireGranted (n := 0) rfl)))
  have h₅ := h₄.next (.client (.act [] [] rfl (.acquireCallFactory rfl)))
  have h₆ := h₅.next (.client (.act [] [] rfl (.acquireCreated 7)))
  have h₇ := h₆.next (.client (.act [] [] rfl (.acquireWrap 7)))
  have h₈ := h₇.next (.client (@ClientStep.destroyManager _ _ _ [] [] 7 rfl))
  have h₉ := h₈.next (.client (.act [.returned] [] rfl (.releasePush 7)))
  rcases followed_of_reachable lazyOne _ h₉ rfl with ⟨hfollowed, hvisible⟩
  exact ⟨_, rfl, hfollowed, hvisible (by decide) (List.cons_ne_nil _ _)⟩

end PostgresLib.Pool
