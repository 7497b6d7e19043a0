import PostgresLib.Memory.ObjectLife
import Mathlib.Data.List.Nodup

/-! # Objects that threads share are deleted once, and not too early

The threads simulate the life of every object. An object is therefore accessed only
while it is alive and deleted by the thread that lets go of it last, and when the
threads have finished what they have begun, no object is left without a handle.
-/

namespace PostgresLib.Memory

open Foundations

variable {o : ℕ} {sh sh' : Objects} {t t' : HandleThread} {c c' : HandleConfig}

/-! ## All reachable states -/

theorem sourced_of_reachable (h : countable.Reachable c) : ∀ t ∈ c.threads, t.Sourced := by
  apply h.induct
  · rintro c rfl
    exact nofun
  · rintro c c' - hc ⟨hstep, -⟩
    cases hstep with
    | @act sh sh' t t' pre post hact =>
      intro u hu
      rcases List.mem_append.mp hu with hu | hu
      · exact hc u (List.mem_append_left _ hu)
      · rcases List.mem_cons.mp hu with rfl | hu
        · exact sourced_act hact (hc t (List.mem_append_right _ List.mem_cons_self))
        · exact hc u (List.mem_append_right _ (List.mem_cons_of_mem _ hu))
    | spawn ts hspawn =>
      cases hspawn
      intro u hu
      rcases List.mem_append.mp hu with hu | hu
      · exact hc u hu
      · rw [List.mem_singleton.mp hu]
        exact .nothing []

theorem pointing_lt_of_reachable (h : countable.Reachable c) (o : ℕ) :
    pointing c o < countValues := by
  apply h.induct
  · rintro c rfl
    exact Nat.two_pow_pos 32
  · exact fun c c' _ _ hstep => hstep.2 o

/-- Whatever the threads do, each object lives its own life. -/
theorem living_simulates :
    Simulates countable Life.system (fun _ _ => True) fun (o : ℕ) c l => Living o c l where
  init := by
    rintro c o rfl -
    refine ⟨.unborn, .of_init rfl, ?_⟩
    exact {
      created := iff_of_false (Nat.not_lt_zero o) (not_not_intro rfl)
      counted := fun h => absurd rfl h
      refs := rfl
      adopts := rfl
      deletes := rfl
      deletions := rfl
      members := nofun }
  step := by
    rintro c c' o hc ⟨hstep, hless'⟩ -
    refine ⟨o, trivial, ?_⟩
    intro l _ hl
    have hsourced := sourced_of_reachable hc
    have hless := pointing_lt_of_reachable hc o
    cases hstep with
    | @act sh sh' t t' pre post hact =>
      have ht := hsourced t (List.mem_append_right _ List.mem_cons_self)
      rcases living_act hact ht hl hless (hless' o) with ⟨l', rfl | hlife, hl'⟩
      · exact ⟨l', .refl, hl'⟩
      · exact ⟨l', .single hlife, hl'⟩
    | spawn ts hspawn =>
      cases hspawn
      exact ⟨l, .refl, living_spawn hl⟩

theorem living_of_reachable (h : countable.Reachable c) (o : ℕ) : ∃ l, Living o c l := by
  rcases living_simulates.reachable h (k := o) trivial with ⟨l, -, hl⟩
  exact ⟨l, hl⟩

theorem Living.alive_iff (h : Living o c l) :
    c.shared.Alive o ↔ l ≠ .unborn ∧ l ≠ .gone := by
  rw [Objects.Alive, h.created, ← List.count_eq_zero, h.deletions]
  apply and_congr_right
  intro _
  cases l <;> simp [Life.deletions]

theorem Living.alive_of_live {n : ℕ} (h : Living o c (.live n)) : c.shared.Alive o :=
  h.alive_iff.mpr ⟨nofun, nofun⟩

theorem alive_of_refs (h : countable.Reachable c) (ho : 0 < refs c o) : c.shared.Alive o := by
  rcases living_of_reachable h o with ⟨l, hl⟩
  have hrefs := hl.refs
  cases l with
  | live n => exact hl.alive_of_live
  | _ =>
    simp only [Life.handles] at hrefs
    omega

/-- An access that is still to be made is of an object that is alive. -/
theorem alive_of_todo (h : countable.Reachable c) (ht : t ∈ c.threads) {x : Access}
    (hx : x ∈ t.todo) : c.shared.Alive x.object := by
  rcases living_of_reachable h x.object with ⟨l, hl⟩
  have hsourced := sourced_of_reachable h t ht
  rcases List.append_of_mem ht with ⟨pre, post, hsplit⟩
  obtain ⟨sh, ts⟩ := c
  cases hsplit
  cases x with
  | adopt a =>
    cases hl.fresh hx
    exact hl.alive_iff.mpr ⟨nofun, nofun⟩
  | delete a =>
    cases hl.dying hx
    exact hl.alive_iff.mpr ⟨nofun, nofun⟩
  | release a =>
    have hheld : 0 < t.held a := Nat.add_pos_right _ (List.count_pos_iff.mpr hx)
    rcases hl.live (Nat.add_pos_right _ hheld) with ⟨n, rfl⟩
    exact hl.alive_of_live
  | increment a =>
    rcases List.mem_iff_append.mp hx with ⟨front, back, htodo⟩
    cases front with
    | nil =>
      rcases hl.live (Nat.add_pos_right _ ((hsourced.increments _ _ htodo).1 a rfl)) with ⟨n, rfl⟩
      exact hl.alive_of_live
    | cons y front =>
      exact absurd (List.mem_append_right front List.mem_cons_self)
        ((hsourced.increments _ _ htodo).2 a)
  | moveFrom a pointee =>
    rcases hl.live (Nat.add_pos_right _ (held_pos (hsourced.moves a pointee hx))) with ⟨n, rfl⟩
    exact hl.alive_of_live

/-! ## Finishing -/

/-- What an access costs, with those that it entails. -/
def Access.work : Access → ℕ
  | release _ => 2
  | _ => 1

/-- The work that is left, with the destruction of every shared handle. -/
def work (c : HandleConfig) : ℕ :=
  c.potential (fun sh => 3 * sh.stored.length) fun t => total Access.work t.todo

theorem length_members (sh : Objects) (o : ℕ) :
    (sh.members o).length + (sh.delete o).stored.length = sh.stored.length := by
  rw [Objects.members, List.length_reverse, List.length_map, Objects.delete,
    List.length_eq_length_filter_add (l := sh.stored) fun p => decide (p.1 = some o)]
  simp only [ne_eq, decide_not]

theorem work_finish (h : Finish sh t sh' t') :
    3 * sh'.stored.length + total Access.work t'.todo + 1 ≤
      3 * sh.stored.length + total Access.work t.todo := by
  cases h with
  | @access hs x rest =>
    cases x with
    | release a =>
      simp only [Objects.access, total_append, total_cons, Access.work]
      split_ifs <;> simp only [Objects.release, total_cons, total_nil, Access.work] <;> omega
    | delete a =>
      have hlength := length_members sh a
      have hwork : total Access.work ((sh.members a).map .release) = 2 * (sh.members a).length := by
        induction sh.members a with
        | nil => rfl
        | cons b bs ih =>
          simp only [List.map_cons, total_cons, List.length_cons, Access.work, ih]
          omega
      simp only [Objects.access, total_append, total_cons, hwork, Access.work]
      omega
    | moveFrom a pointee =>
      have hlength : (sh.moveFrom a pointee).1.stored.length ≤ sh.stored.length := by
        unfold Objects.moveFrom
        split_ifs
        · exact List.length_erase_le
        · exact Nat.le_refl _
      simp only [Objects.access, total_append, total_cons, total_nil, Access.work]
      omega
    | _ =>
      simp only [Objects.access, Objects.increment, total_append, total_cons, total_nil,
        Access.work]
      omega

theorem pointing_finish (h : Finish sh t sh' t') :
    sh'.shares o + t'.pointing o + 0 ≤ sh.shares o + t.pointing o := by
  cases h with
  | @access hs x rest =>
    cases x with
    | release a =>
      simp only [Objects.access, HandleThread.pointing, HandleThread.held]
      split_ifs <;> simp [List.count_cons]
    | delete a =>
      have hshares := Objects.shares_delete a o sh
      simp only [Objects.access, HandleThread.pointing, HandleThread.held, List.count_append,
        List.count_cons, count_release_map, List.nil_append]
      omega
    | moveFrom a pointee =>
      have hshares := Objects.shares_moveFrom a o sh pointee
      simp only [Objects.access, HandleThread.pointing, HandleThread.held, List.count_append,
        List.count_cons, List.nil_append, reduceCtorEq, beq_iff_eq, if_false]
      omega
    | _ =>
      simp [Objects.access, HandleThread.pointing, HandleThread.held, List.count_cons]
      omega

theorem reachable_finish (h : countable.Reachable c) (hstep : finishing.step c c') :
    countable.Reachable c' := by
  refine h.next ⟨hstep.mono (fun _ _ _ _ => .finish) (fun _ _ _ _ h => h.elim), fun o => ?_⟩
  have hless := hstep.lowers (f := (·.shares o)) (w := HandleThread.pointing o) 0
    (fun _ _ _ _ => pointing_finish) (fun _ _ _ _ h => h.elim)
  exact Nat.lt_of_le_of_lt hless (pointing_lt_of_reachable h o)

theorem todo_of_quiet (h : finishing.Quiet c) : ∀ t ∈ c.threads, t.todo = [] := by
  rintro ⟨hs, todo⟩ ht
  cases todo with
  | nil => rfl
  | cons x rest =>
    rcases List.append_of_mem ht with ⟨pre, post, hsplit⟩
    obtain ⟨sh, ts⟩ := c
    cases hsplit
    exact absurd (Interleave.act pre post .access) (h _)

/-- Once every operation is finished, the objects without a handle are deleted. -/
theorem deleted_iff_of_finished (h : countable.Reachable c)
    (htodo : ∀ t ∈ c.threads, t.todo = []) (o : ℕ) :
    o ∈ c.shared.deleted ↔ o < c.shared.created ∧ refs c o = 0 := by
  rcases living_of_reachable h o with ⟨l, hl⟩
  have hnone : ∀ x : Access, total (fun t => t.todo.count x) c.threads = 0 := by
    intro x
    apply total_eq_zero
    intro t ht
    rw [htodo t ht]
    rfl
  have hadopts := hl.adopts
  have hdeletes := hl.deletes
  rw [hnone] at hadopts hdeletes
  rw [← List.count_pos_iff, hl.deletions, hl.created, hl.refs]
  cases l with
  | fresh => cases hadopts
  | dying => cases hdeletes
  | unborn => simp [Life.deletions]
  | live n => simp [Life.deletions, Life.handles]
  | gone => simp [Life.deletions, Life.handles]

/-- What holds of the objects and their handles at any moment: the counts are right, whatever is
reached through a handle or still to be accessed is alive, an object is to be deleted only when the
last handle is gone, and none is deleted twice. -/
structure Reclaims (c : HandleConfig) : Prop where
  counted : ∀ o, c.shared.Alive o → c.shared.refCount o = refs c o
  handles : ∀ o, 0 < refs c o → c.shared.Alive o
  members : ∀ p ∈ c.shared.stored, ∀ a ∈ p.1, c.shared.Alive a
  accesses : ∀ t ∈ c.threads, ∀ x ∈ t.todo, c.shared.Alive x.object
  last : ∀ t ∈ c.threads, ∀ o, .delete o ∈ t.todo → refs c o = 0
  once : c.shared.deleted.Nodup

/-- Objects that any number of threads share are deleted exactly once, after their last handle is
gone and before the threads have finished what they have begun. -/
theorem reclaims_of_reachable (h : countable.Reachable c) :
    Reclaims c ∧ finishing.Completes c (work c) fun c' => Reclaims c' ∧
      (∀ t ∈ c'.threads, t.todo = []) ∧
      ∀ o, o ∈ c'.shared.deleted ↔ o < c'.shared.created ∧ refs c' o = 0 := by
  have hreclaims : ∀ c, countable.Reachable c → Reclaims c := by
    intro c h
    exact {
      counted := by
        intro o ho
        rcases living_of_reachable h o with ⟨l, hl⟩
        rw [hl.counted (hl.alive_iff.mp ho).1, hl.refs]
      handles := fun o => alive_of_refs h
      members := by
        intro p hp a ha
        rcases living_of_reachable h a with ⟨l, hl⟩
        refine hl.alive_iff.mpr ⟨?_, ?_⟩
        · exact fun hunborn => hl.members (.inl hunborn) p hp ha
        · exact fun hgone => hl.members (.inr hgone) p hp ha
      accesses := fun t ht x hx => alive_of_todo h ht hx
      last := by
        intro t ht o hx
        rcases living_of_reachable h o with ⟨l, hl⟩
        rcases List.append_of_mem ht with ⟨pre, post, hsplit⟩
        obtain ⟨sh, ts⟩ := c
        cases hsplit
        cases hl.dying hx
        exact hl.refs
      once := by
        rw [List.nodup_iff_count_le_one]
        intro o
        rcases living_of_reachable h o with ⟨l, hl⟩
        rw [hl.deletions]
        cases l with
        | gone => exact Nat.le_refl 1
        | _ => exact Nat.zero_le 1 }
  refine ⟨hreclaims c h, ?_⟩
  apply TransitionSystem.CompletesBy.of_measure (I := countable.Reachable)
  · intro s s' hs hstep
    refine ⟨reachable_finish hs hstep, ?_⟩
    have hless := hstep.lowers (f := fun sh => 3 * sh.stored.length)
      (w := fun t => total Access.work t.todo) 1 (fun _ _ _ _ => work_finish)
      (fun _ _ _ _ h => h.elim)
    exact hless
  · intro s hs hquiet
    have htodo := todo_of_quiet hquiet
    exact ⟨hreclaims s hs, htodo, deleted_iff_of_finished hs htodo⟩
  · exact h

/-- There are no more handles of one object than of all, and no more are under construction than
there are accesses to be made. -/
theorem pointing_le (c : HandleConfig) (o : ℕ) :
    pointing c o ≤ c.potential (·.stored.length) fun t => t.handles.length + 3 * t.todo.length := by
  apply Nat.add_le_add
  · have hcount : (c.shared.stored.map Prod.snd).count o ≤ _ := List.count_le_length
    rwa [List.length_map] at hcount
  · apply total_mono
    intro t
    have hhandles : t.handles.count o ≤ t.handles.length := List.count_le_length
    have htodo : ∀ x, t.todo.count x ≤ t.todo.length := fun x => List.count_le_length
    have hrelease := htodo (.release o)
    have hadopt := htodo (.adopt o)
    have hincrement := htodo (.increment o)
    rw [HandleThread.pointing, HandleThread.held]
    omega

theorem reachable_next (h : countable.Reachable c) (hstep : handleThreads.step c c')
    (hfew : c'.potential (·.stored.length) (fun t => t.handles.length + 3 * t.todo.length) <
      countValues) : countable.Reachable c' :=
  h.next ⟨hstep, fun o => Nat.lt_of_le_of_lt (pointing_le c' o) hfew⟩

/-- Two threads that let go of the only handles of an object at the same time. -/
theorem reclaims_sharedObject :
    ∃ c : HandleConfig, c.threads = [⟨[], [.release 0]⟩, ⟨[], [.release 0]⟩] ∧
      c.shared.refCount 0 = 2 ∧ Reclaims c ∧ finishing.Completes c 4 fun c' => Reclaims c' ∧
        (∀ t ∈ c'.threads, t.todo = []) ∧
        ∀ o, o ∈ c'.shared.deleted ↔ o < c'.shared.created ∧ refs c' o = 0 := by
  have h₀ : countable.Reachable ⟨⟨0, fun _ => 0, [], []⟩, []⟩ := .of_init rfl
  have h₁ := reachable_next h₀ (.spawn _ .start) (by decide)
  have h₂ := reachable_next h₁ (.spawn _ .start) (by decide)
  have h₃ := reachable_next h₂ (.act [] [_] .create) (by decide)
  have h₄ := reachable_next h₃ (.act [] [_] (.finish .access)) (by decide)
  have h₅ := reachable_next h₄ (.act [] [_] (.copy List.mem_cons_self)) (by decide)
  have h₆ := reachable_next h₅ (.act [] [_] (.finish .access)) (by decide)
  have h₇ := reachable_next h₆ (.act [] [_] (@HandleAct.store _ [] _ _ none nofun)) (by decide)
  have h₈ := reachable_next h₇ (.act [_] [] (@HandleAct.take _ _ [] _ _ none rfl nofun)) (by decide)
  have h₉ := reachable_next h₈ (.act [] [_] (@HandleAct.drop _ [] _ _)) (by decide)
  have h := reachable_next h₉ (.act [_] [] (@HandleAct.drop _ [] _ _)) (by decide)
  exact ⟨_, rfl, rfl, reclaims_of_reachable h⟩

end PostgresLib.Memory
