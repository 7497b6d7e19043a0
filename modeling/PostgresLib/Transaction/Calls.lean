import PostgresLib.Transaction.Objects

/-! # Every call is enqueued, refused or neither, and answered once

Calls have fresh numbers. These invariants need no condition on the runs.
-/

namespace PostgresLib.Transaction

open Foundations Connection

namespace Thread

/-- The call may still be enqueued or refused. -/
def pending (call : ℕ) : Thread → ℕ
  | creating => if 0 = call then 1 else 0
  | start _ c _ | sending _ c _ => if c = call then 1 else 0
  | _ => 0

/-- The call was refused and is about to be answered. -/
def answers (call : ℕ) : Thread → ℕ
  | answering _ c => if c = call then 1 else 0
  | _ => 0

end Thread

/-- How often a call stands in the queue or was refused. -/
def recorded (call : ℕ) (s : Shared) : ℕ :=
  s.queue.countP (fun e => e.call = call) + s.refused.count call

/-- One once the number of the call has been given out. -/
def issued (call : ℕ) (s : Shared) : ℕ := if call < s.nextCall then 1 else 0

theorem recorded_enqueue (call : ℕ) (s : Shared) (e : Entry) :
    recorded call (s.enqueue e) = recorded call s + if e.call = call then 1 else 0 := by
  simp only [recorded, Shared.enqueue, List.countP_append, List.countP_singleton, decide_eq_true_eq]
  omega

theorem recorded_refuse (call c : ℕ) (s : Shared) :
    recorded call (s.refuse c) = recorded call s + if c = call then 1 else 0 := by
  simp only [recorded, Shared.refuse, List.count_append, List.count_singleton, beq_iff_eq]
  omega

def RecordedOnce (c : Config Shared Thread) : Prop :=
  ∀ call, c.potential (recorded call) (Thread.pending call) ≤ issued call c.shared

theorem Act.issued {s s' : Shared} {t t' : Thread} (h : Act s t s' t') (call : ℕ) :
    issued call s' = issued call s := by
  cases h <;> rfl

theorem Act.recorded {s s' : Shared} {t t' : Thread} (h : Act s t s' t') (call : ℕ) :
    recorded call s' + t'.pending call ≤ recorded call s + t.pending call := by
  cases h with
  | create => rw [recorded_enqueue]; exact Nat.le_refl _
  | execute => rw [recorded_enqueue]; exact Nat.le_refl _
  | send => rw [recorded_enqueue]; exact Nat.le_refl _
  | refuse =>
    change Transaction.recorded call (s.refuse _) + 0 ≤ _
    rw [recorded_refuse]
    exact Nat.le_refl _
  | refuseAsync => rw [recorded_refuse]; exact Nat.le_refl _
  | terminate => exact Nat.le_refl _
  | rollBack => exact Nat.le_refl _
  | _ => exact Nat.add_le_add_left (Nat.zero_le _) _

theorem Spawn.recorded {s s' : Shared} {ts : List Thread} {t : Thread} (h : Spawn s ts s' t)
    (call : ℕ) :
    recorded call s' + t.pending call + issued call s ≤ recorded call s + issued call s' := by
  have hfresh : (if s.nextCall = call then 1 else 0) + Transaction.issued call s ≤
      Transaction.issued call s.takeCall := by
    simp only [Transaction.issued, Shared.takeCall]
    by_cases heq : s.nextCall = call
    · simp [heq]
    · by_cases hlt : call < s.nextCall
      · simp [heq, hlt, Nat.lt_succ_of_lt hlt]
      · simp [heq, hlt]
  cases h with
  | call =>
    change Transaction.recorded call s + (if s.nextCall = call then 1 else 0) + _ ≤ _
    omega
  | move => exact Nat.le_refl _
  | destroy =>
    change Transaction.recorded call s + (if s.nextCall = call then 1 else 0) + _ ≤
      _ + Transaction.issued call s.takeCall
    omega

theorem RecordedOnce.reachable {c : Config Shared Thread} (h : system.Reachable c) :
    RecordedOnce c := by
  apply h.induct
  · rintro s rfl call
    by_cases hcall : 0 = call
    · subst hcall
      simp [start, Config.potential, recorded, Thread.pending, issued]
    · simp [start, Config.potential, recorded, Thread.pending, hcall]
  · intro s s' _ hs hstep call
    have hcall := hs call
    cases hstep with
    | act pre post hact =>
      have hrec := hact.recorded call
      have hissued := hact.issued call
      simp only [Config.potential, total_append, total_cons] at hcall ⊢
      omega
    | spawn ts hspawn =>
      have hrec := hspawn.recorded call
      simp only [Config.potential, total_append, total_cons, total_nil] at hcall ⊢
      omega

/-- A refused call was given its answer, or is about to be given it. -/
def AnsweredOnce (c : Config Shared Thread) : Prop :=
  (∀ call, c.potential (fun s => (answersOf s call).length) (Thread.answers call) =
    c.shared.refused.count call) ∧
  ∀ a ∈ c.shared.answers, a.2 = .transactionRolledBack

theorem answersOf_answer (s : Shared) (c call : ℕ) (e : SqlError) :
    (answersOf (s.answer c e) call).length =
      (answersOf s call).length + if c = call then 1 else 0 := by
  by_cases hc : c = call <;> simp [answersOf, Shared.answer, hc]

theorem Act.answersOf {s s' : Shared} {t t' : Thread} (h : Act s t s' t') (call : ℕ) :
    (Transaction.answersOf s' call).length + t'.answers call + s.refused.count call =
      (Transaction.answersOf s call).length + t.answers call + s'.refused.count call := by
  cases h with
  | refuse =>
    rw [answersOf_answer]
    simp only [Transaction.answersOf, Shared.refuse, Shared.answer, Thread.answers,
      List.count_append, List.count_singleton, beq_iff_eq]
    omega
  | refuseAsync =>
    simp only [Transaction.answersOf, Shared.refuse, Thread.answers, List.count_append,
      List.count_singleton, beq_iff_eq]
    omega
  | onError =>
    rw [answersOf_answer]
    simp only [Shared.answer, Thread.answers]
    omega
  | _ => rfl

theorem Act.answers_mem {s s' : Shared} {t t' : Thread} (h : Act s t s' t')
    {a : ℕ × SqlError} (ha : a ∈ s'.answers) : a ∈ s.answers ∨ a.2 = .transactionRolledBack := by
  cases h with
  | refuse =>
    simp only [Shared.answer, Shared.refuse, List.mem_append, List.mem_singleton] at ha
    exact ha.imp id fun h => by rw [h]
  | onError =>
    simp only [Shared.answer, List.mem_append, List.mem_singleton] at ha
    exact ha.imp id fun h => by rw [h]
  | _ => exact .inl ha

theorem AnsweredOnce.reachable {c : Config Shared Thread} (h : system.Reachable c) :
    AnsweredOnce c := by
  apply h.induct
  · rintro s rfl
    exact ⟨fun _ => rfl, by simp [start]⟩
  · intro s s' _ hs hstep
    obtain ⟨hcount, hmem⟩ := hs
    constructor
    · intro call
      have hbalance := hstep.balance (f := fun s => (answersOf s call).length)
        (g := fun s => s.refused.count call) (w := Thread.answers call)
        (fun _ _ _ _ h => h.answersOf call) (fun _ _ _ _ h => by cases h <;> rfl)
      have := hcount call
      omega
    · intro a ha
      cases hstep with
      | act pre post hact =>
        obtain hold | hnew := hact.answers_mem ha
        · exact hmem a hold
        · exact hnew
      | spawn ts hspawn => cases hspawn <;> exact hmem a ha

theorem exists_answering {ts : List Thread} {call : ℕ} (h : 0 < total (Thread.answers call) ts) :
    ∃ i, .answering i call ∈ ts := by
  induction ts with
  | nil => simp at h
  | cons t ts ih =>
    by_cases ht : 0 < t.answers call
    · cases t with
      | answering i c =>
        simp only [Thread.answers] at ht
        split_ifs at ht with hc
        · subst hc
          exact ⟨i, List.mem_cons_self⟩
        · exact absurd ht (lt_irrefl 0)
      | _ => exact absurd ht (lt_irrefl 0)
    · rw [total_cons] at h
      obtain ⟨i, hi⟩ := ih (by omega)
      exact ⟨i, List.mem_cons_of_mem _ hi⟩

theorem refused_silent {c : Config Shared Thread} (h : system.Reachable c) :
    ∀ call ∈ c.shared.refused, ∀ e ∈ c.shared.queue, e.call ≠ call := by
  intro call hcall e he heq
  have honce := RecordedOnce.reachable h call
  have hrefused : 0 < c.shared.refused.count call := List.count_pos_iff.mpr hcall
  have hqueued : 0 < c.shared.queue.countP fun e => e.call = call :=
    List.countP_pos_iff.mpr ⟨e, he, by simpa using heq⟩
  have hissued : issued call c.shared ≤ 1 := by
    unfold issued
    split_ifs <;> omega
  simp only [Config.potential, recorded] at honce
  omega

/-- A refused call is answered once, with the error for a transaction that has ended. -/
theorem refused_answered {c : Config Shared Thread} (h : system.Reachable c) :
    ∀ call ∈ c.shared.refused,
      answersOf c.shared call = [(call, .transactionRolledBack)] ∨
        answersOf c.shared call = [] ∧ ∃ i, .answering i call ∈ c.threads := by
  intro call hcall
  have honce := RecordedOnce.reachable h call
  obtain ⟨hanswered, hmem⟩ := AnsweredOnce.reachable h
  have hcount := hanswered call
  have hrefused : 0 < c.shared.refused.count call := List.count_pos_iff.mpr hcall
  have hissued : issued call c.shared ≤ 1 := by
    unfold issued
    split_ifs <;> omega
  simp only [Config.potential, recorded] at honce hcount
  by_cases hanswers : answersOf c.shared call = []
  · right
    rw [hanswers, List.length_nil] at hcount
    exact ⟨hanswers, exists_answering (by omega)⟩
  · left
    have hpos := List.length_pos_iff.mpr hanswers
    obtain ⟨a, ha⟩ := List.length_eq_one_iff.mp (show (answersOf c.shared call).length = 1 by omega)
    have hin : a ∈ answersOf c.shared call := by simp [ha]
    rw [answersOf, List.mem_filter] at hin
    have hfst : a.1 = call := by simpa using hin.2
    rw [ha, ← hfst, ← hmem a hin.1]

end PostgresLib.Transaction
