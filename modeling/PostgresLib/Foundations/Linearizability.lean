import PostgresLib.Foundations.TransitionSystem
import Mathlib.Data.List.Nodup

/-! # Concurrent histories and the sequential object behind them

The calls on an object are seen from outside as invocations and returns, one of each
at most. A history is linearizable when its calls can be put into one order in which a
sequential object gives the same results and in which no call comes before one that
had returned before it was invoked. The order is built along a run: a call is added at
the moment at which it takes effect.
-/

namespace PostgresLib.Foundations

universe u v w x y
variable {ι : Type y} {ω : Type u} {r : Type v} {σ : Type w} {τ : Type x}

/-- What is seen of a call with a given identity. -/
inductive CallEvent (ι : Type y) (ω : Type u) (r : Type v) where
  | invoke (id : ι) (op : ω)
  | ret (id : ι) (result : r)

namespace CallEvent

def invoked? : CallEvent ι ω r → Option ι
  | invoke id _ => some id
  | ret _ _ => none

def returned? : CallEvent ι ω r → Option ι
  | invoke _ _ => none
  | ret id _ => some id

end CallEvent

structure Completed (ι : Type y) (ω : Type u) (r : Type v) where
  id : ι
  op : ω
  result : r

/-- An object that is used by one call at a time; it may also change on its own. -/
structure SequentialObject (σ : Type w) (ω : Type u) (r : Type v) where
  call : σ → ω → r → σ → Prop
  silent : σ → σ → Prop

/-- The first entry stands somewhere before the second. -/
def Before {α : Type u} (xs : List α) (a b : α) : Prop := [a, b].Sublist xs

section Before

variable {α : Type u} {xs ys : List α} {a b c : α}

theorem before_concat : Before (xs ++ [c]) a b ↔ Before xs a b ∨ a ∈ xs ∧ b = c := by
  constructor
  · intro h
    rcases List.sublist_append_iff.mp h with ⟨front, back, heq, hfront, hback⟩
    rcases List.sublist_singleton.mp hback with rfl | rfl
    · rw [List.append_nil] at heq
      subst heq
      exact .inl hfront
    · have hsplit : [a] ++ [b] = front ++ [c] := heq
      rcases List.append_inj' hsplit rfl with ⟨rfl, hb⟩
      exact .inr ⟨List.singleton_sublist.mp hfront, by simpa using hb⟩
  · rintro (h | ⟨ha, rfl⟩)
    · exact h.trans (List.sublist_append_left xs [c])
    · exact List.Sublist.append (List.singleton_sublist.mpr ha) (List.Sublist.refl [b])

theorem Before.left_mem (h : Before xs a b) : a ∈ xs := h.subset List.mem_cons_self

theorem Before.append_right (h : Before xs a b) (ys : List α) : Before (xs ++ ys) a b :=
  h.trans (List.sublist_append_left xs ys)

end Before

def invocations (h : List (CallEvent ι ω r)) : List ι := h.filterMap CallEvent.invoked?

def returns (h : List (CallEvent ι ω r)) : List ι := h.filterMap CallEvent.returned?

/-- Every call is invoked once and returns once at most, and not before it is invoked. -/
structure WellFormed (h : List (CallEvent ι ω r)) : Prop where
  invokedOnce : (invocations h).Nodup
  returnedOnce : (returns h).Nodup
  inTurn : ∀ id result op, ¬ Before h (.ret id result) (.invoke id op)

section History

variable {h : List (CallEvent ι ω r)} {id id' : ι} {op : ω} {result : r}

@[simp] theorem invocations_invoke :
    invocations (h ++ [.invoke id op]) = invocations h ++ [id] := by
  simp [invocations, CallEvent.invoked?]

@[simp] theorem invocations_ret : invocations (h ++ [.ret id result]) = invocations h := by
  simp [invocations, CallEvent.invoked?]

@[simp] theorem returns_invoke : returns (h ++ [.invoke id op]) = returns h := by
  simp [returns, CallEvent.returned?]

@[simp] theorem returns_ret : returns (h ++ [.ret id result]) = returns h ++ [id] := by
  simp [returns, CallEvent.returned?]

theorem mem_invocations_of_mem (h' : .invoke id op ∈ h) : id ∈ invocations h :=
  List.mem_filterMap.mpr ⟨_, h', rfl⟩

end History

namespace SequentialObject

variable (O : SequentialObject σ ω r)

/-- The object serves these calls, one after the other. -/
inductive Serves (s : σ) : List (Completed ι ω r) → σ → Prop
  | none : Serves s [] s
  | call {l : List (Completed ι ω r)} {s₁ s₂ : σ} {c : Completed ι ω r} (h : Serves s l s₁)
      (hcall : O.call s₁ c.op c.result s₂) : Serves s (l ++ [c]) s₂
  | silent {l : List (Completed ι ω r)} {s₁ s₂ : σ} (h : Serves s l s₁)
      (hsilent : O.silent s₁ s₂) : Serves s l s₂

/-- The calls in an order that explains the history. Calls that have not returned may be among
them. -/
structure Linearizes (s : σ) (h : List (CallEvent ι ω r)) (l : List (Completed ι ω r)) (s' : σ) :
    Prop where
  wellFormed : WellFormed h
  legal : O.Serves s l s'
  once : (l.map Completed.id).Nodup
  invoked : ∀ c ∈ l, .invoke c.id c.op ∈ h
  returned : ∀ id result, .ret id result ∈ h → ∃ c ∈ l, c.id = id ∧ c.result = result
  inOrder : ∀ c ∈ l, ∀ c' ∈ l, Before h (.ret c.id c.result) (.invoke c'.id c'.op) → Before l c c'

/-- Some order explains the history. -/
def Linearizable (s : σ) (h : List (CallEvent ι ω r)) : Prop := ∃ l s', O.Linearizes s h l s'

namespace Linearizes

variable {O} {s s₁ s₂ : σ} {h : List (CallEvent ι ω r)} {l : List (Completed ι ω r)}

theorem nil : O.Linearizes s ([] : List (CallEvent ι ω r)) [] s where
  wellFormed := ⟨List.nodup_nil, List.nodup_nil, nofun⟩
  legal := .none
  once := List.nodup_nil
  invoked := nofun
  returned := nofun
  inOrder := nofun

theorem silent (hl : O.Linearizes s h l s₁) (hsilent : O.silent s₁ s₂) :
    O.Linearizes s h l s₂ :=
  { hl with legal := hl.legal.silent hsilent }

theorem invoke (hl : O.Linearizes s h l s₁) {id : ι} {op : ω} (hnew : id ∉ invocations h) :
    O.Linearizes s (h ++ [.invoke id op]) l s₁ where
  wellFormed := {
    invokedOnce := by
      rw [invocations_invoke, ← List.concat_eq_append]
      exact .concat hnew hl.wellFormed.invokedOnce
    returnedOnce := by
      rw [returns_invoke]
      exact hl.wellFormed.returnedOnce
    inTurn := by
      intro id' result op' hbefore
      rcases before_concat.mp hbefore with hbefore | ⟨hret, heq⟩
      · exact hl.wellFormed.inTurn id' result op' hbefore
      · -- what has returned was invoked, so it is not the new call
        injection heq with hid
        rcases hl.returned id' result hret with ⟨c, hc, hcid, -⟩
        have hmem := mem_invocations_of_mem (hl.invoked c hc)
        rw [hcid, hid] at hmem
        exact hnew hmem }
  legal := hl.legal
  once := hl.once
  invoked c hc := List.mem_append_left _ (hl.invoked c hc)
  returned id' result hret := by
    refine hl.returned id' result ((List.mem_append.mp hret).resolve_right ?_)
    simp
  inOrder c hc c' hc' hbefore := by
    rcases before_concat.mp hbefore with hbefore | ⟨-, heq⟩
    · exact hl.inOrder c hc c' hc' hbefore
    · injection heq with hid
      exact absurd (hid ▸ mem_invocations_of_mem (hl.invoked c' hc')) hnew

theorem takeEffect (hl : O.Linearizes s h l s₁) {c : Completed ι ω r}
    (hinvoked : .invoke c.id c.op ∈ h) (honce : c.id ∉ l.map Completed.id)
    (hcall : O.call s₁ c.op c.result s₂) : O.Linearizes s h (l ++ [c]) s₂ where
  wellFormed := hl.wellFormed
  legal := hl.legal.call hcall
  once := by
    rw [List.map_append, List.map_singleton, List.nodup_append]
    refine ⟨hl.once, List.nodup_singleton _, ?_⟩
    rintro id hid id' hid' rfl
    exact honce (List.mem_singleton.mp hid' ▸ hid)
  invoked c' hc' := by
    rcases List.mem_append.mp hc' with hc' | hc'
    · exact hl.invoked c' hc'
    · rwa [List.mem_singleton.mp hc']
  returned id result hret := by
    rcases hl.returned id result hret with ⟨c', hc', hid, hresult⟩
    exact ⟨c', List.mem_append_left _ hc', hid, hresult⟩
  inOrder a ha b hb hbefore := by
    -- a call that has returned has taken effect before
    have hreturned : a ∈ l := by
      rcases List.mem_append.mp ha with ha | ha
      · exact ha
      · rw [List.mem_singleton] at ha
        subst ha
        rcases hl.returned _ _ hbefore.left_mem with ⟨a', ha', hid, -⟩
        exact absurd (List.mem_map.mpr ⟨a', ha', hid⟩) honce
    rcases List.mem_append.mp hb with hb | hb
    · exact (hl.inOrder a hreturned b hb hbefore).append_right [c]
    · exact before_concat.mpr (.inr ⟨hreturned, List.mem_singleton.mp hb⟩)

theorem ret (hl : O.Linearizes s h l s₁) {c : Completed ι ω r} (hc : c ∈ l)
    (hnew : c.id ∉ returns h) : O.Linearizes s (h ++ [.ret c.id c.result]) l s₁ where
  wellFormed := {
    invokedOnce := by
      rw [invocations_ret]
      exact hl.wellFormed.invokedOnce
    returnedOnce := by
      rw [returns_ret, ← List.concat_eq_append]
      exact .concat hnew hl.wellFormed.returnedOnce
    inTurn := by
      intro id result op hbefore
      rcases before_concat.mp hbefore with hbefore | ⟨-, heq⟩
      · exact hl.wellFormed.inTurn id result op hbefore
      · cases heq }
  legal := hl.legal
  once := hl.once
  invoked c' hc' := List.mem_append_left _ (hl.invoked c' hc')
  returned id result hret := by
    rcases List.mem_append.mp hret with hret | hret
    · exact hl.returned id result hret
    · injection List.mem_singleton.mp hret with hid hresult
      exact ⟨c, hc, hid.symm, hresult.symm⟩
  inOrder a ha b hb hbefore := by
    rcases before_concat.mp hbefore with hbefore | ⟨-, heq⟩
    · exact hl.inOrder a ha b hb hbefore
    · cases heq

end Linearizes
end SequentialObject

namespace TransitionSystem

variable (T : TransitionSystem τ) (observe : τ → τ → List (CallEvent ι ω r))

inductive Observed (t : τ) : List (CallEvent ι ω r) → τ → Prop
  | refl : Observed t [] t
  | tail {h : List (CallEvent ι ω r)} {t₁ t₂ : τ} (hrun : Observed t h t₁) (hstep : T.step t₁ t₂) :
      Observed t (h ++ observe t₁ t₂) t₂

variable {T observe} {t t' : τ} {h : List (CallEvent ι ω r)}

theorem Observed.run (hrun : T.Observed observe t h t') : T.Run t t' := by
  induction hrun with
  | refl => exact .refl
  | tail _ hstep ih => exact ih.tail hstep

/-- The histories of a system are linearizable when every step keeps a relation between the state,
the history, the order of the calls so far and the state of the object. -/
theorem Observed.linearizes {O : SequentialObject σ ω r} {s : σ}
    {R : τ → List (CallEvent ι ω r) → List (Completed ι ω r) → σ → Prop} (hinit : R t [] [] s)
    (hstep : ∀ t₁ t₂ h l s₁, T.Run t t₁ → T.step t₁ t₂ → R t₁ h l s₁ → O.Linearizes s h l s₁ →
      ∃ l' s₂, R t₂ (h ++ observe t₁ t₂) l' s₂ ∧ O.Linearizes s (h ++ observe t₁ t₂) l' s₂)
    (hrun : T.Observed observe t h t') : ∃ l s', R t' h l s' ∧ O.Linearizes s h l s' := by
  induction hrun with
  | refl => exact ⟨[], s, hinit, .nil⟩
  | tail hrun hs ih =>
    rcases ih with ⟨l, s₁, hR, hl⟩
    exact hstep _ _ _ l s₁ hrun.run hs hR hl

end TransitionSystem
end PostgresLib.Foundations
