import Mathlib.Data.List.Induction
import Mathlib.Data.List.Nodup
import Mathlib.Algebra.Order.Ring.Int

/-!
# A queue whose items are attempted until they succeed

Every item waits with the number of its failures. An attempt that succeeds takes the
item out of the queue, and so does the failure that reaches the maximum; after any
other failure the item keeps its place. What waits, and how often it has failed, can be
read off the history of the queue (`replay_eq`), if no item is put twice.
-/
namespace EventSourcery.RetryQueue

variable {α : Type*}

abbrev Queue (α : Type*) := List (α × ℕ)

inductive Happening (α : Type*) where
  | put (items : List α)
  | attempted (item : α) (ok : Bool)

/-- What an attempt leaves of an entry. -/
def settle (maximum : ℤ) (ok : Bool) (x : α × ℕ) : Option (α × ℕ) :=
  if ok ∨ maximum ≤ x.2 + 1 then none else some (x.1, x.2 + 1)

/-- What one attempt at each of the entries leaves, by the index of the attempt. -/
def settleAll (maximum : ℤ) (ok : ℕ → α → Bool) : ℕ → Queue α → Queue α
  | _, [] => []
  | i, x :: entries =>
      (settle maximum (ok i x.1) x).toList ++ settleAll maximum ok (i + 1) entries

def entered (items : List α) : Queue α := items.map fun a => (a, 0)

/-- Entries further on have failed as often at most. -/
def Fair (q : Queue α) : Prop := q.Pairwise fun x y => y.2 ≤ x.2

theorem fair_entered (items : List α) : Fair (entered items) := by
  unfold Fair entered
  rw [List.pairwise_map]
  exact List.pairwise_of_forall fun _ _ => le_rfl

theorem Fair.put {q : Queue α} (h : Fair q) (items : List α) : Fair (q ++ entered items) := by
  refine List.pairwise_append.2 ⟨h, fair_entered items, fun x _ y hy => ?_⟩
  obtain ⟨a, -, rfl⟩ := List.mem_map.1 hy
  exact Nat.zero_le _

theorem settle_eq_some {maximum : ℤ} {ok : Bool} {x y : α × ℕ}
    (h : settle maximum ok x = some y) : y = (x.1, x.2 + 1) ∧ ok = false ∧ ¬ maximum ≤ x.2 + 1 := by
  unfold settle at h
  split at h
  · cases h
  · rename_i hkept
    cases h
    simpa using hkept

/-- What is left of an attempted entry comes from it. -/
theorem mem_settleAll {maximum : ℤ} {ok : ℕ → α → Bool} {i : ℕ} {q : Queue α} {y : α × ℕ}
    (h : y ∈ settleAll maximum ok i q) : ∃ x ∈ q, y = (x.1, x.2 + 1) := by
  induction q generalizing i with
  | nil => cases h
  | cons x q ih =>
    rcases List.mem_append.1 h with h | h
    · exact ⟨x, List.mem_cons_self, (settle_eq_some (Option.mem_toList.1 h)).1⟩
    · obtain ⟨x', hx', rfl⟩ := ih h
      exact ⟨x', List.mem_cons_of_mem _ hx', rfl⟩

/-- A round of attempts at the head of the queue leaves it fair. -/
theorem Fair.settleAll {entries rest : Queue α} (h : Fair (entries ++ rest)) (maximum : ℤ)
    (ok : ℕ → α → Bool) (i : ℕ) : Fair (settleAll maximum ok i entries ++ rest) := by
  induction entries generalizing i with
  | nil => exact h
  | cons x entries ih =>
    obtain ⟨hfirst, hrest⟩ := List.pairwise_cons.1 h
    simp only [RetryQueue.settleAll, List.append_assoc]
    refine List.pairwise_append.2 ⟨?_, ih hrest (i + 1), fun y hy z hz => ?_⟩
    · cases RetryQueue.settle maximum (ok i x.1) x <;> simp
    · obtain ⟨rfl, -, -⟩ := settle_eq_some (Option.mem_toList.1 hy)
      rcases List.mem_append.1 hz with hz | hz
      · obtain ⟨w, hw, rfl⟩ := mem_settleAll hz
        exact Nat.succ_le_succ (hfirst w (List.mem_append_left _ hw))
      · exact (hfirst z (List.mem_append_right _ hz)).trans (Nat.le_succ _)

/-- All items that were put. -/
def putItems (history : List (Happening α)) : List α :=
  history.flatMap fun
    | .put items => items
    | .attempted _ _ => []

theorem putItems_append (history history' : List (Happening α)) :
    putItems (history ++ history') = putItems history ++ putItems history' :=
  List.flatMap_append

/-- Failures up to the maximum, or fewer of them and then a success. -/
def Retried (maximum : ℤ) (outcomes : List Bool) : Prop :=
  ∃ n : ℕ, outcomes = List.replicate n false ∧ (n : ℤ) ≤ maximum ∨
    outcomes = List.replicate n false ++ [true] ∧ (n : ℤ) < maximum

/-- An item waits until an attempt succeeds or the attempts reach the maximum. -/
def waiting (maximum : ℤ) (outcomes : List Bool) : Bool :=
  !outcomes.contains true && decide ((outcomes.length : ℤ) < maximum)

section Histories
variable [DecidableEq α] (maximum : ℤ)

/-- An attempt finds the entry by its item. -/
def step (q : Queue α) : Happening α → Queue α
  | .put items => q ++ entered items
  | .attempted a ok => q.filterMap fun x => if x.1 = a then settle maximum ok x else some x

def replay (q : Queue α) (history : List (Happening α)) : Queue α := history.foldl (step maximum) q

/-- Every attempt is at an item that waits. -/
def Proper : Queue α → List (Happening α) → Prop
  | _, [] => True
  | q, happening :: history =>
      (∀ a ok, happening = .attempted a ok → a ∈ q.map Prod.fst) ∧
        Proper (step maximum q happening) history

/-- How the attempts at an item ended, in order. -/
def outcomes (a : α) (history : List (Happening α)) : List Bool :=
  history.filterMap fun
    | .put _ => none
    | .attempted b ok => if b = a then some ok else none

/-- The items that wait, with their failures. -/
def remaining (history : List (Happening α)) : Queue α :=
  (putItems history).filterMap fun a =>
    if waiting maximum (outcomes a history) then some (a, (outcomes a history).length) else none

end Histories

section Outcomes
variable {maximum : ℤ} {os : List Bool}

theorem waiting_iff :
    waiting maximum os = true ↔ true ∉ os ∧ (os.length : ℤ) < maximum := by
  simp [waiting]

theorem eq_replicate_of_not_mem (h : true ∉ os) :
    os = List.replicate os.length false := by
  rw [List.eq_replicate_iff]
  refine ⟨rfl, fun b hb => ?_⟩
  cases b with
  | false => rfl
  | true => exact absurd hb h

/-- A waiting item after one attempt more. -/
theorem waiting_attempted {a : α} (hwaiting : waiting maximum os) (ok : Bool) :
    (if waiting maximum (os ++ [ok]) then some (a, (os ++ [ok]).length) else none) =
      settle maximum ok (a, os.length) := by
  obtain ⟨hnone, -⟩ := waiting_iff.1 hwaiting
  unfold settle
  cases ok with
  | true => simp [waiting]
  | false =>
    by_cases hlast : maximum ≤ (os.length : ℤ) + 1
    · have : ¬ waiting maximum (os ++ [false]) := by
        rw [waiting_iff]
        simp
        omega
      simp [this, hlast]
    · have : waiting maximum (os ++ [false]) := by
        rw [waiting_iff]
        simp
        exact ⟨hnone, by omega⟩
      simp [this, hlast]

/-- An item that waits no longer does not come back. -/
theorem not_waiting_append (h : waiting maximum os = false) (ok : Bool) :
    waiting maximum (os ++ [ok]) = false := by
  rw [← Bool.not_eq_true, waiting_iff] at h ⊢
  rintro ⟨hnone, hlength⟩
  refine h ⟨fun hmem => hnone (List.mem_append_left _ hmem), ?_⟩
  simp only [List.length_append, List.length_cons, List.length_nil] at hlength
  omega

theorem retried_nil (hmaximum : 1 ≤ maximum) : Retried maximum [] :=
  ⟨0, .inl ⟨rfl, by omega⟩⟩

theorem retried_of_waiting (h : waiting maximum os) (ok : Bool) :
    Retried maximum (os ++ [ok]) := by
  obtain ⟨hnone, hlength⟩ := waiting_iff.1 h
  have hos := eq_replicate_of_not_mem hnone
  cases ok with
  | true => exact ⟨os.length, .inr ⟨by rw [← hos], hlength⟩⟩
  | false =>
    refine ⟨os.length + 1, .inl ⟨?_, by push_cast; omega⟩⟩
    rw [List.replicate_succ', ← hos]

/-- Some of the attempts, with the success among them if there is one. -/
theorem Retried.sublist {os' : List Bool} (h : Retried maximum os) (hsub : os'.Sublist os) :
    Retried maximum os' := by
  obtain ⟨n, ⟨rfl, hn⟩ | ⟨rfl, hn⟩⟩ := h
  · obtain ⟨m, hm, rfl⟩ := List.sublist_replicate_iff.1 hsub
    exact ⟨m, .inl ⟨rfl, by omega⟩⟩
  · obtain ⟨front, last, rfl, hfront, hlast⟩ := List.sublist_append_iff.1 hsub
    obtain ⟨m, hm, rfl⟩ := List.sublist_replicate_iff.1 hfront
    rcases List.sublist_singleton.1 hlast with rfl | rfl
    · exact ⟨m, .inl ⟨List.append_nil _, by omega⟩⟩
    · exact ⟨m, .inr ⟨rfl, by omega⟩⟩

end Outcomes

section Replays
variable [DecidableEq α] {maximum : ℤ} {q : Queue α} {history : List (Happening α)}
  {happening : Happening α}

theorem replay_append (q : Queue α) (history : List (Happening α)) (happening : Happening α) :
    replay maximum q (history ++ [happening]) = step maximum (replay maximum q history) happening :=
  List.foldl_append

/-- An attempt changes the entry of its item alone. -/
theorem step_attempted {front rest : Queue α} {x : α × ℕ} {ok : Bool}
    (hnodup : ((front ++ x :: rest).map Prod.fst).Nodup) :
    step maximum (front ++ x :: rest) (.attempted x.1 ok) =
      front ++ (settle maximum ok x).toList ++ rest := by
  rw [List.map_append, List.map_cons, List.nodup_middle, List.nodup_cons, List.mem_append,
    not_or] at hnodup
  have hothers : ∀ entries : Queue α, x.1 ∉ entries.map Prod.fst →
      entries.filterMap (fun y => if y.1 = x.1 then settle maximum ok y else some y) = entries := by
    intro entries hx
    rw [← List.filterMap_some (l := entries), List.filterMap_filterMap]
    apply List.filterMap_congr
    intro y hy
    have hne : y.1 ≠ x.1 := fun heq => hx (List.mem_map.2 ⟨y, hy, heq⟩)
    simp [hne]
  simp only [step, List.filterMap_append, List.filterMap_cons, if_true, hothers front hnodup.1.1,
    hothers rest hnodup.1.2]
  cases settle maximum ok x <;> simp

/-- An attempt lets no item in. -/
theorem step_attempted_items (maximum : ℤ) (q : Queue α) (a : α) (ok : Bool) :
    ((step maximum q (.attempted a ok)).map Prod.fst).Sublist (q.map Prod.fst) := by
  induction q with
  | nil => exact List.Sublist.slnil
  | cons x q ih =>
    have hfirst : ∀ y, (if x.1 = a then settle maximum ok x else some x) = some y → y.1 = x.1 := by
      intro y hy
      split at hy
      · rw [(settle_eq_some hy).1]
      · cases hy
        rfl
    simp only [step, List.filterMap_cons, List.map_cons] at ih ⊢
    split
    · exact ih.cons _
    · rename_i y hy
      rw [List.map_cons, hfirst y hy]
      exact ih.cons_cons _

/-- What waits was waiting before or has been put. -/
theorem replay_items (maximum : ℤ) (q : Queue α) (history : List (Happening α)) :
    ((replay maximum q history).map Prod.fst).Sublist (q.map Prod.fst ++ putItems history) := by
  induction history generalizing q with
  | nil => simp [replay, putItems]
  | cons happening history ih =>
    have hstep : ((step maximum q happening).map Prod.fst).Sublist
        (q.map Prod.fst ++ putItems [happening]) := by
      cases happening with
      | put items => simp [step, putItems, entered, Function.comp_def]
      | attempted a ok =>
        have hitems : putItems [Happening.attempted a ok] = [] := rfl
        rw [hitems, List.append_nil]
        exact step_attempted_items maximum q a ok
    have hall := (ih (step maximum q happening)).trans (hstep.append_right _)
    rwa [List.append_assoc, ← putItems_append] at hall

theorem proper_append {history' : List (Happening α)} :
    Proper maximum q (history ++ history') ↔
      Proper maximum q history ∧ Proper maximum (replay maximum q history) history' := by
  induction history generalizing q with
  | nil => simp [Proper, replay]
  | cons first history ih =>
    simp only [List.cons_append, Proper, ih, and_assoc]
    rfl

theorem outcomes_append (a : α) (history history' : List (Happening α)) :
    outcomes a (history ++ history') = outcomes a history ++ outcomes a history' :=
  List.filterMap_append

/-- Nothing was attempted that was not put before. -/
theorem outcomes_eq_nil {a : α} (hremaining : replay maximum [] history = remaining maximum history)
    (hproper : Proper maximum [] (history ++ [happening])) (h : outcomes a history = [])
    (ha : a ∉ putItems history) : outcomes a (history ++ [happening]) = [] := by
  rw [outcomes_append, h]
  cases happening with
  | put items => rfl
  | attempted b ok =>
    have hmem := (proper_append.1 hproper).2.1 b ok rfl
    rw [hremaining] at hmem
    obtain ⟨x, hx, rfl⟩ := List.mem_map.1 hmem
    obtain ⟨c, hc, hx⟩ := List.mem_filterMap.1 hx
    split at hx
    · cases hx
      have hne : c ≠ a := fun heq => ha (heq ▸ hc)
      simp [outcomes, hne]
    · cases hx

theorem remaining_put (hmaximum : 1 ≤ maximum) {items : List α}
    (hunknown : ∀ a, a ∉ putItems history → outcomes a history = [])
    (hnodup : (putItems (history ++ [.put items])).Nodup) :
    remaining maximum (history ++ [.put items]) =
      step maximum (remaining maximum history) (.put items) := by
  have hsame : ∀ a, outcomes a (history ++ [.put items]) = outcomes a history := by
    intro a
    rw [outcomes_append]
    exact List.append_nil _
  have hitems : putItems [Happening.put items] = items := by simp [putItems]
  rw [putItems_append, hitems] at hnodup
  unfold remaining
  rw [putItems_append, List.filterMap_append, hitems]
  simp only [step, hsame, entered]
  rw [← List.filterMap_eq_map]
  congr 1
  apply List.filterMap_congr
  intro a ha
  have hnew : a ∉ putItems history := fun hold =>
    (List.nodup_append.1 hnodup).2.2 a hold a ha rfl
  rw [hunknown a hnew]
  have hwaiting : waiting maximum [] = true := waiting_iff.2 ⟨by simp, by simp; omega⟩
  simp [hwaiting]

theorem remaining_attempted (history : List (Happening α)) (b : α) (ok : Bool) :
    remaining maximum (history ++ [.attempted b ok]) =
      step maximum (remaining maximum history) (.attempted b ok) := by
  have hitems : putItems [Happening.attempted b ok] = [] := rfl
  unfold remaining
  rw [putItems_append, hitems, List.append_nil]
  simp only [step, List.filterMap_filterMap]
  apply List.filterMap_congr
  intro a _
  rw [outcomes_append]
  by_cases hab : a = b
  · subst hab
    have hone : outcomes a [Happening.attempted a ok] = [ok] := by simp [outcomes]
    rw [hone]
    cases hwaiting : waiting maximum (outcomes a history) with
    | true =>
      rw [waiting_attempted hwaiting]
      simp
    | false =>
      rw [not_waiting_append hwaiting]
      simp
  · have hnone : outcomes a [Happening.attempted b ok] = [] := by simp [outcomes, Ne.symm hab]
    rw [hnone, List.append_nil]
    cases waiting maximum (outcomes a history) <;> simp [hab]

/-- The queue after a history, and the items that it has never heard of. -/
theorem replay_spec (hmaximum : 1 ≤ maximum) (hproper : Proper maximum [] history)
    (hnodup : (putItems history).Nodup) :
    replay maximum [] history = remaining maximum history ∧
      ∀ a, a ∉ putItems history → outcomes a history = [] := by
  induction history using List.reverseRecOn with
  | nil => exact ⟨rfl, fun _ _ => rfl⟩
  | append_singleton history happening ih =>
    have hold : (putItems history).Nodup := by
      rw [putItems_append] at hnodup
      exact List.Nodup.of_append_left hnodup
    obtain ⟨hreplay, hunknown⟩ := ih (proper_append.1 hproper).1 hold
    constructor
    · rw [replay_append, hreplay]
      cases happening with
      | put items => exact (remaining_put hmaximum hunknown hnodup).symm
      | attempted b ok => exact (remaining_attempted history b ok).symm
    · intro a ha
      rw [putItems_append, List.mem_append, not_or] at ha
      exact outcomes_eq_nil hreplay hproper (hunknown a ha.1) ha.1

theorem replay_eq (hmaximum : 1 ≤ maximum) (hproper : Proper maximum [] history)
    (hnodup : (putItems history).Nodup) : replay maximum [] history = remaining maximum history :=
  (replay_spec hmaximum hproper hnodup).1

/-- Every item is attempted as often as the maximum allows, and not again after a success. -/
theorem retried_outcomes (hmaximum : 1 ≤ maximum) (hproper : Proper maximum [] history)
    (hnodup : (putItems history).Nodup) (a : α) : Retried maximum (outcomes a history) := by
  induction history using List.reverseRecOn with
  | nil => exact retried_nil hmaximum
  | append_singleton history happening ih =>
    obtain ⟨hproper', hlast⟩ := proper_append.1 hproper
    rw [putItems_append] at hnodup
    have hnodup' := List.Nodup.of_append_left hnodup
    rw [outcomes_append]
    cases happening with
    | put items => simpa [outcomes] using ih hproper' hnodup'
    | attempted b ok =>
      by_cases hab : b = a
      · subst hab
        have hmem := hlast.1 b ok rfl
        rw [replay_eq hmaximum hproper' hnodup'] at hmem
        obtain ⟨x, hx, rfl⟩ := List.mem_map.1 hmem
        obtain ⟨c, -, hx⟩ := List.mem_filterMap.1 hx
        split at hx
        · rename_i hwaiting
          cases hx
          simpa [outcomes] using retried_of_waiting hwaiting ok
        · cases hx
      · simpa [outcomes, hab] using ih hproper' hnodup'

end Replays

end EventSourcery.RetryQueue
