import Mathlib.Data.List.Sort

/-!
# Replay of versioned events

Events are applied to a state in the order of their versions. A snapshot of a version leads to
the state after the events up to its version, whatever state it is applied to. So the events of
a range, and a snapshot in the range with the events after it, lead to the same state.
-/
namespace EventSourcery.Replay

variable {α σ V : Type*} [LinearOrder V]

/-- The events in the order of their versions. -/
def ordered (version : α → V) (events : List α) : List α :=
  events.insertionSort fun x y => version x ≤ version y

section States
variable (apply : σ → α → σ) (initial : σ) (version : α → V)

/-- The state after the events of the selected versions. -/
def stateAfter (selected : V → Prop) [DecidablePred selected] (events : List α) : σ :=
  ((ordered version events).filter fun x => selected (version x)).foldl apply initial

/-- The state after the events before a version; nothing is before no version. -/
def stateFrom (start : Option V) (events : List α) : σ :=
  start.elim initial fun a => stateAfter apply initial version (· < a) events

/-- The state after the events before a version, or after all events. -/
def stateUntil (stop : Option V) (events : List α) : σ :=
  stateAfter apply initial version (fun v => ∀ b ∈ stop, v < b) events

end States

/-- In a range, where it is bounded. -/
def InRange (start stop : Option V) (v : V) : Prop :=
  (∀ a ∈ start, a ≤ v) ∧ ∀ b ∈ stop, v < b

instance (start stop : Option V) (v : V) : Decidable (InRange start stop v) :=
  inferInstanceAs (Decidable (_ ∧ _))

section Order
variable {version : α → V} {events : List α}

theorem ordered_perm (version : α → V) (events : List α) :
    (ordered version events).Perm events := List.perm_insertionSort _ _

theorem pairwise_ordered (version : α → V) (events : List α) :
    (ordered version events).Pairwise fun x y => version x ≤ version y := by
  have htrans : IsTrans α fun x y => version x ≤ version y := ⟨fun _ _ _ h h' => le_trans h h'⟩
  have htotal : Std.Total fun x y : α => version x ≤ version y := ⟨fun _ _ => le_total _ _⟩
  exact List.pairwise_insertionSort _ _

/-- Distinct versions leave one order only. -/
theorem eq_of_sorted (hdistinct : (events.map version).Nodup) {xs ys : List α}
    (hxs : xs.Pairwise fun x y => version x ≤ version y)
    (hys : ys.Pairwise fun x y => version x ≤ version y) (hperm : xs.Perm ys)
    (hevents : ∀ x ∈ xs, x ∈ events) : xs = ys := by
  refine List.Perm.eq_of_pairwise (fun a b ha hb hab hba => ?_) hxs hys hperm
  exact List.inj_on_of_nodup_map hdistinct (hevents a ha) (hevents b (hperm.mem_iff.2 hb))
    (le_antisymm hab hba)

/-- If some versions come before others, the sorted events of both are those of the first and
then those of the second. -/
theorem filter_or {p q : V → Prop} [DecidablePred p] [DecidablePred q]
    (hpq : ∀ v w, p v → q w → v < w) {xs : List α}
    (hxs : xs.Pairwise fun x y => version x ≤ version y) :
    xs.filter (fun x => p (version x) ∨ q (version x)) =
      xs.filter (fun x => p (version x)) ++ xs.filter fun x => q (version x) := by
  induction xs with
  | nil => rfl
  | cons x xs ih =>
    obtain ⟨hx, hxs⟩ := List.pairwise_cons.1 hxs
    have hrest := ih hxs
    simp only [List.filter_cons, decide_eq_true_eq]
    by_cases hp : p (version x)
    · have hq : ¬ q (version x) := fun hq => lt_irrefl _ (hpq _ _ hp hq)
      rw [if_pos (.inl hp), if_pos hp, if_neg hq, hrest, List.cons_append]
    · by_cases hq : q (version x)
      · have hnone : xs.filter (fun y => p (version y)) = [] := by
          rw [List.filter_eq_nil_iff]
          intro y hy hpy
          exact (hx y hy).not_gt (hpq _ _ (of_decide_eq_true hpy) hq)
        rw [if_pos (.inr hq), if_neg hp, if_pos hq, hrest, hnone]
        rfl
      · rw [if_neg (not_or.2 ⟨hp, hq⟩), if_neg hp, if_neg hq, hrest]

end Order

section Ranges
variable {apply : σ → α → σ} {initial : σ} {version : α → V} {start stop : Option V}

/-- The events of two selections, one before the other. -/
theorem stateAfter_or {p q r : V → Prop} [DecidablePred p] [DecidablePred q] [DecidablePred r]
    (hpq : ∀ v w, p v → q w → v < w) (hr : ∀ v, r v ↔ p v ∨ q v) (events : List α) :
    ((ordered version events).filter fun x => q (version x)).foldl apply
        (stateAfter apply initial version p events) =
      stateAfter apply initial version r events := by
  simp only [stateAfter, hr]
  rw [filter_or hpq (pairwise_ordered version events), List.foldl_append]

/-- The events of a range lead from the state at its start to the state at its stop. -/
theorem replay_range (hbounds : ∀ a ∈ start, ∀ b ∈ stop, a ≤ b) (events : List α) :
    ((ordered version events).filter fun x => InRange start stop (version x)).foldl apply
        (stateFrom apply initial version start events) =
      stateUntil apply initial version stop events := by
  cases start with
  | none =>
    simp only [InRange, Option.not_mem_none, false_implies, implies_true, true_and]
    rfl
  | some a =>
    refine stateAfter_or (p := (· < a)) (q := InRange (some a) stop)
      (r := fun v => ∀ b ∈ stop, v < b) (fun v w hv hw => hv.trans_le (hw.1 a rfl))
      (fun v => ?_) events
    constructor
    · intro hv
      rcases lt_or_ge v a with hlt | hge
      · exact .inl hlt
      · exact .inr ⟨fun b hb => Option.some.inj hb ▸ hge, hv⟩
    · rintro (hlt | hrange)
      · exact fun b hb => hlt.trans_le (hbounds a rfl b hb)
      · exact hrange.2

/-- So do a snapshot in the range and the events of the range after it. -/
theorem replay_snapshot {snapshot : α} {s : V} {events : List α}
    (hfaithful : ∀ state, apply state snapshot =
      stateAfter apply initial version (· ≤ s) events) (hs : InRange start stop s) (state : σ) :
    (snapshot :: (ordered version events).filter fun x =>
        InRange start stop (version x) ∧ s < version x).foldl apply state =
      stateUntil apply initial version stop events := by
  rw [List.foldl_cons, hfaithful]
  refine stateAfter_or (p := (· ≤ s)) (q := fun v => InRange start stop v ∧ s < v)
    (r := fun v => ∀ b ∈ stop, v < b) (fun v w hv hw => hv.trans_lt hw.2) (fun v => ?_) events
  constructor
  · intro hv
    rcases le_or_gt v s with hle | hgt
    · exact .inl hle
    · exact .inr ⟨⟨fun a ha => (hs.1 a ha).trans hgt.le, hv⟩, hgt⟩
  · rintro (hle | hrange)
    · exact fun b hb => hle.trans_lt (hs.2 b hb)
    · exact hrange.1.2

end Ranges

end EventSourcery.Replay
