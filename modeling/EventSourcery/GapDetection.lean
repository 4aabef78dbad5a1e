import EventSourcery.Subscriptions

/-!
# Gap detection

A subscription to all events that returns in time has a full batch of consecutive
ids. Its first id is compared with nothing, so a gap between the cursor and the
batch goes unnoticed, and what commits there later is never delivered.
-/
namespace EventSourcery.Sql.Subscriptions
open Runs Paging

variable {τ : Type} [Sub τ] [LT τ] [DecidableLT τ]

namespace Delivery

/-- The call returned before its time limit. -/
def Early (timelimit : τ) (d : Delivery τ) : Prop := ¬ timelimit < d.returnedAt - d.start

instance (timelimit : τ) (d : Delivery τ) : Decidable (d.Early timelimit) :=
  inferInstanceAs (Decidable (¬ timelimit < d.returnedAt - d.start))

/-- Every id that the cursor passes is in the batch, and no event that is visible later
has such an id and is not in the batch. -/
def LosesNothing (d : Delivery τ) (s : State τ) : Prop :=
  (∀ id : ℤ, 1 ≤ id → d.cursor < id → id ≤ d.newCursor → ∃ x ∈ d.batch, x.position = id) ∧
  ∀ x ∈ s.visible, d.cursor < x.position → x.position ≤ d.newCursor → x ∈ d.batch

/-- The first id after the cursor is visible. -/
def NextVisible (d : Delivery τ) : Prop := ∃ x ∈ d.visible, x.position = max (d.cursor + 1) 1

end Delivery

section Continuous

omit [Sub τ] [LT τ] [DecidableLT τ]

theorem ends_of_isContinuous {batch : List Entry} (h : isContinuous batch) :
    ∃ first last, batch.head? = some first ∧ batch.getLast? = some last ∧
      last.position - first.position + 1 = batch.length := by
  unfold isContinuous at h
  split at h
  · rename_i first last hfirst hlast
    simp only [Bool.and_eq_true, decide_eq_true_eq] at h
    exact ⟨first, last, hfirst, hlast, h.2⟩
  · cases h

theorem head_le {batch : List Entry} (h : batch.Pairwise fun x y => x.position < y.position)
    {first : Entry} (hfirst : batch.head? = some first) {x : Entry} (hx : x ∈ batch) :
    first.position ≤ x.position := by
  cases batch with
  | nil => cases hx
  | cons y batch =>
    have hy : y = first := by simpa using hfirst
    rcases List.mem_cons.1 hx with rfl | hx
    · rw [hy]
    · exact le_of_lt (hy ▸ List.rel_of_pairwise_cons h hx)

/-- A continuous batch starts after the cursor and has all ids from there to the new cursor. -/
theorem Exact.run_of_isContinuous {batchSize : ℕ} {filterer : GetBatch} {d : Delivery τ}
    (h : Exact filterer batchSize d) (hcontinuous : isContinuous d.batch) :
    ∃ first ∈ d.batch, (∀ x ∈ d.batch, first.position ≤ x.position) ∧
      ∀ id : ℤ, first.position ≤ id → id ≤ d.newCursor → ∃ x ∈ d.batch, x.position = id := by
  obtain ⟨first, last, hfirst, hlast, hlength⟩ := ends_of_isContinuous hcontinuous
  have hhead : ∀ x ∈ d.batch, first.position ≤ x.position := fun x hx =>
    head_le h.sorted hfirst hx
  refine ⟨first, List.mem_of_head? hfirst, hhead, ?_⟩
  intro id hid hend
  have hnew : d.newCursor = last.position := by
    simp [Delivery.newCursor, advance, pageEnd, hlast]
  have hrange : ∀ k ∈ d.batch.map Entry.position, first.position ≤ k ∧ k ≤ last.position := by
    intro k hk
    obtain ⟨x, hx, rfl⟩ := List.mem_map.1 hk
    exact ⟨hhead x hx, hnew ▸ h.le_newCursor hx⟩
  have hmem : id ∈ d.batch.map Entry.position := by
    apply mem_of_consecutive (List.pairwise_map.2 h.sorted) hrange _ hid (hnew ▸ hend)
    rw [List.length_map, hlength]
  exact List.mem_map.1 hmem

end Continuous

section Runs
variable {filterer : GetBatch} {batchSize : ℕ} {timelimit : τ} {startFrom : Position}
  {s s' : State τ}

/-- What returns in time is continuous. -/
def InTime (timelimit : τ) (s : State τ) : Prop :=
  ∀ d ∈ s.delivered, d.Early timelimit → isContinuous d.batch

theorem inTime_step {a : Action τ} (hs : InTime timelimit s)
    (h : step filterer batchSize timelimit s a = some s') : InTime timelimit s' := by
  obtain ⟨-, -, hdelivered⟩ | ⟨x, -, -, rfl⟩ | ⟨start, now, -, hreturn, rfl⟩ := step_cases h
  · unfold InTime
    rw [hdelivered]
    exact hs
  · exact hs
  · intro d hd hearly
    rcases List.mem_append.1 hd with hd | hd
    · exact hs d hd hearly
    · rw [List.mem_singleton.1 hd] at hearly ⊢
      exact hreturn.resolve_right hearly

theorem inTime_exec {schedule : List (Action τ)}
    (h : exec (step filterer batchSize timelimit) (initial startFrom) schedule = some s) :
    InTime timelimit s := by
  apply exec_invariant (InTime timelimit) (fun _ => True)
    (fun _ _ _ _ hs hstep => inTime_step hs hstep) (fun _ _ => trivial) _ h
  intro d hd
  cases hd

end Runs

section GapDetection
variable {batchSize : ℕ} {timelimit : τ} {startFrom : Position} {s : State τ}

omit [Sub τ] [LT τ] [DecidableLT τ] in
/-- The batch has what is visible, so it is enough that it has every id. -/
theorem losesNothing_of_ids {d : Delivery τ} (hs : Inv .toAll batchSize startFrom s)
    (hd : d ∈ s.delivered)
    (h : ∀ id : ℤ, 1 ≤ id → d.cursor < id → id ≤ d.newCursor → ∃ x ∈ d.batch, x.position = id) :
    d.LosesNothing s := by
  refine ⟨h, fun x hx hafter hend => ?_⟩
  obtain ⟨y, hy, hposition⟩ := h x.position (hs.positive x hx) hafter hend
  have hvisible : y ∈ s.visible := hs.seen d hd ((hs.exact d hd).mem hy).1
  exact List.inj_on_of_nodup_map hs.ids hvisible hx hposition ▸ hy

/-- A call that returns in time loses nothing if and only if the first id after the cursor
was visible to its last query. -/
theorem losesNothing_iff {schedule : List (Action τ)}
    (h : exec (step .toAll batchSize timelimit) (initial startFrom) schedule = some s) :
    ∀ d ∈ s.delivered, d.Early timelimit → (d.LosesNothing s ↔ d.NextVisible) := by
  intro d hd hearly
  have hs : Inv .toAll batchSize startFrom s := inv_exec h
  have hexact := hs.exact d hd
  obtain ⟨first, hfirst, hhead, hids⟩ :=
    hexact.run_of_isContinuous (inTime_exec h d hd hearly)
  obtain ⟨hseen, -, hafter⟩ := hexact.mem hfirst
  have hpositive : 1 ≤ first.position := hs.positive first (hs.seen d hd hseen)
  have hle : max (d.cursor + 1) 1 ≤ first.position := max_le (Int.add_one_le_iff.2 hafter) hpositive
  have hend : max (d.cursor + 1) 1 ≤ d.newCursor := le_trans hle (hexact.le_newCursor hfirst)
  have hnext : d.cursor < max (d.cursor + 1) 1 := lt_max_of_lt_left (Int.lt_succ d.cursor)
  constructor
  · intro hnothing
    obtain ⟨x, hx, hposition⟩ := hnothing.1 _ (le_max_right _ _) hnext hend
    exact ⟨x, (hexact.mem hx).1, hposition⟩
  · rintro ⟨x, hx, hposition⟩
    have hmem : x ∈ d.batch := hexact.complete hx rfl (hposition ▸ hnext) (hposition ▸ hend)
    apply losesNothing_of_ids hs hd
    intro id hid hcursor hbound
    have hstart : first.position ≤ id :=
      calc first.position ≤ x.position := hhead x hmem
        _ = max (d.cursor + 1) 1 := hposition
        _ ≤ id := max_le (Int.add_one_le_iff.2 hcursor) hid
    exact hids id hstart hbound

omit [Sub τ] [LT τ] [DecidableLT τ] in
/-- Where no delivery loses anything, all that is visible behind the cursor was delivered. -/
theorem delivered_of_losesNothing (hs : Inv .toAll batchSize startFrom s)
    (hnothing : ∀ d ∈ s.delivered, d.LosesNothing s) {x : Entry} (hx : x ∈ s.visible)
    (hstart : startFrom < x.position) (hpassed : x.position ≤ s.cursor) :
    ∃ d ∈ s.delivered, x ∈ d.batch := by
  obtain ⟨d, hd, hafter, hend⟩ := window_of_chained hs.chained hstart hpassed
  exact ⟨d, hd, (hnothing d hd).2 x hx hafter hend⟩

end GapDetection

section Example

/-- Three transactions reserve ids; the first commits last, after a call has returned. -/
def firstLast : List (Action ℤ) :=
  [.reserve, .reserve, .reserve, .commit (entryOf 2 ""), .commit (entryOf 3 ""), .next 0,
    .attempt 0, .commit (entryOf 1 "")]

/-- The second commits last, and the call waits for it. -/
def secondLast : List (Action ℤ) :=
  [.reserve, .reserve, .commit (entryOf 1 ""), .next 0, .attempt 0, .commit (entryOf 2 ""),
    .attempt 1]

theorem losesNothing_iff_secondLast :
    ∃ s d, exec (step .toAll 2 1) (initial 0) secondLast = some s ∧ s.delivered = [d] ∧
      d.batch = [entryOf 1 "", entryOf 2 ""] ∧ (d.LosesNothing s ↔ d.NextVisible) := by
  have hrun : exec (step .toAll 2 1) (initial 0) secondLast =
      some ((exec (step .toAll 2 1) (initial 0) secondLast).get (by decide)) :=
    (Option.some_get _).symm
  exact ⟨_, _, hrun, rfl, rfl, losesNothing_iff hrun _ (List.mem_singleton_self _) (by decide)⟩

/-- Events 2 and 3 are returned at once, and event 1 is never delivered. -/
theorem losesNothing_firstLast :
    ∃ s d, exec (step .toAll 2 1) (initial 0) firstLast = some s ∧ s.delivered = [d] ∧
      d.Early 1 ∧ d.batch = [entryOf 2 "", entryOf 3 ""] ∧ entryOf 1 "" ∈ s.visible ∧
      s.cursor = 3 ∧ ¬ d.LosesNothing s := by
  refine ⟨_, _, rfl, rfl, by decide, rfl, by decide, rfl, fun h => ?_⟩
  have hlost := h.2 (entryOf 1 "") (by decide) (by decide) (by decide)
  exact absurd hlost (by decide)

end Example

end EventSourcery.Sql.Subscriptions
