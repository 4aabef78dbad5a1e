import EventSourcery.Replay
import Mathlib.Order.Interval.Finset.Nat
import Mathlib.Data.Int.Interval

/-!
# Reading by pages

A reader that keeps the key of the last entry it got asks for the next entries
with larger keys. A page has all the wanted entries up to its end, and when it is
not full, all there are. Nothing here depends on what the entries are.
-/
namespace EventSourcery.Paging

variable {α : Type*} (key : α → ℤ) (wanted : α → Bool)

/-- The wanted entries after a key, in the order of their keys. -/
def following (after : ℤ) (xs : List α) : List α :=
  (xs.filter fun x => wanted x && after < key x).insertionSort fun x y => key x ≤ key y

/-- The first `n` of them. -/
def nextPage (n : ℕ) (after : ℤ) (xs : List α) : List α := (following key wanted after xs).take n

/-- The key to go on from: that of the last entry, if there is one. -/
def pageEnd (after : ℤ) (page : List α) : ℤ := (page.getLast?.map key).getD after

section Page
variable {key wanted} {n : ℕ} {after : ℤ} {xs : List α} {x : α}

theorem mem_following : x ∈ following key wanted after xs ↔ x ∈ xs ∧ wanted x ∧ after < key x := by
  simp [following]

theorem mem_nextPage (h : x ∈ nextPage key wanted n after xs) :
    x ∈ xs ∧ wanted x ∧ after < key x := mem_following.1 (List.mem_of_mem_take h)

theorem length_nextPage_le : (nextPage key wanted n after xs).length ≤ n := by
  simp [nextPage]

/-- A page that is not full has every wanted entry. -/
theorem mem_of_length_lt (h : (nextPage key wanted n after xs).length < n) (hx : x ∈ xs)
    (hwanted : wanted x) (hafter : after < key x) : x ∈ nextPage key wanted n after xs := by
  unfold nextPage at h ⊢
  rw [List.length_take] at h
  rw [List.take_of_length_le (by omega)]
  exact mem_following.2 ⟨hx, hwanted, hafter⟩

/-- With different keys the order is strict. -/
theorem pairwise_following (hkeys : (xs.map key).Nodup) :
    (following key wanted after xs).Pairwise fun x y => key x < key y := by
  have hle : (following key wanted after xs).Pairwise fun x y => key x ≤ key y :=
    Replay.pairwise_ordered key _
  have hne : (following key wanted after xs).Pairwise fun x y => key x ≠ key y := by
    have hperm : (following key wanted after xs).Perm
        (xs.filter fun x => wanted x && after < key x) := List.perm_insertionSort _ _
    have hnodup : ((following key wanted after xs).map key).Nodup :=
      (hperm.map key).nodup_iff.2 ((List.filter_sublist.map key).nodup hkeys)
    exact List.pairwise_map.1 hnodup
  exact (hle.and hne).imp fun h => lt_of_le_of_ne h.1 h.2

theorem pairwise_nextPage (hkeys : (xs.map key).Nodup) :
    (nextPage key wanted n after xs).Pairwise fun x y => key x < key y :=
  (pairwise_following hkeys).sublist (List.take_sublist n _)

theorem key_le_pageEnd {page : List α} (hpage : page.Pairwise fun x y => key x < key y)
    (hx : x ∈ page) : key x ≤ pageEnd key after page := by
  unfold pageEnd
  have hne : page ≠ [] := List.ne_nil_of_mem hx
  rw [List.getLast?_eq_some_getLast hne]
  simp only [Option.map_some, Option.getD_some]
  have hsplit := List.dropLast_append_getLast hne
  rw [← hsplit] at hx hpage
  rcases List.mem_append.1 hx with hx | hx
  · exact le_of_lt ((List.pairwise_append.1 hpage).2.2 x hx _ (List.mem_singleton_self _))
  · rw [List.mem_singleton.1 hx]

theorem le_pageEnd {page : List α} (hpage : ∀ x ∈ page, after < key x) :
    after ≤ pageEnd key after page := by
  unfold pageEnd
  cases hlast : page.getLast? with
  | none => exact le_rfl
  | some x => exact le_of_lt (hpage x (List.mem_of_getLast? hlast))

/-- A page has every wanted entry up to its end. -/
theorem mem_of_le_pageEnd (hkeys : (xs.map key).Nodup) (hx : x ∈ xs) (hwanted : wanted x)
    (hafter : after < key x)
    (hend : key x ≤ pageEnd key after (nextPage key wanted n after xs)) :
    x ∈ nextPage key wanted n after xs := by
  by_contra hnone
  have hmem : x ∈ following key wanted after xs := mem_following.2 ⟨hx, hwanted, hafter⟩
  have hsorted : (following key wanted after xs).Pairwise fun x y => key x < key y :=
    pairwise_following hkeys
  rw [← List.take_append_drop n (following key wanted after xs)] at hmem hsorted
  have hdrop := (List.mem_append.1 hmem).resolve_left hnone
  have hbefore := (List.pairwise_append.1 hsorted).2.2
  unfold pageEnd at hend
  cases hlast : (nextPage key wanted n after xs).getLast? with
  | none =>
    simp only [hlast, Option.map_none, Option.getD_none] at hend
    omega
  | some last =>
    simp only [hlast, Option.map_some, Option.getD_some] at hend
    have hless := hbefore last (List.mem_of_getLast? hlast) x hdrop
    omega

end Page

/-- The wanted entries after the first one, of entries in the order of their keys. -/
theorem filter_after_head {after : ℤ} {xs rest : List α} {x : α}
    (hsorted : xs.Pairwise fun x y => key x < key y)
    (h : xs.filter (fun y => wanted y && after < key y) = x :: rest) :
    xs.filter (fun y => wanted y && key x < key y) = rest := by
  have hx : x ∈ xs.filter fun y => wanted y && after < key y := h ▸ List.mem_cons_self
  have hafter : after < key x := by
    simp only [List.mem_filter, Bool.and_eq_true, decide_eq_true_eq] at hx
    exact hx.2.2
  have hpairwise := hsorted.sublist (List.filter_sublist (p := fun y => wanted y && after < key y))
  rw [h, List.pairwise_cons] at hpairwise
  have hagain : xs.filter (fun y => wanted y && key x < key y) =
      (x :: rest).filter (fun y => key x < key y) := by
    rw [← h, List.filter_filter]
    refine List.filter_congr fun y _ => ?_
    by_cases hy : key x < key y
    · simp [hy, hafter.trans hy]
    · simp [hy]
  rw [hagain, List.filter_cons_of_neg (by simp)]
  exact List.filter_eq_self.2 fun y hy => by simpa using hpairwise.1 y hy

/-- Integers in strict order that span their number are all the integers in between. -/
theorem mem_of_consecutive {ks : List ℤ} (hks : ks.Pairwise (· < ·)) {first last : ℤ}
    (hrange : ∀ k ∈ ks, first ≤ k ∧ k ≤ last) (hlength : last - first + 1 = ks.length) {k : ℤ}
    (hfirst : first ≤ k) (hlast : k ≤ last) : k ∈ ks := by
  have hnodup : ks.Nodup := hks.imp ne_of_lt
  have hsubset : ks.toFinset ⊆ Finset.Icc first last := by
    intro k hk
    exact Finset.mem_Icc.2 (hrange k (List.mem_toFinset.1 hk))
  have hcard : (Finset.Icc first last).card ≤ ks.toFinset.card := by
    rw [List.toFinset_card_of_nodup hnodup, Int.card_Icc]
    omega
  have heq := Finset.eq_of_subset_of_card_le hsubset hcard
  rw [← List.mem_toFinset, heq, Finset.mem_Icc]
  exact ⟨hfirst, hlast⟩

end EventSourcery.Paging
