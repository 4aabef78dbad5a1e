import EventSourcery.Replay

/-!
# Consecutive numbers

The elements of a list are numbered one by one from a first number on, and a range of numbers
selects some of them. Two numberings of a list select the same elements only if they are the
same, or if the range has all numbers of both, or none.
-/
namespace EventSourcery.ConsecutiveNumbers
open Replay (InRange)

variable {α β : Type*} {number : α → Option ℤ} {n : ℤ} {x : α} {xs ys : List α}

/-- The elements have consecutive numbers from `n` on. -/
def Consecutive (number : α → Option ℤ) : ℤ → List α → Prop
  | _, [] => True
  | n, x :: xs => number x = some n ∧ Consecutive number (n + 1) xs

theorem Consecutive.append (h : Consecutive number n xs)
    (h' : Consecutive number (n + xs.length) ys) : Consecutive number n (xs ++ ys) := by
  induction xs generalizing n with
  | nil => simpa using h'
  | cons x xs ih =>
    refine ⟨h.1, ih h.2 ?_⟩
    have hlength : n + 1 + xs.length = n + (x :: xs).length := by
      rw [List.length_cons]
      omega
    rwa [hlength]

/-- Only the numbers matter. -/
theorem Consecutive.of_map {number' : β → Option ℤ} {zs : List β}
    (h : Consecutive number n xs) (hmap : zs.map number' = xs.map number) :
    Consecutive number' n zs := by
  induction xs generalizing n zs with
  | nil =>
    rw [List.map_eq_nil_iff.1 hmap]
    trivial
  | cons x xs ih =>
    cases zs with
    | nil => cases hmap
    | cons z zs =>
      obtain ⟨hz, hzs⟩ := List.cons.inj hmap
      exact ⟨hz.trans h.1, ih h.2 hzs⟩

/-- An element stands where its number says. -/
theorem Consecutive.exists_of_mem (h : Consecutive number n xs) (hx : x ∈ xs) :
    ∃ i : ℕ, xs[i]? = some x ∧ number x = some (n + i) := by
  induction xs generalizing n with
  | nil => cases hx
  | cons y xs ih =>
    rcases List.mem_cons.1 hx with rfl | hx
    · exact ⟨0, rfl, by rw [h.1, Int.natCast_zero, Int.add_zero]⟩
    · obtain ⟨i, hi, hnumber⟩ := ih h.2 hx
      refine ⟨i + 1, hi, hnumber.trans (congrArg some ?_)⟩
      omega

theorem Consecutive.nodup (h : Consecutive number n xs) : xs.Nodup := by
  induction xs generalizing n with
  | nil => exact List.nodup_nil
  | cons x xs ih =>
    refine List.nodup_cons.2 ⟨fun hx => ?_, ih h.2⟩
    obtain ⟨i, -, hnumber⟩ := h.2.exists_of_mem hx
    have hsame : n + 1 + i = n := Option.some.inj (hnumber.symm.trans h.1)
    omega

theorem Consecutive.pairwise_lt (h : Consecutive number n xs) :
    xs.Pairwise fun x y => (number x).getD 0 < (number y).getD 0 := by
  induction xs generalizing n with
  | nil => exact List.Pairwise.nil
  | cons x xs ih =>
    refine List.pairwise_cons.2 ⟨fun y hy => ?_, ih h.2⟩
    obtain ⟨i, -, hnumber⟩ := h.2.exists_of_mem hy
    rw [h.1, hnumber, Option.getD_some, Option.getD_some]
    omega

/-- The last number. -/
theorem Consecutive.getLast? (h : Consecutive number n (x :: xs)) :
    (x :: xs).getLast?.bind number = some (n + xs.length) := by
  induction xs generalizing n x with
  | nil => simpa using h.1
  | cons y xs ih =>
    have hrest := ih h.2
    rw [List.getLast?_cons_cons, hrest, Option.some.injEq, List.length_cons]
    omega

section Selection
variable (start stop : Option ℤ)

/-- The elements whose numbers are in the range, when the first one has the number `n`. -/
def selectFrom : ℤ → List α → List α
  | _, [] => []
  | n, x :: xs =>
      if InRange start stop n then x :: selectFrom (n + 1) xs else selectFrom (n + 1) xs

theorem mem_of_mem_selectFrom (h : x ∈ selectFrom start stop n xs) : x ∈ xs := by
  induction xs generalizing n with
  | nil => cases h
  | cons y xs ih =>
    rw [selectFrom] at h
    split at h
    · rcases List.mem_cons.1 h with rfl | h
      · exact List.mem_cons_self
      · exact List.mem_cons_of_mem _ (ih h)
    · exact List.mem_cons_of_mem _ (ih h)

theorem Consecutive.filter_eq (h : Consecutive number n xs) :
    xs.filter (fun x => (number x).any fun m => InRange start stop m) =
      selectFrom start stop n xs := by
  induction xs generalizing n with
  | nil => rfl
  | cons x xs ih =>
    rw [List.filter_cons, h.1, ih h.2, selectFrom]
    simp

/-- A range selects what is between its bounds. -/
theorem selectFrom_eq (n : ℤ) (xs : List α) :
    selectFrom start stop n xs =
      (xs.take (stop.elim xs.length fun b => (b - n).toNat)).drop
        (start.elim 0 fun a => (a - n).toNat) := by
  induction xs generalizing n with
  | nil => simp [selectFrom]
  | cons x xs ih =>
    rw [selectFrom, ih]
    generalize hhi : (stop.elim (x :: xs).length fun b => (b - n).toNat) = hi
    generalize hlo : (start.elim 0 fun a => (a - n).toNat) = lo
    have hhi' : (stop.elim xs.length fun b => (b - (n + 1)).toNat) = hi - 1 := by
      cases stop <;> simp at hhi ⊢ <;> omega
    have hlo' : (start.elim 0 fun a => (a - (n + 1)).toNat) = lo - 1 := by
      cases start <;> simp at hlo ⊢ <;> omega
    have hin : InRange start stop n ↔ lo = 0 ∧ 0 < hi := by
      cases start <;> cases stop <;> simp [InRange] at hlo hhi ⊢ <;> omega
    simp only [hhi', hlo', hin]
    by_cases hzero : lo = 0
    · cases hi <;> simp [hzero]
    · obtain ⟨lo, rfl⟩ := Nat.exists_eq_succ_of_ne_zero hzero
      cases hi <;> simp

/-- The first elements from a number on are those of a range. -/
theorem Consecutive.take_filter (h : Consecutive number n xs) {m : ℤ} (hm : n ≤ m) (count : ℕ) :
    (xs.filter fun x => (number x).any (m ≤ ·)).take count =
      xs.filter fun x => (number x).any fun k => InRange (some m) (some (m + count)) k := by
  have hfrom : (xs.filter fun x => (number x).any (m ≤ ·)) =
      xs.filter fun x => (number x).any fun k => InRange (some m) none k := by
    simp [InRange]
  rw [hfrom, h.filter_eq, h.filter_eq, selectFrom_eq, selectFrom_eq]
  simp only [Option.elim_none, Option.elim_some, List.take_length]
  rw [List.drop_take]
  congr 1
  omega

theorem selectFrom_none (n : ℤ) (xs : List α) : selectFrom none none n xs = xs := by
  simp [selectFrom_eq]

/-- Two numberings select the same if the range has the same places of both. -/
theorem selectFrom_eq_iff (hnodup : xs.Nodup) (m n : ℤ) :
    selectFrom start stop m xs = selectFrom start stop n xs ↔
      ∀ i < xs.length, InRange start stop (m + i) ↔ InRange start stop (n + i) := by
  induction xs generalizing m n with
  | nil => simp [selectFrom]
  | cons x xs ih =>
    obtain ⟨hx, hnodup⟩ := List.nodup_cons.1 hnodup
    have hshift : ∀ (k : ℤ) (i : ℕ), k + ((i + 1 : ℕ) : ℤ) = k + 1 + i := fun k i => by
      push_cast
      omega
    have hrest := ih hnodup (m + 1) (n + 1)
    rw [List.length_cons, Nat.forall_lt_succ_left, selectFrom, selectFrom]
    simp only [hshift, ← hrest, Int.natCast_zero, Int.add_zero]
    by_cases hm : InRange start stop m <;> by_cases hn : InRange start stop n
    · simp [hm, hn]
    · have hne : x :: selectFrom start stop (m + 1) xs ≠ selectFrom start stop (n + 1) xs :=
        fun heq => hx (mem_of_mem_selectFrom start stop (heq ▸ List.mem_cons_self))
      simp [hm, hn, hne]
    · have hne : selectFrom start stop (m + 1) xs ≠ x :: selectFrom start stop (n + 1) xs :=
        fun heq => hx (mem_of_mem_selectFrom start stop (heq ▸ List.mem_cons_self))
      simp [hm, hn, hne]
    · simp [hm, hn]

end Selection

section Places
variable {start stop : Option ℤ} {m : ℤ} {count : ℕ}

theorem inRange_between {a b c : ℤ} (ha : InRange start stop a) (hc : InRange start stop c)
    (hab : a ≤ b) (hbc : b ≤ c) : InRange start stop b :=
  ⟨fun s hs => (ha.1 s hs).trans hab, fun t ht => hbc.trans_lt (hc.2 t ht)⟩

/-- The range has the same places of both numberings: they are the same, or it has all places
or none. -/
def Agree (start stop : Option ℤ) (m n : ℤ) (count : ℕ) : Prop :=
  m = n ∨ (∀ i < count, InRange start stop (m + i) ∧ InRange start stop (n + i)) ∨
    ∀ i < count, ¬ InRange start stop (m + i) ∧ ¬ InRange start stop (n + i)

/-- A place that is in the range in different numberings has its neighbours there too. -/
theorem inRange_neighbour (hmn : m ≠ n) {i j : ℕ} (hij : j = i + 1 ∨ i = j + 1)
    (hsame : InRange start stop (m + j) ↔ InRange start stop (n + j))
    (hm : InRange start stop (m + i)) (hn : InRange start stop (n + i)) :
    InRange start stop (m + j) := by
  -- one of the two numbers of the neighbour lies between those of the place
  rcases lt_or_gt_of_ne hmn with hlt | hgt <;> rcases hij with rfl | rfl
  · exact inRange_between hm hn (by omega) (by omega)
  · exact hsame.2 (inRange_between hm hn (by omega) (by omega))
  · exact hsame.2 (inRange_between hn hm (by omega) (by omega))
  · exact inRange_between hn hm (by omega) (by omega)

/-- If one place is in the range in different numberings, all places are. -/
theorem inRange_of_place (hmn : m ≠ n)
    (hsame : ∀ i < count, InRange start stop (m + i) ↔ InRange start stop (n + i)) {i : ℕ}
    (hi : i < count) (hin : InRange start stop (m + i)) {j : ℕ} (hj : j < count) :
    InRange start stop (m + j) := by
  have hup : ∀ k, i ≤ k → k < count → InRange start stop (m + k) := by
    intro k hik
    induction k, hik using Nat.le_induction with
    | base => exact fun _ => hin
    | succ k hik ih =>
      intro hk
      have hbefore := ih (by omega)
      exact inRange_neighbour hmn (.inl rfl) (hsame _ hk) hbefore
        ((hsame k (by omega)).1 hbefore)
  have hdown : ∀ k, InRange start stop (m + (i - k : ℕ)) := by
    intro k
    induction k with
    | zero => exact hin
    | succ k ih =>
      rcases Nat.eq_zero_or_pos (i - k) with hzero | hpos
      · rwa [show i - (k + 1) = i - k by omega]
      · exact inRange_neighbour hmn (.inr (by omega)) (hsame _ (by omega)) ih
          ((hsame _ (by omega)).1 ih)
  rcases le_total i j with hij | hji
  · exact hup j hij hj
  · have hplace := hdown (i - j)
    rwa [show i - (i - j) = j by omega] at hplace

theorem agree_iff : Agree start stop m n count ↔
    ∀ i < count, InRange start stop (m + i) ↔ InRange start stop (n + i) := by
  constructor
  · rintro (rfl | hall | hnone) i hi
    · exact Iff.rfl
    · exact iff_of_true (hall i hi).1 (hall i hi).2
    · exact iff_of_false (hnone i hi).1 (hnone i hi).2
  · intro hsame
    by_cases hmn : m = n
    · exact .inl hmn
    by_cases hsome : ∃ i < count, InRange start stop (m + i)
    · obtain ⟨i, hi, hin⟩ := hsome
      refine .inr (.inl fun j hj => ?_)
      have hplace := inRange_of_place hmn hsame hi hin hj
      exact ⟨hplace, (hsame j hj).1 hplace⟩
    · refine .inr (.inr fun i hi => ?_)
      have hm : ¬ InRange start stop (m + i) := fun hin => hsome ⟨i, hi, hin⟩
      exact ⟨hm, fun hn => hm ((hsame i hi).2 hn)⟩

end Places

end EventSourcery.ConsecutiveNumbers
