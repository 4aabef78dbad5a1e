import EventSourcery.Paging

/-!
# Following a log by pages

A log gets new entries with larger keys at its end, and may lose entries anywhere. A reader
begins at a key and goes on from the key of the last entry that it got. It reads the wanted
entries that are added after it began in the order in which they are added, each once, and misses
only those that the log lost before it came to them. Nothing here depends on what the entries are.
-/
namespace EventSourcery.PagedLogs
open Paging

variable {α : Type*} (key : α → ℤ) (wanted : α → Bool)

/-- A page of images is the page of what they are images of. -/
theorem map_nextPage {β : Type*} (f : β → α) (n : ℕ) (after : ℤ) (xs : List β) :
    (nextPage (key ∘ f) (wanted ∘ f) n after xs).map f =
      nextPage key wanted n after (xs.map f) := by
  unfold nextPage following
  rw [List.map_take, List.filter_map]
  exact congrArg _ (List.map_insertionSort _ _ f _ fun _ _ _ _ => Iff.rfl)

theorem pageEnd_map {β : Type*} (f : β → α) (after : ℤ) (page : List β) :
    pageEnd key after (page.map f) = pageEnd (key ∘ f) after page := by
  simp [pageEnd, List.getLast?_map]

/-- What a log holds and what was added to it since a reader began, what the reader has read and
where it is. All keys so far are below a bound, which the keys of later entries are not. -/
structure Follows (start bound : ℤ) (held added read : List α) (cursor : ℤ) : Prop where
  held_increasing : held.Pairwise fun x y => key x < key y
  added_increasing : added.Pairwise fun x y => key x < key y
  read_increasing : read.Pairwise fun x y => key x < key y
  held_below : ∀ x ∈ held, key x < bound
  added_within : ∀ x ∈ added, start < key x ∧ key x < bound
  held_added : ∀ x ∈ held, start < key x → x ∈ added
  start_le : start ≤ cursor
  cursor_lt : cursor < bound
  read_added : ∀ x ∈ read, x ∈ added ∧ wanted x ∧ key x ≤ cursor
  passed : ∀ x ∈ held, wanted x → start < key x → key x ≤ cursor → x ∈ read

local instance irrefl_key : Std.Irrefl fun x y : α => key x < key y := ⟨fun x => lt_irrefl (key x)⟩

local instance antisymm_key : Std.Antisymm fun x y : α => key x < key y :=
  ⟨fun _ _ hxy hyx => absurd hxy (lt_asymm hyx)⟩

variable {key wanted} {start bound bound' cursor : ℤ} {held added read new : List α} {n : ℕ}

theorem follows_start (hheld : held.Pairwise fun x y => key x < key y)
    (hle : ∀ x ∈ held, key x ≤ start) (hbound : start < bound) :
    Follows key wanted start bound held [] [] start where
  held_increasing := hheld
  added_increasing := .nil
  read_increasing := .nil
  held_below := fun x hx => lt_of_le_of_lt (hle x hx) hbound
  added_within := by simp
  held_added := fun x hx hlt => absurd hlt (not_lt.2 (hle x hx))
  start_le := le_rfl
  cursor_lt := hbound
  read_added := by simp
  passed := fun x hx _ hlt => absurd hlt (not_lt.2 (hle x hx))

namespace Follows
variable (h : Follows key wanted start bound held added read cursor)
include h

/-- The log gets new entries. -/
theorem grow (hnew : new.Pairwise fun x y => key x < key y)
    (hrange : ∀ x ∈ new, bound ≤ key x ∧ key x < bound') (hbound : bound ≤ bound') :
    Follows key wanted start bound' (held ++ new) (added ++ new) read cursor where
  held_increasing := List.pairwise_append.2
    ⟨h.held_increasing, hnew, fun x hx y hy => lt_of_lt_of_le (h.held_below x hx) (hrange y hy).1⟩
  added_increasing := List.pairwise_append.2
    ⟨h.added_increasing, hnew,
      fun x hx y hy => lt_of_lt_of_le (h.added_within x hx).2 (hrange y hy).1⟩
  read_increasing := h.read_increasing
  held_below := by
    intro x hx
    rcases List.mem_append.1 hx with hx | hx
    · exact lt_of_lt_of_le (h.held_below x hx) hbound
    · exact (hrange x hx).2
  added_within := by
    intro x hx
    rcases List.mem_append.1 hx with hx | hx
    · exact ⟨(h.added_within x hx).1, lt_of_lt_of_le (h.added_within x hx).2 hbound⟩
    · have hstart := lt_of_le_of_lt h.start_le h.cursor_lt
      exact ⟨lt_of_lt_of_le hstart (hrange x hx).1, (hrange x hx).2⟩
  held_added := by
    intro x hx hlt
    rcases List.mem_append.1 hx with hx | hx
    · exact List.mem_append_left _ (h.held_added x hx hlt)
    · exact List.mem_append_right _ hx
  start_le := h.start_le
  cursor_lt := lt_of_lt_of_le h.cursor_lt hbound
  read_added := fun x hx =>
    ⟨List.mem_append_left _ (h.read_added x hx).1, (h.read_added x hx).2⟩
  passed := by
    intro x hx hwanted hlt hle
    rcases List.mem_append.1 hx with hx | hx
    · exact h.passed x hx hwanted hlt hle
    · have hcursor := lt_of_lt_of_le h.cursor_lt (hrange x hx).1
      exact absurd hle (not_le.2 hcursor)

/-- The log loses entries. -/
theorem shrink {held' : List α} (hheld : held'.Sublist held) (hbound : bound ≤ bound') :
    Follows key wanted start bound' held' added read cursor where
  held_increasing := h.held_increasing.sublist hheld
  added_increasing := h.added_increasing
  read_increasing := h.read_increasing
  held_below := fun x hx => lt_of_lt_of_le (h.held_below x (hheld.subset hx)) hbound
  added_within := fun x hx =>
    ⟨(h.added_within x hx).1, lt_of_lt_of_le (h.added_within x hx).2 hbound⟩
  held_added := fun x hx => h.held_added x (hheld.subset hx)
  start_le := h.start_le
  cursor_lt := lt_of_lt_of_le h.cursor_lt hbound
  read_added := h.read_added
  passed := fun x hx => h.passed x (hheld.subset hx)

theorem held_nodup : (held.map key).Nodup :=
  List.pairwise_map.2 (h.held_increasing.imp ne_of_lt)

/-- The reader reads a page. -/
theorem turn (n : ℕ) : Follows key wanted start bound held added
    (read ++ nextPage key wanted n cursor held)
    (pageEnd key cursor (nextPage key wanted n cursor held)) := by
  have hpage : (nextPage key wanted n cursor held).Pairwise fun x y => key x < key y :=
    pairwise_nextPage h.held_nodup
  have hmem : ∀ x ∈ nextPage key wanted n cursor held, x ∈ held ∧ wanted x ∧ cursor < key x :=
    fun x hx => mem_nextPage hx
  have hcursor : cursor ≤ pageEnd key cursor (nextPage key wanted n cursor held) :=
    le_pageEnd fun x hx => (hmem x hx).2.2
  refine ⟨h.held_increasing, h.added_increasing, ?_, h.held_below, h.added_within, h.held_added,
    h.start_le.trans hcursor, ?_, ?_, ?_⟩
  · exact List.pairwise_append.2 ⟨h.read_increasing, hpage, fun x hx y hy =>
      lt_of_le_of_lt (h.read_added x hx).2.2 (hmem y hy).2.2⟩
  · unfold pageEnd
    cases hlast : (nextPage key wanted n cursor held).getLast? with
    | none => exact h.cursor_lt
    | some last => exact h.held_below last (hmem last (List.mem_of_getLast? hlast)).1
  · intro x hx
    rcases List.mem_append.1 hx with hx | hx
    · obtain ⟨hadded, hwanted, hle⟩ := h.read_added x hx
      exact ⟨hadded, hwanted, hle.trans hcursor⟩
    · obtain ⟨hheld, hwanted, hlt⟩ := hmem x hx
      exact ⟨h.held_added x hheld (lt_of_le_of_lt h.start_le hlt), hwanted, key_le_pageEnd hpage hx⟩
  · intro x hx hwanted hlt hle
    by_cases hbefore : key x ≤ cursor
    · exact List.mem_append_left _ (h.passed x hx hwanted hlt hbefore)
    · exact List.mem_append_right _
        (mem_of_le_pageEnd h.held_nodup hx hwanted (not_le.1 hbefore) hle)

/-- What has been read is part of what was to be read, in order. -/
theorem sublist : read.Sublist (added.filter wanted) := by
  have hsubset : read ⊆ added.filter wanted := fun x hx =>
    List.mem_filter.2 ⟨(h.read_added x hx).1, (h.read_added x hx).2.1⟩
  have hadded := h.added_increasing.sublist (List.filter_sublist (p := wanted))
  exact List.sublist_of_subperm_of_pairwise
    (List.subperm_of_subset h.read_increasing.nodup hsubset) h.read_increasing hadded

/-- What was to be read up to the cursor and has not been read is lost. -/
theorem lost {x : α} (hx : x ∈ added) (hwanted : wanted x) (hle : key x ≤ cursor)
    (hunread : x ∉ read) : x ∉ held := fun hheld =>
  hunread (h.passed x hheld hwanted (h.added_within x hx).1 hle)

/-- If nothing is lost, all that was to be read up to the cursor has been read. -/
theorem isPrefix (hkept : added ⊆ held) : read <+: added.filter wanted := by
  have hall := h.added_increasing.sublist (List.filter_sublist (p := wanted))
  have hrest := hall.sublist (List.filter_sublist (p := fun x => cursor < key x))
  have hsplit : (read ++ (added.filter wanted).filter fun x => cursor < key x) =
      added.filter wanted := by
    refine List.Pairwise.eq_of_mem_iff (List.pairwise_append.2 ⟨h.read_increasing, hrest, ?_⟩)
      hall fun x => ?_
    · intro x hx y hy
      have hlater : cursor < key y := by simpa using (List.mem_filter.1 hy).2
      exact lt_of_le_of_lt (h.read_added x hx).2.2 hlater
    · simp only [List.mem_append, List.mem_filter, decide_eq_true_eq]
      constructor
      · rintro (hx | hx)
        · exact ⟨(h.read_added x hx).1, (h.read_added x hx).2.1⟩
        · exact hx.1
      · intro hx
        by_cases hle : key x ≤ cursor
        · exact .inl (h.passed x (hkept hx.1) hx.2 (h.added_within x hx.1).1 hle)
        · exact .inr ⟨hx, not_le.1 hle⟩
  exact ⟨_, hsplit⟩

end Follows

end EventSourcery.PagedLogs
