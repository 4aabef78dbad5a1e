import EventSourcery.KurrentStore

/-!
# Names of KurrentDB streams

`stream.Name`: a stream of a tenant is named by its category, its tenant and the hex digits of
its uuid, with a dash between each two, and its snapshots are in a stream with `-snapshot` behind
that name. No part has a dash in it, so the first two dashes of a name are the ones between the
parts, and the digits tell it from the name of snapshots.
-/
namespace EventSourcery.Kurrent
open Texts

section Splitting
variable {α : Type} [DecidableEq α] {mark : α} {before after : List α}

/-- The two parts of `text.split(mark, 1)`, or nothing where there is only one. -/
def splitFirst (mark : α) : List α → Option (List α × List α)
  | [] => none
  | c :: cs =>
      if c = mark then some ([], cs)
      else (splitFirst mark cs).map fun parts => (c :: parts.1, parts.2)

/-- The two parts of `text.rsplit(mark, 1)`. -/
def splitLast (mark : α) (cs : List α) : Option (List α × List α) :=
  (splitFirst mark cs.reverse).map fun parts => (parts.2.reverse, parts.1.reverse)

theorem splitFirst_append (h : mark ∉ before) (after : List α) :
    splitFirst mark (before ++ mark :: after) = some (before, after) := by
  induction before with
  | nil => simp [splitFirst]
  | cons c cs ih =>
    rw [List.mem_cons, not_or] at h
    simp [splitFirst, Ne.symm h.1, ih h.2]

theorem splitFirst_eq_none {cs : List α} (h : splitFirst mark cs = none) : mark ∉ cs := by
  induction cs with
  | nil => exact List.not_mem_nil
  | cons c cs ih =>
    unfold splitFirst at h
    split at h
    · cases h
    · rename_i hne
      rw [Option.map_eq_none_iff] at h
      exact List.not_mem_cons_of_ne_of_not_mem (Ne.symm hne) (ih h)

/-- The text is its two parts with the first mark between them. -/
theorem splitFirst_eq_some {cs : List α} (h : splitFirst mark cs = some (before, after)) :
    mark ∉ before ∧ cs = before ++ mark :: after := by
  induction cs generalizing before with
  | nil => cases h
  | cons c cs ih =>
    unfold splitFirst at h
    split at h
    · rename_i heq
      cases h
      exact ⟨List.not_mem_nil, by rw [heq, List.nil_append]⟩
    · rename_i hne
      obtain ⟨⟨front, rest⟩, hparts, heq⟩ := Option.map_eq_some_iff.1 h
      cases heq
      obtain ⟨hfront, hcs⟩ := ih hparts
      exact ⟨List.not_mem_cons_of_ne_of_not_mem (Ne.symm hne) hfront, by rw [hcs, List.cons_append]⟩

theorem splitLast_eq_none {cs : List α} (h : splitLast mark cs = none) : mark ∉ cs := by
  have hreverse := splitFirst_eq_none (Option.map_eq_none_iff.1 h)
  rwa [List.mem_reverse] at hreverse

/-- The text is its two parts with the last mark between them. -/
theorem splitLast_eq_some {cs : List α} (h : splitLast mark cs = some (before, after)) :
    mark ∉ after ∧ cs = before ++ mark :: after := by
  obtain ⟨⟨front, rest⟩, hparts, heq⟩ := Option.map_eq_some_iff.1 h
  cases heq
  obtain ⟨hfront, hcs⟩ := splitFirst_eq_some hparts
  refine ⟨by rwa [List.mem_reverse], ?_⟩
  rw [← List.reverse_reverse cs, hcs]
  simp

theorem splitLast_append (before : List α) (h : mark ∉ after) :
    splitLast mark (before ++ mark :: after) = some (before, after) := by
  have hreverse : (before ++ mark :: after).reverse =
      after.reverse ++ mark :: before.reverse := by simp
  rw [splitLast, hreverse, splitFirst_append (by simpa using h)]
  simp

end Splitting

/-- `stream.Name`, which is a string and keeps what it is made of. -/
structure Name where
  tenantId : TenantId
  uuid : StreamId
  text : String
  named : streamName tenantId uuid = .ok text

namespace Name

/-- `Name(tenant_id, stream_id)` -/
def of (tenantId : TenantId) (streamId : StreamId) : Except Error Name :=
  match h : streamName tenantId streamId with
  | .error e => .error e
  | .ok text => .ok ⟨tenantId, streamId, text, h⟩

theorem of_eq_ok {t : TenantId} {streamId : StreamId} {text : String}
    (h : streamName t streamId = .ok text) : of t streamId = .ok ⟨t, streamId, text, h⟩ := by
  unfold of
  split
  · rename_i e he
    rw [h] at he
    cases he
  · rename_i other hother
    rw [h] at hother
    cases hother
    rfl

def snapshot (name : Name) : String := name.text ++ "-snapshot"

/-- The suffix of a stream of snapshots is taken off. -/
def withoutSuffix (cs : List Char) : Except Error (List Char) :=
  if "-snapshot".toList <:+ cs then
    (splitLast '-' cs).elim (.error .valueError) fun parts => .ok parts.1
  else .ok cs

def fromStreamName (text : String) : Except Error Name := do
  let cs ← withoutSuffix text.toList
  let (category, rest) ← (splitFirst '-' cs).elim (.error .valueError) .ok
  let (tenantId, idAsHex) ← (splitFirst '-' rest).elim (.error .valueError) .ok
  let uuid ← (uuidOfHex (String.ofList idAsHex)).elim (.error .valueError) .ok
  of (String.ofList tenantId)
    { uuid, category := if category = [] then none else some (String.ofList category) }

/-- The stream id that a name gives back: the name of the stream is not in it, and an empty
category is none. -/
def reread (name : Name) : StreamId :=
  { uuid := name.uuid.uuid, category := name.uuid.category.filter (· ≠ "") }

/-- What a name tells apart. -/
def triple (name : Name) : TenantId × String × Uuid :=
  (name.tenantId, name.uuid.categoryText, name.uuid.uuid)

section Parts
variable {t : TenantId} {streamId : StreamId} {text : String}

/-- The parts of a name. -/
theorem streamName_parts (h : streamName t streamId = .ok text) :
    '-' ∉ streamId.categoryText.toList ∧ '-' ∉ t.toList ∧
      text.toList = streamId.categoryText.toList ++
        '-' :: (t.toList ++ '-' :: hexText streamId.uuid) := by
  unfold streamName at h
  split at h
  · cases h
  · rename_i htenant
    split at h
    · cases h
    · rename_i hcategory
      cases h
      refine ⟨by simpa using hcategory, by simpa using htenant, ?_⟩
      simp [uuidHex]

theorem categoryText_reread (name : Name) : name.reread.categoryText = name.uuid.categoryText := by
  unfold reread StreamId.categoryText
  cases name.uuid.category with
  | none => rfl
  | some category => by_cases hempty : category = "" <;> simp [Option.filter, hempty]

/-- The name without its stream's name is the same name. -/
theorem named_reread (name : Name) : streamName name.tenantId name.reread = .ok name.text := by
  rw [← name.named]
  unfold streamName
  rw [categoryText_reread]
  rfl

/-- No name ends like a name of snapshots. -/
theorem not_suffix (name : Name) : ¬ "-snapshot".toList <:+ name.text.toList := by
  intro hsuffix
  rw [(streamName_parts name.named).2.2] at hsuffix
  have hhex : hexText name.uuid.uuid <:+ name.uuid.categoryText.toList ++
      '-' :: (name.tenantId.toList ++ '-' :: hexText name.uuid.uuid) :=
    ⟨name.uuid.categoryText.toList ++ '-' :: (name.tenantId.toList ++ ['-']), by simp⟩
  have hinner : "-snapshot".toList <:+ hexText name.uuid.uuid :=
    List.suffix_of_suffix_length_le hsuffix hhex (by simp)
  have hdash : '-' ∈ hexText name.uuid.uuid := hinner.subset (by decide)
  exact hexText_ne_dash _ _ hdash rfl

theorem withoutSuffix_text (name : Name) :
    withoutSuffix name.text.toList = .ok name.text.toList := if_neg name.not_suffix

theorem withoutSuffix_snapshot (name : Name) :
    withoutSuffix name.snapshot.toList = .ok name.text.toList := by
  have hparts : name.snapshot.toList = name.text.toList ++ '-' :: "snapshot".toList := by
    simp [snapshot]
  have hsuffix : "-snapshot".toList <:+ name.snapshot.toList := ⟨name.text.toList, by
    simp [snapshot]⟩
  have hsplit := splitLast_append name.text.toList (show '-' ∉ "snapshot".toList by decide)
  rw [withoutSuffix, if_pos hsuffix, hparts, hsplit]
  rfl

/-- What is read from a name, with or without the suffix. -/
theorem fromStreamName_of {text : String} {name : Name}
    (h : withoutSuffix text.toList = .ok name.text.toList) :
    fromStreamName text = .ok ⟨name.tenantId, name.reread, name.text, name.named_reread⟩ := by
  obtain ⟨hcategory, htenant, hparts⟩ := streamName_parts name.named
  have hid : (StreamId.mk name.uuid.uuid none
      (if name.uuid.categoryText.toList = [] then none else some name.uuid.categoryText)) =
        name.reread := by
    unfold reread StreamId.categoryText
    cases name.uuid.category with
    | none => rfl
    | some category => by_cases hempty : category = "" <;> simp [Option.filter, hempty]
  have huuid : uuidOfHex (String.ofList (hexText name.uuid.uuid)) = some name.uuid.uuid :=
    uuidOfHex_uuidHex _
  unfold fromStreamName
  simp only [h, hparts, splitFirst_append hcategory, splitFirst_append htenant, huuid,
    String.ofList_toList, Option.elim, bind, Except.bind]
  rw [hid]
  exact of_eq_ok name.named_reread

/-- A name is made of what it tells apart. -/
theorem text_eq_iff (n m : Name) : n.text = m.text ↔ n.triple = m.triple := by
  constructor
  · intro h
    have hread := (fromStreamName_of n.withoutSuffix_text).symm.trans
      ((congrArg fromStreamName h).trans (fromStreamName_of m.withoutSuffix_text))
    simp only [Except.ok.injEq, Name.mk.injEq] at hread
    obtain ⟨htenant, hreread, -⟩ := hread
    have huuid := congrArg StreamId.uuid hreread
    change n.uuid.uuid = m.uuid.uuid at huuid
    simp only [triple, ← categoryText_reread, htenant, hreread, huuid]
  · intro h
    simp only [triple, Prod.mk.injEq] at h
    obtain ⟨htenant, hcategory, huuid⟩ := h
    have hname : streamName n.tenantId n.uuid = streamName m.tenantId m.uuid := by
      simp only [streamName, htenant, hcategory, huuid]
    rw [n.named, m.named] at hname
    exact Except.ok.inj hname

theorem snapshot_eq_iff (n m : Name) : n.snapshot = m.snapshot ↔ n.triple = m.triple := by
  rw [← text_eq_iff]
  exact String.append_left_inj _

theorem text_ne_snapshot (n m : Name) : n.text ≠ m.snapshot := by
  intro h
  apply n.not_suffix
  rw [h]
  exact ⟨m.text.toList, by simp [snapshot]⟩

end Parts

/-- The tenant, the uuid and the category of a stream are read back from its name and from the
name of its snapshots. Names are equal only where these are, and no name of a stream is a name
of snapshots. -/
theorem streamNames_decode (n m : Name) :
    (∃ k, fromStreamName n.text = .ok k ∧ k.tenantId = n.tenantId ∧ k.uuid = n.reread) ∧
    (∃ k, fromStreamName n.snapshot = .ok k ∧ k.tenantId = n.tenantId ∧ k.uuid = n.reread) ∧
    (n.text = m.text ↔ n.triple = m.triple) ∧ (n.snapshot = m.snapshot ↔ n.triple = m.triple) ∧
    n.text ≠ m.snapshot := by
  refine ⟨⟨_, fromStreamName_of n.withoutSuffix_text, rfl, rfl⟩,
    ⟨_, fromStreamName_of n.withoutSuffix_snapshot, rfl, rfl⟩, text_eq_iff n m,
    snapshot_eq_iff n m, text_ne_snapshot n m⟩

end Name

end EventSourcery.Kurrent
