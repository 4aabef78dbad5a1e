import EventSourcery.Dto
import EventSourcery.Texts

/-!
# The constructor of stream ids

A stream id is made from a uuid, from a name, from the hex digits of a uuid, or from
nothing, and checks the name that it is given against its uuid. An empty name makes a
uuid when no other is given, and is not checked.
-/
namespace EventSourcery.StreamId
open Texts

inductive Refusal where
  | incompatibleUuidAndName (uuid expected : Uuid) (name : String)
  | valueError
  deriving DecidableEq

/-- The arguments of `StreamId(...)`. -/
structure Arguments where
  uuid : Option Uuid := none
  name : Option String := none
  fromHex : Option String := none
  category : Option String := none

/-- `uuid5` is the library's, in the namespace of the class, and `drawn` what `uuid4()` draws. -/
def uuidFrom (uuid5 : String → Uuid) (drawn : Uuid) (args : Arguments) : Except Refusal Uuid :=
  match args.uuid, args.name, args.fromHex with
  | some uuid, _, _ => .ok uuid
  | none, some name, _ => .ok (uuid5 name)
  | none, none, some hex => (uuidOfHex hex).elim (.error .valueError) .ok
  | none, none, none => .ok drawn

/-- `StreamUUID.__post_init__` -/
def construct (uuid5 : String → Uuid) (drawn : Uuid) (args : Arguments) : Except Refusal StreamId :=
  (uuidFrom uuid5 drawn args).bind fun uuid =>
    match args.name.filter (· ≠ "") with
    | none => .ok { uuid, name := args.name, category := args.category }
    | some name =>
        if uuid5 name = uuid then .ok { uuid, name := args.name, category := args.category }
        else .error (.incompatibleUuidAndName uuid (uuid5 name) name)

/-- The uuid is the one that the name makes, if there is a name. -/
def Accepted (uuid5 : String → Uuid) (streamId : StreamId) : Prop :=
  ∀ name ∈ streamId.truthyName, uuid5 name = streamId.uuid

instance (uuid5 : String → Uuid) (streamId : StreamId) : Decidable (Accepted uuid5 streamId) :=
  inferInstanceAs (Decidable (∀ name ∈ streamId.truthyName, _))

theorem construct_given {uuid5 : String → Uuid} {drawn : Uuid} {streamId : StreamId}
    (h : streamId.Accepted uuid5) : construct uuid5 drawn
      { uuid := some streamId.uuid, name := streamId.name, category := streamId.category } =
        .ok streamId := by
  simp only [construct, uuidFrom, Except.bind]
  cases hname : streamId.name.filter (· ≠ "") with
  | none => rfl
  | some name => exact if_pos (h name hname)

/-- What is accepted is what the constructor makes. -/
theorem accepted_iff {uuid5 : String → Uuid} {streamId : StreamId} :
    streamId.Accepted uuid5 ↔ ∃ drawn args, construct uuid5 drawn args = .ok streamId := by
  constructor
  · exact fun h => ⟨0, _, construct_given h⟩
  · rintro ⟨drawn, args, h⟩ name hname
    obtain ⟨uuid, -, h⟩ := bind_eq_ok.1 h
    split at h
    · rename_i hnone
      cases h
      rw [truthyName, hnone] at hname
      cases hname
    · rename_i name' hsome
      split at h
      · rename_i huuid
        cases h
        rw [truthyName, hsome] at hname
        cases hname
        exact huuid
      · cases h

end EventSourcery.StreamId
